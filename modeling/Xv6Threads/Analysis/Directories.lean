/-
# Current directories

A current directory holds a reference to its inode-cache entry, and an open file
of an inode holds another. Processes that share their directory in a pair hold
one reference between them. Path lookups take references for the entries they
pass and recycle entries nobody refers to. This module counts references: as
long as no entry is owed more references than it has, none that is in use is
recycled, and every step keeps the books, except an `exit` that drops the
reference of a pair while the other half is still there.
-/

import Xv6Threads.Analysis.Tables
import Xv6Threads.Kernel.Faults

namespace Xv6Threads

open Lib
open Function (update update_of_ne update_self)

variable {w : Walk} {np : Slot} {flags : BitVec 32} {env : SpawnEnv} {child : Proc}

/-! ## Books of the inode cache -/

/-- How many open files refer to the inode. -/
def inodeUses (ft : Ftable) (j : InodeIdx) : ℕ :=
  ∑ f, if (ft f).kind = .inode j then 1 else 0

/-- One reference more on one entry. Demands count halves, as pairs do. -/
def addRef (demand : InodeIdx → ℕ) (ip : InodeIdx) : InodeIdx → ℕ :=
  Function.update demand ip (demand ip + 2)

/-- The cache can pay for the open files and a further demand, and files that
are not open refer to nothing. -/
structure Balanced (demand : InodeIdx → ℕ) (ft : Ftable) (ic : Icache) : Prop where
  kinds : ∀ f, (ft f).ref = 0 → (ft f).kind = .none
  covers : ∀ j, (demand j + 2 * inodeUses ft j : ℤ) ≤ 2 * (ic j).ref

/-- Entries in demand were not recycled. -/
def GensKept (demand : InodeIdx → ℕ) (ic ic' : Icache) : Prop :=
  ∀ j, 0 < demand j → (ic' j).gen = (ic j).gen

section Books

variable {demand demand' : InodeIdx → ℕ} {ft ft' : Ftable} {ic ic' ic'' : Icache}
variable {ip : InodeIdx} {f : FileIdx}

theorem GensKept.trans (h : GensKept demand ic ic') (h' : GensKept demand ic' ic'') :
    GensKept demand ic ic'' :=
  fun j hj => (h' j hj).trans (h j hj)

theorem addRef_apply (demand : InodeIdx → ℕ) (ip j : InodeIdx) :
    addRef demand ip j = demand j + 2 * if ip = j then 1 else 0 := by
  by_cases hj : ip = j
  · rw [if_pos hj, ← hj, addRef, update_self]
  · rw [if_neg hj, addRef, update_of_ne (Ne.symm hj)]
    rfl

theorem GensKept.of_addRef (h : GensKept (addRef demand ip) ic ic') : GensKept demand ic ic' := by
  intro j hj
  apply h
  rw [addRef_apply]
  omega

theorem addRef_comm (demand : InodeIdx → ℕ) (i j : InodeIdx) :
    addRef (addRef demand i) j = addRef (addRef demand j) i := by
  funext k
  rw [addRef_apply, addRef_apply, addRef_apply, addRef_apply]
  omega

theorem Balanced.mono (h : Balanced demand ft ic) (hle : ∀ j, demand' j ≤ demand j) :
    Balanced demand' ft ic := by
  refine ⟨h.kinds, fun j => ?_⟩
  have := h.covers j
  have := hle j
  omega

theorem ref_idup (ic : Icache) (ip j : InodeIdx) :
    (idup ic ip j).ref = (ic j).ref + if ip = j then 1 else 0 := by
  by_cases hj : ip = j
  · rw [if_pos hj, ← hj, idup, update_self]
  · rw [if_neg hj, idup, update_of_ne (Ne.symm hj), add_zero]

theorem ref_iput (ic : Icache) (ip j : InodeIdx) :
    (iput ic ip j).ref = (ic j).ref - if ip = j then 1 else 0 := by
  by_cases hj : ip = j
  · rw [if_pos hj, ← hj, iput, update_self]
  · rw [if_neg hj, iput, update_of_ne (Ne.symm hj), sub_zero]

theorem Balanced.idup (h : Balanced demand ft ic) (ip : InodeIdx) :
    Balanced (addRef demand ip) ft (idup ic ip) := by
  refine ⟨h.kinds, fun j => ?_⟩
  have hj := h.covers j
  rw [addRef_apply, ref_idup]
  push_cast
  omega

theorem Balanced.iput (h : Balanced (addRef demand ip) ft ic) :
    Balanced demand ft (iput ic ip) := by
  refine ⟨h.kinds, fun j => ?_⟩
  have hj := h.covers j
  rw [addRef_apply] at hj
  rw [ref_iput]
  push_cast at hj
  omega

theorem gen_idup (ic : Icache) (ip j : InodeIdx) : (idup ic ip j).gen = (ic j).gen := by
  by_cases hj : j = ip
  · rw [hj, idup, update_self]
  · rw [idup, update_of_ne hj]

theorem gen_iput (ic : Icache) (ip j : InodeIdx) : (iput ic ip j).gen = (ic j).gen := by
  by_cases hj : j = ip
  · rw [hj, iput, update_self]
  · rw [iput, update_of_ne hj]

/-! ## Lookups -/

theorem igetSlot_some {dev inum : ℕ} (h : igetSlot ic dev inum = some ip) :
    0 < (ic ip).ref ∨ (ic ip).ref = 0 := by
  rw [igetSlot] at h
  split at h
  · rename_i i hfind
    cases h
    have := List.find?_some hfind
    simp only [decide_eq_true_eq] at this
    exact .inl this.1
  · have := List.find?_some h
    exact .inr (by simpa using this)

/-- `iget` takes a reference. An entry it recycles had none, so nothing was in
demand there. -/
theorem Balanced.iget {dev inum : ℕ} (h : Balanced demand ft ic)
    (hget : iget ic dev inum = .ok (ic', ip)) :
    Balanced (addRef demand ip) ft ic' ∧ GensKept demand ic ic' := by
  rw [Xv6Threads.iget] at hget
  split at hget
  · cases hget
  · rename_i i hslot
    split_ifs at hget with hpos
    · obtain ⟨rfl, rfl⟩ := Prod.mk.inj (Except.ok.inj hget)
      exact ⟨h.idup i, fun j _ => gen_idup ic i j⟩
    · obtain ⟨rfl, rfl⟩ := Prod.mk.inj (Except.ok.inj hget)
      have hzero : (ic i).ref = 0 := (igetSlot_some hslot).resolve_left hpos
      have hi := h.covers i
      rw [hzero] at hi
      refine ⟨⟨h.kinds, fun j => ?_⟩, fun j hj => ?_⟩
      · have hj := h.covers j
        rw [addRef_apply]
        by_cases hji : j = i
        · subst hji
          rw [update_self, if_pos rfl]
          push_cast
          omega
        · rw [update_of_ne hji, if_neg (Ne.symm hji)]
          exact hj
      · have hji : j ≠ i := by
          rintro rfl
          omega
        rw [update_of_ne hji]

/-- The demand once a lookup has returned `res`. -/
def withResult (demand : InodeIdx → ℕ) (res : Option InodeIdx) : InodeIdx → ℕ :=
  res.elim demand (addRef demand)

/-- The walk holds one reference at a time, on the entry it has reached. -/
theorem Balanced.namexLoop {comps : List (Option ℕ)} {res : Option InodeIdx}
    (h : Balanced (addRef demand ip) ft ic) (hwalk : namexLoop ic ip comps = .ok (ic', res)) :
    Balanced (withResult demand res) ft ic' ∧ GensKept demand ic ic' := by
  induction comps generalizing ic ip with
  | nil =>
    cases hwalk
    exact ⟨h, fun _ _ => rfl⟩
  | cons comp rest ih =>
    unfold Xv6Threads.namexLoop at hwalk
    split at hwalk
    · cases hwalk
    · split at hwalk
      · cases hwalk
        exact ⟨h.iput, fun j _ => gen_iput ic ip j⟩
      · split at hwalk
        · cases hwalk
        · rename_i ic₁ next hget
          obtain ⟨hnext, hkept⟩ := h.iget hget
          rw [addRef_comm] at hnext
          obtain ⟨hend, hrest⟩ := ih hnext.iput hwalk
          refine ⟨hend, hkept.of_addRef.trans ?_⟩
          exact fun j hj => (hrest j hj).trans (gen_iput ic₁ ip j)

theorem Balanced.namei {cwd : Option InodeIdx} {res : Option InodeIdx} (h : Balanced demand ft ic)
    (hwalk : namei ic cwd w = .ok (ic', res)) :
    Balanced (withResult demand res) ft ic' ∧ GensKept demand ic ic' := by
  unfold Xv6Threads.namei at hwalk
  split_ifs at hwalk
  · split at hwalk
    · cases hwalk
    · rename_i ic₁ root hget
      obtain ⟨hroot, hkept⟩ := h.iget hget
      obtain ⟨hend, hrest⟩ := hroot.namexLoop hwalk
      exact ⟨hend, hkept.trans hrest⟩
  · split at hwalk
    · cases hwalk
    · rename_i start
      obtain ⟨hend, hrest⟩ := (h.idup start).namexLoop hwalk
      exact ⟨hend, fun j hj => (hrest j hj).trans (gen_idup ic start j)⟩

/-! ## Files -/

theorem inodeUses_update (ft : Ftable) (f : FileIdx) (x : File) (j : InodeIdx) :
    inodeUses (update ft f x) j + (if (ft f).kind = .inode j then 1 else 0) =
      inodeUses ft j + if x.kind = .inode j then 1 else 0 := by
  have hsum := sum_change_one (a := f)
    (f := fun i => if (update ft f x i).kind = .inode j then 1 else 0)
    (g := fun i => if (ft i).kind = .inode j then 1 else 0) (by
      intro i hi
      rw [update_of_ne hi])
  simp only [update_self] at hsum
  exact hsum

/-- Replacing a file moves demand between the file and what is owed besides. -/
theorem Balanced.setFile (h : Balanced demand ft ic) {x : File} (hx : x.ref = 0 → x.kind = .none)
    (hmove : ∀ j, demand' j + 2 * (if x.kind = .inode j then 1 else 0) ≤
      demand j + 2 * if (ft f).kind = .inode j then 1 else 0) :
    Balanced demand' (update ft f x) ic := by
  refine ⟨fun g hg => ?_, fun j => ?_⟩
  · by_cases hgf : g = f
    · rw [hgf, update_self] at hg ⊢
      exact hx hg
    · rw [update_of_ne hgf] at hg ⊢
      exact h.kinds g hg
  · have huses := inodeUses_update ft f x j
    have hj := h.covers j
    have := hmove j
    omega

theorem Balanced.setRef (h : Balanced demand ft ic) {n : ℕ} (hn : n ≠ 0) :
    Balanced demand (update ft f { ft f with ref := n }) ic :=
  h.setFile (fun hzero => absurd hzero hn) fun _ => le_rfl

/-- An open file becomes an end of a pipe. -/
theorem Balanced.setPipe (h : Balanced demand ft ic) {x : File} (hkind : x.kind = .pipe)
    (href : x.ref ≠ 0) : Balanced demand (update ft f x) ic := by
  refine h.setFile (fun hzero => absurd hzero href) fun j => ?_
  simp only [hkind, reduceCtorEq, if_false]
  exact Nat.le_add_right _ _

/-- An open file takes over the reference a lookup returned. -/
theorem Balanced.setInode (h : Balanced (addRef demand ip) ft ic) (href : (ft f).ref ≠ 0) :
    Balanced demand (update ft f { ft f with kind := .inode ip }) ic := by
  refine h.setFile (fun hzero => absurd hzero href) fun j => ?_
  simp only [addRef_apply, FileKind.inode.injEq]
  exact Nat.le_add_right _ _

theorem Balanced.filealloc (h : Balanced demand ft ic) (halloc : filealloc ft = some (ft', f)) :
    Balanced demand ft' ic := by
  obtain ⟨-, rfl⟩ := filealloc_some halloc
  exact h.setRef Nat.one_ne_zero

/-- Closing a file gives back the reference it has, if it was the last. -/
theorem Balanced.fileclose (h : Balanced demand ft ic)
    (hclose : fileclose ft ic f = .ok (ft', ic')) :
    Balanced demand ft' ic' ∧ ∀ j, (ic' j).gen = (ic j).gen := by
  rcases fileclose_ok hclose with ⟨hmore, rfl, rfl⟩ | ⟨hlast, rfl, rfl⟩
  · exact ⟨h.setRef (by omega), fun _ => rfl⟩
  · cases hkind : (ft f).kind with
    | inode ip =>
      refine ⟨Balanced.iput (h.setFile (fun _ => rfl) fun j => ?_), fun j => gen_iput ic ip j⟩
      simp [addRef_apply, hkind]
    | none | pipe => exact ⟨h.setFile (fun _ => rfl) fun j => by simp, fun _ => rfl⟩

theorem Balanced.closeFiles {ofile : Fd → Option FileIdx} {fds : List Fd}
    (h : Balanced demand ft ic) (hclose : closeFiles ofile fds ft ic = .ok (ft', ic')) :
    Balanced demand ft' ic' ∧ ∀ j, (ic' j).gen = (ic j).gen := by
  induction fds generalizing ft ic with
  | nil =>
    cases hclose
    exact ⟨h, fun _ => rfl⟩
  | cons fd rest ih =>
    unfold Xv6Threads.closeFiles at hclose
    split at hclose
    · exact ih h hclose
    · split at hclose
      · cases hclose
      · rename_i ft₁ ic₁ hone
        obtain ⟨hbal, hgen⟩ := h.fileclose hone
        obtain ⟨hend, hrest⟩ := ih hbal hclose
        exact ⟨hend, fun j => (hrest j).trans (hgen j)⟩

theorem Balanced.dupFiles {ofile : Fd → Option FileIdx} {fds : List Fd}
    (h : Balanced demand ft ic) (hdup : dupFiles ofile fds ft = .ok ft') :
    Balanced demand ft' ic := by
  induction fds generalizing ft with
  | nil =>
    cases hdup
    exact h
  | cons fd rest ih =>
    unfold Xv6Threads.dupFiles at hdup
    split at hdup
    · exact ih h hdup
    · split at hdup
      · cases hdup
      · rename_i hone
        rw [filedup] at hone
        split_ifs at hone
        cases hone
        exact ih (h.setRef (Nat.succ_ne_zero _)) hdup

theorem Balanced.pipeMade {rf wf : FileIdx} (h : Balanced demand ft ic)
    (hmade : PipeMade ft ft' rf wf) : Balanced demand ft' ic := by
  obtain ⟨ft₁, ft₂, halloc₀, halloc₁, rfl⟩ := hmade.made
  obtain ⟨-, href₀, href₁⟩ := filealloc_two halloc₀ halloc₁
  have hfirst := ((h.filealloc halloc₀).filealloc halloc₁).setPipe (f := rf)
    (x := { ft₂ rf with kind := .pipe }) rfl href₀
  exact hfirst.setPipe (x := { ft₂ wf with kind := .pipe }) rfl href₁

end Books

section Calls

variable {demand : InodeIdx → ℕ} {s s' : Kernel} {p : Slot}

theorem Balanced.lookupDropped {ic : Icache} {ft : Ftable} (h : Balanced demand ft s.icache)
    (hlookup : LookupDropped s p w ic) :
    Balanced demand ft ic ∧ GensKept demand s.icache ic := by
  rcases hlookup with hnone | ⟨ic₀, ip, hsome, rfl⟩
  · exact h.namei hnone
  · obtain ⟨hbal, hkept⟩ := h.namei hsome
    exact ⟨hbal.iput, fun j hj => (gen_iput ic₀ ip j).trans (hkept j hj)⟩

theorem Balanced.pipeEnd {argok page : Bool} (h : Balanced demand s.ftable s.icache)
    (hend : PipeEnd s p argok page s') :
    Balanced demand s'.ftable s'.icache ∧ ∀ j, (s'.icache j).gen = (s.icache j).gen := by
  cases hend with
  | refused => exact ⟨h, fun _ => rfl⟩
  | failed hfail =>
    cases hfail with
    | none => exact ⟨h, fun _ => rfl⟩
    | one halloc hclose => exact (h.filealloc halloc).fileclose hclose
    | two halloc₀ halloc₁ hclose₀ hclose₁ =>
      obtain ⟨hfirst, hgen⟩ := ((h.filealloc halloc₀).filealloc halloc₁).fileclose hclose₀
      obtain ⟨hsecond, hgen'⟩ := hfirst.fileclose hclose₁
      exact ⟨hsecond, fun j => (hgen' j).trans (hgen j)⟩
  | undone hargs hmade hfd hclose₀ hclose₁ =>
    obtain ⟨hfirst, hgen⟩ := (h.pipeMade hmade).fileclose hclose₀
    obtain ⟨hsecond, hgen'⟩ := hfirst.fileclose hclose₁
    exact ⟨hsecond, fun j => (hgen' j).trans (hgen j)⟩
  | done hmade hfd₀ hfd₁ => exact ⟨h.pipeMade hmade, fun _ => rfl⟩

/-- The descriptor calls keep the books, whatever else is owed. -/
theorem Balanced.of_isFile {c : Call} {r : Option ℤ} (h : Balanced demand s.ftable s.icache)
    (hc : c.isFile = true) (hrun : syscall s p c = .ok (s', r)) :
    Balanced demand s'.ftable s'.icache ∧ GensKept demand s.icache s'.icache := by
  cases c with
  | «open» w accept =>
    obtain ⟨m, hopen, -⟩ := returned_eq_ok hrun
    rcases sysOpen_ok hopen with ⟨ic, hlookup, rfl⟩ |
      ⟨ic, ip, ft, f, ft', ic', hnamei, halloc, hclose, rfl⟩ |
      ⟨ic, ip, ft, f, tables, new, hnamei, halloc, hfd, rfl⟩
    · exact h.lookupDropped hlookup
    · obtain ⟨hbal, hkept⟩ := h.namei hnamei
      obtain ⟨hclosed, hgen⟩ := (hbal.filealloc halloc).fileclose hclose
      refine ⟨hclosed.iput, fun j hj => ?_⟩
      exact (gen_iput ic' ip j).trans ((hgen j).trans (hkept j hj))
    · obtain ⟨hbal, hkept⟩ := h.namei hnamei
      have href : (ft f).ref ≠ 0 := by
        obtain ⟨-, rfl⟩ := filealloc_some halloc
        rw [update_self]
        exact Nat.one_ne_zero
      exact ⟨(hbal.filealloc halloc).setInode href, hkept⟩
  | dup fd =>
    obtain ⟨m, hdup, -⟩ := returned_eq_ok hrun
    rcases sysDup_ok hdup with rfl | ⟨old, f, tables, new, ft, -, -, hft, rfl⟩
    · exact ⟨h, fun _ _ => rfl⟩
    · rw [filedup] at hft
      split_ifs at hft
      cases hft
      exact ⟨h.setRef (Nat.succ_ne_zero _), fun _ _ => rfl⟩
  | pipe argok page =>
    obtain ⟨m, hpipe, -⟩ := returned_eq_ok hrun
    obtain ⟨hbal, hgen⟩ := h.pipeEnd (sysPipe_ok hpipe)
    exact ⟨hbal, fun j _ => hgen j⟩
  | close fd =>
    obtain ⟨m, hclose, -⟩ := returned_eq_ok hrun
    rcases sysClose_ok hclose with rfl | ⟨old, f, tables, ft, ic, -, hfile, -, rfl⟩
    · exact ⟨h, fun _ _ => rfl⟩
    · obtain ⟨hbal, hgen⟩ := h.fileclose hfile
      exact ⟨hbal, fun j _ => hgen j⟩
  | _ => cases hc

end Calls

/-! ## The directories of processes -/

def Kernel.cwds (s : Kernel) : Slot → Option InodeIdx := fun q => (s.procs q).cwd

/-- Whether a current directory is the entry `j`. -/
def isAt (j : InodeIdx) (cwd : Option InodeIdx) : ℕ := if cwd = some j then 1 else 0

/-- What current directories need of the cache, a pair counted once. -/
def Kernel.cwdDemand (s : Kernel) : InodeIdx → ℕ :=
  fun j => pairWeight (cwdField.partner s) (isAt j) s.cwds

/-- Directories are shared in pairs, the two of a pair are in the same one,
every living process is somewhere that was not recycled since, and the cache
can pay for all of it. -/
structure DirsOk (s : Kernel) : Prop where
  ok : cwdField.Ok s
  paired : cwdField.Paired s
  agree : Agree (cwdField.partner s) s.cwds
  gone : ∀ q, ¬ (s.procs q).Live → (s.procs q).cwd = none
  present : ∀ q, (s.procs q).Live → ∃ ip, (s.procs q).cwd = some ip ∧
    (s.procs q).cwdGen = (s.icache ip).gen
  balanced : Balanced s.cwdDemand s.ftable s.icache

/-- Sharing the directory is done by processes that share it with nobody yet,
and a process that would drop its reference shares it with nobody when it
exits. -/
def KeepsCwds (s : Kernel) (e : Event) : Prop :=
  cwdField.LinksFresh s e ∧
    match e with
    | .call p .exit => (s.procs p).cloneFs = false → ∀ i, (s.procs p).cwdClone i = none
    | _ => True

instance (s : Kernel) (e : Event) : Decidable (KeepsCwds s e) := by
  refine e.casesOn (motive := fun e => Decidable (KeepsCwds s e)) (fun p c => ?_)
    (fun p => ?_) fun p => ?_
  · apply c.casesOn (motive := fun c => Decidable (KeepsCwds s (.call p c))) <;> intros <;>
      dsimp only [KeepsCwds] <;> infer_instance
  · dsimp only [KeepsCwds]
    infer_instance
  · dsimp only [KeepsCwds]
    infer_instance

section Steps

variable {s s' : Kernel} {e : Event}
variable {p : Slot}

/-- An entry some process is in is in demand. -/
theorem DirsOk.demand_pos (hi : DirsOk s) {q : Slot} {ip : InodeIdx}
    (h : (s.procs q).cwd = some ip) : 0 < s.cwdDemand ip := by
  have hle : 2 * isAt ip (s.cwds q) ≤ s.cwdDemand ip :=
    two_mul_le_pairWeight hi.paired.symmetric (hi.ok.irrefl q) hi.agree
  have hat : isAt ip (s.cwds q) = 1 := if_pos h
  omega

/-- Steps that leave directories alone. -/
theorem DirsOk.of_kept (hi : DirsOk s) (hok : cwdField.Ok s') (hpaired : cwdField.Paired s')
    (hpartner : cwdField.partner s' = cwdField.partner s)
    (hcwd : ∀ q, (s'.procs q).cwd = (s.procs q).cwd)
    (hcwdGen : ∀ q, (s'.procs q).cwdGen = (s.procs q).cwdGen)
    (hlive : ∀ q, (s'.procs q).Live ↔ (s.procs q).Live)
    (hbal : Balanced s.cwdDemand s'.ftable s'.icache)
    (hkept : GensKept s.cwdDemand s.icache s'.icache) : DirsOk s' := by
  have hcwds : s'.cwds = s.cwds := funext hcwd
  refine ⟨hok, hpaired, ?_, ?_, ?_, ?_⟩
  · rw [hpartner, hcwds]
    exact hi.agree
  · intro q hq
    rw [hcwd]
    exact hi.gone q (mt (hlive q).mpr hq)
  · intro q hq
    obtain ⟨ip, hip, hgen⟩ := hi.present q ((hlive q).mp hq)
    refine ⟨ip, (hcwd q).trans hip, ?_⟩
    rw [hcwdGen, hgen, hkept ip (hi.demand_pos hip)]
  · have hdemand : s'.cwdDemand = s.cwdDemand := by
      funext j
      rw [Kernel.cwdDemand, hpartner, hcwds]
      rfl
    rw [hdemand]
    exact hbal

theorem ChildFiles.balanced {demand : InodeIdx → ℕ} {share : Bool} {ft : Ftable} {ic : Icache}
    (h : ChildFiles s p share ft) (hbal : Balanced demand s.ftable ic) :
    Balanced demand ft ic := by
  rcases h with ⟨-, rfl⟩ | ⟨-, hdup⟩
  · exact hbal
  · exact hbal.dupFiles hdup

theorem cwds_spawned (h : Spawned s p np flags env child s') :
    s'.cwds = update s.cwds np (s.cwds p) := by
  funext q
  change (s'.procs q).cwd = _
  by_cases hq : q = np
  · rw [hq, update_self, h.child_eq, h.cwd]
    rfl
  · obtain ⟨_, _, hproc⟩ := h.other_eq hq
    rw [update_of_ne hq, hproc]
    rfl

theorem isAt_none (j : InodeIdx) : isAt j none = 0 := rfl

theorem isAt_some (j ip : InodeIdx) : isAt j (some ip) = if ip = j then 1 else 0 := by
  rw [isAt]
  simp

/-- The parts of a spawn that do not depend on whether the directory is
shared. -/
theorem DirsOk.spawned_present (hi : DirsOk s) (hp : (s.procs p).Live)
    (h : Spawned s p np flags env child s') (hgen : ∀ j, (s'.icache j).gen = (s.icache j).gen)
    (q : Slot) (hq : (s'.procs q).Live) :
    ∃ ip, (s'.procs q).cwd = some ip ∧ (s'.procs q).cwdGen = (s'.icache ip).gen := by
  by_cases hqn : q = np
  · obtain ⟨ip, hip, -⟩ := hi.present p hp
    refine ⟨ip, ?_, ?_⟩
    · rw [hqn, h.child_eq, h.cwd, hip]
    · rw [hqn, h.child_eq, h.cwdGen, hip, Option.elim_some, hgen]
  · obtain ⟨_, _, hproc⟩ := h.other_eq hqn
    obtain ⟨ip, hip, hipgen⟩ := hi.present q (((h.live_iff q).mp hq).resolve_right hqn)
    refine ⟨ip, ?_, ?_⟩
    · rw [hproc, hip]
    · rw [hproc, hipgen, hgen]

theorem DirsOk.spawned (hi : DirsOk s) (hok : cwdField.Ok s') (hpaired : cwdField.Paired s')
    (hp : (s.procs p).Live) (hfresh : flagFs flags = true → cwdField.partner s p = none)
    (h : Spawned s p np flags env child s') : DirsOk s' := by
  have hnp : ¬ (s.procs np).Live := fun hlive => hlive.1 h.free
  have hnone : cwdField.partner s np = none := hi.ok.dead np hnp
  have hempty : s.cwds np = none := hi.gone np hnp
  have hcwds := cwds_spawned h
  have hgone : ∀ q, ¬ (s'.procs q).Live → (s'.procs q).cwd = none := by
    intro q hq
    rw [h.live_iff, not_or] at hq
    obtain ⟨_, _, hproc⟩ := h.other_eq hq.2
    rw [hproc]
    exact hi.gone q hq.1
  rcases h.cwds with ⟨hflag, hic⟩ | ⟨hflag, ip, hip, hic⟩
  · have hpn : p ≠ np := h.ne
    have hpartner := (hi.ok.linked hflag hp h h.live_iff).2
    refine ⟨hok, hpaired, ?_, hgone, hi.spawned_present hp h (by simp [hic]), ?_⟩
    · rw [hpartner, hcwds]
      exact hi.agree.link hi.paired.symmetric (hfresh hflag) hnone
    · have hdemand : s'.cwdDemand = s.cwdDemand := by
        funext j
        rw [Kernel.cwdDemand, hpartner, hcwds]
        exact pairWeight_link s.cwds hpn (hfresh hflag) hnone (by rw [hempty, isAt_none])
      rw [hdemand, hic]
      exact h.files.balanced hi.balanced
  · have hpartner : cwdField.partner s' = cwdField.partner s :=
      PeerField.partner_congr (PeerField.get_of_not_shared hflag h)
    refine ⟨hok, hpaired, ?_, hgone, hi.spawned_present hp h (by simp [hic, gen_idup]), ?_⟩
    · have hset := hi.agree.setPair (p := np) hi.paired.symmetric (s.cwds p)
      rw [setPair_of_none hnone] at hset
      rw [hpartner, hcwds]
      exact hset
    · have hdemand : s'.cwdDemand = addRef s.cwdDemand ip := by
        funext j
        have hweight := pairWeight_setPair (w := isAt j) hi.paired.symmetric (hi.ok.irrefl np)
          hi.agree (s.cwds p)
        have hat : isAt j (s.cwds p) = if ip = j then 1 else 0 :=
          (congrArg (isAt j) hip).trans (isAt_some j ip)
        rw [setPair_of_none hnone, hempty, isAt_none, Nat.mul_zero, Nat.add_zero, hat] at hweight
        rw [addRef_apply, Kernel.cwdDemand, hpartner, hcwds]
        exact hweight
      rw [hdemand, hic]
      exact h.files.balanced (hi.balanced.idup ip)

theorem cwds_exited {st : Slot → ProcState} (h : Exited s p st s') :
    s'.cwds = update s.cwds p none := by
  funext q
  change (s'.procs q).cwd = _
  rw [h.procs]
  by_cases hq : q = p
  · simp [hq]
  · simp [hq, Kernel.cwds]

theorem DirsOk.exited (hi : DirsOk s) {st : Slot → ProcState} (hok : cwdField.Ok s')
    (hpaired : cwdField.Paired s')
    (hgood : (s.procs p).cloneFs = false → cwdField.partner s p = none) (hp : (s.procs p).Live)
    (h : Exited s p st s') : DirsOk s' := by
  have hpartner := (hi.ok.left h h.live_iff).2
  have hcwds := cwds_exited h
  obtain ⟨old, hold, -⟩ := hi.present p hp
  obtain ⟨ic₀, hfiles, hput⟩ := h.tables
  obtain ⟨hbal, hgen₀⟩ : Balanced s.cwdDemand s'.ftable ic₀ ∧
      ∀ j, (ic₀ j).gen = (s.icache j).gen := by
    rcases hfiles with ⟨-, hft, hic⟩ | ⟨-, hclose⟩
    · rw [hft, hic]
      exact ⟨hi.balanced, fun _ => rfl⟩
    · exact hi.balanced.closeFiles hclose
  have hgen : ∀ j, (s'.icache j).gen = (s.icache j).gen := by
    intro j
    rcases hput with ⟨-, hic⟩ | ⟨-, ip, -, hic⟩
    · rw [hic, hgen₀]
    · rw [hic, gen_iput, hgen₀]
  have hat : ∀ j, isAt j (s.cwds p) = if old = j then 1 else 0 := fun j =>
    (congrArg (isAt j) hold).trans (isAt_some j old)
  refine ⟨hok, hpaired, ?_, ?_, ?_, ?_⟩
  · rw [hpartner, hcwds]
    exact hi.agree.unlink hi.paired.symmetric none
  · intro q hq
    have hcell : (s'.procs q).cwd = update s.cwds p none q := congrFun hcwds q
    rw [hcell]
    by_cases hqp : q = p
    · rw [hqp, update_self]
    · rw [update_of_ne hqp]
      exact hi.gone q fun hlive => hq ((h.live_iff q).mpr ⟨hlive, hqp⟩)
  · intro q hq
    obtain ⟨hlive, hqp⟩ := (h.live_iff q).mp hq
    obtain ⟨ip, hip, hipgen⟩ := hi.present q hlive
    have hcell : (s'.procs q).cwd = update s.cwds p none q := congrFun hcwds q
    have hsame : (s'.procs q).cwdGen = (s.procs q).cwdGen := by rw [h.procs]
    refine ⟨ip, ?_, ?_⟩
    · rw [hcell, update_of_ne hqp]
      exact hip
    · rw [hsame, hgen]
      exact hipgen
  · cases hpair : cwdField.partner s p with
    | none =>
      have hdemand : addRef s'.cwdDemand old = s.cwdDemand := by
        funext j
        have hweight := pairWeight_unlink_of_none (w := isAt j) s.cwds hpair
          (isAt_none j)
        rw [addRef_apply, Kernel.cwdDemand, hpartner, hcwds, ← hat]
        exact hweight
      rw [← hdemand] at hbal
      rcases hput with ⟨-, hic⟩ | ⟨-, ip, hip, hic⟩
      · rw [hic]
        exact hbal.mono fun j => by rw [addRef_apply]; omega
      · obtain rfl : old = ip := Option.some.inj (hold.symm.trans hip)
        rw [hic]
        exact hbal.iput
    | some r =>
      have hdemand : s'.cwdDemand = s.cwdDemand := by
        funext j
        rw [Kernel.cwdDemand, hpartner, hcwds]
        exact pairWeight_unlink_of_some hi.paired.symmetric (hi.ok.irrefl p) hi.agree hpair
          (isAt_none j)
      rw [hdemand]
      rcases hput with ⟨-, hic⟩ | ⟨hfs, -⟩
      · rw [hic]
        exact hbal
      · rw [hgood hfs] at hpair
        cases hpair

/-- `chdir` moves the caller's pair. -/
theorem DirsOk.cwds_moved (hi : DirsOk s) (h : Moved s p w s') :
    ∃ ic ip old, namei s.icache (s.procs p).cwd w = .ok (ic, some ip) ∧
      (s.procs p).cwd = some old ∧ s'.icache = iput ic old ∧
      s'.cwds = setPair (cwdField.partner s) p (some ip) s.cwds ∧
      ∀ q, (s'.procs q).cwdGen = (s.procs q).cwdGen ∧ s'.cwds q = s.cwds q ∨
        (s'.procs q).cwdGen = (s'.icache ip).gen ∧ s'.cwds q = some ip := by
  obtain ⟨ic, ip, old, cwds, hnamei, hold, hcwds, hic, hprocs⟩ := h.moved
  have hcell : ∀ q, s'.cwds q = if q = p then some ip else cwds q := by
    intro q
    change (s'.procs q).cwd = _
    rw [hprocs]
  have hself := hi.ok.irrefl p
  have hset : s'.cwds = setPair (cwdField.partner s) p (some ip) s.cwds := by
    funext q
    rw [hcell]
    by_cases hq : q = p
    · rw [if_pos hq, hq, setPair_self]
    · rw [if_neg hq]
      rcases hcwds with ⟨rfl, rfl⟩ | ⟨hne, hpwd⟩
      · -- the directory is the old one: the partner is there already
        by_cases hqp : cwdField.partner s p = some q
        · rw [setPair, if_pos (.inr hqp), ← hold]
          exact (hi.agree p q hqp).symm
        · rw [setPair, if_neg (by simp [hq, hqp])]
          rfl
      · have hmiss : ∀ r, cwdField.partner s p = some r → s.cwds r ≠ some ip := by
          intro r hr
          rw [← hi.agree p r hr]
          change (s.procs p).cwd ≠ some ip
          rw [hold]
          simpa using hne
        obtain ⟨hnone, hsome⟩ :=
          propagate_paired hi.ok.uniform hi.paired.symmetric hself hmiss hpwd
        cases hp : cwdField.partner s p with
        | none =>
          rw [hnone hp, setPair_of_none hp, update_of_ne hq]
        | some r =>
          rw [hsome r hp, update_of_ne hq]
          by_cases hqr : q = r
          · rw [hqr, update_self, setPair, if_pos (.inr hp)]
          · rw [update_of_ne hqr, setPair, if_neg]
            rintro (hqp | hpq)
            · exact hq hqp
            · exact hqr (Option.some.inj (hpq.symm.trans hp))
  refine ⟨ic, ip, old, hnamei, hold, hic, hset, ?_⟩
  intro q
  by_cases hchanged : q = p ∨ cwds q ≠ (s.procs q).cwd
  · right
    refine ⟨?_, ?_⟩
    · rw [hprocs, hic]
      exact if_pos hchanged
    · rw [hcell]
      by_cases hq : q = p
      · rw [if_pos hq]
      · rw [if_neg hq]
        have hne := hchanged.resolve_left hq
        have hcellq := congrFun hset q
        rw [hcell, if_neg hq, setPair] at hcellq
        by_cases hpq : q = p ∨ cwdField.partner s p = some q
        · rw [hcellq, if_pos hpq]
        · rw [if_neg hpq] at hcellq
          exact absurd hcellq hne
  · left
    rw [not_or, not_not] at hchanged
    refine ⟨?_, ?_⟩
    · rw [hprocs]
      exact if_neg (by rw [not_or, not_not]; exact hchanged)
    · rw [hcell, if_neg hchanged.1]
      exact hchanged.2

theorem DirsOk.moved (hi : DirsOk s) (hok : cwdField.Ok s') (hpaired : cwdField.Paired s')
    (hp : (s.procs p).Live) (h : Moved s p w s') : DirsOk s' := by
  obtain ⟨ic, ip, old, hnamei, hold, hic, hcwds, hgens⟩ := hi.cwds_moved h
  have hlive := h.sameTree.live
  have hpartner : cwdField.partner s' = cwdField.partner s :=
    PeerField.partner_congr h.sameTree.cwdClone
  obtain ⟨hbal, hkept⟩ := hi.balanced.namei hnamei
  have hgen : GensKept s.cwdDemand s.icache s'.icache := by
    intro j hj
    rw [hic, gen_iput, hkept j hj]
  refine ⟨hok, hpaired, ?_, ?_, ?_, ?_⟩
  · rw [hpartner, hcwds]
    exact hi.agree.setPair hi.paired.symmetric _
  · intro q hq
    have hdead : ¬ (s.procs q).Live := mt (hlive q).mpr hq
    have hcell := congrFun hcwds q
    rw [setPair, if_neg] at hcell
    · exact hcell.trans (hi.gone q hdead)
    · rintro (hqp | hpq)
      · exact hdead (hqp ▸ hp)
      · exact hdead (hi.ok.live (hi.paired.symmetric p q hpq))
  · intro q hq
    rcases hgens q with ⟨hsame, hcell⟩ | ⟨hnew, hcell⟩
    · obtain ⟨k, hk, hkgen⟩ := hi.present q ((hlive q).mp hq)
      refine ⟨k, hcell.trans hk, ?_⟩
      rw [hsame, hkgen, hgen k (hi.demand_pos hk)]
    · exact ⟨ip, hcell, hnew⟩
  · have hdemand : addRef s'.cwdDemand old = addRef s.cwdDemand ip := by
      funext j
      have hweight := pairWeight_setPair (w := isAt j) hi.paired.symmetric (hi.ok.irrefl p)
        hi.agree (some ip)
      have hat : isAt j (s.cwds p) = if old = j then 1 else 0 :=
        (congrArg (isAt j) hold).trans (isAt_some j old)
      rw [hat, isAt_some] at hweight
      rw [addRef_apply, addRef_apply, Kernel.cwdDemand, hpartner, hcwds]
      exact hweight
    rw [h.ftable, hic]
    change Balanced (addRef s.cwdDemand ip) s.ftable ic at hbal
    rw [← hdemand] at hbal
    exact hbal.iput

theorem KeepsCwds.exit (h : KeepsCwds s (.call p .exit)) (hfs : (s.procs p).cloneFs = false) :
    cwdField.partner s p = none :=
  h.2 hfs 0

theorem DirsOk.step (hi : DirsOk s) (hpids : PidsOk s) (hgood : KeepsCwds s e)
    (hstep : Step s e s') : DirsOk s' := by
  obtain ⟨hok, hchange⟩ := hi.ok.step hstep
  have hpaired := hi.paired.step hi.ok hpids hgood.1 hchange
  cases step_fs hstep with
  | same h =>
    refine hi.of_kept hok hpaired (PeerField.partner_congr h.cwdClone) h.cwd h.cwdGen h.live ?_ ?_
    · rw [h.ftable, h.icache]
      exact hi.balanced
    · rw [h.icache]
      exact fun _ _ => rfl
  | walked hp h hsame =>
    obtain ⟨hbal, hkept⟩ := hi.balanced.lookupDropped h
    refine hi.of_kept hok hpaired (PeerField.partner_congr hsame.cwdClone) hsame.cwd hsame.cwdGen
      hsame.live ?_ hkept
    rw [hsame.ftable]
    exact hbal
  | spawned hp hc h =>
    refine hi.spawned hok hpaired (live_of_running hp) ?_ h
    intro hflag
    rcases hc with rfl | rfl
    · cases hflag
    · exact hgood.1 hflag h.canClone 0
  | exited hp h => exact hi.exited hok hpaired hgood.exit (live_of_running hp) h
  | filed hp hc hrun =>
    have hshape := fileShape_of_isFile hc hrun
    obtain ⟨hbal, hkept⟩ := hi.balanced.of_isFile hc hrun
    exact hi.of_kept hok hpaired (PeerField.partner_congr hshape.sameTree.cwdClone)
      hshape.cwd_eq hshape.cwdGen_eq hshape.sameTree.live hbal hkept
  | moved hp h => exact hi.moved hok hpaired (live_of_running hp) h

theorem dirsOk_boot : DirsOk boot := by
  have hother : ∀ q, q ≠ 0 → (boot.procs q).cwd = none := by
    intro q hq
    rw [boot_procs_of_ne hq]
  refine ⟨cwdField.ok_boot, PeerField.paired_boot, ?_, ?_, ?_, ⟨fun _ _ => rfl, fun j => ?_⟩⟩
  · intro q r h
    rw [PeerField.partner_boot] at h
    cases h
  · intro q hq
    apply hother
    rintro rfl
    exact hq (by decide)
  · intro q hq
    by_cases h0 : q = 0
    · exact ⟨0, by rw [h0]; rfl, by rw [h0]; rfl⟩
    · rw [boot_procs_of_ne h0] at hq
      exact absurd rfl hq.1
  · have hdemand : boot.cwdDemand j = 2 * isAt j (some 0) := by
      have hsum := Finset.sum_eq_single (s := Finset.univ)
        (f := fun q => share (cwdField.partner boot) q * isAt j (boot.cwds q)) (0 : Slot)
        (by
          intro q _ hq
          have : boot.cwds q = none := hother q hq
          rw [this, isAt_none, Nat.mul_zero]) (by simp)
      rw [share_of_none (PeerField.partner_boot 0)] at hsum
      exact hsum
    have huses : inodeUses boot.ftable j = 0 := by
      rw [inodeUses]
      exact Finset.sum_eq_zero fun f _ => if_neg (by simp [boot])
    rw [hdemand, huses, isAt_some]
    by_cases hj : j = 0
    · subst hj
      decide
    · rw [if_neg (Ne.symm hj)]
      simp [boot, update_of_ne hj]

end Steps

/-- Every living process is in a directory that has a reference and was not
recycled since the process went there, and a living thread cloned with
`CLONE_FS` is where the living process is that cloned it. -/
theorem directories_of_keeps_cwds {s : Kernel} (h : ReachableBy Step KeepsCwds boot s) :
    (∀ q, (s.procs q).Live → ∃ ip, (s.procs q).cwd = some ip ∧ 1 ≤ (s.icache ip).ref ∧
      (s.icache ip).gen = (s.procs q).cwdGen) ∧
    ∀ x ∈ s.clones, flagFs x.flags = true → ∀ p t, (s.procs p).Live → (s.procs t).Live →
      (s.procs p).pid = x.creator → (s.procs t).pid = x.child →
      (s.procs p).cwd = (s.procs t).cwd := by
  have hi : DirsOk s := h.invariant dirsOk_boot fun _ _ _ hreach hi hgood hstep =>
    hi.step (pidsOk_of_reachable hreach.reachable) hgood hstep
  refine ⟨?_, ?_⟩
  · intro q hq
    obtain ⟨ip, hip, hgen⟩ := hi.present q hq
    refine ⟨ip, hip, ?_, hgen.symm⟩
    have hpos := hi.demand_pos hip
    have hcover := hi.balanced.covers ip
    omega
  · intro x hx hflag p t hp ht hcreator hchild
    exact hi.agree p t (hi.paired.related x hx hflag p t hp ht hcreator hchild)

/-- The process `1` clones the thread `2` with its directory shared and changes
the directory; the thread exits first. -/
theorem directories_of_keeps_cwds_thread_first :
    ∃ s, ReachableBy Step KeepsCwds boot s ∧
      ((s.procs 1).Live ∧ (s.procs 2).state = .zombie ∧ (s.procs 1).cwd = some 1) ∧
      1 ≤ (s.icache 1).ref := by
  have hrun : ∃ s, ReachableBy Step KeepsCwds boot s ∧
      ((s.procs 1).Live ∧ (s.procs 2).state = .zombie ∧ (s.procs 1).cwd = some 1) :=
    exists_reachableBy
      [.dispatch 0, .call 0 (.fork ⟨true, some 1, 8⟩), .dispatch 1,
        .call 1 (.clone 2 ⟨true, some 2, 8⟩), .call 1 (.chdir ⟨true, [some 7]⟩ true), .dispatch 2,
        .call 2 .exit]
      (by decide +kernel)
  obtain ⟨s, hreach, hend⟩ := hrun
  obtain ⟨ip, hip, href, -⟩ := (directories_of_keeps_cwds hreach).1 1 hend.1
  obtain rfl : 1 = ip := Option.some.inj (hend.2.2.symm.trans hip)
  exact ⟨s, hreach, hend, href⟩

/-- The process `1` clones the thread `2` with its directory shared, changes the
directory and exits first. The thread's directory has no reference, and the
next lookup recycles the entry for another inode. -/
theorem thread_directory_recycled :
    ∃ s, Reachable Step boot s ∧ (s.procs 2).Live ∧ (s.procs 2).cwd = some 1 ∧
      (s.icache 1).ref = 0 ∧
      ((next s (.call 0 (.open ⟨true, [some 9]⟩ true))).any fun s' =>
        decide ((s'.procs 2).cwd = some 1 ∧ (s'.icache 1).gen ≠ (s'.procs 2).cwdGen ∧
          (s.icache 1).inum = 7 ∧ (s'.icache 1).inum = 9)) = true :=
  exists_reachableBy
    [.dispatch 0, .call 0 (.fork ⟨true, some 1, 8⟩), .dispatch 1,
      .call 1 (.clone 2 ⟨true, some 2, 8⟩), .call 1 (.chdir ⟨true, [some 7]⟩ true), .dispatch 2,
      .call 1 .exit]
    (by decide +kernel)

end Xv6Threads
