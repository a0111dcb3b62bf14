/-
# What fork and clone do

Inversion lemmas for the functions that create processes: from the fact that
one returned, the state it returned, in terms of the state it started from.
Later modules reason from these and do not unfold the functions again.
-/

import Xv6Threads.Kernel.Proc

namespace Xv6Threads

open Lib
open Function (update update_apply update_comm update_of_ne update_self)

variable {r : ℤ} {flags : BitVec 32}

namespace Kernel

variable (s : Kernel) (q : Slot) (pr : Proc)

@[simp]
theorem setProc_procs_self : (s.setProc q pr).procs q = pr := update_self ..

theorem setProc_procs_of_ne {r : Slot} (h : r ≠ q) : (s.setProc q pr).procs r = s.procs r :=
  update_of_ne h ..

theorem setProc_procs (r : Slot) :
    (s.setProc q pr).procs r = if r = q then pr else s.procs r :=
  update_apply ..

@[simp]
theorem setProc_setProc (pr' : Proc) : (s.setProc q pr).setProc q pr' = s.setProc q pr' := by
  simp [setProc]

@[simp]
theorem setProc_eq_self : s.setProc q (s.procs q) = s := by
  simp [setProc]

theorem setProc_comm {r : Slot} (h : q ≠ r) (pr' : Proc) :
    (s.setProc q pr).setProc r pr' = (s.setProc r pr').setProc q pr := by
  simp [setProc, update_comm h]

@[simp] theorem setProc_initproc : (s.setProc q pr).initproc = s.initproc := rfl
@[simp] theorem setProc_nextpid : (s.setProc q pr).nextpid = s.nextpid := rfl
@[simp] theorem setProc_ftable : (s.setProc q pr).ftable = s.ftable := rfl
@[simp] theorem setProc_icache : (s.setProc q pr).icache = s.icache := rfl
@[simp] theorem setProc_pgdirs : (s.setProc q pr).pgdirs = s.pgdirs := rfl
@[simp] theorem setProc_ctl : (s.setProc q pr).ctl = s.ctl := rfl
@[simp] theorem setProc_clones : (s.setProc q pr).clones = s.clones := rfl

@[simp] theorem setCtl_procs (c : Ctl) : (s.setCtl q c).procs = s.procs := rfl
@[simp] theorem setCtl_initproc (c : Ctl) : (s.setCtl q c).initproc = s.initproc := rfl
@[simp] theorem setCtl_nextpid (c : Ctl) : (s.setCtl q c).nextpid = s.nextpid := rfl
@[simp] theorem setCtl_ftable (c : Ctl) : (s.setCtl q c).ftable = s.ftable := rfl
@[simp] theorem setCtl_icache (c : Ctl) : (s.setCtl q c).icache = s.icache := rfl
@[simp] theorem setCtl_pgdirs (c : Ctl) : (s.setCtl q c).pgdirs = s.pgdirs := rfl
@[simp] theorem setCtl_clones (c : Ctl) : (s.setCtl q c).clones = s.clones := rfl
@[simp] theorem setCtl_ctl (c : Ctl) : (s.setCtl q c).ctl = update s.ctl q c := rfl

end Kernel

/-! ## Memory -/

theorem addrSpace_ok {s : Kernel} {d : Option PageAddr} {res : PageAddr × AddrSpace}
    (h : s.addrSpace d = .ok res) : d = some res.1 ∧ s.pgdirs res.1 = some res.2 := by
  cases d with
  | none => cases h
  | some d =>
    simp only [Kernel.addrSpace] at h
    cases hmem : s.pgdirs d with
    | none => simp [hmem] at h
    | some mem =>
      simp only [hmem, Except.ok.injEq] at h
      subst h
      exact ⟨rfl, hmem⟩

theorem freevm_ok {pgdirs pgdirs' : PageAddr → Option AddrSpace} {d : Option PageAddr}
    (h : freevm pgdirs d = .ok pgdirs') :
    ∃ d' mem, d = some d' ∧ pgdirs d' = some mem ∧ pgdirs' = update pgdirs d' none := by
  cases d with
  | none => cases h
  | some d =>
    simp only [freevm] at h
    cases hmem : pgdirs d with
    | none => simp [hmem] at h
    | some mem =>
      simp only [hmem, Except.ok.injEq] at h
      exact ⟨d, mem, rfl, hmem, h.symm⟩

/-! ## Spawning -/

theorem allocproc_some {s s' : Kernel} {np : Slot} (h : allocproc s = .ok (some (s', np))) :
    (s.procs np).state = .unused ∧ s.nextpid ≠ INT_MAX ∧
      s' = { s.setProc np { s.procs np with
        isThread := false, state := .embryo, pid := s.nextpid } with
          nextpid := s.nextpid + 1 } := by
  rw [allocproc] at h
  cases hfind : (List.finRange NPROC).find? fun q => decide ((s.procs q).state = .unused) with
  | none => simp [hfind] at h
  | some q =>
    simp only [hfind] at h
    split_ifs at h with hmax
    cases h
    exact ⟨by simpa using List.find?_some hfind, hmax, rfl⟩

/-- The caller's memory, copied into the new directory `d`. -/
def CopiedMemory (s : Kernel) (p : Slot) (env : SpawnEnv) (d : PageAddr) (copy : AddrSpace) :
    Prop :=
  env.pgdir = some d ∧ ∃ d₀ mem, (s.procs p).pgdir = some d₀ ∧ s.pgdirs d₀ = some mem ∧
    copyuvm env.budget mem (s.procs p).sz = .ok (some copy)

/-- The child's memory: the caller's directory, or a copy in a new one. -/
def ChildMemory (s : Kernel) (p : Slot) (share : Bool) (env : SpawnEnv)
    (pgdir : Option PageAddr) (pgdirs : PageAddr → Option AddrSpace) : Prop :=
  (share = true ∧ pgdir = (s.procs p).pgdir ∧ pgdirs = s.pgdirs) ∨
    (share = false ∧ ∃ d copy, CopiedMemory s p env d copy ∧
      pgdir = some d ∧ pgdirs = update s.pgdirs d (some copy))

/-- The open-file table once the child has its descriptors. -/
def ChildFiles (s : Kernel) (p : Slot) (share : Bool) (ft : Ftable) : Prop :=
  (share = true ∧ ft = s.ftable) ∨
    (share = false ∧ dupFiles (s.procs p).ofile (List.finRange NOFILE) s.ftable = .ok ft)

/-- The inode cache once the child has its current directory. -/
def ChildCwd (s : Kernel) (p : Slot) (share : Bool) (ic : Icache) : Prop :=
  (share = true ∧ ic = s.icache) ∨
    (share = false ∧ ∃ ip, (s.procs p).cwd = some ip ∧ ic = idup s.icache ip)

section Filling

-- The slot being filled is kept apart from the rest of the kernel: `s` is what
-- the caller sees, `c` what has been written into `np` so far.
variable {s s' : Kernel} {c : Proc} {p np : Slot} {env : SpawnEnv}

theorem copyMemory_true (hne : p ≠ np)
    (h : copyMemory (s.setProc np c) p np env = .ok (s', true)) :
    ∃ d copy, CopiedMemory s p env d copy ∧
      s' = (s.setMem d copy).setProc np { c with pgdir := some d } := by
  simp only [copyMemory, Kernel.setProc_procs_of_ne _ _ _ hne] at h
  cases hd : env.pgdir with
  | none => simp [hd] at h
  | some d =>
    simp only [hd] at h
    cases hspace : (s.setProc np c).addrSpace (s.procs p).pgdir with
    | error f => simp [hspace] at h
    | ok res =>
      obtain ⟨d₀, mem⟩ := res
      obtain ⟨hd₀, hmem⟩ := addrSpace_ok hspace
      simp only [hspace] at h
      cases hcopy : copyuvm env.budget mem (s.procs p).sz with
      | error f => simp [hcopy] at h
      | ok copied =>
        cases copied with
        | none => simp [hcopy] at h
        | some copy =>
          simp only [hcopy, Kernel.setProc_procs_self, Except.ok.injEq, Prod.mk.injEq,
            and_true] at h
          refine ⟨d, copy, ⟨hd, d₀, mem, hd₀, hmem, hcopy⟩, ?_⟩
          rw [← h, Kernel.setMem, Kernel.setMem]
          simp [Kernel.setProc]

theorem copyMemory_false (h : copyMemory (s.setProc np c) p np env = .ok (s', false)) :
    s' = s.setProc np { c with pgdir := none, kstack := false, state := .unused } := by
  have hfail : releaseSlot ((s.setProc np c).setProc np
      { (s.setProc np c).procs np with pgdir := none }) np =
        s.setProc np { c with pgdir := none, kstack := false, state := .unused } := by
    simp [releaseSlot]
  simp only [copyMemory] at h
  cases hd : env.pgdir with
  | none =>
    simp only [hd, Except.ok.injEq, Prod.mk.injEq, and_true] at h
    rw [← h, hfail]
  | some d =>
    simp only [hd] at h
    cases hspace : (s.setProc np c).addrSpace ((s.setProc np c).procs p).pgdir with
    | error f => simp [hspace] at h
    | ok res =>
      obtain ⟨d₀, mem⟩ := res
      simp only [hspace] at h
      cases hcopy : copyuvm env.budget mem ((s.setProc np c).procs p).sz with
      | error f => simp [hcopy] at h
      | ok copied =>
        cases copied with
        | none =>
          simp only [hcopy, Except.ok.injEq, Prod.mk.injEq, and_true] at h
          rw [← h, hfail]
        | some copy => simp [hcopy] at h

theorem dupOfiles_ok (hne : p ≠ np) (h : dupOfiles (s.setProc np c) p np = .ok s') :
    ∃ ft, dupFiles (s.procs p).ofile (List.finRange NOFILE) s.ftable = .ok ft ∧
      s' = Kernel.setProc { s with ftable := ft } np
        { c with ofile := inheritOfile (s.procs p).ofile c.ofile } := by
  simp only [dupOfiles, Kernel.setProc_procs_of_ne _ _ _ hne, Kernel.setProc_ftable,
    Kernel.setProc_procs_self, Kernel.setProc_setProc] at h
  cases hdup : dupFiles (s.procs p).ofile (List.finRange NOFILE) s.ftable with
  | error f => simp [hdup] at h
  | ok ft =>
    simp only [hdup, Except.ok.injEq] at h
    exact ⟨ft, rfl, h.symm⟩

theorem dupCwd_ok (hne : p ≠ np) (h : dupCwd (s.setProc np c) p np = .ok s') :
    ∃ ip, (s.procs p).cwd = some ip ∧
      s' = Kernel.setProc { s with icache := idup s.icache ip } np
        { c with cwd := some ip, cwdGen := (s.icache ip).gen } := by
  simp only [dupCwd, Kernel.setProc_procs_of_ne _ _ _ hne, Kernel.setProc_icache,
    Kernel.setProc_procs_self, Kernel.setProc_setProc] at h
  cases hcwd : (s.procs p).cwd with
  | none => simp [hcwd] at h
  | some ip =>
    simp only [hcwd, Except.ok.injEq] at h
    exact ⟨ip, rfl, h.symm⟩

theorem cloneMemory_ok (hne : p ≠ np)
    (h : (if flagVm flags then
        .ok ((s.setProc np c).setProc np
          { (s.setProc np c).procs np with pgdir := ((s.setProc np c).procs p).pgdir }, true)
      else copyMemory (s.setProc np c) p np env) = Except.ok (s', true)) :
    ∃ pgdir pgdirs, ChildMemory s p (flagVm flags) env pgdir pgdirs ∧
      s' = Kernel.setProc { s with pgdirs := pgdirs } np { c with pgdir := pgdir } := by
  cases hvm : flagVm flags with
  | true =>
    simp only [hvm, if_true, Kernel.setProc_procs_self, Kernel.setProc_setProc,
      Kernel.setProc_procs_of_ne _ _ _ hne, Except.ok.injEq, Prod.mk.injEq, and_true] at h
    exact ⟨(s.procs p).pgdir, s.pgdirs, .inl ⟨rfl, rfl, rfl⟩, h.symm⟩
  | false =>
    simp only [hvm, Bool.false_eq_true, if_false] at h
    obtain ⟨d, copy, hcopied, rfl⟩ := copyMemory_true hne h
    exact ⟨some d, _, .inr ⟨rfl, d, copy, hcopied, rfl, rfl⟩, rfl⟩

theorem cloneFsPart_ok (hne : p ≠ np) (h : cloneFsPart (s.setProc np c) p np flags = .ok s') :
    ∃ ic, ChildCwd s p (flagFs flags) ic ∧
      s' = (Kernel.setProc { s with icache := ic } p
        { s.procs p with
          cwdClone :=
            if flagFs flags then fillEmpty (s.procs p).cwdClone np
            else (s.procs p).cwdClone }).setProc np
        { c with
          cwd := (s.procs p).cwd
          cwdGen := (s.procs p).cwd.elim 0 fun ip => (s.icache ip).gen
          cwdClone := if flagFs flags then fillEmpty c.cwdClone p else c.cwdClone } := by
  cases hfs : flagFs flags with
  | true =>
    refine ⟨s.icache, .inl ⟨rfl, rfl⟩, ?_⟩
    simp only [cloneFsPart, hfs, if_true, Except.ok.injEq] at h
    rw [← h]
    simp [Kernel.setProc_procs_of_ne _ _ _ hne, Kernel.setProc_comm _ _ _ hne.symm]
  | false =>
    simp only [cloneFsPart, hfs, Bool.false_eq_true, if_false] at h
    obtain ⟨ip, hip, rfl⟩ := dupCwd_ok hne h
    refine ⟨idup s.icache ip, .inr ⟨rfl, ip, hip, rfl⟩, ?_⟩
    have hself : Kernel.setProc { s with icache := idup s.icache ip } p (s.procs p) =
        { s with icache := idup s.icache ip } := by
      simp [Kernel.setProc]
    simp only [Bool.false_eq_true, if_false]
    rw [hself, hip, Option.elim_some]

theorem cloneFilesPart_ok (hne : p ≠ np) (h : cloneFilesPart (s.setProc np c) p np flags = .ok s') :
    ∃ ft, ChildFiles s p (flagFiles flags) ft ∧
      s' = (Kernel.setProc { s with ftable := ft } p
        { s.procs p with
          ofileClone :=
            if flagFiles flags then fillEmpty (s.procs p).ofileClone np
            else (s.procs p).ofileClone }).setProc np
        { c with
          ofile := inheritOfile (s.procs p).ofile c.ofile
          ofileClone := if flagFiles flags then fillEmpty c.ofileClone p else c.ofileClone } := by
  cases hfiles : flagFiles flags with
  | true =>
    refine ⟨s.ftable, .inl ⟨rfl, rfl⟩, ?_⟩
    simp only [cloneFilesPart, hfiles, if_true, Except.ok.injEq] at h
    rw [← h]
    simp [Kernel.setProc_procs_of_ne _ _ _ hne, Kernel.setProc_comm _ _ _ hne.symm]
  | false =>
    simp only [cloneFilesPart, hfiles, Bool.false_eq_true, if_false] at h
    obtain ⟨ft, hft, rfl⟩ := dupOfiles_ok hne h
    refine ⟨ft, .inr ⟨rfl, hft⟩, ?_⟩
    simp [Kernel.setProc]

end Filling

variable {s s' : Kernel} {p np : Slot} {env : SpawnEnv}

/-- The process table once `p` has a child in `np`. Shared files and a shared
current directory show in the arrays of `p`. -/
def Kernel.withChild (s : Kernel) (p np : Slot) (flags : BitVec 32) (child : Proc) :
    Slot → Proc :=
  update (update s.procs p
    { s.procs p with
      cwdClone :=
        if flagFs flags then fillEmpty (s.procs p).cwdClone np else (s.procs p).cwdClone
      ofileClone :=
        if flagFiles flags then fillEmpty (s.procs p).ofileClone np
        else (s.procs p).ofileClone }) np child

theorem Kernel.withChild_zero (s : Kernel) (p np : Slot) (child : Proc) :
    s.withChild p np 0 child = update s.procs np child := by
  simp [withChild, flagFs, flagFiles]

theorem Kernel.withChild_self (s : Kernel) (p np : Slot) (flags : BitVec 32) (child : Proc) :
    s.withChild p np flags child np = child :=
  update_self ..

/-- Every other process keeps everything but, if it is the caller, its arrays. -/
theorem Kernel.withChild_of_ne (s : Kernel) (p np : Slot) (flags : BitVec 32) (child : Proc)
    {q : Slot} (hq : q ≠ np) :
    s.withChild p np flags child q =
      { s.procs q with
        cwdClone :=
          if q = p ∧ flagFs flags then fillEmpty (s.procs q).cwdClone np
          else (s.procs q).cwdClone
        ofileClone :=
          if q = p ∧ flagFiles flags then fillEmpty (s.procs q).ofileClone np
          else (s.procs q).ofileClone } := by
  rw [withChild, update_of_ne hq]
  by_cases hqp : q = p
  · subst hqp
    simp
  · simp [hqp]

/-- What `fork` and `clone` have in common between their critical sections. The
flags of `fork` are 0. -/
structure ChildMade (s : Kernel) (p np : Slot) (flags : BitVec 32) (env : SpawnEnv)
    (child : Proc) (s' : Kernel) : Prop where
  kstack : env.kstack = true
  childStack : child.kstack = true
  memory : ChildMemory s p (flagVm flags) env child.pgdir s'.pgdirs
  files : ChildFiles s p (flagFiles flags) s'.ftable
  cwds : ChildCwd s p (flagFs flags) s'.icache
  chan : child.chan = (s.procs np).chan
  killed : child.killed = (s.procs np).killed
  sz : child.sz = (s.procs p).sz
  ofile : child.ofile = inheritOfile (s.procs p).ofile (s.procs np).ofile
  cwd : child.cwd = (s.procs p).cwd
  cwdGen : child.cwdGen = (s.procs p).cwd.elim 0 fun ip => (s.icache ip).gen
  ofileClone : child.ofileClone =
    if flagFiles flags then fillEmpty (s.procs np).ofileClone p else (s.procs np).ofileClone
  cwdClone : child.cwdClone =
    if flagFs flags then fillEmpty (s.procs np).cwdClone p else (s.procs np).cwdClone
  procs : s'.procs = s.withChild p np flags child
  initproc : s'.initproc = s.initproc
  ctl : s'.ctl = s.ctl

/-- What `fork` alone does. -/
structure ForkMade (s : Kernel) (p : Slot) (newpid : ℤ) (child : Proc) (s' : Kernel) :
    Prop where
  pid : child.pid = newpid
  isThread : child.isThread = false
  tgid : child.tgid = newpid
  parent : child.parent = some p
  clones : s'.clones = s.clones

/-- What `clone` alone does. -/
structure CloneMade (s : Kernel) (p : Slot) (newpid : ℤ) (flags : BitVec 32) (child : Proc)
    (s' : Kernel) : Prop where
  pid : child.pid = newpid
  isThread : child.isThread = true
  tgid : child.tgid = if flagThread flags then (s.procs p).tgid else (s.procs p).pid
  parent : cloneParentOf s p flags = .ok child.parent
  pthread : child.pthread = some p
  clones : s'.clones = ⟨(s.procs p).pid, newpid, flags⟩ :: s.clones

theorem forkBody_true (h : forkBody s p np env = .ok (s', true)) (hne : p ≠ np) :
    ∃ child, ChildMade s p np 0 env child s' ∧ ForkMade s p (s.procs np).pid child s' ∧
      child.state = (s.procs np).state ∧ s'.nextpid = s.nextpid := by
  rw [forkBody] at h
  split_ifs at h with hstack
  · generalize hc₁ : ({ s.procs np with kstack := true } : Proc) = c₁ at h
    split at h
    · cases h
    · cases h
    · rename_i s₂ hmem
      obtain ⟨d, copy, hcopied, rfl⟩ := copyMemory_true hne hmem
      generalize hc₂ : ({ c₁ with pgdir := some d } : Proc) = c₂ at h
      simp only [Kernel.setProc_procs_self, Kernel.setProc_setProc,
        Kernel.setProc_procs_of_ne _ _ _ hne] at h
      generalize hc₃ : ({ c₂ with
        tgid := c₂.pid, isThread := false, sz := ((s.setMem d copy).procs p).sz,
        parent := some p } : Proc) = c₃ at h
      split at h
      · cases h
      · rename_i s₃ hfiles
        obtain ⟨ft, hft, rfl⟩ := dupOfiles_ok hne hfiles
        split at h
        · cases h
        · rename_i s₄ hcwd
          obtain ⟨ip, hip, rfl⟩ := dupCwd_ok hne hcwd
          cases h
          subst hc₃ hc₂ hc₁
          refine ⟨{ s.procs np with
            kstack := true, pgdir := some d, tgid := (s.procs np).pid, isThread := false,
            sz := (s.procs p).sz, parent := some p,
            ofile := inheritOfile (s.procs p).ofile (s.procs np).ofile, cwd := some ip,
            cwdGen := (s.icache ip).gen }, ?_, ⟨rfl, rfl, rfl, rfl, rfl⟩, rfl, rfl⟩
          constructor
          case kstack => exact hstack
          case memory => exact .inr ⟨rfl, d, copy, hcopied, rfl, rfl⟩
          case files => exact .inr ⟨rfl, hft⟩
          case cwds => exact .inr ⟨rfl, ip, hip, rfl⟩
          case procs => exact (s.withChild_zero p np _).symm
          case cwd => exact hip.symm
          case cwdGen =>
              have hip' : (s.procs p).cwd = some ip := hip
              rw [hip', Option.elim_some]
          all_goals rfl
  · simp at h

theorem cloneParentOf_congr (flags : BitVec 32)
    (hthread : (s'.procs p).isThread = (s.procs p).isThread)
    (hparent : ∀ q, (s'.procs q).parent = (s.procs q).parent) :
    cloneParentOf s' p flags = cloneParentOf s p flags := by
  simp only [cloneParentOf, hthread, hparent]

theorem cloneBody_true (h : cloneBody s p np flags env = .ok (s', true)) (hne : p ≠ np) :
    ∃ child, ChildMade s p np flags env child s' ∧
      CloneMade s p (s.procs np).pid flags child s' ∧
      child.state = (s.procs np).state ∧ s'.nextpid = s.nextpid := by
  by_cases hstack : env.kstack = true
  · rw [cloneBody, if_pos hstack] at h
    dsimp only at h
    generalize hc₁ : ({ s.procs np with
      kstack := true, cloneVm := flagVm flags, cloneFs := flagFs flags,
      cloneFiles := flagFiles flags, cloneParent := flagParent flags,
      cloneThread := flagThread flags } : Proc) = c₁ at h
    split at h
    · cases h
    · cases h
    · rename_i s₂ hmem
      obtain ⟨pgdir, pgdirs, hmemory, rfl⟩ := cloneMemory_ok hne hmem
      generalize hc₂ : ({ c₁ with pgdir := pgdir } : Proc) = c₂ at h
      split at h
      · cases h
      · rename_i s₃ hfs
        obtain ⟨ic, hic, rfl⟩ := cloneFsPart_ok hne hfs
        split at h
        · cases h
        · rename_i s₄ hfiles
          obtain ⟨ft, hft, rfl⟩ := cloneFilesPart_ok hne hfiles
          split at h
          · cases h
          · rename_i parent hparent
            simp only [Except.ok.injEq, Prod.mk.injEq, and_true] at h
            subst h hc₂ hc₁
            simp only [Kernel.setProc_procs_self, Kernel.setProc_setProc,
              Kernel.setProc_procs_of_ne _ _ _ hne] at hft hparent ⊢
            refine ⟨{ s.procs np with
              kstack := true, cloneVm := flagVm flags, cloneFs := flagFs flags,
              cloneFiles := flagFiles flags, cloneParent := flagParent flags,
              cloneThread := flagThread flags, pgdir := pgdir, cwd := (s.procs p).cwd,
              cwdGen := (s.procs p).cwd.elim 0 fun ip => (s.icache ip).gen,
              cwdClone :=
                if flagFs flags then fillEmpty (s.procs np).cwdClone p
                else (s.procs np).cwdClone,
              ofile := inheritOfile (s.procs p).ofile (s.procs np).ofile,
              ofileClone :=
                if flagFiles flags then fillEmpty (s.procs np).ofileClone p
                else (s.procs np).ofileClone,
              parent := parent,
              tgid := if flagThread flags then (s.procs p).tgid else (s.procs p).pid,
              pthread := some p, isThread := true, sz := (s.procs p).sz }, ?_, ?_, rfl, rfl⟩
            · constructor
              case kstack => exact hstack
              case memory => exact hmemory
              case files => simpa [ChildFiles] using hft
              case cwds => exact hic
              case procs => simp [Kernel.withChild, Kernel.setProc]
              all_goals rfl
            · constructor
              case parent =>
                  rw [← hparent]
                  apply (cloneParentOf_congr flags _ _).symm
                  · simp [Kernel.setProc_procs_of_ne _ _ _ hne]
                  · intro q
                    simp only [Kernel.setProc_procs]
                    split_ifs <;> simp_all
              case clones => simp
              all_goals rfl
  · simp [cloneBody, hstack] at h

/-- A slot given back: it is free again, and of what the attempt wrote only the
page directory, the kernel stack and the flag fields show. -/
def SlotReleased (s : Kernel) (np : Slot) (s' : Kernel) : Prop :=
  ∃ pgdir vm fs files parent thread,
    s' = s.setProc np
      { s.procs np with
        state := .unused, kstack := false, pgdir := pgdir, cloneVm := vm, cloneFs := fs,
        cloneFiles := files, cloneParent := parent, cloneThread := thread }

theorem forkBody_false (h : forkBody s p np env = .ok (s', false)) : SlotReleased s np s' := by
  rw [forkBody] at h
  split_ifs at h with hstack
  · split at h
    · cases h
    · rename_i hmem
      obtain rfl := copyMemory_false hmem
      simp only [Except.ok.injEq, Prod.mk.injEq, and_true] at h
      exact ⟨_, _, _, _, _, _, h.symm⟩
    · dsimp only at h
      split at h
      · cases h
      · split at h <;> cases h
  · simp only [releaseSlot, Except.ok.injEq, Prod.mk.injEq, and_true] at h
    exact ⟨_, _, _, _, _, _, h.symm⟩

theorem cloneBody_false (h : cloneBody s p np flags env = .ok (s', false)) :
    SlotReleased s np s' := by
  by_cases hstack : env.kstack = true
  · rw [cloneBody, if_pos hstack] at h
    dsimp only at h
    split at h
    · cases h
    · rename_i s₁ hmem
      cases hvm : flagVm flags with
      | true => simp [hvm] at hmem
      | false =>
        simp only [hvm, Bool.false_eq_true, if_false] at hmem
        obtain rfl := copyMemory_false hmem
        simp only [Except.ok.injEq, Prod.mk.injEq, and_true] at h
        exact ⟨_, _, _, _, _, _, h.symm⟩
    · split at h
      · cases h
      · split at h
        · cases h
        · split at h <;> cases h
  · simp only [cloneBody, hstack, Bool.false_eq_true, if_false, releaseSlot, Except.ok.injEq,
      Prod.mk.injEq, and_true] at h
    exact ⟨_, _, _, _, _, _, h.symm⟩

/-! ### Whole calls -/

/-- A successful `fork` or `clone` seen as one step. -/
structure Spawned (s : Kernel) (p np : Slot) (flags : BitVec 32) (env : SpawnEnv)
    (child : Proc) (s' : Kernel) : Prop extends ChildMade s p np flags env child s' where
  ne : p ≠ np
  free : (s.procs np).state = .unused
  state : child.state = .runnable
  nextpid : s'.nextpid = s.nextpid + 1

/-- A `fork` or `clone` that got a slot and gave it back: the slot's pid is
used up. -/
def SpawnFailed (s : Kernel) (np : Slot) (s' : Kernel) : Prop :=
  ∃ pgdir vm fs files parent thread,
    (s.procs np).state = .unused ∧
    s' = { s.setProc np
      { s.procs np with
        state := .unused, isThread := false, pid := s.nextpid, kstack := false, pgdir := pgdir,
        cloneVm := vm, cloneFs := fs, cloneFiles := files, cloneParent := parent,
        cloneThread := thread } with
          nextpid := s.nextpid + 1 }

/-- The state `allocproc` leaves. -/
def Kernel.allocated (s : Kernel) (np : Slot) : Kernel :=
  { s.setProc np
    { s.procs np with isThread := false, state := .embryo, pid := s.nextpid } with
      nextpid := s.nextpid + 1 }

theorem spawn_ok {body : Kernel → Slot → Except Fault (Kernel × Bool)}
    (h : spawn s body = .ok (s', r)) :
    (s' = s ∧ r = -1) ∨ ∃ np, (s.procs np).state = .unused ∧
      ((body (s.allocated np) np = .ok (s', false) ∧ r = -1) ∨
        ∃ s₁, body (s.allocated np) np = .ok (s₁, true) ∧ s' = publish s₁ np ∧
          r = (s₁.procs np).pid) := by
  rw [spawn] at h
  split at h
  · cases h
  · simp only [Except.ok.injEq, Prod.mk.injEq] at h
    exact .inl ⟨h.1.symm, h.2.symm⟩
  · rename_i s₀ np halloc
    obtain ⟨hfree, -, rfl⟩ := allocproc_some halloc
    refine .inr ⟨np, hfree, ?_⟩
    split at h
    · cases h
    · rename_i s₁ hbody
      cases h
      exact .inl ⟨hbody, rfl⟩
    · rename_i s₁ hbody
      cases h
      exact .inr ⟨s₁, hbody, rfl, rfl⟩

theorem SlotReleased.spawnFailed (h : SlotReleased (s.allocated np) np s')
    (hfree : (s.procs np).state = .unused) :
    SpawnFailed s np s' := by
  obtain ⟨pgdir, vm, fs, files, parent, thread, rfl⟩ := h
  refine ⟨pgdir, vm, fs, files, parent, thread, hfree, ?_⟩
  simp [Kernel.allocated, Kernel.setProc]

theorem Kernel.allocated_procs_of_ne (s : Kernel) {q : Slot} (hq : q ≠ np) :
    (s.allocated np).procs q = s.procs q :=
  setProc_procs_of_ne _ _ _ hq

theorem Kernel.allocated_procs_self (s : Kernel) (np : Slot) :
    (s.allocated np).procs np =
      { s.procs np with isThread := false, state := .embryo, pid := s.nextpid } :=
  setProc_procs_self ..

/-- A child made in a freshly allocated slot, seen from before the allocation
and after its publication. -/
theorem ChildMade.spawned {s₁ : Kernel} {child : Proc}
    (h : ChildMade (s.allocated np) p np flags env child s₁) (hne : p ≠ np)
    (hfree : (s.procs np).state = .unused) (hnext : s₁.nextpid = (s.allocated np).nextpid) :
    Spawned s p np flags env { child with state := .runnable } (publish s₁ np) := by
  have hp : (s.allocated np).procs p = s.procs p := s.allocated_procs_of_ne hne
  have hnp := s.allocated_procs_self np
  obtain ⟨kstack, childStack, memory, files, cwds, chan, killed, sz, ofile, cwd, cwdGen,
    ofileClone, cwdClone, procs, initproc, ctl⟩ := h
  have hchild : s₁.procs np = child := by rw [procs, Kernel.withChild_self]
  constructor
  case ne => exact hne
  case free => exact hfree
  case state => rfl
  case nextpid => exact hnext
  case toChildMade =>
      constructor
      case memory =>
          simp only [ChildMemory, CopiedMemory, hp] at memory ⊢
          exact memory
      case files =>
          simp only [ChildFiles, hp] at files ⊢
          exact files
      case cwds =>
          simp only [ChildCwd, hp] at cwds ⊢
          exact cwds
      case procs =>
          funext q
          by_cases hq : q = np
          · subst hq
            simp [publish, hchild, Kernel.withChild_self]
          · rw [publish, Kernel.setProc_procs_of_ne _ _ _ hq, procs,
              Kernel.withChild_of_ne _ _ _ _ _ hq, Kernel.withChild_of_ne _ _ _ _ _ hq,
              s.allocated_procs_of_ne hq]
      case initproc => exact initproc
      case ctl => exact ctl
      case cwdGen =>
          rw [cwdGen, hp]
          rfl
      all_goals simp_all

theorem fork_ok (h : fork s p env = .ok (s', r)) (hp : (s.procs p).state ≠ .unused) :
    (s' = s ∧ r = -1) ∨ (∃ np, SpawnFailed s np s' ∧ r = -1) ∨
      ∃ np child, Spawned s p np 0 env child s' ∧ ForkMade s p s.nextpid child s' ∧
        r = s.nextpid := by
  rcases spawn_ok h with hnone | ⟨np, hfree, ⟨hbody, hr⟩ | ⟨s₁, hbody, rfl, hr⟩⟩
  · exact .inl hnone
  · exact .inr (.inl ⟨np, (forkBody_false hbody).spawnFailed hfree, hr⟩)
  · have hne : p ≠ np := fun hpn => hp (hpn ▸ hfree)
    obtain ⟨child, hmade, ⟨hpid, hthread, htgid, hparent, hclones⟩, -, hnext⟩ :=
      forkBody_true hbody hne
    have hnew : ((s.allocated np).procs np).pid = s.nextpid := by rw [s.allocated_procs_self]
    refine .inr (.inr ⟨np, _, hmade.spawned hne hfree hnext, ⟨?_, hthread, ?_, hparent, ?_⟩, ?_⟩)
    · exact hpid.trans hnew
    · exact htgid.trans hnew
    · exact hclones
    · rw [hr, hmade.procs, Kernel.withChild_self, hpid, hnew]

theorem clone_ok (h : clone s p flags env = .ok (s', r)) (hp : (s.procs p).state ≠ .unused) :
    (s' = s ∧ r = -1) ∨ (∃ np, SpawnFailed s np s' ∧ r = -1) ∨
      ∃ np child, Spawned s p np flags env child s' ∧
        CloneMade s p s.nextpid flags child s' ∧ r = s.nextpid := by
  rcases spawn_ok h with hnone | ⟨np, hfree, ⟨hbody, hr⟩ | ⟨s₁, hbody, rfl, hr⟩⟩
  · exact .inl hnone
  · exact .inr (.inl ⟨np, (cloneBody_false hbody).spawnFailed hfree, hr⟩)
  · have hne : p ≠ np := fun hpn => hp (hpn ▸ hfree)
    obtain ⟨child, hmade, ⟨hpid, hthread, htgid, hparent, hpthread, hclones⟩, -, hnext⟩ :=
      cloneBody_true hbody hne
    have hnew : ((s.allocated np).procs np).pid = s.nextpid := by rw [s.allocated_procs_self]
    have hold : (s.allocated np).procs p = s.procs p := s.allocated_procs_of_ne hne
    refine .inr (.inr ⟨np, _, hmade.spawned hne hfree hnext,
      ⟨?_, hthread, ?_, ?_, hpthread, ?_⟩, ?_⟩)
    · exact hpid.trans hnew
    · rw [htgid, hold]
    · rw [← hparent]
      apply (cloneParentOf_congr flags _ _).symm
      · rw [hold]
      · intro q
        by_cases hq : q = np
        · rw [hq, s.allocated_procs_self]
        · rw [s.allocated_procs_of_ne hq]
    · rw [hold, hnew] at hclones
      exact hclones
    · rw [hr, hmade.procs, Kernel.withChild_self, hpid, hnew]

end Xv6Threads
