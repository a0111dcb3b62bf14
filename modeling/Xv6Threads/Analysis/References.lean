/-
# References to open files

A pair of processes that shares its descriptors holds one reference for each
open entry, not two. That is kept by every call but one: `exit` of a process
that was not itself made by `clone` with `CLONE_FILES` closes everything it has
open, also when a thread still uses it. This module counts references, and shows
that without such an exit every descriptor refers to a file that is open.
-/

import Xv6Threads.Analysis.Tables
import Xv6Threads.Kernel.Faults

namespace Xv6Threads

open Lib
open Function (update update_of_ne update_self)

variable {table : Fd → Option FileIdx}

/-! ## Counting -/

theorem held_update (table : Fd → Option FileIdx) (fd : Fd) (v : Option FileIdx)
    (g : FileIdx) :
    held g (update table fd v) + (if table fd = some g then 1 else 0) =
      held g table + if v = some g then 1 else 0 := by
  have hsum := sum_change_one (a := fd)
    (f := fun i => if update table fd v i = some g then 1 else 0)
    (g := fun i => if table i = some g then 1 else 0) (by
      intro i hi
      rw [update_of_ne hi])
  simpa [held] using hsum

theorem held_empty (f : FileIdx) : held f (fun _ => none) = 0 := by
  simp [held]

theorem one_le_held {fd : Fd} {f : FileIdx} (h : table fd = some f) : 1 ≤ held f table := by
  have hle := Finset.single_le_sum (f := fun i => if table i = some f then 1 else 0)
    (fun _ _ => Nat.zero_le _) (Finset.mem_univ fd)
  rwa [if_pos h] at hle

section Weight

variable {partner : Slot → Option Slot} {p : Slot} {tables : FdTables}

/-- A pair writes a descriptor. -/
theorem pairWeight_update (hmutual : Mutual partner) (hself : partner p ≠ some p)
    (hagree : Agree partner tables) (fd : Fd) (v : Option FileIdx) (g : FileIdx) :
    pairWeight partner (held g) (setPair partner p (update (tables p) fd v) tables) +
        (if tables p fd = some g then 2 else 0) =
      pairWeight partner (held g) tables + if v = some g then 2 else 0 := by
  have hweight := pairWeight_setPair (w := held g) hmutual hself hagree (update (tables p) fd v)
  have hcount := held_update (tables p) fd v g
  split_ifs at hcount ⊢ <;> omega

end Weight

/-- There is a reference for every open descriptor, those of a pair counted
once. -/
def TableState.RefsOk (a : TableState) : Prop :=
  ∀ f, pairWeight a.partner (held f) a.tables ≤ 2 * a.refs f

theorem PairWrites.refsOk {partner : Slot → Option Slot} {p : Slot} {tables tables' : FdTables}
    {refs refs' : FileIdx → ℕ} (h : PairWrites partner p tables refs tables' refs')
    (hmutual : Mutual partner) (hself : partner p ≠ some p) (hagree : Agree partner tables)
    (hrefs : ∀ f, pairWeight partner (held f) tables ≤ 2 * refs f) (f : FileIdx) :
    pairWeight partner (held f) tables' ≤ 2 * refs' f := by
  induction h with
  | nothing => exact hrefs f
  | @gain tables₁ refs₁ fd g prior hfree ih =>
    have hweight := pairWeight_update hmutual hself (prior.agree hmutual hagree) fd (some g) f
    rw [hfree, if_neg (Option.some_ne_none f).symm] at hweight
    by_cases hg : g = f
    · subst hg
      rw [if_pos rfl] at hweight
      rw [update_self]
      omega
    · rw [if_neg (by simpa using hg)] at hweight
      rw [update_of_ne (Ne.symm hg)]
      omega
  | @lose tables₁ refs₁ fd g prior hheld hpos ih =>
    have hweight := pairWeight_update hmutual hself (prior.agree hmutual hagree) fd none f
    rw [hheld, if_neg (Option.some_ne_none f).symm] at hweight
    by_cases hg : g = f
    · subst hg
      rw [if_pos rfl] at hweight
      rw [update_self]
      omega
    · rw [if_neg (by simpa using hg)] at hweight
      rw [update_of_ne (Ne.symm hg)]
      omega

/-- A step keeps the count if a process that gives up a whole table is alone or
has nothing open. -/
theorem TableState.RefsOk.step {closes : Slot → Prop} {a a' : TableState} (hrefs : a.RefsOk)
    (hi : a.Ok) (hcloses : ∀ p, closes p → a.partner p = none ∨ a.tables p = fun _ => none)
    (h : TableStep closes a a') : a'.RefsOk := by
  intro f
  cases h with
  | idle => exact hrefs f
  | @writes p _ _ hp h => exact h.refsOk hi.symmetric (hi.irrefl p) hi.agree hrefs f
  | @copied p np hnp =>
    have hweight := pairWeight_setPair (w := held f) hi.symmetric (hi.irrefl np) hi.agree
      (a.tables p)
    rw [setPair_of_none (hi.dead np hnp), hi.closed np hnp, held_empty] at hweight
    have := hrefs f
    dsimp only
    omega
  | @shared p np hp hnp hfresh =>
    have hne : p ≠ np := fun hpn => hnp (hpn ▸ hp)
    have hweight := pairWeight_link (w := held f) a.tables hne hfresh
      (hi.dead np hnp) (by rw [hi.closed np hnp, held_empty])
    dsimp only
    rw [hweight]
    exact hrefs f
  | @left p refs hclosed =>
    have hold := hrefs f
    dsimp only
    cases hp : a.partner p with
    | none =>
      have hweight := pairWeight_unlink_of_none (w := held f) a.tables hp
        (held_empty f)
      rcases hclosed with rfl | ⟨-, hclosed⟩
      · omega
      · have := hclosed f
        omega
    | some r =>
      rw [pairWeight_unlink_of_some hi.symmetric (hi.irrefl p) hi.agree hp (held_empty f)]
      rcases hclosed with rfl | ⟨hc, hclosed⟩
      · exact hold
      · have hempty : a.tables p = fun _ => none := (hcloses p hc).resolve_left (by simp [hp])
        have := hclosed f
        rw [hempty, held_empty] at this
        omega

/-! ## The kernel's references -/

/-- A process that would close its files and shares them has none open when it
exits. -/
def ExitKeepsFiles (s : Kernel) : Event → Prop
  | .call p .exit =>
    (s.procs p).cloneFiles = false → (∃ i, (s.procs p).ofileClone i ≠ none) →
      ∀ fd, (s.procs p).ofile fd = none
  | _ => True

instance (s : Kernel) (e : Event) : Decidable (ExitKeepsFiles s e) := by
  refine e.casesOn (motive := fun e => Decidable (ExitKeepsFiles s e)) (fun p c => ?_)
    (fun p => ?_) fun p => ?_
  · apply c.casesOn (motive := fun c => Decidable (ExitKeepsFiles s (.call p c))) <;> intros <;>
      dsimp only [ExitKeepsFiles] <;> infer_instance
  · dsimp only [ExitKeepsFiles]
    infer_instance
  · dsimp only [ExitKeepsFiles]
    infer_instance

/-- Tables are kept equal, and nobody closes what a partner still uses. -/
def KeepsRefs (s : Kernel) (e : Event) : Prop := KeepsTables s e ∧ ExitKeepsFiles s e

instance (s : Kernel) (e : Event) : Decidable (KeepsRefs s e) :=
  inferInstanceAs (Decidable (_ ∧ _))

section Kernel

variable {s s' : Kernel} {e : Event}
variable {p : Slot} {ofile : Fd → Option FileIdx} {f : Fault}

theorem ExitKeepsFiles.closesAll (h : ExitKeepsFiles s e) (hp : ClosesAll s e p) :
    s.tableState.partner p = none ∨ s.tableState.tables p = fun _ => none := by
  obtain ⟨rfl, hclone⟩ := hp
  by_cases hnone : s.tableState.partner p = none
  · exact .inl hnone
  · exact .inr (funext (h hclone ⟨0, hnone⟩))

theorem refsOk_boot : boot.tableState.RefsOk := by
  intro f
  have htables : ∀ q, boot.tableState.tables q = fun _ => none := by
    intro q
    by_cases hq : q = 0
    · rw [hq]
      rfl
    · change (boot.procs q).ofile = _
      rw [boot_procs_of_ne hq]
  have hzero : pairWeight boot.tableState.partner (held f) boot.tableState.tables = 0 := by
    rw [pairWeight]
    exact Finset.sum_eq_zero fun q _ => by rw [htables q, held_empty, Nat.mul_zero]
  rw [hzero]
  exact Nat.zero_le _

theorem refsOk_of_reachable (h : ReachableBy Step KeepsRefs boot s) : s.tableState.RefsOk := by
  refine h.invariant (P := fun s => s.tableState.RefsOk) refsOk_boot ?_
  intro s e s' hreach hrefs hgood hstep
  have hi := tablesOk_of_reachable (fun _ _ hg => hg.1) hreach
  exact hrefs.step hi.tableState_ok (fun p hp => hgood.2.closesAll hp)
    (hi.step_table hgood.1 hstep)

/-- A table is covered by the counts of the files it refers to. -/
theorem held_le_ref (hi : TablesOk s) (hrefs : s.tableState.RefsOk) (q : Slot) (f : FileIdx) :
    held f (s.procs q).ofile ≤ (s.ftable f).ref := by
  have hi' := hi.tableState_ok
  have hle : 2 * held f (s.procs q).ofile ≤ 2 * (s.ftable f).ref :=
    (two_mul_le_pairWeight (w := held f) hi'.symmetric (hi'.irrefl q) hi'.agree).trans (hrefs f)
  omega

theorem ref_of_open (hi : TablesOk s) (hrefs : s.tableState.RefsOk) {q : Slot} {fd : Fd}
    {f : FileIdx} (h : (s.procs q).ofile fd = some f) : 1 ≤ (s.ftable f).ref :=
  (one_le_held h).trans (held_le_ref hi hrefs q f)

/-! ## No panic -/

theorem dupFiles_isOk (fds : List Fd) {ft : Ftable}
    (h : ∀ fd f, ofile fd = some f → 1 ≤ (ft f).ref) : ∃ ft', dupFiles ofile fds ft = .ok ft' := by
  induction fds generalizing ft with
  | nil => exact ⟨ft, rfl⟩
  | cons fd rest ih =>
    unfold dupFiles
    split
    · exact ih h
    · rename_i f hfd
      have hdup : filedup ft f =
          .ok (update ft f { ft f with ref := (ft f).ref + 1 }) :=
        if_neg (h fd f hfd).not_gt
      rw [hdup]
      apply ih
      intro fd' g hg
      by_cases hgf : g = f
      · rw [hgf, update_self]
        exact Nat.le_add_left 1 _
      · rw [update_of_ne hgf]
        exact h fd' g hg

theorem closeFiles_isOk (fds : List Fd) {ft : Ftable} (ic : Icache)
    (h : ∀ f, (fds.map fun fd => if ofile fd = some f then 1 else 0).sum ≤ fileRefs ft f) :
    ∃ r, closeFiles ofile fds ft ic = .ok r := by
  induction fds generalizing ft ic with
  | nil => exact ⟨_, rfl⟩
  | cons fd rest ih =>
    simp only [List.map_cons, List.sum_cons] at h
    unfold closeFiles
    split
    · rename_i hfd
      apply ih
      intro f
      simpa [hfd] using h f
    · rename_i f hfd
      have hf := h f
      rw [hfd, if_pos rfl] at hf
      cases hclose : fileclose ft ic f with
      | error g =>
        have hzero : fileRefs ft f = 0 := (fileclose_error hclose).2
        omega
      | ok res =>
        obtain ⟨ft', ic'⟩ := res
        apply ih
        intro g
        rw [(fileRefs_fileclose hclose).2]
        have hg := h g
        rw [hfd] at hg
        by_cases hgf : g = f
        · subst hgf
          rw [if_pos rfl] at hg
          rw [update_self]
          omega
        · rw [if_neg (by simpa using Ne.symm hgf)] at hg
          rw [update_of_ne hgf]
          omega

/-- The panics of `filedup` and `fileclose`. -/
def Fault.OfFile (f : Fault) : Prop := f = .filedup ∨ f = .fileclose

theorem not_ofFile_of_lookup (h : f ∈ lookupFaults) : ¬ f.OfFile := by
  simp only [lookupFaults, List.mem_cons, List.not_mem_nil, or_false] at h
  rcases h with rfl | rfl | rfl <;> simp [Fault.OfFile]

theorem not_ofFile_of_dangling (h : f.Dangling) : ¬ f.OfFile := by
  rcases h with rfl | rfl <;> simp [Fault.OfFile]

theorem MemoryFault.not_ofFile (h : MemoryFault s p f) : ¬ f.OfFile := by
  have hlist := h.1
  simp only [List.mem_cons, List.not_mem_nil, or_false] at hlist
  rcases hlist with rfl | rfl | rfl | rfl <;> simp [Fault.OfFile]

theorem SpawnFault.not_ofFile
    (hopen : ∀ fd g, (s.procs p).ofile fd = some g → 1 ≤ (s.ftable g).ref)
    (h : f = .pidOverflow ∨ SpawnFault s p f) : ¬ f.OfFile := by
  rcases h with rfl | hmem | ⟨rfl, g, hdup⟩
  · simp [Fault.OfFile]
  · exact hmem.not_ofFile
  · obtain ⟨ft', hok⟩ := dupFiles_isOk (List.finRange NOFILE) hopen
    rw [hok] at hdup
    cases hdup

theorem not_holdsDead (hopen : ∀ fd g, (s.procs p).ofile fd = some g → 1 ≤ (s.ftable g).ref) :
    ¬ s.HoldsDead p := by
  rintro ⟨fd, f, hfd, hzero⟩
  have := hopen fd f hfd
  omega

/-- With the counts right, no call panics over a file. -/
theorem TablesOk.not_ofFile (hi : TablesOk s) (hrefs : s.tableState.RefsOk) {c : Call}
    (hen : Enabled s p c) (hfault : syscall s p c = .error f) : ¬ f.OfFile := by
  have hused : (s.procs p).state ≠ .unused := by simp [hen.1]
  have hopen : ∀ fd g, (s.procs p).ofile fd = some g → 1 ≤ (s.ftable g).ref := fun fd g hfd =>
    ref_of_open hi hrefs hfd
  cases c with
  | fork env => exact SpawnFault.not_ofFile hopen (fork_error hused (returned_eq_error hfault))
  | clone flags env =>
    exact SpawnFault.not_ofFile hopen (clone_error hused (returned_eq_error hfault))
  | exec env =>
    rcases exec_error (returned_eq_error hfault) with hlist | ⟨hdangling, -⟩
    · rcases List.mem_cons.mp hlist with rfl | hlookup
      · simp [Fault.OfFile]
      · exact not_ofFile_of_lookup hlookup
    · exact not_ofFile_of_dangling hdangling
  | sbrk n budget => exact (sysSbrk_error (returned_eq_error hfault)).not_ofFile
  | exit =>
    rw [syscall] at hfault
    split at hfault
    · rename_i hexit
      cases hfault
      rcases exit_error hexit with rfl | rfl | ⟨rfl, g, hclose⟩
      · simp [Fault.OfFile]
      · simp [Fault.OfFile]
      · obtain ⟨r, hok⟩ := closeFiles_isOk (List.finRange NOFILE) s.icache fun f => by
          rw [← held_eq]
          exact held_le_ref hi hrefs p f
        rw [hok] at hclose
        cases hclose
    · cases hfault
  | wait => exact not_ofFile_of_dangling (waitIter_error hfault).1
  | join pid => cases hfault
  | resume =>
    rw [syscall, resume] at hfault
    dsimp only at hfault
    split at hfault
    · exact not_ofFile_of_dangling (waitIter_error hfault).1
    · cases hfault
    · cases hfault
  | kill pid => cases hfault
  | threadkill pid => cases hfault
  | «open» w accept => exact not_ofFile_of_lookup (sysOpen_error (returned_eq_error hfault))
  | dup fd =>
    exact absurd (sysDup_error (returned_eq_error hfault)).2 (not_holdsDead hopen)
  | pipe argok page =>
    obtain ⟨r, hr⟩ := sysPipe_isOk s p argok page
    rw [returned_eq_error hfault] at hr
    cases hr
  | close fd =>
    exact absurd (sysClose_error (returned_eq_error hfault)).2 (not_holdsDead hopen)
  | chdir w isDir => exact not_ofFile_of_lookup (sysChdir_error (returned_eq_error hfault))

end Kernel

/-- Every descriptor of a living process refers to an open file, and no call
panics in `filedup` or `fileclose`. -/
theorem references_of_keeps_refs {s : Kernel} (h : ReachableBy Step KeepsRefs boot s) :
    (∀ q, (s.procs q).Live → ∀ fd f, (s.procs q).ofile fd = some f → 1 ≤ (s.ftable f).ref) ∧
      ∀ p c f, Enabled s p c → syscall s p c = .error f → f ≠ .filedup ∧ f ≠ .fileclose := by
  have hi := tablesOk_of_reachable (fun _ _ hgood => hgood.1) h
  have hrefs := refsOk_of_reachable h
  refine ⟨fun q _ fd f hfd => ref_of_open hi hrefs hfd, ?_⟩
  intro p c f hen hfault
  exact not_or.mp (hi.not_ofFile hrefs hen hfault)

/-- The process `1` opens a file and clones the thread `2` onto its files; the
thread exits first. -/
theorem references_of_keeps_refs_thread_first :
    ∃ s, ReachableBy Step KeepsRefs boot s ∧
      ((s.procs 1).Live ∧ (s.procs 2).state = .zombie ∧ (s.procs 1).ofile 0 = some 0) ∧
      1 ≤ (s.ftable 0).ref := by
  have hrun : ∃ s, ReachableBy Step KeepsRefs boot s ∧
      ((s.procs 1).Live ∧ (s.procs 2).state = .zombie ∧ (s.procs 1).ofile 0 = some 0) :=
    exists_reachableBy
      [.dispatch 0, .call 0 (.fork ⟨true, some 1, 8⟩), .dispatch 1,
        .call 1 (.open ⟨true, []⟩ true), .call 1 (.clone 4 ⟨true, some 2, 8⟩), .dispatch 2,
        .call 2 .exit]
      (by decide +kernel)
  obtain ⟨s, hreach, hend⟩ := hrun
  exact ⟨s, hreach, hend, (references_of_keeps_refs hreach).1 1 hend.1 0 0 hend.2.2⟩

/-- The process `1` opens a file and clones the thread `2` onto its files, and
exits first. The thread's descriptor refers to a file with no references, and
closing it panics. -/
theorem thread_holds_closed_file :
    ∃ s, Reachable Step boot s ∧ (s.procs 2).Live ∧ (s.procs 2).ofile 0 = some 0 ∧
      (s.ftable 0).ref = 0 ∧ Enabled s 2 (.close 0) ∧
      faultOf (syscall s 2 (.close 0)) = some .fileclose :=
  exists_reachableBy
    [.dispatch 0, .call 0 (.fork ⟨true, some 1, 8⟩), .dispatch 1,
      .call 1 (.open ⟨true, []⟩ true), .call 1 (.clone 4 ⟨true, some 2, 8⟩), .dispatch 2,
      .call 1 .exit]
    (by decide +kernel)

end Xv6Threads
