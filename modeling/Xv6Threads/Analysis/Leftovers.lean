/-
# What exit leaves behind

`exit` gives up the caller's open files and its current directory, unless its
slot says that they are shared. The fields that say so are written by `clone`
only: neither `fork` nor `allocproc` resets them, so a process made by `fork`
in a slot that a thread used before keeps the thread's fields, and its exit
drops nothing. This module says exactly when an exit releases what it should.
-/

import Xv6Threads.Analysis.Directories
import Xv6Threads.Analysis.Records
import Xv6Threads.Analysis.References

namespace Xv6Threads

open Lib

variable {ft ft' : Ftable} {ic ic' : Icache} {p : Slot} {s s' : Kernel}

/-- The exit of `p` dropped one reference for each of its descriptors, and one
for its current directory. The references an inode has on account of open files
go with the last reference of the file. -/
structure ReleasesAll (s : Kernel) (p : Slot) (s' : Kernel) : Prop where
  files : ∀ f, (s'.ftable f).ref + held f (s.procs p).ofile = (s.ftable f).ref
  cwd : ∀ j, (s'.icache j).ref - inodeUses s'.ftable j +
    (if (s.procs p).cwd = some j then 1 else 0) = (s.icache j).ref - inodeUses s.ftable j

/-! ## Closing files -/

/-- Closing a file leaves the references that are not on account of files. -/
theorem inodeRefs_fileclose {f : FileIdx} (h : fileclose ft ic f = .ok (ft', ic')) (j : InodeIdx) :
    (ic' j).ref - inodeUses ft' j = (ic j).ref - inodeUses ft j := by
  rw [fileclose] at h
  split_ifs at h with hzero hmore
  · cases h
    -- the file keeps its kind
    have huses := Nat.add_right_cancel
      (inodeUses_update ft f { ft f with ref := (ft f).ref - 1 } j)
    rw [huses]
  · cases h
    have huses := inodeUses_update ft f { kind := .none, ref := 0 } j
    cases hkind : (ft f).kind with
    | inode ip =>
      rw [hkind] at huses
      simp only [FileKind.inode.injEq, reduceCtorEq, if_false, add_zero] at huses
      dsimp only
      rw [ref_iput, ← huses]
      push_cast
      omega
    | none | pipe =>
      simp only [hkind, reduceCtorEq, if_false, add_zero] at huses
      rw [huses]

theorem inodeRefs_closeFiles {ofile : Fd → Option FileIdx} {fds : List Fd}
    (h : closeFiles ofile fds ft ic = .ok (ft', ic')) (j : InodeIdx) :
    (ic' j).ref - inodeUses ft' j = (ic j).ref - inodeUses ft j := by
  induction fds generalizing ft ic with
  | nil =>
    cases h
    rfl
  | cons fd rest ih =>
    unfold closeFiles at h
    split at h
    · exact ih h
    · split at h
      · cases h
      · rename_i ft₁ ic₁ hclose
        exact (ih h).trans (inodeRefs_fileclose hclose j)

/-! ## Everyone has a current directory -/

theorem Moved.cwd_ne_none {w : Walk} (h : Moved s p w s') {q : Slot} (hq : (s.procs q).cwd ≠ none) :
    (s'.procs q).cwd ≠ none := by
  obtain ⟨ic, ip, old, cwds, -, -, hcwds, -, hprocs⟩ := h.moved
  rw [hprocs]
  dsimp only
  split_ifs
  · exact Option.some_ne_none ip
  · rcases hcwds with ⟨-, rfl⟩ | ⟨-, hprop⟩
    · exact hq
    · rcases propagate_spec hprop q with hsame | ⟨hset, -⟩
      · rw [hsame]
        exact hq
      · rw [hset]
        exact Option.some_ne_none ip

/-- Everyone alive has a current directory. -/
def CwdsPresent (s : Kernel) : Prop := ∀ q, (s.procs q).Live → (s.procs q).cwd ≠ none

theorem cwdsPresent_boot : CwdsPresent boot := by
  intro q hlive
  by_cases hq : q = 0
  · subst hq
    exact Option.some_ne_none _
  · rw [boot_procs_of_ne hq] at hlive
    exact absurd rfl hlive.1

theorem CwdsPresent.step {e : Event} (hi : CwdsPresent s) (hstep : Step s e s') :
    CwdsPresent s' := by
  intro q hlive
  cases step_fs hstep with
  | same h | walked hp hlookup h =>
    rw [h.cwd]
    exact hi q ((h.live q).mp hlive)
  | spawned hp hc h =>
    rename_i p np c flags env child
    by_cases hq : q = np
    · rw [hq, h.child_eq, h.cwd]
      exact hi p (live_of_running hp)
    · obtain ⟨_, _, hother⟩ := h.other_eq hq
      rw [hother] at hlive ⊢
      exact hi q hlive
  | exited hp h =>
    rename_i p st
    obtain ⟨hold, hq⟩ := (h.live_iff q).mp hlive
    rw [h.procs]
    dsimp only
    rw [if_neg hq]
    exact hi q hold
  | filed hp hc hrun =>
    have hshape := fileShape_of_isFile hc hrun
    rw [hshape.cwd_eq]
    exact hi q ((hshape.sameTree.live q).mp hlive)
  | moved hp h => exact h.cwd_ne_none (hi q ((h.sameTree.live q).mp hlive))

theorem cwdsPresent_of_reachable (h : Reachable Step boot s) : CwdsPresent s :=
  h.invariant cwdsPresent_boot fun _ _ _ _ hi _ hstep => hi.step hstep

/-! ## When an exit releases everything -/

/-- `exit` returns if closing the files does. -/
theorem exit_isOk (hinit : p ≠ s.initproc) (hcwd : (s.procs p).cwd ≠ none)
    (hclose : (s.procs p).cloneFiles = false →
      ∃ r, closeFiles (s.procs p).ofile (List.finRange NOFILE) s.ftable s.icache = .ok r) :
    ∃ s', exit s p = .ok s' := by
  cases hexit : exit s p with
  | ok s' => exact ⟨s', rfl⟩
  | error f =>
    exfalso
    rw [exit] at hexit
    split at hexit
    · rename_i hrelease
      rw [exitRelease, if_neg hinit] at hrelease
      dsimp only at hrelease
      split at hrelease
      · rename_i hclosed
        split_ifs at hclosed with hflag
        obtain ⟨r, hr⟩ := hclose (by simpa using hflag)
        cases hr.symm.trans hclosed
      · split_ifs at hrelease
        split at hrelease
        · rename_i hnone
          simp only [Kernel.setProc_procs_self] at hnone
          exact hcwd hnone
        · cases hrelease
    · cases hexit

theorem held_eq_zero_iff (table : Fd → Option FileIdx) :
    (∀ f, held f table = 0) ↔ ∀ fd, table fd = none := by
  refine ⟨?_, ?_⟩
  · intro h fd
    cases hfd : table fd with
    | none => rfl
    | some f =>
      have hone := one_le_held hfd
      rw [h f] at hone
      cases hone
  · intro h f
    simp [held, h]

/-- Closing gives up one reference for each descriptor. -/
theorem closeFiles_releases {ofile : Fd → Option FileIdx}
    (h : closeFiles ofile (List.finRange NOFILE) ft ic = .ok (ft', ic')) (f : FileIdx) :
    (ft' f).ref + held f ofile = (ft f).ref := by
  rw [held_eq]
  exact closeFiles_refs h f

/-- Letting go of the current directory, once the files are closed. -/
theorem inodeRefs_iput {ip : InodeIdx} (j : InodeIdx) :
    (iput ic ip j).ref - inodeUses ft j + (if some ip = some j then 1 else 0) =
      (ic j).ref - inodeUses ft j := by
  simp only [ref_iput, Option.some.injEq]
  omega

theorem Exited.releasesAll_iff {st : Slot → ProcState} (h : Exited s p st s')
    (hcwd : (s.procs p).cwd ≠ none) :
    ReleasesAll s p s' ↔
      ((s.procs p).cloneFiles = false ∨ ∀ fd, (s.procs p).ofile fd = none) ∧
        (s.procs p).cloneFs = false := by
  obtain ⟨ic₀, hfiles, hcwds⟩ := h.tables
  obtain ⟨ip, hip⟩ := Option.ne_none_iff_exists'.mp hcwd
  have hbooks : ∀ j, (ic₀ j).ref - inodeUses s'.ftable j =
      (s.icache j).ref - inodeUses s.ftable j := by
    intro j
    rcases hfiles with ⟨-, hft, rfl⟩ | ⟨-, hclose⟩
    · rw [hft]
    · exact inodeRefs_closeFiles hclose j
  refine ⟨?_, ?_⟩
  · intro hall
    refine ⟨?_, ?_⟩
    · rcases hfiles with ⟨-, hft, -⟩ | ⟨hflag, -⟩
      · -- nothing was closed, so there was nothing to close
        refine .inr ((held_eq_zero_iff _).mp fun f => ?_)
        have hf := hall.files f
        rw [hft] at hf
        omega
      · exact .inl hflag
    · rcases hcwds with ⟨-, hic⟩ | ⟨hflag, -⟩
      · have hj := hall.cwd ip
        rw [hic, hbooks ip, if_pos hip] at hj
        omega
      · exact hflag
  · rintro ⟨hclosed, hflag⟩
    refine ⟨?_, ?_⟩
    · intro f
      rcases hfiles with ⟨hshared, hft, -⟩ | ⟨-, hclose⟩
      · rw [hshared] at hclosed
        have hnone := hclosed.resolve_left Bool.true_eq_false.mp
        rw [hft, (held_eq_zero_iff _).mpr hnone f]
        rfl
      · exact closeFiles_releases hclose f
    · intro j
      rcases hcwds with ⟨hshared, -⟩ | ⟨-, ip', hip', hic⟩
      · rw [hflag] at hshared
        cases hshared
      · rw [hic, hip', inodeRefs_iput, hbooks j]

/-- An exit by a process that is not init returns and releases everything the
process holds if and only if its slot does not say that the files or the
directory are shared, where it is enough to have no files, and no file has fewer
references than the process has descriptors for it. -/
theorem exit_releases_all_iff {s : Kernel} {p : Slot} (h : Reachable Step boot s)
    (hen : Enabled s p .exit) (hinit : p ≠ s.initproc) :
    (∃ s', syscall s p .exit = .ok (s', none) ∧ ReleasesAll s p s') ↔
      ((s.procs p).cloneFiles = false ∧
          (∀ f, held f (s.procs p).ofile ≤ (s.ftable f).ref) ∨
        ∀ fd, (s.procs p).ofile fd = none) ∧ (s.procs p).cloneFs = false := by
  have hcwd := cwdsPresent_of_reachable h p (live_of_running hen.1)
  have hsyscall : ∀ s', syscall s p .exit = .ok (s', none) ↔ exit s p = .ok s' := by
    intro s'
    rw [syscall]
    cases exit s p with
    | error f => simp
    | ok t => simp
  refine ⟨?_, ?_⟩
  · rintro ⟨s', hrun, hall⟩
    obtain ⟨st, hexited⟩ := exit_ok ((hsyscall s').mp hrun)
    obtain ⟨hclosed, hflag⟩ := (hexited.releasesAll_iff hcwd).mp hall
    refine ⟨hclosed.imp_left fun hfiles => ⟨hfiles, fun f => ?_⟩, hflag⟩
    have hf := hall.files f
    omega
  · rintro ⟨hclosed, hflag⟩
    have hclose : ∃ r, closeFiles (s.procs p).ofile (List.finRange NOFILE) s.ftable s.icache =
        .ok r := by
      apply closeFiles_isOk
      intro f
      rw [← held_eq]
      rcases hclosed with ⟨-, hrefs⟩ | hnone
      · exact hrefs f
      · rw [(held_eq_zero_iff _).mpr hnone f]
        exact Nat.zero_le _
    obtain ⟨s', hexit⟩ := exit_isOk hinit hcwd fun _ => hclose
    obtain ⟨st, hexited⟩ := exit_ok hexit
    exact ⟨s', (hsyscall s').mpr hexit,
      (hexited.releasesAll_iff hcwd).mpr ⟨hclosed.imp_left And.left, hflag⟩⟩

/-- Init opens a file and forks; the child sits in a slot nobody used before and
releases the file and the directory when it exits. -/
theorem exit_releases_all_iff_child :
    ∃ s, Reachable Step boot s ∧ (s.procs 1).ofile 0 = some 0 ∧ (s.ftable 0).ref = 2 ∧
      ∃ s', syscall s 1 .exit = .ok (s', none) ∧ ReleasesAll s 1 s' := by
  have hrun : ∃ s, Reachable Step boot s ∧ ((s.procs 1).ofile 0 = some 0 ∧
      (s.ftable 0).ref = 2 ∧ Enabled s 1 .exit ∧ s.initproc = 0 ∧
      (s.procs 1).cloneFiles = false ∧ (s.procs 1).cloneFs = false ∧
      ∀ f, held f (s.procs 1).ofile ≤ (s.ftable f).ref) :=
    exists_reachableBy
      [.dispatch 0, .call 0 (.open ⟨true, [some 7]⟩ true), .call 0 (.fork ⟨true, some 1, 8⟩),
        .dispatch 1] (by decide +kernel)
  obtain ⟨s, hreach, hfile, href, hen, hinit, hfiles, hfs, hrefs⟩ := hrun
  refine ⟨s, hreach, hfile, href, ?_⟩
  exact (exit_releases_all_iff hreach hen (by rw [hinit]; decide)).mpr
    ⟨.inl ⟨hfiles, hrefs⟩, hfs⟩

/-- Init clones a thread with `CLONE_FILES` and `CLONE_FS` and joins it, opens a
file and forks. The child gets the thread's slot; its exit drops neither the
reference to the file nor the one to its directory. -/
theorem forked_child_releases_nothing :
    ∃ s, Reachable Step boot s ∧ Enabled s 1 .exit ∧ s.initproc = 0 ∧
      ¬ s.WasCloned (s.procs 1).pid ∧ (s.procs 1).ofile 0 = some 0 ∧
      (s.procs 1).cwd = some 0 ∧
      ∃ s', syscall s 1 .exit = .ok (s', none) ∧ (s'.ftable 0).ref = (s.ftable 0).ref ∧
        (s'.icache 0).ref = (s.icache 0).ref ∧ ¬ ReleasesAll s 1 s' := by
  have hrun : ∃ s, Reachable Step boot s ∧ (Enabled s 1 .exit ∧ s.initproc = 0 ∧
      ¬ s.WasCloned (s.procs 1).pid ∧ (s.procs 1).ofile 0 = some 0 ∧
      (s.procs 1).cwd = some 0 ∧
      (((syscall s 1 .exit).toOption.any fun r => decide (r.2 = none ∧
        (r.1.ftable 0).ref = (s.ftable 0).ref ∧
        (r.1.icache 0).ref = (s.icache 0).ref)) = true)) :=
    exists_reachableBy
      [.dispatch 0, .call 0 (.clone 6 ⟨true, some 1, 8⟩), .dispatch 1, .call 1 .exit,
        .call 0 (.join 2), .call 0 (.open ⟨true, [some 7]⟩ true),
        .call 0 (.fork ⟨true, some 2, 8⟩), .dispatch 1] (by decide +kernel)
  obtain ⟨s, hreach, hen, hinit, hforked, hfile, hcwd, hexit⟩ := hrun
  refine ⟨s, hreach, hen, hinit, hforked, hfile, hcwd, ?_⟩
  obtain ⟨s', hsys, hft, hic⟩ := ok_of_result (P := fun s' : Kernel =>
    (s'.ftable 0).ref = (s.ftable 0).ref ∧ (s'.icache 0).ref = (s.icache 0).ref) hexit
  refine ⟨s', hsys, hft, hic, ?_⟩
  intro hall
  have hf := hall.files 0
  rw [hft] at hf
  have hone : 1 ≤ held 0 (s.procs 1).ofile := one_le_held hfile
  omega

end Xv6Threads
