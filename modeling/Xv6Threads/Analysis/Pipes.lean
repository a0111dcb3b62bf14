/-
# A `pipe` that fails

`sys_pipe` takes two descriptors. When only the first of them is to be had, it clears that
entry in the caller's table again, but not in the tables of the `CLONE_FILES` peers, where
`fdalloc` has put it too. This module says for which calls that shows.
-/

import Xv6Threads.Analysis.Tables
import Xv6Threads.Kernel.Faults

namespace Xv6Threads

open Lib

variable {ft ft' : Ftable} {ic : Icache} {f : FileIdx} {tables : FdTables} {p : Slot} {fd : Fd}

/-- The process a propagation from `p` looks at first. -/
def firstPeer (peers : Slot → PeerList) (p : Slot) : Option Slot := firstOther p (peerNbr peers p)

/-- The call finds two free files and a page, but only one free descriptor, and the first
peer does not have the first of the files at that descriptor yet. -/
def PipeSpreads (s : Kernel) (p : Slot) (argok page : Bool) : Prop :=
  argok = true ∧ page = true ∧ ∃ ft₁ ft₂ rf wf fd q,
    filealloc s.ftable = some (ft₁, rf) ∧ filealloc ft₁ = some (ft₂, wf) ∧
    (∀ fd', s.ofiles p fd' = none ↔ fd' = fd) ∧
    firstPeer s.ofilePeers p = some q ∧ s.ofiles q fd ≠ some rf

/-- The tables of all processes and the reference counts of all files. -/
def SameFiles (s s' : Kernel) : Prop :=
  s'.ofiles = s.ofiles ∧ ∀ f, (s'.ftable f).ref = (s.ftable f).ref

/-! ## Reference counts -/

/-- A pipe made and given up again. -/
theorem PipeMade.ref {ft₁ ft₂ : Ftable} {ic₁ ic₂ : Icache} {rf wf : FileIdx}
    (h : PipeMade ft ft' rf wf) (hclose₀ : fileclose ft' ic rf = .ok (ft₁, ic₁))
    (hclose₁ : fileclose ft₁ ic₁ wf = .ok (ft₂, ic₂)) (g : FileIdx) :
    (ft₂ g).ref = (ft g).ref := by
  obtain ⟨ft₃, ft₄, halloc₀, halloc₁, hkinds⟩ := h.fileRefs_eq
  exact congrFun (fileRefs_alloc_close_two halloc₀ halloc₁ hkinds hclose₀ hclose₁) g

/-! ## Tables -/

/-- Clearing the caller's own entry gives the old tables exactly when no other process got
the file. -/
theorem setFd_none_eq_iff {column : Slot → Option FileIdx} (hfree : tables p fd = none)
    (hcaller : column p = some f) :
    setFd (setColumn (setFd tables p fd (some f)) fd column) p fd none = tables ↔
      column = fun q => setFd tables p fd (some f) q fd := by
  have hothers {q : Slot} (hq : q ≠ p) (v : Option FileIdx) (t : FdTables) :
      setFd t p fd v q = t q := Function.update_of_ne hq ..
  constructor
  · intro h
    funext q
    by_cases hq : q = p
    · subst hq
      simp [setFd, hcaller]
    · have hcell := congrFun (congrFun h q) fd
      rw [hothers hq] at hcell ⊢
      simpa [setColumn] using hcell
  · intro h
    funext q
    by_cases hq : q = p
    · subst hq
      funext fd'
      by_cases hfd : fd' = fd
      · subst hfd
        simp [setFd, hfree]
      · simp [setFd, setColumn, hfd]
    · rw [hothers hq, setColumn, h]
      simp only [hothers hq, Function.update_eq_self]

/-- The second descriptor is missing exactly when there was only one. -/
theorem only_one_free {peers : Slot → PeerList} {f' : FileIdx} {column : Slot → Option FileIdx}
    (hfree : tables p fd = none)
    (hsecond : fdalloc peers (setColumn (setFd tables p fd (some f)) fd column) p f' = .ok none)
    (fd' : Fd) : tables p fd' = none ↔ fd' = fd := by
  constructor
  · intro hnone
    by_contra hne
    apply fdalloc_none hsecond fd'
    simpa [setColumn, setFd, hne] using hnone
  · rintro rfl
    exact hfree

/-- A `pipe` that returns -1 leaves all tables and counts as they were, exactly when it did
not spread a descriptor first. -/
theorem pipe_failure_restores {s s' : Kernel} {p : Slot} {argok page : Bool}
    (h : sysPipe s p argok page = .ok (s', -1)) :
    SameFiles s s' ↔ ¬PipeSpreads s p argok page := by
  rw [sysPipe] at h
  split_ifs at h with hargok
  · split at h
    · cases h
    · rename_i ft ic halloc
      obtain rfl := state_of_ok h
      refine iff_of_true ⟨rfl, congrFun (pipealloc_none halloc).fileRefs_eq⟩ ?_
      rintro ⟨-, rfl, ft₁, ft₂, rf, wf, fd, q, halloc₀, halloc₁, -⟩
      rw [pipealloc, halloc₀] at halloc
      simp [halloc₁] at halloc
    · rename_i ft ic rf wf halloc
      obtain ⟨hpage, hmade, rfl⟩ := pipealloc_some halloc
      split at h
      · cases h
      · rename_i hfull
        obtain ⟨ft₁, ic₁, ft₂, ic₂, hclose₀, hclose₁, rfl⟩ := pipeUndo_ok h
        refine iff_of_true ⟨rfl, hmade.ref hclose₀ hclose₁⟩ ?_
        rintro ⟨-, -, _, _, _, _, fd, _, -, -, hone, -⟩
        exact fdalloc_none hfull fd ((hone fd).mpr rfl)
      · rename_i tables₁ fd hfirst
        split at h
        · cases h
        · rename_i hsecond
          obtain ⟨ft₁, ic₁, ft₂, ic₂, hclose₀, hclose₁, rfl⟩ := pipeUndo_ok h
          obtain ⟨hfree, column, hcolumn, rfl⟩ := fdalloc_some hfirst
          have hcaller : column p = some rf :=
            (propagate_spec hcolumn).keeps (by simp [setFd])
          have hcell {q : Slot} (hq : firstPeer s.ofilePeers p = some q) :
              setFd s.ofiles p fd (some rf) q fd = s.ofiles q fd := by
            rw [setFd, Function.update_of_ne (firstOther_ne hq)]
          have htables := (setFd_none_eq_iff hfree hcaller).trans
            (flood_eq_self_iff (propagate_ok hcolumn))
          constructor
          · rintro ⟨hsame, -⟩ ⟨-, -, ft₃, ft₄, rf', wf', fd', q, halloc₀, -, hone, hq, hne⟩
            obtain ⟨ft₅, ft₆, halloc₀', -⟩ := hmade.made
            cases halloc₀.symm.trans halloc₀'
            obtain rfl := (hone fd).mp hfree
            exact hne ((hcell hq).symm.trans (htables.mp hsame q hq))
          · intro hnot
            refine ⟨htables.mpr fun q hq => ?_, hmade.ref hclose₀ hclose₁⟩
            by_contra hne
            rw [hcell hq] at hne
            obtain ⟨ft₅, ft₆, halloc₀, halloc₁, -⟩ := hmade.made
            exact hnot ⟨hargok, hpage, ft₅, ft₆, rf, wf, fd, q, halloc₀, halloc₁,
              only_one_free hfree hsecond, hq, hne⟩
        · cases h
  · obtain rfl := state_of_ok h
    exact iff_of_true ⟨rfl, fun _ => rfl⟩ fun hspreads => absurd hspreads.1 hargok

/-- Init opens a file and copies the descriptor until one is left. -/
def fillTable : List Event :=
  .call 0 (.open ⟨true, [some 7]⟩ true) :: List.replicate 14 (.call 0 (.dup 0))

/-- Without peers a `pipe` for the last descriptor leaves no trace. -/
theorem pipe_failure_restores_alone :
    ∃ s s', Reachable Step boot s ∧ sysPipe s 0 true true = .ok (s', -1) ∧
      s.ofiles 0 15 = none ∧ SameFiles s s' := by
  have hrun : ∃ s, Reachable Step boot s ∧ (s.ofiles 0 15 = none ∧
      firstPeer s.ofilePeers 0 = none ∧
      ((sysPipe s 0 true true).toOption.any fun x => decide (x.2 = -1 ∧ True)) = true) :=
    exists_reachableBy (.dispatch 0 :: fillTable) (by decide +kernel)
  obtain ⟨s, hreach, hfree, halone, hpipe⟩ := hrun
  obtain ⟨s', hpipe, -⟩ := ok_of_result (P := fun _ => True) hpipe
  refine ⟨s, s', hreach, hpipe, hfree, (pipe_failure_restores hpipe).mpr ?_⟩
  rintro ⟨-, -, _, _, _, _, _, q, -, -, -, hpeer, -⟩
  rw [halone] at hpeer
  cases hpeer

/-- Init clones a thread with `CLONE_FILES` and fills the table they share. A `pipe` for the
last descriptor fails, and the thread keeps the descriptor, for a file that is free again. -/
theorem pipe_failure_spreads :
    ∃ s s', Reachable Step boot s ∧ sysPipe s 0 true true = .ok (s', -1) ∧
      s.ofiles 1 15 = none ∧ s'.ofiles 1 15 = some 1 ∧ (s'.ftable 1).ref = 0 ∧
      ¬SameFiles s s' := by
  have hrun : ∃ s, Reachable Step boot s ∧ (s.ofiles 1 15 = none ∧
      ((sysPipe s 0 true true).toOption.any fun x =>
        decide (x.2 = -1 ∧ x.1.ofiles 1 15 = some 1 ∧ (x.1.ftable 1).ref = 0)) = true) :=
    exists_reachableBy (.dispatch 0 :: .call 0 (.clone 4 ⟨true, some 1, 8⟩) :: fillTable)
      (by decide +kernel)
  obtain ⟨s, hreach, hfree, hpipe⟩ := hrun
  obtain ⟨s', hpipe, hleft, href⟩ := ok_of_result
    (P := fun s' : Kernel => s'.ofiles 1 15 = some 1 ∧ (s'.ftable 1).ref = 0) hpipe
  refine ⟨s, s', hreach, hpipe, hfree, hleft, href, fun hsame => ?_⟩
  rw [hsame.1, hfree] at hleft
  cases hleft

end Xv6Threads
