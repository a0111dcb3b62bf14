/-
# Whom a file call can reach

A descriptor or directory call writes into its caller and, through the peer
arrays, into whatever processes the arrays lead to. This module bounds that set
by the entries of the arrays, and then by the clones that were made, for runs
in which no `exit` leaves an entry for the process behind.
-/

import Xv6Threads.Analysis.Sharing

namespace Xv6Threads

open Lib

variable {β : Type} {tables : FdTables} {fd : Fd} {s s' : Kernel}

/-- Some path of array entries leads from `p` to `q`. -/
abbrev LeadsTo (peers : Slot → PeerList) (p q : Slot) : Prop :=
  Relation.TransGen (FloodEdge (peerNbr peers)) p q

/-- Apart from `p`, only what the arrays of `p` lead to differs. -/
def OnlyBehind {β : Type} (peers : Slot → PeerList) (p : Slot) (cells cells' : Slot → β) : Prop :=
  ∀ q, q ≠ p → ¬ LeadsTo peers p q → cells' q = cells q

section OnlyBehind

variable {peers : Slot → PeerList} {p : Slot}

theorem OnlyBehind.refl (cells : Slot → β) : OnlyBehind peers p cells cells :=
  fun _ _ _ => rfl

theorem OnlyBehind.trans {a b c : Slot → β} (hab : OnlyBehind peers p a b)
    (hbc : OnlyBehind peers p b c) : OnlyBehind peers p a c :=
  fun q hq hpath => (hbc q hq hpath).trans (hab q hq hpath)

theorem onlyBehind_setFd (tables : FdTables) (fd : Fd) (f : Option FileIdx) :
    OnlyBehind peers p tables (setFd tables p fd f) :=
  fun _ hq _ => Function.update_of_ne hq ..

theorem propagate_onlyBehind [DecidableEq β] {v : β} {cells cells' : Slot → β}
    (h : propagate peers v p cells = .ok cells') : OnlyBehind peers p cells cells' := by
  intro q _ hpath
  rcases propagate_spec h q with hsame | ⟨-, hreach⟩
  · exact hsame
  · exact absurd hreach hpath

theorem onlyBehind_setColumn {column : Slot → Option FileIdx}
    (h : OnlyBehind peers p (fun q => tables q fd) column) :
    OnlyBehind peers p tables (setColumn tables fd column) := by
  intro q hq hpath
  rw [setColumn, h q hq hpath, Function.update_eq_self]

theorem closeOfileClone_onlyBehind {tables' : FdTables}
    (h : closeOfileClone peers tables p fd = .ok tables') :
    OnlyBehind peers p tables tables' := by
  rw [closeOfileClone] at h
  split at h
  · cases h
  · rename_i hcolumn
    cases h
    exact onlyBehind_setColumn (propagate_onlyBehind hcolumn)

theorem fdalloc_onlyBehind {tables' : FdTables} {f : FileIdx}
    (h : fdalloc peers tables p f = .ok (some (tables', fd))) :
    OnlyBehind peers p tables tables' := by
  obtain ⟨-, column, hcolumn, rfl⟩ := fdalloc_some h
  exact (onlyBehind_setFd _ _ _).trans (onlyBehind_setColumn (propagate_onlyBehind hcolumn))

end OnlyBehind

theorem PipeEnd.onlyBehind {p : Slot} {argok page : Bool} (h : PipeEnd s p argok page s') :
    OnlyBehind s.ofilePeers p s.ofiles s'.ofiles := by
  cases h with
  | refused => exact .refl _
  | failed _ => exact .refl _
  | undone _ _ hfd _ _ =>
    rcases hfd with ⟨-, rfl⟩ | ⟨tables₁, fd, hfirst, -, rfl⟩
    · exact .refl _
    · exact (fdalloc_onlyBehind hfirst).trans (onlyBehind_setFd _ _ _)
  | done _ hfd₀ hfd₁ => exact (fdalloc_onlyBehind hfd₀).trans (fdalloc_onlyBehind hfd₁)

/-- The four descriptor calls write no table that the arrays do not lead to. -/
theorem onlyBehind_of_isFile {p : Slot} {c : Call} {r : Option ℤ} (hc : c.isFile = true)
    (hrun : syscall s p c = .ok (s', r)) :
    OnlyBehind s.ofilePeers p s.ofiles s'.ofiles := by
  cases c with
  | «open» w accept =>
    obtain ⟨m, hopen, -⟩ := returned_eq_ok hrun
    rcases sysOpen_ok hopen with ⟨ic, -, rfl⟩ | ⟨ic, ip, ft, f, ft', ic', -, -, -, rfl⟩ |
      ⟨ic, ip, ft, f, tables, new, -, -, hfd, rfl⟩
    · exact .refl _
    · exact .refl _
    · exact fdalloc_onlyBehind hfd
  | dup fd =>
    obtain ⟨m, hdup, -⟩ := returned_eq_ok hrun
    rcases sysDup_ok hdup with rfl | ⟨old, f, tables, new, ft, -, hfd, -, rfl⟩
    · exact .refl _
    · exact fdalloc_onlyBehind hfd
  | pipe argok page =>
    obtain ⟨m, hpipe, -⟩ := returned_eq_ok hrun
    exact (sysPipe_ok hpipe).onlyBehind
  | close fd =>
    obtain ⟨m, hclose, -⟩ := returned_eq_ok hrun
    rcases sysClose_ok hclose with rfl | ⟨old, f, tables, ft, ic, -, -, hfd, rfl⟩
    · exact .refl _
    · exact (onlyBehind_setFd _ _ _).trans (closeOfileClone_onlyBehind hfd)
  | _ => cases hc

/-- `chdir` moves no process that the arrays do not lead to. -/
theorem Moved.onlyBehind {p : Slot} {w : Walk} (h : Moved s p w s') :
    OnlyBehind s.cwdPeers p (fun q => (s.procs q).cwd) fun q => (s'.procs q).cwd := by
  obtain ⟨ic, ip, old, cwds, -, -, hcwds, -, hprocs⟩ := h.moved
  have hcells : OnlyBehind s.cwdPeers p (fun q => (s.procs q).cwd) cwds := by
    rcases hcwds with ⟨-, rfl⟩ | ⟨-, hpwd⟩
    · exact .refl _
    · exact propagate_onlyBehind hpwd
  intro q hq hpath
  dsimp only
  rw [hprocs, if_neg hq]
  exact hcells q hq hpath

/-- No `exit` leaves an entry for the process behind, in either array. -/
def ExitsUnlink (s : Kernel) (e : Event) : Prop :=
  ofileField.ExitUnlinks s e ∧ cwdField.ExitUnlinks s e

instance (s : Kernel) (e : Event) : Decidable (ExitsUnlink s e) :=
  inferInstanceAs (Decidable (_ ∧ _))

theorem PeerField.NoStale.live_of_changed {F : PeerField} (hstale : F.NoStale s) (hok : F.Ok s)
    {p q : Slot} {cells cells' : Slot → β}
    (h : OnlyBehind (fun q => F.get (s.procs q)) p cells cells') (hq : q ≠ p)
    (hchanged : cells' q ≠ cells q) :
    (s.procs q).Live ∧ Connected s F.flag (s.procs p).pid (s.procs q).pid := by
  by_contra hnot
  exact hchanged (h q hq fun hpath => hnot (hstale.transGen hok hpath))

/-- A file call in a run whose exits all unlink: whoever it changes besides its
caller is alive and related to the caller by clones of the matching kind. -/
theorem file_calls_reach_relatives {s s' : Kernel} {p q : Slot} {c : Call}
    (h : ReachableBy Step ExitsUnlink boot s)
    (hc : c.isFile = true ∨ ∃ w isDir, c = .chdir w isDir) (hstep : Step s (.call p c) s')
    (hq : q ≠ p) :
    ((s'.procs q).ofile ≠ (s.procs q).ofile →
      (s.procs q).Live ∧ Connected s flagFiles (s.procs p).pid (s.procs q).pid) ∧
    ((s'.procs q).cwd ≠ (s.procs q).cwd →
      (s.procs q).Live ∧ Connected s flagFs (s.procs p).pid (s.procs q).pid) := by
  have hofile := ofileField.noStale_of_reachable (fun _ _ hgood => hgood.1) h
  have hcwd := cwdField.noStale_of_reachable (fun _ _ hgood => hgood.2) h
  have hofileOk := ofileField.ok_of_reachable h.reachable
  have hcwdOk := cwdField.ok_of_reachable h.reachable
  obtain ⟨_, _, r, heq, hen, hrun⟩ | ⟨_, heq, -⟩ | ⟨_, heq, -⟩ := step_cases hstep
  · obtain ⟨rfl, rfl⟩ := Event.call.inj heq
    rcases hc with hc | ⟨w, isDir, rfl⟩
    · refine ⟨?_, ?_⟩
      · exact hofile.live_of_changed hofileOk (onlyBehind_of_isFile hc hrun) hq
      · exact fun hne => absurd ((fileShape_of_isFile hc hrun).cwd_eq q) hne
    · obtain ⟨m, hchdir, -⟩ := returned_eq_ok hrun
      rcases sysChdir_ok hchdir with ⟨ic, -, rfl⟩ | hmoved
      · exact ⟨fun hne => absurd rfl hne, fun hne => absurd rfl hne⟩
      · refine ⟨?_, ?_⟩
        · exact fun hne => absurd (hmoved.ofile_eq q) hne
        · exact hcwd.live_of_changed hcwdOk hmoved.onlyBehind hq
  · cases heq
  · cases heq

/-- The process `1` clones the thread `2` with its files shared and opens a
file: the thread's table changes, and the thread is a relative. -/
theorem file_calls_reach_relatives_thread :
    ∃ s s', ReachableBy Step ExitsUnlink boot s ∧
      Step s (.call 1 (.open ⟨true, []⟩ true)) s' ∧ (s'.procs 2).ofile ≠ (s.procs 2).ofile ∧
      Connected s flagFiles (s.procs 1).pid (s.procs 2).pid := by
  have hrun : ∃ s, ReachableBy Step ExitsUnlink boot s ∧
      ((next s (.call 1 (.open ⟨true, []⟩ true))).any fun s' =>
        decide ((s'.procs 2).ofile 0 ≠ (s.procs 2).ofile 0)) = true :=
    exists_reachableBy
      [.dispatch 0, .call 0 (.fork ⟨true, some 1, 8⟩), .dispatch 1,
        .call 1 (.clone 4 ⟨true, some 2, 8⟩)] (by decide +kernel)
  obtain ⟨s, hreach, hopen⟩ := hrun
  obtain ⟨s', hstep, hchanged⟩ := (Option.any_eq_true _ _).mp hopen
  have hne : (s'.procs 2).ofile ≠ (s.procs 2).ofile := fun heq =>
    of_decide_eq_true hchanged (congrFun heq 0)
  exact ⟨s, s', hreach, hstep, hne,
    ((file_calls_reach_relatives hreach (.inl rfl) hstep (by decide)).1 hne).2⟩

/-- Two sides of a split that no recorded clone crosses are not connected. -/
theorem Connected.mem_iff {flag : BitVec 32 → Bool} {a b : ℤ} {side : List ℤ}
    (hside : ∀ x ∈ s.clones, flag x.flags = true → (x.creator ∈ side ↔ x.child ∈ side))
    (h : Connected s flag a b) : a ∈ side ↔ b ∈ side := by
  induction h with
  | rel a b hab =>
    obtain ⟨x, hx, hflag, rfl, rfl⟩ := hab
    exact hside x hx hflag
  | refl => rfl
  | symm _ _ _ ih => exact ih.symm
  | trans _ _ _ _ _ ih₁ ih₂ => exact ih₁.trans ih₂

/-- The process `1` clones the threads `2` and `3` with its files shared and
exits; its array names `2` only, so `3` keeps an entry for it. Once `1` is
waited for, init forks a process into its slot, and the next `open` by `3`
writes into that process. -/
theorem open_writes_into_stranger :
    ∃ s s', Reachable Step boot s ∧ Step s (.call 3 (.open ⟨true, []⟩ true)) s' ∧
      (s.procs 1).isThread = false ∧ (s'.procs 1).ofile ≠ (s.procs 1).ofile ∧
      ¬ Connected s flagFiles (s.procs 3).pid (s.procs 1).pid := by
  have hrun : ∃ s, Reachable Step boot s ∧
      ((∀ x ∈ s.clones, flagFiles x.flags = true →
          (x.creator ∈ [2, 3, 4] ↔ x.child ∈ [2, 3, 4])) ∧
        (s.procs 3).pid = 4 ∧ (s.procs 1).pid = 5 ∧ (s.procs 1).isThread = false ∧
        ((next s (.call 3 (.open ⟨true, []⟩ true))).any fun s' =>
          decide ((s'.procs 1).ofile 0 ≠ (s.procs 1).ofile 0)) = true) :=
    exists_reachableBy
      [.dispatch 0, .call 0 (.fork ⟨true, some 1, 8⟩), .dispatch 1,
        .call 1 (.clone 4 ⟨true, some 2, 8⟩), .call 1 (.clone 4 ⟨true, some 3, 8⟩),
        .call 1 .exit, .call 0 .wait, .call 0 (.fork ⟨true, some 4, 8⟩), .dispatch 3]
      (by decide +kernel)
  obtain ⟨s, hreach, hside, hthree, hone, hfork, hopen⟩ := hrun
  obtain ⟨s', hstep, hchanged⟩ := (Option.any_eq_true _ _).mp hopen
  refine ⟨s, s', hreach, hstep, hfork, ?_, ?_⟩
  · exact fun heq => of_decide_eq_true hchanged (congrFun heq 0)
  · intro hconn
    have hmem := hconn.mem_iff hside
    rw [hthree, hone] at hmem
    simp at hmem

end Xv6Threads
