/-
# Page directories nobody has

`wait` frees the page directory of the process it reaps and `exec` the one it
replaces; `join` frees none, which is right for a thread on shared memory and a
leak for one with a directory of its own. This module shows that it is the only
leak: if no thread with a directory of its own is joined, every directory
belongs to some process.
-/

import Xv6Threads.Analysis.Joining
import Xv6Threads.Analysis.Memory

namespace Xv6Threads

variable {s s' : Kernel}

open Lib
open Function (update_of_ne update_self)

/-- The directory of `z` is gone, or some other process has it too. -/
def Kernel.DirectoryElsewhere (s : Kernel) (z : Slot) : Prop :=
  ((s.procs z).pgdir.all fun d => (s.pgdirs d).isNone) = true ∨
    ∃ r, r ≠ z ∧ (s.procs r).state ≠ .unused ∧ (s.procs r).pgdir = (s.procs z).pgdir

/-- If `join(pid)` by `q` finds a thread to free, the thread does not have a
directory of its own. -/
def Kernel.JoinsShared (s : Kernel) (q : Slot) (pid : ℤ) : Prop :=
  ∀ z, joinScan s.procs q pid false (List.finRange NPROC) = some (.found z) →
    s.DirectoryElsewhere z

/-- No thread with a directory of its own is joined. -/
def JoinsOnlyShared (s : Kernel) : Event → Prop
  | .call q (.join pid) => s.JoinsShared q pid
  | .call q .resume =>
    match s.ctl q with
    | .joining pid => s.JoinsShared q pid
    | _ => True
  | _ => True

instance (s : Kernel) (z : Slot) : Decidable (s.DirectoryElsewhere z) :=
  inferInstanceAs (Decidable (_ ∨ _))

instance (s : Kernel) (q : Slot) (pid : ℤ) : Decidable (s.JoinsShared q pid) :=
  inferInstanceAs (Decidable (∀ _, _ → _))

instance (s : Kernel) (e : Event) : Decidable (JoinsOnlyShared s e) := by
  refine e.casesOn (motive := fun e => Decidable (JoinsOnlyShared s e)) (fun p c => ?_)
    (fun p => ?_) fun p => ?_
  · apply c.casesOn (motive := fun c => Decidable (JoinsOnlyShared s (.call p c))) <;> intros <;>
      dsimp only [JoinsOnlyShared] <;> try infer_instance
    split <;> infer_instance
  · dsimp only [JoinsOnlyShared]
    infer_instance
  · dsimp only [JoinsOnlyShared]
    infer_instance

/-- The thread `join` is about to free. -/
theorem JoinsOnlyShared.elsewhere {q z : Slot} {pid : ℤ} {c : Call}
    (h : JoinsOnlyShared s (.call q c)) (hpids : PidsOk s)
    (hc : c = .join pid ∨ c = .resume ∧ s.ctl q = .joining pid)
    (helig : JoinEligible s.procs q z pid) (hzombie : (s.procs z).state = .zombie) :
    s.DirectoryElsewhere z := by
  have hscan : joinScan s.procs q pid false (List.finRange NPROC) = some (.found z) := by
    rw [joinScan_eq helig, if_pos (List.mem_finRange z), if_pos hzombie]
    intro r hr
    exact hpids.unique (by simp [hzombie]) (hr.trans helig.pid.symm)
  rcases hc with rfl | ⟨rfl, hctl⟩
  · exact h z hscan
  · rw [JoinsOnlyShared, hctl] at h
    exact h z hscan

/-- Every directory that exists belongs to a process. -/
def DirectoriesUsed (s : Kernel) : Prop :=
  ∀ d, s.pgdirs d ≠ none → ∃ q, (s.procs q).state ≠ .unused ∧ (s.procs q).pgdir = some d

theorem directoriesUsed_boot : DirectoriesUsed boot := by
  intro d hd
  refine ⟨0, by decide, ?_⟩
  by_cases h0 : d = 0
  · rw [h0]
    rfl
  · simp [boot, h0] at hd

/-- Directories that were there before are the only ones to look at, and each
keeps a user. -/
theorem DirectoriesUsed.of_le (hi : DirectoriesUsed s)
    (hkept : ∀ d q, s'.pgdirs d ≠ none → (s.procs q).state ≠ .unused →
      (s.procs q).pgdir = some d →
        ∃ r, (s'.procs r).state ≠ .unused ∧ (s'.procs r).pgdir = some d)
    (hnew : ∀ d, s'.pgdirs d ≠ none → s.pgdirs d = none →
      ∃ r, (s'.procs r).state ≠ .unused ∧ (s'.procs r).pgdir = some d) : DirectoriesUsed s' := by
  intro d hd
  by_cases hold : s.pgdirs d = none
  · exact hnew d hd hold
  · obtain ⟨q, hused, hq⟩ := hi d hold
    exact hkept d q hd hused hq

theorem DirectoriesUsed.spawned {p np : Slot} {flags : BitVec 32} {env : SpawnEnv} {child : Proc}
    (hi : DirectoriesUsed s) (h : Spawned s p np flags env child s') : DirectoriesUsed s' := by
  have hchild : (s'.procs np).state ≠ .unused := by
    rw [h.child_eq, h.state]
    exact ProcState.noConfusion
  apply hi.of_le
  · intro d q _ hused hq
    have hqn := h.ne_of_used hused
    obtain ⟨_, _, hother⟩ := h.other_eq hqn
    refine ⟨q, ?_, ?_⟩
    · rw [hother]
      exact hused
    · rw [hother]
      exact hq
  · intro d hd hold
    -- a directory that was not there is the copy made for the child
    rcases h.memory with ⟨-, -, hsame⟩ | ⟨-, d', copy, -, hd', hnew⟩
    · rw [hsame] at hd
      exact absurd hold hd
    · obtain rfl : d = d' := by
        by_contra hne
        rw [hnew, update_of_ne hne] at hd
        exact hd hold
      exact ⟨np, hchild, by rw [h.child_eq, hd']⟩

theorem DirectoriesUsed.execed {p : Slot} {env : ExecEnv} (hi : DirectoriesUsed s)
    (hp : (s.procs p).state = .running) (h : Execed s p env s') :
    DirectoriesUsed s' := by
  obtain ⟨d, old, mem, sz, -, -, hold, -, hpgdirs, hprocs⟩ := h.image
  have hself : (s'.procs p).state ≠ .unused ∧ (s'.procs p).pgdir = some d := by
    rw [hprocs, update_self]
    exact ⟨by simp [hp], rfl⟩
  -- the old directory is gone, the new one is the caller's
  have hgone : ∀ d', s'.pgdirs d' ≠ none → d' ≠ old := by
    rintro d' hd' rfl
    rw [hpgdirs, update_self] at hd'
    exact hd' rfl
  apply hi.of_le
  · intro d' q hd' hused hq
    have hqp : q ≠ p := by
      rintro rfl
      exact hgone d' hd' (Option.some.inj (hq.symm.trans hold))
    refine ⟨q, ?_, ?_⟩
    · rw [hprocs, update_of_ne hqp]
      exact hused
    · rw [hprocs, update_of_ne hqp]
      exact hq
  · intro d' hd' hfresh
    have hd'old := hgone d' hd'
    obtain rfl : d' = d := by
      by_contra hne
      rw [hpgdirs, update_of_ne hd'old, update_of_ne hne] at hd'
      exact hd' hfresh
    exact ⟨p, hself⟩

/-- Freeing a slot whose directory is gone, or is someone else's as well. -/
theorem DirectoriesUsed.reaped {s₁ : Kernel} {q z : Slot} (hi : DirectoriesUsed s)
    (hsame : SameMemory s s₁) (h : Reaped s₁ q z s')
    (hpgdirs : ∀ d, s'.pgdirs d ≠ none → s.pgdirs d ≠ none)
    (hz : ∀ d, s'.pgdirs d ≠ none → (s.procs z).pgdir = some d →
      ∃ r, r ≠ z ∧ (s.procs r).state ≠ .unused ∧ (s.procs r).pgdir = some d) :
    DirectoriesUsed s' := by
  have hother : ∀ r d, r ≠ z → (s.procs r).state ≠ .unused → (s.procs r).pgdir = some d →
      (s'.procs r).state ≠ .unused ∧ (s'.procs r).pgdir = some d := by
    intro r d hr hused hd
    rw [h.kept r hr, hsame.pgdir]
    exact ⟨mt (hsame.tree.unused r).mp hused, hd⟩
  apply hi.of_le
  · intro d r hd hused hr
    by_cases hrz : r = z
    · obtain ⟨r', hr', hused', hd'⟩ := hz d hd (hrz ▸ hr)
      exact ⟨r', hother r' d hr' hused' hd'⟩
    · exact ⟨r, hother r d hrz hused hr⟩
  · intro d hd hold
    exact absurd hold (hpgdirs d hd)

theorem DirectoriesUsed.step {e : Event} (hi : DirectoriesUsed s) (hpids : PidsOk s)
    (hgood : JoinsOnlyShared s e) (hstep : Step s e s') :
    DirectoriesUsed s' := by
  cases step_memory hstep with
  | same h =>
    intro d hd
    rw [h.pgdirs] at hd
    obtain ⟨q, hused, hq⟩ := hi d hd
    exact ⟨q, mt (h.tree.unused q).mp hused, (h.pgdir q).trans hq⟩
  | spawnFailed h =>
    intro d hd
    rw [h.rest_eq.2.2.2.1] at hd
    obtain ⟨q, hused, hq⟩ := hi d hd
    have hqn := h.ne_of_used hused
    exact ⟨q, by rwa [h.other_eq hqn], by rwa [h.other_eq hqn]⟩
  | spawned hen hc hown h => exact hi.spawned h
  | exited hen h =>
    intro d hd
    rw [h.pgdirs] at hd
    obtain ⟨q, hused, hq⟩ := hi d hd
    refine ⟨q, mt (h.unused_iff hen.1 q).mp hused, ?_⟩
    rw [h.procs]
    exact hq
  | waited hc hscan hsame h hpgdir hfree =>
    rename_i q z c d s₁
    have hgone : ∀ d', s'.pgdirs d' ≠ none → d' ≠ d ∧ s.pgdirs d' ≠ none := by
      intro d' hd'
      have hne : d' ≠ d := by
        rintro rfl
        rw [hfree, update_self] at hd'
        exact hd' rfl
      rw [hfree, update_of_ne hne] at hd'
      exact ⟨hne, hd'⟩
    apply hi.reaped hsame h fun d' hd' => (hgone d' hd').2
    intro d' hd' hz
    exact absurd (Option.some.inj (hz.symm.trans hpgdir)) (hgone d' hd').1
  | joined hc helig hsame h hpgdirs =>
    rename_i q z pid c s₁
    have hzombie := (hsame.tree.zombie z).mp h.zombie
    apply hi.reaped hsame h (fun d hd => hpgdirs ▸ hd)
    intro d hd hz
    rw [hpgdirs] at hd
    rcases hgood.elsewhere hpids hc helig hzombie with hgone | ⟨r, hr, hused, hrd⟩
    · rw [hz] at hgone
      exact absurd (by simpa using hgone) hd
    · exact ⟨r, hr, hused, hrd.trans hz⟩
  | execed hen h => exact hi.execed hen.1 h
  | resized hen h =>
    rename_i p n budget d mem mem' sz'
    have hmem : s.pgdirs d ≠ none := by
      rw [h.memory]
      exact Option.some_ne_none _
    intro d' hd'
    have hold : s.pgdirs d' ≠ none := by
      by_cases hdd : d' = d
      · rw [hdd]
        exact hmem
      · rwa [h.pgdirs_eq, update_of_ne hdd] at hd'
    obtain ⟨q, hused, hq⟩ := hi d' hold
    obtain ⟨sz, hproc⟩ := h.procs_eq q
    refine ⟨q, ?_, ?_⟩
    · rw [hproc]
      exact hused
    · rw [hproc]
      exact hq

/-- If no thread with a directory of its own is joined, every page directory that
was created and not freed is the directory of some process. -/
theorem directories_used_of_joins_only_shared {s : Kernel}
    (h : ReachableBy Step JoinsOnlyShared boot s) :
    ∀ d, s.pgdirs d ≠ none → ∃ q, (s.procs q).state ≠ .unused ∧ (s.procs q).pgdir = some d := by
  refine h.invariant (P := DirectoriesUsed) directoriesUsed_boot ?_
  intro s e s' hreach hi hgood hstep
  exact hi.step (pidsOk_of_reachable hreach.reachable) hgood hstep

/-- Init forks a process, which clones a thread onto its memory, joins it and
loads a new image; the new directory is its own. -/
theorem directories_used_of_joins_only_shared_exec :
    ∃ s, ReachableBy Step JoinsOnlyShared boot s ∧
      ((s.procs 2).state = .unused ∧ s.pgdirs 1 = none ∧ s.pgdirs 9 ≠ none) ∧
      ∃ q, (s.procs q).state ≠ .unused ∧ (s.procs q).pgdir = some 9 := by
  have hrun : ∃ s, ReachableBy Step JoinsOnlyShared boot s ∧
      ((s.procs 2).state = .unused ∧ s.pgdirs 1 = none ∧ s.pgdirs 9 ≠ none) :=
    exists_reachableBy
      [.dispatch 0, .call 0 (.fork ⟨true, some 1, 8⟩), .dispatch 1,
        .call 1 (.clone 1 ⟨true, none, 8⟩), .dispatch 2, .call 2 .exit, .call 1 (.join 3),
        .call 1 (.exec ⟨⟨true, []⟩, true, some 9, [⟨4096, true, 8⟩], 8, true⟩)]
      (by decide +kernel)
  obtain ⟨s, hreach, hend⟩ := hrun
  exact ⟨s, hreach, hend, directories_used_of_joins_only_shared hreach 9 hend.2.2⟩

/-- Init clones a thread without `CLONE_VM`, the thread exits, init joins it:
the copy of init's memory made for the thread belongs to nobody. -/
theorem joined_thread_leaks_directory :
    ∃ s, Reachable Step boot s ∧ s.pgdirs 1 ≠ none ∧
      ∀ q, (s.procs q).state ≠ .unused → (s.procs q).pgdir ≠ some 1 :=
  exists_reachableBy
    [.dispatch 0, .call 0 (.clone 0 ⟨true, some 1, 8⟩), .dispatch 1, .call 1 .exit,
      .call 0 (.join 2)] (by decide +kernel)

end Xv6Threads
