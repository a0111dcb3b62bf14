/-
# Killing

`kill` and `threadkill` look for a pid in every slot, the free ones included.
A free slot has pid 0 once it was reaped, and the pid of the last attempt if a
`fork` or `clone` failed in it; marked, it stays marked, since `allocproc` does
not reset the flag, and the next process in it is born killed. As long as
nobody asks for a pid a free slot carries, this does not happen.
-/

import Xv6Threads.Analysis.Lineage

namespace Xv6Threads

open Lib

variable {s s' : Kernel} {p q : Slot} {c : Call}

/-- The slot `kill` or `threadkill` marks. -/
def Call.victim (s : Kernel) : Call → Option Slot
  | .kill pid => (List.finRange NPROC).find? fun q => decide ((s.procs q).pid = pid)
  | .threadkill pid =>
    (List.finRange NPROC).find? fun q => decide ((s.procs q).pid = pid) && (s.procs q).isThread
  | _ => none

/-- Nobody asks for a pid that is left over in a free slot. For `threadkill` the
slot must have been a thread's. -/
def KillsUsed (s : Kernel) : Event → Prop
  | .call _ (.kill pid) => ∀ q, (s.procs q).state = .unused → (s.procs q).pid ≠ pid
  | .call _ (.threadkill pid) =>
    ∀ q, (s.procs q).state = .unused → (s.procs q).isThread = true → (s.procs q).pid ≠ pid
  | _ => True

instance (s : Kernel) (e : Event) : Decidable (KillsUsed s e) := by
  unfold KillsUsed
  split <;> infer_instance

theorem KillsUsed.victim_used {v : Slot} (h : KillsUsed s (.call p c)) (hv : c.victim s = some v) :
    (s.procs v).state ≠ .unused := by
  intro hfree
  cases c with
  | kill pid =>
    have hpid := List.find?_some hv
    exact h v hfree (by simpa using hpid)
  | threadkill pid =>
    have hpid := List.find?_some hv
    rw [Bool.and_eq_true, decide_eq_true_eq] at hpid
    exact h v hfree hpid.2 hpid.1
  | _ => cases hv

/-! ## Who gets marked -/

theorem markKilled_killed (s : Kernel) {v : Slot} (hq : q ≠ v) :
    ((markKilled s v).procs q).killed = (s.procs q).killed := by
  rw [markKilled, Kernel.setProc_procs_of_ne _ _ _ hq]

/-- Freeing a slot marks nobody. -/
theorem Reaped.killed {z r : Slot} (h : Reaped s q z s') (hr : (s'.procs r).killed = true) :
    (s.procs r).killed = true := by
  by_cases hrz : r = z
  · obtain ⟨_, hfreed⟩ := h.freed
    rw [hrz, hfreed] at hr
    cases hr
  · rwa [h.kept r hrz] at hr

theorem Spawned.killed_eq {np : Slot} {flags : BitVec 32} {env : SpawnEnv} {child : Proc}
    (h : Spawned s p np flags env child s') (q : Slot) :
    (s'.procs q).killed = (s.procs q).killed := by
  by_cases hq : q = np
  · rw [hq, h.child_eq, h.killed]
  · obtain ⟨_, _, hother⟩ := h.other_eq hq
    rw [hother]

theorem SpawnFailed.killed_eq {np : Slot} (h : SpawnFailed s np s') (q : Slot) :
    (s'.procs q).killed = (s.procs q).killed := by
  by_cases hq : q = np
  · obtain ⟨_, _, _, _, _, _, -, rfl⟩ := h
    rw [hq]
    simp
  · rw [h.other_eq hq]

theorem killed_of_waitIter {r : Option ℤ} (hrun : waitIter s p = .ok (s', r))
    (hq : (s'.procs q).killed = true) :
    (s.procs q).killed = true := by
  rcases waitIter_ok hrun with ⟨z, d, -, h, -⟩ | ⟨rfl, -⟩ | ⟨rfl, -⟩
  · exact h.killed hq
  · exact hq
  · rw [sleepOnSelf, Kernel.setCtl_procs, Kernel.setProc_procs] at hq
    split_ifs at hq with hqp
    · rwa [hqp]
    · exact hq

theorem killed_of_joinIter {pid : ℤ} (hq : ((joinIter s p pid).1.procs q).killed = true) :
    (s.procs q).killed = true := by
  rcases joinIter_cases s p pid with ⟨z, -, h, -⟩ | hfail | ⟨-, hsleep⟩
  · exact h.killed hq
  · rwa [hfail] at hq
  · rw [hsleep, sleepOnSelf, Kernel.setCtl_procs, Kernel.setProc_procs] at hq
    split_ifs at hq with hqp
    · rwa [hqp]
    · exact hq

/-- A call marks at most the process `kill` or `threadkill` finds. -/
theorem killed_of_syscall {r : Option ℤ} (hen : Enabled s p c)
    (hrun : syscall s p c = .ok (s', r)) (hq : (s'.procs q).killed = true) :
    (s.procs q).killed = true ∨ c.victim s = some q := by
  have hused : (s.procs p).state ≠ .unused := by simp [hen.1]
  cases c with
  | fork env =>
    obtain ⟨m, hm, -⟩ := returned_eq_ok hrun
    rcases fork_ok hm hused with ⟨rfl, -⟩ | ⟨np, h, -⟩ | ⟨np, child, h, -⟩
    · exact .inl hq
    · exact .inl (h.killed_eq q ▸ hq)
    · exact .inl (h.killed_eq q ▸ hq)
  | clone flags env =>
    obtain ⟨m, hm, -⟩ := returned_eq_ok hrun
    rcases clone_ok hm hused with ⟨rfl, -⟩ | ⟨np, h, -⟩ | ⟨np, child, h, -⟩
    · exact .inl hq
    · exact .inl (h.killed_eq q ▸ hq)
    · exact .inl (h.killed_eq q ▸ hq)
  | exec env =>
    obtain ⟨m, hm, -⟩ := returned_eq_ok hrun
    rcases exec_ok hm with ⟨ic, -, rfl⟩ | h
    · exact .inl hq
    · obtain ⟨_, _, hproc⟩ := h.onlyMemory q
      rw [hproc] at hq
      exact .inl hq
  | sbrk n budget =>
    obtain ⟨m, hm, -⟩ := returned_eq_ok hrun
    rcases sysSbrk_ok hm with rfl | ⟨d, mem, mem', sz', h⟩
    · exact .inl hq
    · obtain ⟨_, _, hproc⟩ := h.onlyMemory q
      rw [hproc] at hq
      exact .inl hq
  | exit =>
    rw [syscall] at hrun
    split at hrun
    · cases hrun
    · rename_i s₁ hexit
      rw [state_of_ok hrun] at hq
      obtain ⟨st, h⟩ := exit_ok hexit
      rw [h.procs] at hq
      exact .inl hq
  | wait => exact .inl (killed_of_waitIter hrun hq)
  | join pid =>
    rw [syscall] at hrun
    rw [state_of_ok hrun] at hq
    exact .inl (killed_of_joinIter hq)
  | resume =>
    have hawake : ((s.setProc p { s.procs p with chan := none }).procs q).killed =
        (s.procs q).killed := by
      rw [Kernel.setProc_procs]
      split_ifs with hqp
      · rw [hqp]
      · rfl
    rw [syscall, resume] at hrun
    dsimp only at hrun
    rw [← hawake]
    split at hrun
    · exact .inl (killed_of_waitIter hrun hq)
    · rw [state_of_ok hrun] at hq
      exact .inl (killed_of_joinIter hq)
    · rw [state_of_ok hrun] at hq
      exact .inl (hawake.trans hq)
  | kill pid =>
    rw [syscall, returned] at hrun
    rw [state_of_ok hrun, kill] at hq
    split at hq
    · exact .inl hq
    · rename_i v hv
      by_cases hqv : q = v
      · exact .inr (hqv ▸ hv)
      · exact .inl (markKilled_killed s hqv ▸ hq)
  | threadkill pid =>
    rw [syscall, returned] at hrun
    rw [state_of_ok hrun, threadkill] at hq
    split at hq
    · exact .inl hq
    · rename_i v hv
      by_cases hqv : q = v
      · exact .inr (hqv ▸ hv)
      · exact .inl (markKilled_killed s hqv ▸ hq)
  | chdir w isDir =>
    obtain ⟨m, hm, -⟩ := returned_eq_ok hrun
    rcases sysChdir_ok hm with ⟨ic, -, rfl⟩ | h
    · exact .inl hq
    · obtain ⟨_, _, _, _, -, -, -, -, hprocs⟩ := h.moved
      rw [hprocs] at hq
      exact .inl hq
  | «open» w accept | dup fd | pipe argok page | close fd =>
    obtain ⟨_, _, _, rfl⟩ := fileShape_of_isFile rfl hrun
    exact .inl hq

/-! ## Free slots are not marked -/

/-- No free slot is marked. -/
def FreeUnmarked (s : Kernel) : Prop :=
  ∀ q, (s.procs q).state = .unused → (s.procs q).killed = false

theorem freeUnmarked_boot : FreeUnmarked boot := by
  intro q hfree
  by_cases hq : q = 0
  · subst hq
    cases hfree
  · rw [boot_procs_of_ne hq]

/-- A slot that is free after a step was free before it or has just been
reaped. -/
theorem TreeChange.unused_before {e : Event} (h : TreeChange s e s')
    (hfree : (s'.procs q).state = .unused) :
    (s.procs q).state = .unused ∨ (s'.procs q).killed = false := by
  cases h with
  | same h => exact .inl ((h.unused q).mp hfree)
  | spawnFailed h =>
    rename_i np
    by_cases hq : q = np
    · obtain ⟨_, _, _, _, _, _, hnp, -⟩ := h
      exact .inl (hq ▸ hnp)
    · rw [h.other_eq hq] at hfree
      exact .inl hfree
  | forked hen h hfork =>
    rename_i np env child
    by_cases hq : q = np
    · exact .inl (hq ▸ h.free)
    · obtain ⟨_, _, hother⟩ := h.other_eq hq
      rw [hother] at hfree
      exact .inl hfree
  | cloned hen h hclone =>
    rename_i np flags env child
    by_cases hq : q = np
    · exact .inl (hq ▸ h.free)
    · obtain ⟨_, _, hother⟩ := h.other_eq hq
      rw [hother] at hfree
      exact .inl hfree
  | exited hen h => exact .inl ((h.unused_iff hen.1 q).mp hfree)
  | reaped hsame h =>
    rename_i r z s₁
    by_cases hq : q = z
    · obtain ⟨_, hfreed⟩ := h.freed
      refine .inr ?_
      rw [hq, hfreed]
    · rw [h.kept q hq] at hfree
      exact .inl ((hsame.unused q).mp hfree)

theorem FreeUnmarked.step {e : Event} (hi : FreeUnmarked s) (hgood : KillsUsed s e)
    (hstep : Step s e s') : FreeUnmarked s' := by
  intro q hfree
  rcases (step_tree hstep).unused_before hfree with hold | hunmarked
  · by_contra hmarked
    rw [Bool.not_eq_false] at hmarked
    have hq := hi q hold
    rcases step_cases hstep with ⟨p, c, r, rfl, hen, hrun⟩ | ⟨p, rfl, hp, rfl⟩ | ⟨p, rfl, hp, rfl⟩
    · rcases killed_of_syscall hen hrun hmarked with hbefore | hv
      · rw [hq] at hbefore
        cases hbefore
      · exact hgood.victim_used hv hold
    all_goals
      have hqp : q ≠ p := by
        rintro rfl
        rw [hp] at hold
        cases hold
      rw [Kernel.setProc_procs_of_ne _ _ _ hqp, hq] at hmarked
      cases hmarked
  · exact hunmarked

/-- The calls that make a process. -/
def Call.isSpawn : Call → Bool
  | .fork _ => true
  | .clone _ _ => true
  | _ => false

/-- A spawn that returns a pid has made the process with that pid. -/
theorem spawned_of_isSpawn {n : ℤ} (hc : c.isSpawn = true) (hen : Enabled s p c)
    (hrun : syscall s p c = .ok (s', some n)) (hn : n ≠ -1) :
    ∃ np flags env child, Spawned s p np flags env child s' ∧ child.pid = n := by
  have hused : (s.procs p).state ≠ .unused := by simp [hen.1]
  cases c with
  | fork env =>
    obtain ⟨m, hm, hret⟩ := returned_eq_ok hrun
    cases hret
    rcases fork_ok hm hused with ⟨-, hr⟩ | ⟨np, -, hr⟩ | ⟨np, child, h, hfork, hr⟩
    · exact absurd hr hn
    · exact absurd hr hn
    · exact ⟨np, 0, env, child, h, hfork.pid.trans hr.symm⟩
  | clone flags env =>
    obtain ⟨m, hm, hret⟩ := returned_eq_ok hrun
    cases hret
    rcases clone_ok hm hused with ⟨-, hr⟩ | ⟨np, -, hr⟩ | ⟨np, child, h, hclone, hr⟩
    · exact absurd hr hn
    · exact absurd hr hn
    · exact ⟨np, flags, env, child, h, hclone.pid.trans hr.symm⟩
  | _ => cases hc

/-- If nobody asks for a pid left over in a free slot, the process a `fork` or
`clone` returns is not killed, and a `kill` or `threadkill` that does not ask
for one either marks no free slot. -/
theorem born_unkilled_of_kills_used {s : Kernel} (h : ReachableBy Step KillsUsed boot s) :
    (∀ p c s' n, c.isSpawn = true → Enabled s p c → syscall s p c = .ok (s', some n) → n ≠ -1 →
      ∃ np, (s'.procs np).pid = n ∧ (s'.procs np).state = .runnable ∧
        (s'.procs np).killed = false) ∧
    ∀ p c s' r, Enabled s p c → KillsUsed s (.call p c) → syscall s p c = .ok (s', r) →
      ∀ q, (s'.procs q).killed ≠ (s.procs q).killed → (s.procs q).state ≠ .unused := by
  have hi : FreeUnmarked s := h.invariant freeUnmarked_boot fun _ _ _ _ hi hgood hstep =>
    hi.step hgood hstep
  refine ⟨?_, ?_⟩
  · intro p c s' n hc hen hrun hn
    obtain ⟨np, flags, env, child, hspawn, hpid⟩ := spawned_of_isSpawn hc hen hrun hn
    refine ⟨np, ?_, ?_, ?_⟩
    · rw [hspawn.child_eq, hpid]
    · rw [hspawn.child_eq, hspawn.state]
    · rw [hspawn.killed_eq, hi np hspawn.free]
  · intro p c s' r hen hgood hrun q hchange hfree
    rw [hi q hfree, ne_eq, Bool.not_eq_false] at hchange
    rcases killed_of_syscall hen hrun hchange with hbefore | hv
    · rw [hi q hfree] at hbefore
      cases hbefore
    · exact hgood.victim_used hv hfree

/-- A `fork` fails, its pid stays in the slot, and init kills the next one: the
process forked after that is not killed. -/
theorem born_unkilled_of_kills_used_third :
    ∃ s, ReachableBy Step KillsUsed boot s ∧ (s.procs 1).pid = 3 ∧ (s.procs 1).killed = true ∧
      ∃ s', Step s (.call 0 (.fork ⟨true, some 2, 8⟩)) s' ∧
        ∃ np, (s'.procs np).pid = 4 ∧ (s'.procs np).state = .runnable ∧
          (s'.procs np).killed = false := by
  have hrun : ∃ s, ReachableBy Step KillsUsed boot s ∧ ((s.procs 1).pid = 3 ∧
      (s.procs 1).killed = true ∧ Enabled s 0 (.fork ⟨true, some 2, 8⟩) ∧
      ((syscall s 0 (.fork ⟨true, some 2, 8⟩)).toOption.map Prod.snd) = some (some 4)) :=
    exists_reachableBy
      [.dispatch 0, .call 0 (.fork ⟨false, none, 0⟩), .call 0 (.fork ⟨true, some 1, 8⟩),
        .call 0 (.kill 3)] (by decide +kernel)
  obtain ⟨s, hreach, hpid, hkilled, hen, hret⟩ := hrun
  refine ⟨s, hreach, hpid, hkilled, ?_⟩
  cases hres : syscall s 0 (.fork ⟨true, some 2, 8⟩) with
  | error f =>
    rw [hres] at hret
    cases hret
  | ok res =>
    obtain ⟨s', r⟩ := res
    rw [hres] at hret
    obtain rfl : r = some 4 := Option.some.inj hret
    refine ⟨s', ?_, (born_unkilled_of_kills_used hreach).1 0 _ s' 4 rfl hen hres (by decide)⟩
    rw [Step, next, if_pos hen, hres]
    rfl

/-- Init kills pid 0, which is what every free slot has, and forks: the child is
born killed. -/
theorem child_born_killed :
    ∃ s, Reachable Step boot s ∧ (s.procs 1).state = .unused ∧ (s.procs 1).killed = true ∧
      ∃ s', Step s (.call 0 (.fork ⟨true, some 1, 8⟩)) s' ∧
        (s'.procs 1).pid = 2 ∧ (s'.procs 1).state = .runnable ∧ (s'.procs 1).killed = true := by
  have hrun : ∃ s, Reachable Step boot s ∧ ((s.procs 1).state = .unused ∧
      (s.procs 1).killed = true ∧
      ((next s (.call 0 (.fork ⟨true, some 1, 8⟩))).any fun s' => decide ((s'.procs 1).pid = 2 ∧
        (s'.procs 1).state = .runnable ∧ (s'.procs 1).killed = true)) = true) :=
    exists_reachableBy [.dispatch 0, .call 0 (.kill 0)] (by decide +kernel)
  obtain ⟨s, hreach, hfree, hmarked, hnext⟩ := hrun
  refine ⟨s, hreach, hfree, hmarked, ?_⟩
  obtain ⟨s', hs', hend⟩ := (Option.any_eq_true _ _).mp hnext
  exact ⟨s', hs', of_decide_eq_true hend⟩

end Xv6Threads
