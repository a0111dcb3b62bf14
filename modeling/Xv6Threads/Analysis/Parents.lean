/-
# Parents

Init has no parent, and `clone` with `CLONE_PARENT` hands out the caller's
parent, or for a thread the parent of its parent, without looking at it. This
module shows that this is the only way to get a process without a parent, and
so the only way `getppid` and `clone` come to follow a null pointer in anyone
but init, whose own `getppid` always does.
-/

import Xv6Threads.Analysis.Sharing

namespace Xv6Threads

open Lib

/-- A clone with `CLONE_PARENT` that has what it needs is made neither by init
nor by a thread init is the parent of. -/
def ClimbsBelowInit (s : Kernel) : Event → Prop
  | .call p (.clone flags env) =>
    s.canClone p flags env = true → flagParent flags = true →
      p ≠ s.initproc ∧
        ((s.procs p).isThread = true → (s.procs p).parent ≠ some s.initproc)
  | _ => True

instance (s : Kernel) (e : Event) : Decidable (ClimbsBelowInit s e) := by
  -- `cases` would leave equations between events inside the instance
  refine e.casesOn (motive := fun e => Decidable (ClimbsBelowInit s e)) (fun p c => ?_)
    (fun p => ?_) fun p => ?_
  · apply c.casesOn (motive := fun c => Decidable (ClimbsBelowInit s (.call p c))) <;> intros <;>
      dsimp only [ClimbsBelowInit] <;> infer_instance
  · dsimp only [ClimbsBelowInit]
    infer_instance
  · dsimp only [ClimbsBelowInit]
    infer_instance

/-- The steps of the machine, and `getppid`. -/
inductive ParentEvent
  | other (e : Event)
  | getppid (p : Slot)

def parentNext (s : Kernel) : ParentEvent → Option Kernel
  | .other e => next s e
  | .getppid p => if s.CanCall p then (sysGetppid s p).toOption.map fun _ => s else none

def ParentStep (s : Kernel) (e : ParentEvent) (s' : Kernel) : Prop := parentNext s e = some s'

/-- No clone climbs past init, and init does not ask for its parent. -/
def StaysBelowInit (s : Kernel) : ParentEvent → Prop
  | .other e => ClimbsBelowInit s e
  | .getppid p => p ≠ s.initproc

instance (s : Kernel) : (e : ParentEvent) → Decidable (StaysBelowInit s e)
  | .other e => inferInstanceAs (Decidable (ClimbsBelowInit s e))
  | .getppid p => inferInstanceAs (Decidable (p ≠ s.initproc))

/-- `getppid` leads nowhere new. -/
theorem reachableBy_of_parentStep {s : Kernel}
    (h : ReachableBy ParentStep StaysBelowInit boot s) :
    ReachableBy Step ClimbsBelowInit boot s := by
  induction h with
  | start => exact .start
  | @extend s s' e _ hgood hstep ih =>
    cases e with
    | other e => exact .extend ih hgood hstep
    | getppid p =>
      rw [ParentStep, parentNext] at hstep
      split_ifs at hstep
      obtain ⟨-, -, rfl⟩ := Option.map_eq_some_iff.mp hstep
      exact ih

/-- Everyone but init has a parent. -/
def ParentsOk (s : Kernel) : Prop :=
  ∀ q, (s.procs q).state ≠ .unused → q ≠ s.initproc → (s.procs q).parent ≠ none

theorem parentsOk_boot : ParentsOk boot := by
  intro q hused hq
  rw [boot_procs_of_ne hq] at hused
  exact absurd rfl hused

/-- Slots that are in use afterwards were in use before and kept their parent,
or got another. -/
theorem ParentsOk.of_le {s s' : Kernel} (hi : ParentsOk s) (hinit : s'.initproc = s.initproc)
    (hkept : ∀ q, (s'.procs q).state ≠ .unused →
      (s.procs q).state ≠ .unused ∧ (s'.procs q).parent = (s.procs q).parent ∨
        (s'.procs q).parent ≠ none) : ParentsOk s' := by
  intro q hused hq
  rw [hinit] at hq
  rcases hkept q hused with ⟨hold, hparent⟩ | hparent
  · rw [hparent]
    exact hi q hold hq
  · exact hparent

/-- The parent `clone` picks exists. -/
theorem ParentsOk.cloneParentOf {s : Kernel} {p : Slot} {flags : BitVec 32}
    {parent : Option Slot} (hi : ParentsOk s) (htree : TreeOk s)
    (hp : (s.procs p).state ≠ .unused)
    (hgood : flagParent flags = true → p ≠ s.initproc ∧
      ((s.procs p).isThread = true → (s.procs p).parent ≠ some s.initproc))
    (h : Xv6Threads.cloneParentOf s p flags = .ok parent) : parent ≠ none := by
  rw [Xv6Threads.cloneParentOf] at h
  split_ifs at h with hthread hflag hflag
  · obtain ⟨-, hbelow⟩ := hgood hflag
    split at h
    · cases h
    · rename_i r hr
      -- the parent is alive and is not init, so it has a parent itself
      have hrs := (htree.parent p r hr).1
      have hrinit : r ≠ s.initproc := by
        rintro rfl
        exact hbelow hthread hr
      rw [← Except.ok.inj h]
      exact hi r hrs.ne.1 hrinit
  · have hinit : p ≠ s.initproc := by
      rintro rfl
      rw [htree.init.2.2.2] at hthread
      cases hthread
    rw [← Except.ok.inj h]
    exact hi p hp hinit
  · rw [← Except.ok.inj h]
    exact hi p hp (hgood hflag).1
  · rw [← Except.ok.inj h]
    exact Option.some_ne_none p

theorem ParentsOk.spawned {s s' : Kernel} {p np : Slot} {flags : BitVec 32} {env : SpawnEnv}
    {child : Proc} (hi : ParentsOk s) (h : Spawned s p np flags env child s')
    (hchild : child.parent ≠ none) : ParentsOk s' := by
  apply hi.of_le h.initproc
  intro q hused
  by_cases hqn : q = np
  · rw [hqn, h.child_eq]
    exact .inr hchild
  · obtain ⟨_, _, hother⟩ := h.other_eq hqn
    rw [hother] at hused ⊢
    exact .inl ⟨hused, rfl⟩

theorem ParentsOk.step {s s' : Kernel} {e : Event} (hi : ParentsOk s) (htree : TreeOk s)
    (hgood : ClimbsBelowInit s e) (hstep : Step s e s') : ParentsOk s' := by
  cases step_tree hstep with
  | same h =>
    apply hi.of_le h.initproc
    intro q hused
    exact .inl ⟨mt (h.unused q).mpr hused, h.parent q⟩
  | spawnFailed h =>
    apply hi.of_le h.rest_eq.2.1
    intro q hused
    have hqn := h.ne_of_used_after hused
    rw [h.other_eq hqn] at hused ⊢
    exact .inl ⟨hused, rfl⟩
  | forked hen h hfork =>
    apply hi.spawned h
    rw [hfork.parent]
    exact Option.some_ne_none _
  | cloned hen h hclone =>
    exact hi.spawned h
      (hi.cloneParentOf htree (by simp [hen.1]) (hgood h.canClone) hclone.parent)
  | exited hen h =>
    rename_i p st
    apply hi.of_le h.initproc
    intro q hused
    by_cases horphan : (s.procs q).parent = some p
    · refine .inr ?_
      rw [h.procs]
      simp [horphan]
    · refine .inl ⟨mt (h.unused_iff hen.1 q).mpr hused, ?_⟩
      rw [h.procs]
      exact if_neg horphan
  | reaped hsame h =>
    apply hi.of_le (h.initproc.trans hsame.initproc)
    intro q hused
    have hqz := h.ne_of_used_after hused
    rw [h.kept q hqz] at hused ⊢
    exact .inl ⟨mt (hsame.unused q).mpr hused, hsame.parent q⟩

/-- If `CLONE_PARENT` never climbs past init and init never calls `getppid`,
everyone but init has a parent that has not exited, and which is not a process
that got the slot later: it is older than its child. No `getppid` that meets the
condition faults, and `clone` finds a parent for the new thread whatever the
flags. -/
theorem parents_of_climbs_below_init {s : Kernel}
    (hrun : ReachableBy ParentStep StaysBelowInit boot s) :
    (∀ q, (s.procs q).state ≠ .unused → q ≠ s.initproc → ∃ r, (s.procs q).parent = some r ∧
      (s.procs r).Live ∧ (s.procs r).pid < (s.procs q).pid) ∧
    (∀ p, (s.procs p).state ≠ .unused →
      ((∃ pid, sysGetppid s p = .ok pid) ↔ StaysBelowInit s (.getppid p))) ∧
    ∀ p flags f, (s.procs p).state ≠ .unused → cloneParentOf s p flags ≠ .error f := by
  have h := reachableBy_of_parentStep hrun
  have hi : ParentsOk s := by
    refine h.invariant parentsOk_boot ?_
    intro s e s' hreach hi hgood hstep
    exact hi.step (treeOk_of_reachable hreach.reachable) hgood hstep
  have htree := treeOk_of_reachable h.reachable
  have hparent : ∀ q, (s.procs q).state ≠ .unused → q ≠ s.initproc →
      ∃ r, (s.procs q).parent = some r := fun q hused hq =>
    Option.ne_none_iff_exists'.mp (hi q hused hq)
  refine ⟨?_, ?_, ?_⟩
  · intro q hused hq
    obtain ⟨r, hr⟩ := hparent q hused hq
    obtain ⟨hsched, hlt⟩ := htree.parent q r hr
    exact ⟨r, hr, ⟨hsched.ne.1, hsched.ne.2.2⟩, hlt⟩
  · intro p hused
    refine ⟨?_, ?_⟩
    · rintro ⟨pid, hpid⟩ rfl
      rw [sysGetppid, htree.init.2.2.1] at hpid
      cases hpid
    · intro hp
      obtain ⟨r, hr⟩ := hparent p hused hp
      exact ⟨(s.procs r).pid, by rw [sysGetppid, hr]⟩
  · intro p flags f hused herror
    rw [cloneParentOf] at herror
    split_ifs at herror with hthread hflag
    have hp : p ≠ s.initproc := by
      rintro rfl
      rw [htree.init.2.2.2] at hthread
      cases hthread
    obtain ⟨r, hr⟩ := hparent p hused hp
    rw [hr] at herror
    cases herror

/-- Init forks a process, which clones a thread beside itself with
`CLONE_PARENT` and asks for its parent; the thread can ask too. -/
theorem parents_of_climbs_below_init_sibling :
    ∃ s, ReachableBy ParentStep StaysBelowInit boot s ∧
      ((s.procs 2).state = .runnable ∧ (s.procs 2).isThread = true ∧
        (s.procs 2).parent = some 0 ∧ s.initproc = 0) ∧ ∃ pid, sysGetppid s 2 = .ok pid := by
  have hrun : ∃ s, ReachableBy ParentStep StaysBelowInit boot s ∧
      ((s.procs 2).state = .runnable ∧ (s.procs 2).isThread = true ∧
        (s.procs 2).parent = some 0 ∧ s.initproc = 0) :=
    exists_reachableBy
      [.other (.dispatch 0), .other (.call 0 (.fork ⟨true, some 1, 8⟩)), .other (.dispatch 1),
        .other (.call 1 (.clone 8 ⟨true, some 2, 8⟩)), .getppid 1] (by decide +kernel)
  obtain ⟨s, hreach, hend⟩ := hrun
  refine ⟨s, hreach, hend, ?_⟩
  refine ((parents_of_climbs_below_init hreach).2.1 2 (by simp [hend.1])).mpr ?_
  show 2 ≠ s.initproc
  rw [hend.2.2.2]
  decide

/-- Init clones a thread with `CLONE_PARENT`. The thread runs without a parent:
its `getppid` and its own clone with `CLONE_PARENT` follow a null pointer. -/
theorem thread_without_parent :
    ∃ s, Reachable Step boot s ∧ (s.procs 1).state = .running ∧ s.initproc = 0 ∧
      (s.procs 1).parent = none ∧ faultOf (sysGetppid s 1) = some .nullDeref ∧
      Enabled s 1 (.clone 8 ⟨true, some 2, 8⟩) ∧
      faultOf (syscall s 1 (.clone 8 ⟨true, some 2, 8⟩)) = some .nullDeref :=
  exists_reachableBy
    [.dispatch 0, .call 0 (.clone 8 ⟨true, some 1, 8⟩), .dispatch 1] (by decide +kernel)

end Xv6Threads
