/-
# The machine at the granularity of ptable.lock

`fork`, `clone` and `exit` release `ptable.lock` in the middle, and other
processes run in between. In this machine each of their pieces is a step of its
own; `ctl` says which piece comes next. `wait`, `join`, `kill` and `threadkill`
hold the lock from beginning to end, and the remaining calls never take it.

The machine of whole calls is the special case in which nobody runs in between,
so what holds in every state of this machine holds in every state of that one.
-/

import Xv6Threads.Kernel.Effects

namespace Xv6Threads

open Lib

/-- The slot a process has allocated and not made runnable yet. -/
def Ctl.held : Ctl → Option Slot
  | .forking np => some np
  | .cloning np _ => some np
  | .publishing np => some np
  | _ => none

/-- The slot a process has allocated and not filled yet. -/
def Ctl.unfilled : Ctl → Option Slot
  | .forking np => some np
  | .cloning np _ => some np
  | _ => none

/-- In the middle of a `clone` with `CLONE_PARENT`. -/
def Ctl.climbs : Ctl → Bool
  | .cloning _ flags => flagParent flags
  | _ => false

/-- The pieces of `fork`, `clone` and `exit`, and the steps that are not cut. -/
inductive LockEvent
  | forkAlloc (p : Slot)
  | cloneAlloc (p : Slot) (flags : BitVec 32)
  | fill (p : Slot) (env : SpawnEnv)
  | publish (p : Slot)
  | exitRelease (p : Slot)
  | exitZombie (p : Slot)
  | whole (e : Event)

/-- The first critical section of `fork` and `clone`. -/
def allocStep (s : Kernel) (p : Slot) (c : Slot → Ctl) : Option Kernel :=
  match allocproc s with
  | .error _ => none
  | .ok none => some s
  | .ok (some (s', np)) => some (s'.setCtl p (c np))

/-- What follows the work between the two critical sections: a slot that was
filled is still to be published, one that was not has been given back. -/
def fillStep (p np : Slot) : Except Fault (Kernel × Bool) → Option Kernel
  | .error _ => none
  | .ok (s, false) => some (s.setCtl p .user)
  | .ok (s, true) => some (s.setCtl p (.publishing np))

/-- A process in user mode that `trap` lets make a call. -/
def Kernel.CanCall (s : Kernel) (p : Slot) : Prop :=
  (s.procs p).state = .running ∧ s.ctl p = .user ∧ (s.procs p).killed = false

instance (s : Kernel) (p : Slot) : Decidable (s.CanCall p) :=
  inferInstanceAs (Decidable (_ ∧ _ ∧ _))

/-- The state after a step, if the step can happen and nothing faults. -/
def lockNext (s : Kernel) : LockEvent → Option Kernel
  | .forkAlloc p => if s.CanCall p then allocStep s p .forking else none
  | .cloneAlloc p flags => if s.CanCall p then allocStep s p (.cloning · flags) else none
  | .fill p env =>
    if (s.procs p).state = .running ∧ (env.pgdir.all fun d => (s.pgdirs d).isNone) = true then
      match s.ctl p with
      | .forking np => fillStep p np (forkBody s p np env)
      | .cloning np flags => fillStep p np (cloneBody s p np flags env)
      | _ => none
    else none
  | .publish p =>
    if (s.procs p).state = .running then
      match s.ctl p with
      | .publishing np => some ((publish s np).setCtl p .user)
      | _ => none
    else none
  | .exitRelease p =>
    if (s.procs p).state = .running ∧ s.ctl p = .user then
      (exitRelease s p).toOption.map (·.setCtl p .exiting)
    else none
  | .exitZombie p =>
    if (s.procs p).state = .running ∧ s.ctl p = .exiting then
      some ((exitZombie s p).setCtl p .user)
    else none
  | .whole e => if e.isCut then none else next s e

def LockStep (s : Kernel) (e : LockEvent) (s' : Kernel) : Prop := lockNext s e = some s'

/-! ## Whole calls are runs of pieces -/

section Ctl

-- Nothing between the critical sections reads or writes `ctl`.
variable (s : Kernel) (p np r : Slot) (c : Ctl) (env : SpawnEnv) (flags : BitVec 32)

theorem copyMemory_setCtl :
    copyMemory (s.setCtl r c) p np env =
      (copyMemory s p np env).map fun x => (x.1.setCtl r c, x.2) := by
  have hspace : ∀ d, (s.setCtl r c).addrSpace d = s.addrSpace d := fun _ => rfl
  simp only [copyMemory, hspace, Kernel.setCtl_procs]
  cases env.pgdir with
  | none => rfl
  | some d =>
    cases s.addrSpace (s.procs p).pgdir with
    | error f => rfl
    | ok res =>
      dsimp only
      cases copyuvm env.budget res.2 (s.procs p).sz with
      | error f => rfl
      | ok copied =>
        cases copied with
        | none => rfl
        | some copy => rfl

theorem dupOfiles_setCtl :
    dupOfiles (s.setCtl r c) p np = (dupOfiles s p np).map (·.setCtl r c) := by
  have hft : (s.setCtl r c).ftable = s.ftable := rfl
  simp only [dupOfiles, hft, Kernel.setCtl_procs]
  cases dupFiles (s.procs p).ofile (List.finRange NOFILE) s.ftable with
  | error f => rfl
  | ok ft => rfl

theorem dupCwd_setCtl : dupCwd (s.setCtl r c) p np = (dupCwd s p np).map (·.setCtl r c) := by
  simp only [dupCwd, Kernel.setCtl_procs]
  cases (s.procs p).cwd with
  | none => rfl
  | some ip => rfl

theorem forkBody_setCtl :
    forkBody (s.setCtl r c) p np env =
      (forkBody s p np env).map fun x => (x.1.setCtl r c, x.2) := by
  by_cases hstack : env.kstack = true
  · have hset : (s.setCtl r c).setProc np { (s.setCtl r c).procs np with kstack := true } =
        (s.setProc np { s.procs np with kstack := true }).setCtl r c := rfl
    simp only [forkBody, if_pos hstack, hset, copyMemory_setCtl]
    cases copyMemory (s.setProc np { s.procs np with kstack := true }) p np env with
    | error f => rfl
    | ok res =>
      obtain ⟨s₁, made⟩ := res
      cases made with
      | false => rfl
      | true =>
        simp only [Except.map, Kernel.setCtl_procs]
        generalize hc : ({ s₁.procs np with
          tgid := (s₁.procs np).pid, isThread := false, sz := (s₁.procs p).sz,
          parent := some p } : Proc) = child
        have hset : (s₁.setCtl r c).setProc np child = (s₁.setProc np child).setCtl r c := rfl
        rw [hset, dupOfiles_setCtl]
        cases dupOfiles (s₁.setProc np child) p np with
        | error f => rfl
        | ok s₂ =>
          simp only [Except.map, dupCwd_setCtl]
          cases dupCwd s₂ p np with
          | error f => rfl
          | ok s₃ => rfl
  · simp only [forkBody, if_neg hstack]
    rfl

theorem cloneFsPart_setCtl :
    cloneFsPart (s.setCtl r c) p np flags = (cloneFsPart s p np flags).map (·.setCtl r c) := by
  by_cases hfs : flagFs flags = true
  · simp only [cloneFsPart, if_pos hfs]
    rfl
  · simp only [cloneFsPart, if_neg hfs, dupCwd_setCtl]

theorem cloneFilesPart_setCtl :
    cloneFilesPart (s.setCtl r c) p np flags =
      (cloneFilesPart s p np flags).map (·.setCtl r c) := by
  by_cases hfiles : flagFiles flags = true
  · simp only [cloneFilesPart, if_pos hfiles]
    rfl
  · simp only [cloneFilesPart, if_neg hfiles, dupOfiles_setCtl]

theorem cloneBody_setCtl :
    cloneBody (s.setCtl r c) p np flags env =
      (cloneBody s p np flags env).map fun x => (x.1.setCtl r c, x.2) := by
  by_cases hstack : env.kstack = true
  · simp only [cloneBody, if_pos hstack, Kernel.setCtl_procs]
    generalize hc : ({ s.procs np with
      kstack := true, cloneVm := flagVm flags, cloneFs := flagFs flags,
      cloneFiles := flagFiles flags, cloneParent := flagParent flags,
      cloneThread := flagThread flags } : Proc) = child
    have hset : (s.setCtl r c).setProc np child = (s.setProc np child).setCtl r c := rfl
    rw [hset]
    generalize s.setProc np child = s₀
    have hmem : (if flagVm flags then
          .ok ((s₀.setCtl r c).setProc np
            { (s₀.setCtl r c).procs np with pgdir := ((s₀.setCtl r c).procs p).pgdir }, true)
        else copyMemory (s₀.setCtl r c) p np env : Except Fault (Kernel × Bool)) =
        (if flagVm flags then
          .ok (s₀.setProc np { s₀.procs np with pgdir := (s₀.procs p).pgdir }, true)
        else copyMemory s₀ p np env : Except Fault (Kernel × Bool)).map
          fun x => (x.1.setCtl r c, x.2) := by
      by_cases hvm : flagVm flags = true
      · simp only [if_pos hvm]
        rfl
      · simp only [if_neg hvm, copyMemory_setCtl]
    rw [hmem]
    cases (if flagVm flags then
        .ok (s₀.setProc np { s₀.procs np with pgdir := (s₀.procs p).pgdir }, true)
      else copyMemory s₀ p np env : Except Fault (Kernel × Bool)) with
    | error f => rfl
    | ok res =>
      obtain ⟨s₁, made⟩ := res
      cases made with
      | false => rfl
      | true =>
        simp only [Except.map, cloneFsPart_setCtl]
        cases cloneFsPart s₁ p np flags with
        | error f => rfl
        | ok s₂ =>
          simp only [Except.map, cloneFilesPart_setCtl]
          cases cloneFilesPart s₂ p np flags with
          | error f => rfl
          | ok s₃ =>
            have hparent : cloneParentOf (s₃.setCtl r c) p flags =
                cloneParentOf s₃ p flags := rfl
            simp only [hparent]
            cases cloneParentOf s₃ p flags with
            | error f => rfl
            | ok parent => rfl
  · simp only [cloneBody, if_neg hstack]
    rfl

end Ctl

variable {s s' : Kernel} {p np : Slot} {e : LockEvent}

theorem Kernel.setCtl_setCtl (s : Kernel) (p : Slot) (c c' : Ctl) :
    (s.setCtl p c).setCtl p c' = s.setCtl p c' := by
  simp [setCtl]

theorem Kernel.setCtl_of_eq {c : Ctl} (h : s.ctl p = c) : s.setCtl p c = s := by
  rw [← h, setCtl_eq_self]

/-- `fork` and `clone` as a run of three pieces. -/
theorem reachable_of_spawn {c : Slot → Ctl} {body : Kernel → Slot → Except Fault (Kernel × Bool)}
    {r : ℤ} (env : SpawnEnv) (hp : (s.procs p).state = .running) (hctl : s.ctl p = .user)
    (halloc : lockNext s e = allocStep s p c)
    (hfill : ∀ (t : Kernel) (np : Slot), (t.procs p).state = .running → t.pgdirs = s.pgdirs →
      lockNext (t.setCtl p (c np)) (.fill p env) =
        fillStep p np ((body t np).map fun x => (x.1.setCtl p (c np), x.2)))
    (hkeep : ∀ (t t' : Kernel) (np : Slot) (made : Bool), np ≠ p →
      body t np = .ok (t', made) →
        (t'.procs p).state = (t.procs p).state ∧ t'.ctl p = t.ctl p)
    (h : spawn s body = .ok (s', r)) : Reachable LockStep s s' := by
  rw [spawn] at h
  split at h
  · cases h
  · rename_i hnone
    obtain ⟨rfl, -⟩ := Prod.mk.inj (Except.ok.inj h)
    exact .start
  · rename_i s₁ np hsome
    have hfirst : LockStep s e (s₁.setCtl p (c np)) := by
      rw [LockStep, halloc, allocStep, hsome]
    obtain ⟨hfree, -, hs₁⟩ := allocproc_some hsome
    change s₁ = s.allocated np at hs₁
    subst hs₁
    have hne : np ≠ p := by
      rintro rfl
      rw [hp] at hfree
      cases hfree
    have hp₁ : ((s.allocated np).procs p).state = .running := by
      rw [s.allocated_procs_of_ne hne.symm, hp]
    have hnext := hfill (s.allocated np) np hp₁ rfl
    have hstart : Reachable LockStep s ((s.allocated np).setCtl p (c np)) :=
      .extend .start trivial hfirst
    split at h
    · cases h
    · rename_i s₂ hbody
      obtain ⟨rfl, -⟩ := Prod.mk.inj (Except.ok.inj h)
      obtain ⟨-, hctl₂⟩ := hkeep _ _ _ _ hne hbody
      refine .extend hstart trivial (hnext.trans ?_)
      rw [hbody, Except.map, fillStep, Kernel.setCtl_setCtl, Kernel.setCtl_of_eq (hctl₂.trans hctl)]
    · rename_i s₂ hbody
      obtain ⟨rfl, -⟩ := Prod.mk.inj (Except.ok.inj h)
      obtain ⟨hp₂, hctl₂⟩ := hkeep _ _ _ _ hne hbody
      have hfilled : LockStep ((s.allocated np).setCtl p (c np)) (.fill p env)
          (s₂.setCtl p (.publishing np)) := by
        rw [LockStep, hnext, hbody, Except.map, fillStep, Kernel.setCtl_setCtl]
      refine .extend (e := .publish p) (.extend hstart trivial hfilled) trivial ?_
      have hback : ((publish (s₂.setCtl p (.publishing np)) np).setCtl p .user) =
          publish s₂ np := by
        have : publish (s₂.setCtl p (.publishing np)) np =
            (publish s₂ np).setCtl p (.publishing np) := rfl
        rw [this, Kernel.setCtl_setCtl]
        exact Kernel.setCtl_of_eq (hctl₂.trans hctl)
      simp only [LockStep, lockNext, Kernel.setCtl_procs, hp₂, hp₁, if_true, Kernel.setCtl_ctl,
        Function.update_self, hback]

theorem ChildMade.keeps {flags : BitVec 32} {env : SpawnEnv} {child : Proc}
    (h : ChildMade s p np flags env child s') (hne : np ≠ p) :
    (s'.procs p).state = (s.procs p).state ∧ s'.ctl p = s.ctl p := by
  rw [h.procs, Kernel.withChild_of_ne _ _ _ _ _ hne.symm, h.ctl]
  exact ⟨rfl, rfl⟩

theorem SlotReleased.keeps (h : SlotReleased s np s') (hne : np ≠ p) :
    (s'.procs p).state = (s.procs p).state ∧ s'.ctl p = s.ctl p := by
  obtain ⟨_, _, _, _, _, _, rfl⟩ := h
  rw [Kernel.setProc_procs_of_ne _ _ _ hne.symm]
  exact ⟨rfl, rfl⟩

theorem Enabled.ctl_user {c : Call} (h : Enabled s p c) (hc : c ≠ .resume) : s.ctl p = .user := by
  have hfits := h.2.1
  cases c with
  | resume => exact absurd rfl hc
  | _ => cases hctl : s.ctl p <;> simp [hctl, Call.fits] at hfits ⊢

theorem Enabled.canCall {c : Call} (h : Enabled s p c) (hc : c.startsKilled = false) :
    s.CanCall p := by
  refine ⟨h.1, h.ctl_user ?_, by simpa [hc] using h.2.2.1⟩
  rintro rfl
  cases hc

theorem lockNext_fill {c : Ctl} {env : SpawnEnv} (hp : (s.procs p).state = .running)
    (hfresh : (env.pgdir.all fun d => (s.pgdirs d).isNone) = true) :
    lockNext (s.setCtl p c) (.fill p env) =
      match c with
      | .forking np => fillStep p np ((forkBody s p np env).map fun x => (x.1.setCtl p c, x.2))
      | .cloning np flags =>
        fillStep p np ((cloneBody s p np flags env).map fun x => (x.1.setCtl p c, x.2))
      | _ => none := by
  have hok : ((s.setCtl p c).procs p).state = .running ∧
      (env.pgdir.all fun d => ((s.setCtl p c).pgdirs d).isNone) = true := ⟨hp, hfresh⟩
  rw [lockNext, if_pos hok, Kernel.setCtl_ctl, Function.update_self]
  cases c with
  | forking np =>
    dsimp only
    rw [forkBody_setCtl]
  | cloning np flags =>
    dsimp only
    rw [cloneBody_setCtl]
  | _ => rfl

theorem reachable_of_exit (hen : Enabled s p .exit) (h : exit s p = .ok s') :
    Reachable LockStep s s' := by
  rw [exit] at h
  split at h
  · cases h
  · rename_i s₁ hrelease
    cases h
    have hctl : s.ctl p = .user := hen.ctl_user (by simp)
    have hreleased := exitRelease_ok hrelease
    have hfirst : LockStep s (.exitRelease p) (s₁.setCtl p .exiting) := by
      rw [LockStep, lockNext, if_pos ⟨hen.1, hctl⟩, hrelease]
      rfl
    refine .extend (e := .exitZombie p) (.extend .start trivial hfirst) trivial ?_
    have hok : ((s₁.setCtl p .exiting).procs p).state = .running ∧
        (s₁.setCtl p .exiting).ctl p = .exiting := by
      refine ⟨?_, Function.update_self ..⟩
      rw [Kernel.setCtl_procs, hreleased.procs]
      exact hen.1
    have hset : exitZombie (s₁.setCtl p .exiting) p = (exitZombie s₁ p).setCtl p .exiting := rfl
    have hback : (exitZombie s₁ p).ctl p = .user := by
      change s₁.ctl p = .user
      rw [hreleased.ctl, hctl]
    rw [LockStep, lockNext, if_pos hok, hset, Kernel.setCtl_setCtl, Kernel.setCtl_of_eq hback]

/-- A whole call can be made piece by piece. -/
theorem reachable_of_step {e : Event} (h : Step s e s') : Reachable LockStep s s' := by
  by_cases hcut : e.isCut = true
  · rcases step_cases h with ⟨p, c, r, rfl, hen, hrun⟩ | ⟨p, rfl, -⟩ | ⟨p, rfl, -⟩
    · cases c with
      | fork env =>
        obtain ⟨m, hm, -⟩ := returned_eq_ok hrun
        have hcan := hen.canCall rfl
        refine reachable_of_spawn (e := .forkAlloc p) (c := .forking) env hcan.1 hcan.2.1
          (if_pos hcan) ?_ ?_ hm
        · intro t np hpt hpgdirs
          exact lockNext_fill hpt (hpgdirs ▸ hen.2.2.2)
        · intro t t' np made hne hbody
          cases made with
          | false => exact (forkBody_false hbody).keeps hne
          | true =>
            obtain ⟨child, hchild, -⟩ := forkBody_true hbody hne.symm
            exact hchild.keeps hne
      | clone flags env =>
        obtain ⟨m, hm, -⟩ := returned_eq_ok hrun
        have hcan := hen.canCall rfl
        refine reachable_of_spawn (e := .cloneAlloc p flags) (c := (.cloning · flags)) env
          hcan.1 hcan.2.1 (if_pos hcan) ?_ ?_ hm
        · intro t np hpt hpgdirs
          exact lockNext_fill hpt (hpgdirs ▸ hen.2.2.2)
        · intro t t' np made hne hbody
          cases made with
          | false => exact (cloneBody_false hbody).keeps hne
          | true =>
            obtain ⟨child, hchild, -⟩ := cloneBody_true hbody hne.symm
            exact hchild.keeps hne
      | exit =>
        rw [syscall] at hrun
        split at hrun
        · cases hrun
        · rename_i s₁ hexit
          obtain ⟨rfl, -⟩ := Prod.mk.inj (Except.ok.inj hrun)
          exact reachable_of_exit hen hexit
      | _ => cases hcut
    · cases hcut
    · cases hcut
  · exact .extend (e := .whole e) .start trivial (by rw [LockStep, lockNext, if_neg hcut]; exact h)

/-- Every state the machine of whole calls reaches, this one reaches too. -/
theorem lockReachable_of_reachable (h : Reachable Step boot s) : Reachable LockStep boot s := by
  induction h with
  | start => exact .start
  | extend _ _ hstep ih => exact ih.trans (reachable_of_step hstep)

/-! ## What a step does -/

/-- The effect of one step. -/
inductive LockEffect (s : Kernel) : LockEvent → Kernel → Prop
  | refused {e : LockEvent} : LockEffect s e s
  | allocated {e : LockEvent} {p np : Slot} {c : Ctl} (hp : (s.procs p).state = .running)
      (hfree : (s.procs np).state = .unused) (hc : c.unfilled = some np) :
      LockEffect s e ((s.allocated np).setCtl p c)
  | filled {p np : Slot} {flags : BitVec 32} {env : SpawnEnv} {child : Proc} {s₁ : Kernel}
      (hp : (s.procs p).state = .running) (hctl : (s.ctl p).unfilled = some np)
      (h : ChildMade s p np flags env child s₁)
      (hkind : ForkMade s p (s.procs np).pid child s₁ ∨
        CloneMade s p (s.procs np).pid flags child s₁)
      (hstate : child.state = (s.procs np).state) (hnext : s₁.nextpid = s.nextpid) :
      LockEffect s (.fill p env) (s₁.setCtl p (.publishing np))
  | dropped {p np : Slot} {env : SpawnEnv} {s₁ : Kernel} (hp : (s.procs p).state = .running)
      (hctl : (s.ctl p).unfilled = some np) (h : SlotReleased s np s₁) :
      LockEffect s (.fill p env) (s₁.setCtl p .user)
  | published {p np : Slot} (hp : (s.procs p).state = .running)
      (hctl : s.ctl p = .publishing np) :
      LockEffect s (.publish p) ((publish s np).setCtl p .user)
  | released {p : Slot} {s₁ : Kernel} (hp : (s.procs p).state = .running)
      (hctl : s.ctl p = .user) (h : ExitReleased s p s₁) :
      LockEffect s (.exitRelease p) (s₁.setCtl p .exiting)
  | zombied {p : Slot} (hp : (s.procs p).state = .running) (hctl : s.ctl p = .exiting) :
      LockEffect s (.exitZombie p) ((exitZombie s p).setCtl p .user)
  | whole {e : Event} {s' : Kernel} (hcut : e.isCut = false) (h : Effect s e s') :
      LockEffect s (.whole e) s'

theorem lockEffect_of_alloc {c : Slot → Ctl} (hp : (s.procs p).state = .running)
    (hc : ∀ np, (c np).unfilled = some np) (h : allocStep s p c = some s') : LockEffect s e s' := by
  rw [allocStep] at h
  split at h
  · cases h
  · cases h
    exact .refused
  · rename_i s₁ np hsome
    cases h
    obtain ⟨hfree, -, rfl⟩ := allocproc_some hsome
    exact .allocated hp hfree (hc np)

theorem fillStep_some {r : Except Fault (Kernel × Bool)} (h : fillStep p np r = some s') :
    (∃ s₁, r = .ok (s₁, false) ∧ s' = s₁.setCtl p .user) ∨
      ∃ s₁, r = .ok (s₁, true) ∧ s' = s₁.setCtl p (.publishing np) := by
  cases r with
  | error f => cases h
  | ok res =>
    obtain ⟨s₁, made⟩ := res
    cases made with
    | false => exact .inl ⟨s₁, rfl, (Option.some.inj h).symm⟩
    | true => exact .inr ⟨s₁, rfl, (Option.some.inj h).symm⟩

theorem lockStep_effect (h : LockStep s e s')
    (hne : ∀ p np, (s.ctl p).unfilled = some np → p ≠ np) : LockEffect s e s' := by
  cases e with
  | forkAlloc p | cloneAlloc p flags =>
    rw [LockStep, lockNext] at h
    split_ifs at h with hcan
    exact lockEffect_of_alloc hcan.1 (fun _ => rfl) h
  | fill p env =>
    rw [LockStep, lockNext] at h
    split_ifs at h with hok
    split at h
    · rename_i np hctl
      have hunfilled : (s.ctl p).unfilled = some np := by rw [hctl]; rfl
      rcases fillStep_some h with ⟨s₁, hbody, rfl⟩ | ⟨s₁, hbody, rfl⟩
      · exact .dropped hok.1 hunfilled (forkBody_false hbody)
      · obtain ⟨child, hmade, hfork, hstate, hnext⟩ :=
          forkBody_true hbody (hne p np hunfilled)
        exact .filled hok.1 hunfilled hmade (.inl hfork) hstate hnext
    · rename_i np flags hctl
      have hunfilled : (s.ctl p).unfilled = some np := by rw [hctl]; rfl
      rcases fillStep_some h with ⟨s₁, hbody, rfl⟩ | ⟨s₁, hbody, rfl⟩
      · exact .dropped hok.1 hunfilled (cloneBody_false hbody)
      · obtain ⟨child, hmade, hclone, hstate, hnext⟩ :=
          cloneBody_true hbody (hne p np hunfilled)
        exact .filled hok.1 hunfilled hmade (.inr hclone) hstate hnext
    · cases h
  | publish p =>
    rw [LockStep, lockNext] at h
    split_ifs at h with hp
    split at h
    · rename_i np hctl
      cases h
      exact .published hp hctl
    · cases h
  | exitRelease p =>
    rw [LockStep, lockNext] at h
    split_ifs at h with hok
    cases hrelease : exitRelease s p with
    | error f => simp [hrelease, Except.toOption] at h
    | ok s₁ =>
      obtain rfl : s₁.setCtl p .exiting = s' := by simpa [hrelease, Except.toOption] using h
      exact .released hok.1 hok.2 (exitRelease_ok hrelease)
  | exitZombie p =>
    rw [LockStep, lockNext] at h
    split_ifs at h with hok
    cases h
    exact .zombied hok.1 hok.2
  | whole e =>
    rw [LockStep, lockNext] at h
    split_ifs at h with hcut
    exact .whole (by simpa using hcut) (step_effect h)

end Xv6Threads
