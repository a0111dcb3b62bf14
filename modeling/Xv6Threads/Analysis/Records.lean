/-
# Each child is reaped once, and by the right call

`fork` and `clone` return pids, and `wait` and `join` return them again when
the child is freed. This module follows a pid from the one to the other, at the
granularity of `ptable.lock`: whatever is returned by `wait` was returned by
`fork` and is returned once, and the same for `join` and `clone`. Slots are
reused in between and failed attempts use up pids, so the argument is about the
log of everything returned so far.
-/

import Xv6Threads.Analysis.Lineage

namespace Xv6Threads

open Lib
open Function (update_of_ne update_self)

variable {s s' : Kernel} {e : LockEvent} {p np q : Slot} {c : Call}
variable {log : List Return}

/-! ## Made by fork or by clone -/

/-- Some `clone` that succeeded returned the pid. -/
def Kernel.WasCloned (s : Kernel) (pid : ℤ) : Prop := ∃ e ∈ s.clones, e.child = pid

instance (s : Kernel) (pid : ℤ) : Decidable (s.WasCloned pid) :=
  inferInstanceAs (Decidable (∃ e ∈ s.clones, e.child = pid))

/-- `isThread` says who was cloned, and everyone past `fork` and `clone` has a
kernel stack. -/
structure RecordOk (s : Kernel) : Prop where
  kind : ∀ q, (s.procs q).state ≠ .unused →
    ((s.procs q).isThread = true ↔ s.WasCloned (s.procs q).pid)
  fresh : ∀ p np, (s.ctl p).unfilled = some np → (s.procs np).isThread = false
  stack : ∀ q, (s.procs q).state ≠ .unused → (s.procs q).state ≠ .embryo →
    (s.procs q).kstack = true
  filled : ∀ p np, s.ctl p = .publishing np → (s.procs np).kstack = true

theorem recordOk_boot : RecordOk boot := by
  have hpid : ∀ q, (boot.procs q).state ≠ .unused → q = 0 := by
    intro q hused
    by_contra hq
    rw [boot_procs_of_ne hq] at hused
    exact hused rfl
  refine ⟨?_, ?_, ?_, ?_⟩
  · intro q hused
    rw [hpid q hused]
    decide
  · intro p np h
    cases h
  · intro q hused _
    rw [hpid q hused]
    rfl
  · intro p np h
    cases h

/-- A step that is not cut takes nobody's kernel stack, unless it frees the
slot. -/
theorem Effect.kstack_eq {e : Event} (hcut : e.isCut = false) (h : Effect s e s') (r : Slot) :
    (s'.procs r).kstack = (s.procs r).kstack ∨ (s'.procs r).state = .unused := by
  have htouch : ∀ {p : Slot} {t : Kernel}, IsTouch s p t →
      (t.procs r).kstack = (s.procs r).kstack := by
    rintro p t ⟨st, ch, k, ht⟩
    rw [ht.procs]
  have hreaped : ∀ {p q z : Slot} {t : Kernel}, IsTouch s p t → Reaped t q z s' →
      (s'.procs r).kstack = (s.procs r).kstack ∨ (s'.procs r).state = .unused := by
    intro p q z t ht hz
    by_cases hr : r = z
    · exact .inr (hr ▸ hz.unused)
    · rw [hz.kept r hr]
      exact .inl (htouch ht)
  cases h with
  | touched h _ | slept hq h _ => exact .inl (htouch h)
  | spawnFailed hcut' h => simp [hcut] at hcut'
  | forked => cases hcut
  | cloned => cases hcut
  | exited => cases hcut
  | waited hq hc ht hstate hscan h hpgdir hfree => exact hreaped ht h
  | joined hq hc ht hstate helig h hpgdirs hret => exact hreaped ht h
  | filed hen hc hrun =>
    obtain ⟨_, _, _, rfl⟩ := fileShape_of_isFile hc hrun
    exact .inl rfl
  | walked hen h => exact .inl rfl
  | moved hen h =>
    obtain ⟨_, _, _, _, -, -, -, -, hprocs⟩ := h.moved
    rw [hprocs]
    exact .inl rfl
  | execed hen h | resized hen h =>
    obtain ⟨_, _, hproc⟩ := h.onlyMemory r
    rw [hproc]
    exact .inl rfl

theorem HeldOk.used (hi : HeldOk s) (h : (s.ctl p).held = some np) :
    (s.procs np).state ≠ .unused := by
  simp [(hi.held p np h).2]

/-- Nobody was made and nobody became someone else. -/
theorem RecordOk.kept (hi : RecordOk s)
    (hids : ∀ q, (s'.procs q).state ≠ .unused → (s.procs q).state ≠ .unused ∧
      ((s'.procs q).state ≠ .embryo → (s.procs q).state ≠ .embryo) ∧
      (s'.procs q).pid = (s.procs q).pid ∧ (s'.procs q).isThread = (s.procs q).isThread ∧
      (s'.procs q).kstack = (s.procs q).kstack) (hclones : s'.clones = s.clones)
    (hheld : ∀ p np, (s'.ctl p).held = some np →
      s'.ctl p = s.ctl p ∧ (s'.procs np).state ≠ .unused) : RecordOk s' := by
  have hwas : ∀ pid, s'.WasCloned pid ↔ s.WasCloned pid := by
    intro pid
    rw [Kernel.WasCloned, Kernel.WasCloned, hclones]
  refine ⟨?_, ?_, ?_, ?_⟩
  · intro q hused
    obtain ⟨hold, -, hpid, hthread, -⟩ := hids q hused
    rw [hwas, hpid, hthread]
    exact hi.kind q hold
  · intro p np h
    obtain ⟨hctl, hused⟩ := hheld p np (Ctl.held_of_unfilled h)
    rw [(hids np hused).2.2.2.1]
    exact hi.fresh p np (hctl ▸ h)
  · intro q hused hembryo
    obtain ⟨hold, holdembryo, -, -, hstack⟩ := hids q hused
    rw [hstack]
    exact hi.stack q hold (holdembryo hembryo)
  · intro p np h
    obtain ⟨hctl, hused⟩ := hheld p np (by rw [h]; rfl)
    rw [(hids np hused).2.2.2.2]
    exact hi.filled p np (hctl ▸ h)

/-- One process works on the slot it holds. -/
theorem RecordOk.slot (hi : RecordOk s) (p np : Slot)
    (hother : ∀ q, q ≠ np → (s'.procs q).state = (s.procs q).state ∧
      (s'.procs q).pid = (s.procs q).pid ∧ (s'.procs q).isThread = (s.procs q).isThread ∧
      (s'.procs q).kstack = (s.procs q).kstack)
    (hctl : ∀ r, r ≠ p → s'.ctl r = s.ctl r ∧ (s.ctl r).held ≠ some np)
    (hclones : ∀ q, q ≠ np → (s.procs q).state ≠ .unused →
      (s'.WasCloned (s.procs q).pid ↔ s.WasCloned (s.procs q).pid))
    (hkind : (s'.procs np).state ≠ .unused →
      ((s'.procs np).isThread = true ↔ s'.WasCloned (s'.procs np).pid))
    (hfresh : ∀ m, (s'.ctl p).unfilled = some m → m = np ∧ (s'.procs np).isThread = false)
    (hstack : (s'.procs np).state ≠ .unused → (s'.procs np).state ≠ .embryo →
      (s'.procs np).kstack = true)
    (hfilled : ∀ m, s'.ctl p = .publishing m → m = np ∧ (s'.procs np).kstack = true) :
    RecordOk s' := by
  refine ⟨?_, ?_, ?_, ?_⟩
  · intro q hused
    by_cases hq : q = np
    · subst hq
      exact hkind hused
    · obtain ⟨hstate, hpid, hthread, -⟩ := hother q hq
      rw [hstate] at hused
      rw [hpid, hthread, hclones q hq hused]
      exact hi.kind q hused
  · intro r m h
    by_cases hr : r = p
    · obtain ⟨rfl, hthread⟩ := hfresh m (hr ▸ h)
      exact hthread
    · rw [(hctl r hr).1] at h
      have hm : m ≠ np := by
        rintro rfl
        exact (hctl r hr).2 (Ctl.held_of_unfilled h)
      rw [(hother m hm).2.2.1]
      exact hi.fresh r m h
  · intro q hused hembryo
    by_cases hq : q = np
    · subst hq
      exact hstack hused hembryo
    · obtain ⟨hstate, -, -, hstack⟩ := hother q hq
      rw [hstate] at hused hembryo
      rw [hstack]
      exact hi.stack q hused hembryo
  · intro r m h
    by_cases hr : r = p
    · obtain ⟨rfl, hstack⟩ := hfilled m (hr ▸ h)
      exact hstack
    · rw [(hctl r hr).1] at h
      have hm : m ≠ np := by
        rintro rfl
        exact (hctl r hr).2 (by rw [h]; rfl)
      rw [(hother m hm).2.2.2]
      exact hi.filled r m h

theorem RecordOk.allocated_step {c : Ctl} (hi : RecordOk s) (hheld : HeldOk s) (hpids : PidsOk s)
    (hfree : (s.procs np).state = .unused) (hc : c.unfilled = some np) :
    RecordOk ((s.allocated np).setCtl p c) := by
  have hself : ((s.allocated np).setCtl p c).procs np = _ := s.allocated_procs_self np
  refine hi.slot p np ?_ ?_ (fun _ _ _ => Iff.rfl) ?_ ?_ ?_ ?_
  · intro q hq
    rw [Kernel.setCtl_procs, s.allocated_procs_of_ne hq]
    exact ⟨rfl, rfl, rfl, rfl⟩
  · intro r hr
    refine ⟨update_of_ne hr .., ?_⟩
    intro h
    have := (hheld.held r np h).2
    rw [hfree] at this
    cases this
  · intro _
    rw [hself]
    refine iff_of_false (by simp) ?_
    rintro ⟨e, he, hchild⟩
    exact absurd hchild (hpids.clones e he).2.ne
  · intro m hm
    rw [Kernel.setCtl_ctl, update_self, hc] at hm
    rw [hself]
    exact ⟨(Option.some.inj hm).symm, rfl⟩
  · intro _ hembryo
    rw [hself] at hembryo
    exact absurd rfl hembryo
  · intro m hm
    rw [Kernel.setCtl_ctl, update_self] at hm
    rw [hm] at hc
    cases hc

theorem RecordOk.filled_step {s₁ : Kernel} {flags : BitVec 32} {env : SpawnEnv} {child : Proc}
    (hi : RecordOk s) (hheld : HeldOk s) (hpids : PidsOk s) (hctl : (s.ctl p).unfilled = some np)
    (h : ChildMade s p np flags env child s₁)
    (hkind : ForkMade s p (s.procs np).pid child s₁ ∨
      CloneMade s p (s.procs np).pid flags child s₁) :
    RecordOk (s₁.setCtl p (.publishing np)) := by
  have hheldnp := Ctl.held_of_unfilled hctl
  have hembryo := (hheld.held p np hheldnp).2
  have hself : (s₁.setCtl p (.publishing np)).procs np = child :=
    (congrFun h.procs np).trans (s.withChild_self p np flags child)
  -- before, nobody had cloned the pid of the slot
  have hnot : ¬ s.WasCloned (s.procs np).pid := by
    intro hwas
    have := (hi.kind np (by simp [hembryo])).mpr hwas
    rw [hi.fresh p np hctl] at this
    cases this
  refine hi.slot p np ?_ ?_ ?_ ?_ ?_ ?_ ?_
  · intro q hq
    have hproc : (s₁.setCtl p (.publishing np)).procs q = _ :=
      (congrFun h.procs q).trans (s.withChild_of_ne p np flags child hq)
    rw [hproc]
    exact ⟨rfl, rfl, rfl, rfl⟩
  · intro r hr
    refine ⟨?_, hheld.others hheldnp r hr⟩
    rw [Kernel.setCtl_ctl, update_of_ne hr, h.ctl]
  · intro q hq hused
    rw [Kernel.WasCloned, Kernel.WasCloned, Kernel.setCtl_clones]
    rcases hkind with hfork | hclone
    · rw [hfork.clones]
    · have hne : (s.procs np).pid ≠ (s.procs q).pid := by
        intro heq
        exact hq (hpids.inj q np heq.symm (hpids.pos q hused).ne')
      rw [hclone.clones]
      simp [hne]
  · intro _
    rw [hself, Kernel.WasCloned, Kernel.setCtl_clones]
    rcases hkind with hfork | hclone
    · rw [hfork.isThread, hfork.pid, hfork.clones]
      exact iff_of_false (by simp) hnot
    · rw [hclone.isThread, hclone.pid, hclone.clones]
      simp
  · intro m hm
    rw [Kernel.setCtl_ctl, update_self] at hm
    cases hm
  · intro _ _
    rw [hself]
    exact h.childStack
  · intro m hm
    rw [Kernel.setCtl_ctl, update_self] at hm
    rw [hself]
    exact ⟨(Ctl.publishing.inj hm).symm, h.childStack⟩

theorem RecordOk.published_step (hi : RecordOk s) (hheld : HeldOk s)
    (hctl : s.ctl p = .publishing np) : RecordOk ((publish s np).setCtl p .user) := by
  have hheldnp : (s.ctl p).held = some np := by rw [hctl]; rfl
  have hembryo := (hheld.held p np hheldnp).2
  have hself : ((publish s np).setCtl p .user).procs np =
      { s.procs np with state := .runnable } := Kernel.setProc_procs_self ..
  refine hi.slot p np ?_ ?_ (fun _ _ _ => Iff.rfl) ?_ ?_ ?_ ?_
  · intro q hq
    have hproc : ((publish s np).setCtl p .user).procs q = s.procs q :=
      Kernel.setProc_procs_of_ne _ _ _ hq
    rw [hproc]
    exact ⟨rfl, rfl, rfl, rfl⟩
  · intro r hr
    exact ⟨update_of_ne hr .., hheld.others hheldnp r hr⟩
  · intro _
    rw [hself]
    exact hi.kind np (by simp [hembryo])
  · intro m hm
    rw [Kernel.setCtl_ctl, update_self] at hm
    cases hm
  · intro _ _
    rw [hself]
    exact hi.filled p np hctl
  · intro m hm
    rw [Kernel.setCtl_ctl, update_self] at hm
    cases hm

theorem RecordOk.zombied_step (hi : RecordOk s) (hheld : HeldOk s)
    (hheld' : HeldOk ((exitZombie s p).setCtl p .user)) (hp : (s.procs p).state = .running)
    (hctl : s.ctl p = .exiting) : RecordOk ((exitZombie s p).setCtl p .user) := by
  have hprocs := exitZombie_procs (hheld.leaving p hctl)
  refine hi.kept ?_ rfl ?_
  · intro q hq
    obtain ⟨st, hst, hzombie, hwoken, -⟩ := hprocs q
    rw [Kernel.setCtl_procs, hst] at hq ⊢
    by_cases hqp : q = p
    · exact ⟨by simp [hqp, hp], fun _ => by simp [hqp, hp], rfl, rfl, rfl⟩
    · refine ⟨mt (hwoken hqp).unused_iff.mpr hq, ?_, rfl, rfl, rfl⟩
      rcases hwoken hqp with hsame | ⟨hold, -⟩
      · exact fun h => hsame ▸ h
      · exact fun _ => by simp [hold]
  · intro r m hr
    refine ⟨?_, hheld'.used hr⟩
    obtain ⟨hrp, -⟩ := Ctl.held_update rfl hr
    exact update_of_ne hrp ..

theorem RecordOk.step (hi : RecordOk s) (hheld : HeldOk s) (hpids : PidsOk s)
    (hstep : LockStep s e s') : RecordOk s' := by
  have hheld' := hheld.step hstep
  cases hheld.effect hstep with
  | refused => exact hi
  | whole hcut h =>
    have hstack := h.kstack_eq hcut
    rcases h.ids hcut with ⟨hsame, hctl⟩ | ⟨q, z, s₁, hsame, hctl, h⟩
    · refine hi.kept ?_ hsame.clones fun p np hp => ⟨hctl.eq_of_held hp, hheld'.used hp⟩
      intro q hq
      exact ⟨mt (hsame.unused q).mpr hq, mt (hsame.embryo q).mpr, hsame.pid q,
        hsame.isThread q, (hstack q).resolve_right hq⟩
    · refine hi.kept ?_ (h.clones.trans hsame.clones) fun p np hp => ⟨?_, hheld'.used hp⟩
      · intro r hr
        have hrz := h.ne_of_used_after hr
        have hkstack := (hstack r).resolve_right hr
        rw [h.kept r hrz] at hr hkstack ⊢
        exact ⟨mt (hsame.unused r).mpr hr, mt (hsame.embryo r).mpr, hsame.pid r,
          hsame.isThread r, hkstack⟩
      · have hmid := h.ctl_eq.eq_of_held hp
        rw [hmid] at hp ⊢
        exact hctl.eq_of_held hp
  | allocated hp hfree hc => exact hi.allocated_step hheld hpids hfree hc
  | filled hp hctl h hkind hstate hnext => exact hi.filled_step hheld hpids hctl h hkind
  | dropped hp hctl h =>
    rename_i p np env s₁
    obtain ⟨hstate, -, -, -, -, hclones, hctl'⟩ := h.rest_eq
    refine hi.kept ?_ hclones ?_
    · intro q hq
      have hqn : q ≠ np := by
        rintro rfl
        exact hq hstate
      rw [Kernel.setCtl_procs, h.other_eq hqn] at hq ⊢
      exact ⟨hq, id, rfl, rfl, rfl⟩
    · intro r m hr
      refine ⟨?_, hheld'.used hr⟩
      obtain ⟨hrp, -⟩ := Ctl.held_update rfl hr
      rw [Kernel.setCtl_ctl, update_of_ne hrp, hctl']
  | published hp hctl => exact hi.published_step hheld hctl
  | released hp hctl h =>
    have hsame := h.sameIds (c := .exiting)
    refine hi.kept ?_ hsame.clones ?_
    · intro q hq
      refine ⟨mt (hsame.unused q).mpr hq, mt (hsame.embryo q).mpr, hsame.pid q,
        hsame.isThread q, ?_⟩
      rw [Kernel.setCtl_procs, h.procs]
    · intro r m hr
      refine ⟨?_, hheld'.used hr⟩
      obtain ⟨hrp, -⟩ := Ctl.held_update rfl hr
      rw [Kernel.setCtl_ctl, update_of_ne hrp, h.ctl]
  | zombied hp hctl => exact hi.zombied_step hheld hheld' hp hctl

theorem recordOk_of_lockReachable (h : Reachable LockStep boot s) : RecordOk s := by
  refine h.invariant recordOk_boot ?_
  intro s e s' hreach hi _ hstep
  obtain ⟨hheld, hpids, -⟩ := lineage_of_lockReachable hreach
  exact hi.step hheld hpids hstep

/-! ## What the calls return -/

/-- A pid that was returned to a caller: by `fork` or `clone` when the child was
made, by `wait` or `join` when it was reaped. `thread` tells `clone` and `join`
from `fork` and `wait`. -/
inductive Return
  | made (thread : Bool) (pid : ℤ)
  | reaped (thread : Bool) (pid : ℤ)
  deriving DecidableEq

def Return.pid : Return → ℤ
  | .made _ pid => pid
  | .reaped _ pid => pid

/-- Whether a call is a turn of `wait` or of `join`. -/
def Call.reaps (s : Kernel) (p : Slot) : Call → Option Bool
  | .wait => some false
  | .join _ => some true
  | .resume =>
    match s.ctl p with
    | .waiting => some false
    | .joining _ => some true
    | _ => none
  | _ => none

/-- The pid a step returns. `fork` and `clone` return at the end of their last
critical section; a call that fails returns -1. -/
def LockEvent.returns (s : Kernel) : LockEvent → Option Return
  | .publish p =>
    match s.ctl p with
    | .publishing np => some (.made (decide (s.WasCloned (s.procs np).pid)) (s.procs np).pid)
    | _ => none
  | .whole (.call p c) =>
    match c.reaps s p, syscall s p c with
    | some thread, .ok (_, some pid) => if pid = -1 then none else some (.reaped thread pid)
    | _, _ => none
  | _ => none

/-- The machine with a log of everything returned. -/
def LoggedStep (x : Kernel × List Return) (e : LockEvent) (y : Kernel × List Return) : Prop :=
  nextLogged lockNext (fun s e => e.returns s) x e = some y

/-- Past the end of `fork` or `clone`, and not reaped yet. -/
def Proc.Published (p : Proc) : Prop := p.state ≠ .unused ∧ p.state ≠ .embryo

/-- Whoever is there after the step, apart from `np`, was there before as the
same process, and slots in the making keep their pid or have a new one. -/
structure Carried (s s' : Kernel) (np : Option Slot) : Prop where
  published : ∀ q, some q ≠ np → (s'.procs q).Published →
    (s.procs q).Published ∧ (s'.procs q).pid = (s.procs q).pid ∧
      (s'.procs q).isThread = (s.procs q).isThread
  embryo : ∀ q, (s'.procs q).state = .embryo →
    (s.procs q).state = .embryo ∧ (s'.procs q).pid = (s.procs q).pid ∨
      s.nextpid ≤ (s'.procs q).pid
  next : s.nextpid ≤ s'.nextpid
  initproc : s'.initproc = s.initproc

/-- What a step does to the life of a process, and what it returns. -/
inductive LifeChange (s : Kernel) : Option Return → Kernel → Prop
  | quiet {s' : Kernel} (h : Carried s s' none) : LifeChange s none s'
  | born {np : Slot} {s' : Kernel} (h : Carried s s' (some np))
      (hnp : (s.procs np).state = .embryo) (hpid : (s'.procs np).pid = (s.procs np).pid)
      (hborn : (s'.procs np).state ≠ .embryo) :
      LifeChange s (some (.made (s'.procs np).isThread (s.procs np).pid)) s'
  | freed {z : Slot} {s' : Kernel} (h : Carried s s' none)
      (hz : (s.procs z).state = .zombie) (hfree : (s'.procs z).state = .unused) :
      LifeChange s (some (.reaped (s.procs z).isThread (s.procs z).pid)) s'

theorem SameIds.published (h : SameIds s s') (q : Slot) :
    (s'.procs q).Published ↔ (s.procs q).Published := by
  simp only [Proc.Published, ne_eq, h.unused q, h.embryo q]

theorem SameIds.carried (h : SameIds s s') : Carried s s' none := by
  refine ⟨?_, ?_, h.nextpid.ge, h.initproc⟩
  · intro q _ hq
    exact ⟨(h.published q).mp hq, h.pid q, h.isThread q⟩
  · intro q hq
    exact .inl ⟨(h.embryo q).mp hq, h.pid q⟩

/-- One slot changes hands and the rest stays. -/
theorem carried_of_slot (np : Slot)
    (hother : ∀ q, q ≠ np → (s'.procs q).state = (s.procs q).state ∧
      (s'.procs q).pid = (s.procs q).pid ∧ (s'.procs q).isThread = (s.procs q).isThread)
    (hembryo : (s'.procs np).state = .embryo →
      (s.procs np).state = .embryo ∧ (s'.procs np).pid = (s.procs np).pid ∨
        s.nextpid ≤ (s'.procs np).pid) (hnext : s.nextpid ≤ s'.nextpid)
    (hinit : s'.initproc = s.initproc) :
    Carried s s' (some np) := by
  refine ⟨?_, ?_, hnext, hinit⟩
  · intro q hq hpub
    obtain ⟨hstate, hpid, hthread⟩ := hother q fun h => hq (h ▸ rfl)
    rw [Proc.Published, hstate] at hpub
    exact ⟨hpub, hpid, hthread⟩
  · intro q hq
    by_cases hqn : q = np
    · rw [hqn] at hq ⊢
      exact hembryo hq
    · obtain ⟨hstate, hpid, -⟩ := hother q hqn
      exact .inl ⟨hstate ▸ hq, hpid⟩

/-- A slot that is not published after the step is no exception. -/
theorem Carried.of_unpublished (h : Carried s s' (some np)) (hnp : ¬ (s'.procs np).Published) :
    Carried s s' none := by
  refine ⟨?_, h.embryo, h.next, h.initproc⟩
  intro q _ hq
  apply h.published q _ hq
  intro heq
  exact hnp (Option.some.inj heq ▸ hq)

theorem Carried.after_same {s₁ : Kernel} {np : Option Slot} (h : Carried s₁ s' np)
    (hsame : SameIds s s₁) : Carried s s' np := by
  refine ⟨?_, ?_, hsame.nextpid ▸ h.next, h.initproc.trans hsame.initproc⟩
  · intro q hq hpub
    obtain ⟨hold, hpid, hthread⟩ := h.published q hq hpub
    exact ⟨(hsame.published q).mp hold, hpid.trans (hsame.pid q),
      hthread.trans (hsame.isThread q)⟩
  · intro q hq
    rcases h.embryo q hq with ⟨hold, hpid⟩ | hnew
    · exact .inl ⟨(hsame.embryo q).mp hold, hpid.trans (hsame.pid q)⟩
    · exact .inr (hsame.nextpid ▸ hnew)

theorem Reaped.carried {z : Slot} (h : Reaped s q z s') : Carried s s' none := by
  have hfree := h.unused
  refine Carried.of_unpublished (carried_of_slot z ?_ ?_ h.nextpid.ge h.initproc)
    fun hpub => hpub.1 hfree
  · intro r hr
    rw [h.kept r hr]
    exact ⟨rfl, rfl, rfl⟩
  · intro hembryo
    rw [hfree] at hembryo
    cases hembryo

/-- Only the last critical section of `fork` and `clone` publishes anybody. -/
theorem LockEffect.carried (hheld : HeldOk s) (h : LockEffect s e s') (he : ∀ p, e ≠ .publish p) :
    Carried s s' none := by
  cases h with
  | refused => exact (SameIds.refl s).carried
  | whole hcut h =>
    rcases h.ids hcut with ⟨hsame, -⟩ | ⟨q, z, s₁, hsame, -, h⟩
    · exact hsame.carried
    · exact h.carried.after_same hsame
  | allocated hp hfree hc =>
    rename_i p np c
    have hself : ((s.allocated np).setCtl p c).procs np = _ := s.allocated_procs_self np
    refine Carried.of_unpublished (carried_of_slot np ?_ ?_ ?_ rfl) ?_
    · intro q hq
      rw [Kernel.setCtl_procs, s.allocated_procs_of_ne hq]
      exact ⟨rfl, rfl, rfl⟩
    · intro _
      rw [hself]
      exact .inr le_rfl
    · exact Int.le_add_one le_rfl
    · rw [hself]
      exact fun hpub => hpub.2 rfl
  | filled hp hctl h hkind hstate hnext =>
    rename_i p np flags env child s₁
    have hnp := (hheld.held p np (Ctl.held_of_unfilled hctl)).2
    have hself : (s₁.setCtl p (.publishing np)).procs np = child :=
      (congrFun h.procs np).trans (s.withChild_self p np flags child)
    refine Carried.of_unpublished (carried_of_slot np ?_ ?_ hnext.ge h.initproc) ?_
    · intro q hq
      have hproc : (s₁.setCtl p (.publishing np)).procs q = _ :=
        (congrFun h.procs q).trans (s.withChild_of_ne p np flags child hq)
      rw [hproc]
      exact ⟨rfl, rfl, rfl⟩
    · intro _
      rw [hself]
      exact .inl ⟨hnp, hkind.elim (·.pid) (·.pid)⟩
    · rw [hself]
      exact fun hpub => hpub.2 (hstate.trans hnp)
  | dropped hp hctl h =>
    rename_i p np env s₁
    obtain ⟨hstate, -, -, hinit, hnext, -⟩ := h.rest_eq
    refine Carried.of_unpublished (carried_of_slot np ?_ ?_ hnext.ge hinit) ?_
    · intro q hq
      rw [Kernel.setCtl_procs, h.other_eq hq]
      exact ⟨rfl, rfl, rfl⟩
    · intro hembryo
      rw [Kernel.setCtl_procs, hstate] at hembryo
      cases hembryo
    · exact fun hpub => hpub.1 hstate
  | published hp hctl => exact absurd rfl (he _)
  | released hp hctl h => exact h.sameIds.carried
  | zombied hp hctl =>
    rename_i p
    have hprocs := exitZombie_procs (hheld.leaving p hctl)
    refine ⟨?_, ?_, le_rfl, rfl⟩
    · intro q _ hpub
      obtain ⟨st, hst, -, hwoken, -⟩ := hprocs q
      rw [Kernel.setCtl_procs, hst] at hpub ⊢
      refine ⟨?_, rfl, rfl⟩
      by_cases hqp : q = p
      · simp [Proc.Published, hqp, hp]
      · refine ⟨mt (hwoken hqp).unused_iff.mpr hpub.1, ?_⟩
        rcases hwoken hqp with hsame | ⟨hold, -⟩
        · exact fun h => hpub.2 (hsame.trans h)
        · simp [hold]
    · intro q hembryo
      obtain ⟨st, hst, hzombie, hwoken, -⟩ := hprocs q
      rw [Kernel.setCtl_procs, hst] at hembryo ⊢
      have hembryo : st = .embryo := hembryo
      have hqp : q ≠ p := by
        intro hqp
        rw [hzombie hqp] at hembryo
        cases hembryo
      rcases hwoken hqp with hsame | ⟨-, hnew⟩
      · exact .inl ⟨hsame.symm.trans hembryo, rfl⟩
      · rw [hnew] at hembryo
        cases hembryo

theorem returns_reaped {r : Return} (h : LockEvent.returns s (.whole (.call p c)) = some r) :
    ∃ thread pid s', c.reaps s p = some thread ∧ syscall s p c = .ok (s', some pid) ∧
      pid ≠ -1 ∧ r = .reaped thread pid := by
  rw [LockEvent.returns] at h
  split at h
  · rename_i thread s' pid hreaps hrun
    split_ifs at h with hfail
    exact ⟨thread, pid, s', hreaps, hrun, hfail, (Option.some.inj h).symm⟩
  · cases h

/-- A turn of `wait` that returns a pid has freed the process with that pid,
which is not a thread. -/
theorem waitIter_reaped {pid : ℤ} (hrun : waitIter s p = .ok (s', some pid)) (hpid : pid ≠ -1) :
    ∃ z, Reaped s p z s' ∧ (s.procs z).pid = pid ∧ (s.procs z).isThread = false := by
  rcases waitIter_ok hrun with ⟨z, d, hscan, hreaped, -, -, -, hret⟩ | ⟨-, hret⟩ | ⟨-, hret, -⟩
  · exact ⟨z, hreaped, (Option.some.inj hret).symm, (waitScan_found hscan).isThread⟩
  · exact absurd (Option.some.inj hret) hpid
  · cases hret

/-- A turn of `join` that returns a pid has freed the thread with that pid. -/
theorem joinIter_reaped {pid pid' : ℤ} (hrun : joinIter s p pid' = (s', some pid))
    (hpid : pid ≠ -1) :
    ∃ z, Reaped s p z s' ∧ (s.procs z).pid = pid ∧ (s.procs z).isThread = true := by
  rcases joinIter_cases s p pid' with ⟨z, helig, hreaped, -, hret⟩ | hfail | ⟨-, hsleep⟩
  · rw [hrun] at hreaped hret
    exact ⟨z, hreaped, helig.pid.trans (Option.some.inj hret).symm, helig.isThread⟩
  · rw [hrun] at hfail
    exact absurd (Option.some.inj (Prod.mk.inj hfail).2) hpid
  · rw [hrun] at hsleep
    cases (Prod.mk.inj hsleep).2

/-- A step that returns a pid from `wait` or `join` frees the process with that
pid, and nothing else happens to anybody's slot. -/
theorem reaped_of_returns {thread : Bool} {pid : ℤ} (hen : Enabled s p c)
    (hreaps : c.reaps s p = some thread) (hrun : syscall s p c = .ok (s', some pid))
    (hpid : pid ≠ -1) :
    ∃ z s₁, IsTouch s p s₁ ∧ (∀ q, (s₁.procs q).state = (s.procs q).state) ∧
      Reaped s₁ p z s' ∧ (s.procs z).pid = pid ∧ (s.procs z).isThread = thread := by
  have hawake : ∀ q, ((s.setProc p { s.procs p with chan := none }).procs q).pid =
      (s.procs q).pid ∧ ((s.setProc p { s.procs p with chan := none }).procs q).isThread =
        (s.procs q).isThread := fun q =>
    ⟨(isTouch_awake hen.1).sameTree.pid q, (isTouch_awake hen.1).sameTree.isThread q⟩
  cases c with
  | wait =>
    cases hreaps
    obtain ⟨z, hreaped, hz, hthread⟩ := waitIter_reaped hrun hpid
    exact ⟨z, s, isTouch_refl s p, fun _ => rfl, hreaped, hz, hthread⟩
  | join pid' =>
    cases hreaps
    obtain ⟨z, hreaped, hz, hthread⟩ := joinIter_reaped (Except.ok.inj hrun) hpid
    exact ⟨z, s, isTouch_refl s p, fun _ => rfl, hreaped, hz, hthread⟩
  | resume =>
    rw [Call.reaps] at hreaps
    rw [syscall, resume] at hrun
    dsimp only at hrun
    split at hreaps
    · rename_i hctl
      cases hreaps
      rw [hctl] at hrun
      obtain ⟨z, hreaped, hz, hthread⟩ := waitIter_reaped hrun hpid
      exact ⟨z, _, isTouch_awake hen.1, awake_state s p, hreaped,
        (hawake z).1.symm.trans hz, (hawake z).2.symm.trans hthread⟩
    · rename_i pid' hctl
      cases hreaps
      rw [hctl] at hrun
      obtain ⟨z, hreaped, hz, hthread⟩ := joinIter_reaped (Except.ok.inj hrun) hpid
      exact ⟨z, _, isTouch_awake hen.1, awake_state s p, hreaped,
        (hawake z).1.symm.trans hz, (hawake z).2.symm.trans hthread⟩
    · cases hreaps
  | _ => cases hreaps

theorem lockStep_publish (h : LockStep s (.publish p) s') :
    ∃ np, s.ctl p = .publishing np ∧ s' = (publish s np).setCtl p .user := by
  rw [LockStep, lockNext] at h
  split_ifs at h with hp
  split at h
  · rename_i np hctl
    exact ⟨np, hctl, (Option.some.inj h).symm⟩
  · cases h

theorem lockStep_call (h : LockStep s (.whole (.call p c)) s') :
    Enabled s p c ∧ ∃ r, syscall s p c = .ok (s', r) := by
  rw [LockStep, lockNext] at h
  split_ifs at h
  rcases step_cases h with ⟨p', c', r, heq, hen, hrun⟩ | ⟨p', heq, -⟩ | ⟨p', heq, -⟩
  · cases heq
    exact ⟨hen, r, hrun⟩
  · cases heq
  · cases heq

theorem lockStep_life (hheld : HeldOk s) (hrecord : RecordOk s) (hstep : LockStep s e s') :
    LifeChange s (e.returns s) s' := by
  by_cases hpublish : ∃ p, e = .publish p
  · obtain ⟨p, rfl⟩ := hpublish
    obtain ⟨np, hctl, rfl⟩ := lockStep_publish hstep
    have hnp := (hheld.held p np (by rw [hctl]; rfl)).2
    have hself : ((publish s np).setCtl p .user).procs np =
        { s.procs np with state := .runnable } := Kernel.setProc_procs_self ..
    have hkind : decide (s.WasCloned (s.procs np).pid) = (s.procs np).isThread := by
      rw [Bool.eq_iff_iff, decide_eq_true_iff]
      exact (hrecord.kind np (by simp [hnp])).symm
    have hreturns : LockEvent.returns s (.publish p) =
        some (.made (((publish s np).setCtl p .user).procs np).isThread (s.procs np).pid) := by
      rw [LockEvent.returns, hctl, hself]
      dsimp only
      rw [hkind]
    rw [hreturns]
    refine .born (carried_of_slot np ?_ ?_ le_rfl rfl) hnp ?_ ?_
    · intro q hq
      have hproc : ((publish s np).setCtl p .user).procs q = s.procs q :=
        Kernel.setProc_procs_of_ne _ _ _ hq
      rw [hproc]
      exact ⟨rfl, rfl, rfl⟩
    · rw [hself]
      intro h
      cases h
    · rw [hself]
    · rw [hself]
      exact ProcState.noConfusion
  · have hcarried := (hheld.effect hstep).carried hheld fun p hp => hpublish ⟨p, hp⟩
    cases hret : e.returns s with
    | none => exact .quiet hcarried
    | some r =>
      -- only `wait` and `join` are left
      cases e with
      | publish p => exact absurd ⟨p, rfl⟩ hpublish
      | whole ev =>
        cases ev with
        | call p c =>
          obtain ⟨thread, pid, s₁, hreaps, hrun, hpid, rfl⟩ := returns_reaped hret
          obtain ⟨hen, r, hrun'⟩ := lockStep_call hstep
          obtain ⟨rfl, -⟩ := Prod.mk.inj (Except.ok.inj (hrun.symm.trans hrun'))
          obtain ⟨z, s₂, -, hstate, hreaped, rfl, rfl⟩ :=
            reaped_of_returns hen hreaps hrun hpid
          exact .freed hcarried ((hstate z).symm.trans hreaped.zombie) hreaped.unused
        | dispatch p => cases hret
        | yield p => cases hret
      | forkAlloc p => cases hret
      | cloneAlloc p flags => cases hret
      | fill p env => cases hret
      | exitRelease p => cases hret
      | exitZombie p => cases hret

/-! ## The log -/

/-- The log matches the table: whoever is there was made, what was reaped is
gone, and a pid in the making was never returned. -/
structure LogOk (s : Kernel) (log : List Return) : Prop where
  lt : ∀ r ∈ log, r.pid < s.nextpid
  embryo : ∀ q, (s.procs q).state = .embryo → ∀ r ∈ log, r.pid ≠ (s.procs q).pid
  made : ∀ q, (s.procs q).Published → q ≠ s.initproc →
    .made (s.procs q).isThread (s.procs q).pid ∈ log
  gone : ∀ thread pid, .reaped thread pid ∈ log →
    .made thread pid ∈ log ∧ ∀ q, (s.procs q).state ≠ .unused → (s.procs q).pid ≠ pid
  once : ∀ thread pid, log.count (.reaped thread pid) ≤ 1
  apart : ∀ pid, .made true pid ∈ log → .made false pid ∉ log

theorem logOk_boot : LogOk boot [] := by
  constructor
  case made =>
      rintro q ⟨hused, -⟩ hq
      rw [boot_procs_of_ne hq] at hused
      exact absurd rfl hused
  all_goals simp

/-- A pid that was returned and does not belong to anyone in `s` does not belong
to anyone carried over. -/
theorem Carried.pid_ne {np : Option Slot} {pid : ℤ} (h : Carried s s' np) (hq : some q ≠ np)
    (hused : (s'.procs q).state ≠ .unused) (hlt : pid < s.nextpid)
    (hold : (s.procs q).state ≠ .unused → (s.procs q).pid ≠ pid) :
    (s'.procs q).pid ≠ pid := by
  by_cases hembryo : (s'.procs q).state = .embryo
  · rcases h.embryo q hembryo with ⟨hstate, hpid⟩ | hnew
    · rw [hpid]
      exact hold (by simp [hstate])
    · exact (hlt.trans_le hnew).ne'
  · obtain ⟨hpub, hpid, -⟩ := h.published q hq ⟨hused, hembryo⟩
    rw [hpid]
    exact hold hpub.1

theorem Carried.embryo_ne {np : Option Slot} {pid : ℤ} (h : Carried s s' np)
    (hq : (s'.procs q).state = .embryo) (hlt : pid < s.nextpid)
    (hold : (s.procs q).state = .embryo → pid ≠ (s.procs q).pid) : pid ≠ (s'.procs q).pid := by
  rcases h.embryo q hq with ⟨hstate, hpid⟩ | hnew
  · rw [hpid]
    exact hold hstate
  · exact (hlt.trans_le hnew).ne

theorem LogOk.quiet (hi : LogOk s log) (h : Carried s s' none) : LogOk s' log := by
  refine ⟨?_, ?_, ?_, ?_, hi.once, hi.apart⟩
  · intro r hr
    exact (hi.lt r hr).trans_le h.next
  · intro q hq r hr
    exact h.embryo_ne hq (hi.lt r hr) fun hold => hi.embryo q hold r hr
  · intro q hpub hq
    rw [h.initproc] at hq
    obtain ⟨hold, hpid, hthread⟩ := h.published q (Option.some_ne_none q) hpub
    rw [hpid, hthread]
    exact hi.made q hold hq
  · intro thread pid hr
    obtain ⟨hmade, hgone⟩ := hi.gone thread pid hr
    refine ⟨hmade, fun q hused => ?_⟩
    exact h.pid_ne (Option.some_ne_none q) hused (hi.lt _ hr) (hgone q)

theorem LogOk.born (hi : LogOk s log) (hpids : PidsOk s) (h : Carried s s' (some np))
    (hnp : (s.procs np).state = .embryo) (hpid : (s'.procs np).pid = (s.procs np).pid)
    (hborn : (s'.procs np).state ≠ .embryo) :
    LogOk s' (.made (s'.procs np).isThread (s.procs np).pid :: log) := by
  have hnew : ∀ r ∈ log, r.pid ≠ (s.procs np).pid := hi.embryo np hnp
  have hused : (s.procs np).state ≠ .unused := by simp [hnp]
  refine ⟨?_, ?_, ?_, ?_, ?_, ?_⟩
  · intro r hr
    rcases List.mem_cons.mp hr with rfl | hr
    · exact (hpids.lt np).trans_le h.next
    · exact (hi.lt r hr).trans_le h.next
  · intro q hq r hr
    rcases List.mem_cons.mp hr with rfl | hr
    · apply h.embryo_ne hq (hpids.lt np)
      intro _ heq
      obtain rfl := hpids.inj np q heq (hpids.pos np hused).ne'
      exact hborn hq
    · exact h.embryo_ne hq (hi.lt r hr) fun hold => hi.embryo q hold r hr
  · intro q hpub hq
    rw [h.initproc] at hq
    by_cases hqn : q = np
    · rw [hqn, hpid]
      exact List.mem_cons_self
    · obtain ⟨hold, hpid, hthread⟩ := h.published q (by simpa using hqn) hpub
      rw [hpid, hthread]
      exact List.mem_cons_of_mem _ (hi.made q hold hq)
  · intro thread pid hr
    have hr : .reaped thread pid ∈ log := by simpa using hr
    obtain ⟨hmade, hgone⟩ := hi.gone thread pid hr
    refine ⟨List.mem_cons_of_mem _ hmade, fun q hq => ?_⟩
    by_cases hqn : q = np
    · rw [hqn, hpid]
      exact hgone np hused
    · exact h.pid_ne (by simpa using hqn) hq (hi.lt _ hr) (hgone q)
  · intro thread pid
    rw [List.count_cons_of_ne (by simp)]
    exact hi.once thread pid
  · intro pid htrue hfalse
    rcases List.mem_cons.mp htrue with heq | htrue
    · rcases List.mem_cons.mp hfalse with heq' | hfalse
      · rw [← heq] at heq'
        cases heq'
      · obtain ⟨-, rfl⟩ := Return.made.inj heq
        exact hnew _ hfalse rfl
    · rcases List.mem_cons.mp hfalse with heq | hfalse
      · obtain ⟨-, rfl⟩ := Return.made.inj heq
        exact hnew _ htrue rfl
      · exact hi.apart pid htrue hfalse

theorem LogOk.freed {z : Slot} (hi : LogOk s log) (hpids : PidsOk s) (htree : TreeOk s)
    (h : Carried s s' none) (hz : (s.procs z).state = .zombie)
    (hfree : (s'.procs z).state = .unused) :
    LogOk s' (.reaped (s.procs z).isThread (s.procs z).pid :: log) := by
  have hused : (s.procs z).state ≠ .unused := by simp [hz]
  have hunique : ∀ q, (s.procs q).pid = (s.procs z).pid → q = z := fun q heq =>
    hpids.inj q z heq (heq ▸ (hpids.pos z hused).ne')
  have hinit : z ≠ s.initproc := by
    rintro rfl
    exact htree.init.1.ne.2.2 hz
  refine ⟨?_, ?_, ?_, ?_, ?_, ?_⟩
  · intro r hr
    rcases List.mem_cons.mp hr with rfl | hr
    · exact (hpids.lt z).trans_le h.next
    · exact (hi.lt r hr).trans_le h.next
  · intro q hq r hr
    rcases List.mem_cons.mp hr with rfl | hr
    · apply h.embryo_ne hq (hpids.lt z)
      intro hold heq
      rw [hunique q heq.symm, hz] at hold
      cases hold
    · exact h.embryo_ne hq (hi.lt r hr) fun hold => hi.embryo q hold r hr
  · intro q hpub hq
    rw [h.initproc] at hq
    obtain ⟨hold, hpid, hthread⟩ := h.published q (Option.some_ne_none q) hpub
    rw [hpid, hthread]
    exact List.mem_cons_of_mem _ (hi.made q hold hq)
  · intro thread pid hr
    rcases List.mem_cons.mp hr with heq | hr
    · cases heq
      refine ⟨List.mem_cons_of_mem _ (hi.made z ⟨hused, by simp [hz]⟩ hinit), fun q hq => ?_⟩
      apply h.pid_ne (Option.some_ne_none q) hq (hpids.lt z)
      intro _ heq
      rw [hunique q heq] at hq
      exact hq hfree
    · obtain ⟨hmade, hgone⟩ := hi.gone thread pid hr
      refine ⟨List.mem_cons_of_mem _ hmade, fun q hq => ?_⟩
      exact h.pid_ne (Option.some_ne_none q) hq (hi.lt _ hr) (hgone q)
  · intro thread pid
    by_cases heq : Return.reaped (s.procs z).isThread (s.procs z).pid = .reaped thread pid
    · -- it was not reaped before, since it is still there
      have hnot : .reaped thread pid ∉ log := by
        intro hr
        cases heq
        exact (hi.gone _ _ hr).2 z hused rfl
      rw [heq, List.count_cons_self, List.count_eq_zero_of_not_mem hnot]
    · rw [List.count_cons_of_ne heq]
      exact hi.once thread pid
  · intro pid htrue hfalse
    exact hi.apart pid (by simpa using htrue) (by simpa using hfalse)

theorem LogOk.step {r : Option Return} (hi : LogOk s log) (hpids : PidsOk s) (htree : TreeOk s)
    (h : LifeChange s r s') :
    LogOk s' (r.toList ++ log) := by
  cases h with
  | quiet h => exact hi.quiet h
  | born h hnp hpid hborn => exact hi.born hpids h hnp hpid hborn
  | freed h hz hfree => exact hi.freed hpids htree h hz hfree

theorem logOk_of_reachable {x : Kernel × List Return}
    (h : Reachable LoggedStep (boot, []) x) : LogOk x.1 x.2 := by
  refine h.invariant (P := fun x : Kernel × List Return => LogOk x.1 x.2) logOk_boot ?_
  intro x e y hreach hi _ hstep
  have hlock : Reachable LockStep boot x.1 := reachable_of_logged hreach
  obtain ⟨hheld, hpids, htree⟩ := lineage_of_lockReachable hlock
  obtain ⟨hnext, hlog⟩ := nextLogged_eq_some hstep
  rw [hlog]
  exact hi.step hpids htree (lockStep_life hheld (recordOk_of_lockReachable hlock) hnext)

/-- Pids in use are distinct and positive. A pid returned by `fork` is returned
by at most one `wait` and no `join`, one returned by `clone` by at most one
`join` and no `wait`. A step that returns a pid from `wait` or `join` finds the
process with that pid a zombie with a kernel stack, frees its stack and its slot
and nobody else's; until then every process made by `fork` or `clone` keeps its
stack. -/
theorem children_reaped_once {s : Kernel} {log : List Return}
    (h : Reachable LoggedStep (boot, []) (s, log)) :
    (∀ q, (s.procs q).state ≠ .unused → 0 < (s.procs q).pid ∧
      ∀ r, (s.procs r).pid = (s.procs q).pid → r = q) ∧
    (∀ thread pid, .made thread pid ∈ log →
      log.count (.reaped thread pid) ≤ 1 ∧ .reaped (!thread) pid ∉ log) ∧
    (∀ q, (s.procs q).Published → (s.procs q).kstack = true) ∧
    ∀ e s' thread pid, LockStep s e s' → e.returns s = some (.reaped thread pid) →
      ∃ z, (s.procs z).pid = pid ∧ (s.procs z).state = .zombie ∧ (s.procs z).kstack = true ∧
        (s'.procs z).state = .unused ∧ (s'.procs z).kstack = false ∧
        ∀ q, q ≠ z → (s'.procs q).state = (s.procs q).state ∧
          (s'.procs q).kstack = (s.procs q).kstack := by
  have hlog := logOk_of_reachable h
  have hlock : Reachable LockStep boot s := reachable_of_logged h
  obtain ⟨hheld, hpids, -⟩ := lineage_of_lockReachable hlock
  have hrecord := recordOk_of_lockReachable hlock
  refine ⟨?_, ?_, ?_, ?_⟩
  · intro q hused
    have hpos := hpids.pos q hused
    exact ⟨hpos, fun r heq => hpids.inj r q heq (heq ▸ hpos.ne')⟩
  · intro thread pid hmade
    refine ⟨hlog.once thread pid, fun hreaped => ?_⟩
    have hother := (hlog.gone _ _ hreaped).1
    cases thread with
    | true => exact hlog.apart pid hmade hother
    | false => exact hlog.apart pid hother hmade
  · exact fun q hq => hrecord.stack q hq.1 hq.2
  · intro e s' thread pid hstep hret
    cases e with
    | whole ev =>
      cases ev with
      | call p c =>
        obtain ⟨_, _, s₁, hreaps, hrun, hpid, heq⟩ := returns_reaped hret
        cases heq
        obtain ⟨hen, r, hrun'⟩ := lockStep_call hstep
        obtain ⟨rfl, -⟩ := Prod.mk.inj (Except.ok.inj (hrun.symm.trans hrun'))
        obtain ⟨z, s₂, ⟨st, ch, k, htouch⟩, hstate, hreaped, hz, -⟩ :=
          reaped_of_returns hen hreaps hrun hpid
        have hzombie : (s.procs z).state = .zombie := (hstate z).symm.trans hreaped.zombie
        refine ⟨z, hz, hzombie, hrecord.stack z (by simp [hzombie]) (by simp [hzombie]),
          hreaped.unused, ?_, ?_⟩
        · obtain ⟨_, hfreed⟩ := hreaped.freed
          rw [hfreed]
        · intro q hq
          rw [hreaped.kept q hq]
          refine ⟨hstate q, ?_⟩
          rw [htouch.procs]
      | dispatch p => cases hret
      | yield p => cases hret
    | publish p =>
      obtain ⟨np, hctl, -⟩ := lockStep_publish hstep
      rw [LockEvent.returns, hctl] at hret
      cases hret
    | forkAlloc p => cases hret
    | cloneAlloc p flags => cases hret
    | fill p env => cases hret
    | exitRelease p => cases hret
    | exitZombie p => cases hret

/-- Init forks a process and clones a thread; both exit, init joins the one and
waits for the other. -/
theorem children_reaped_once_both :
    ∃ x, Reachable LoggedStep (boot, []) x ∧
      x.2 = [.reaped false 2, .reaped true 3, .made true 3, .made false 2] ∧
      x.2.count (.reaped false 2) ≤ 1 ∧ .reaped true 2 ∉ x.2 := by
  have hrun : ∃ x, Reachable LoggedStep (boot, []) x ∧
      x.2 = [.reaped false 2, .reaped true 3, .made true 3, .made false 2] :=
    exists_reachableBy
      [.whole (.dispatch 0), .forkAlloc 0, .fill 0 ⟨true, some 1, 8⟩, .publish 0,
        .cloneAlloc 0 0, .fill 0 ⟨true, some 2, 8⟩, .publish 0, .whole (.dispatch 1),
        .whole (.dispatch 2), .exitRelease 2, .exitZombie 2, .exitRelease 1, .exitZombie 1,
        .whole (.call 0 (.join 3)), .whole (.call 0 .wait)] (by decide +kernel)
  obtain ⟨x, hreach, hlog⟩ := hrun
  refine ⟨x, hreach, hlog, ?_⟩
  exact (children_reaped_once hreach).2.1 false 2 (by simp [hlog])

end Xv6Threads
