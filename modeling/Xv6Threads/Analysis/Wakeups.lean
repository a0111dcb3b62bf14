/-
# Wakeups of join and wait

`join` sleeps on the caller, which is the parent of the thread it waits for;
`exit` of a thread wakes the process that cloned it. The two are the same
process unless the thread was cloned by another thread or with `CLONE_PARENT`.
This module shows that the wakeup can be lost when they differ, and only then.
For `wait` the two are always the same, and init is woken again for each zombie
passed to it, so there no wakeup is lost.
-/

import Xv6Threads.Analysis.Lineage

namespace Xv6Threads

open Lib
open Function (update_of_ne)

variable {s s' : Kernel} {p q z : Slot} {e : LockEvent} {pid : ℤ}

/-! ## Going to sleep -/

/-- `q` went to sleep in the step from `s` to `s'`: it sleeps on itself, because
its scan in `wait` or `join` found something to wait for and nothing to free. -/
structure FellAsleep (s s' : Kernel) (q : Slot) : Prop where
  chan : (s'.procs q).chan = some q
  loop : s'.ctl q = .waiting ∧
      waitScan s.procs q false (List.finRange NPROC) = .kids true ∨ ∃ pid, s'.ctl q = .joining pid ∧
    joinScan s.procs q pid false (List.finRange NPROC) = some (.kids true)
  same : SameIds s s'

/-- `q` slept before the step and nothing about its sleep changed. -/
structure StillAsleep (s s' : Kernel) (q : Slot) : Prop where
  before : (s.procs q).state = .sleeping
  chan : (s'.procs q).chan = (s.procs q).chan
  ctl : s'.ctl q = s.ctl q

theorem IsTouch.stillAsleep (h : IsTouch s p s') (hqp : q ≠ p)
    (hq : (s'.procs q).state = .sleeping) : StillAsleep s s' q := by
  obtain ⟨st, ch, k, h⟩ := h
  obtain ⟨hchan, hctl, hwoken⟩ := h.others q hqp
  rw [h.procs] at hq
  refine ⟨?_, by rw [h.procs]; exact hchan, hctl⟩
  rcases hwoken with hsame | ⟨hold, -⟩
  · exact hsame.symm.trans hq
  · exact hold

/-- A process that makes a call does not sleep. -/
theorem StillAsleep.of_reaped {s₁ : Kernel} (htouch : IsTouch s p s₁)
    (hp : (s.procs p).state = .running) (hstate : ∀ r, (s₁.procs r).state = (s.procs r).state)
    (h : Reaped s₁ p z s') (hq : (s'.procs q).state = .sleeping) : StillAsleep s s' q := by
  have hqz : q ≠ z := by
    rintro rfl
    rw [h.unused] at hq
    cases hq
  rw [h.kept q hqz] at hq
  have hqp : q ≠ p := by
    rintro rfl
    rw [hstate, hp] at hq
    cases hq
  obtain ⟨hold, hchan, hctl⟩ := htouch.stillAsleep hqp hq
  refine ⟨hold, ?_, ?_⟩
  · rw [h.kept q hqz, hchan]
  · rw [h.ctl, update_of_ne hqp, hctl]

theorem Spawned.stillAsleep {np : Slot} {flags : BitVec 32} {env : SpawnEnv} {child : Proc}
    (h : Spawned s p np flags env child s') (hq : (s'.procs q).state = .sleeping) :
    StillAsleep s s' q := by
  have hqn : q ≠ np := by
    rintro rfl
    rw [h.child_eq, h.state] at hq
    cases hq
  obtain ⟨_, _, hother⟩ := h.other_eq hqn
  rw [hother] at hq
  exact ⟨hq, by rw [hother], by rw [h.ctl]⟩

theorem OnlyMemory.stillAsleep (h : OnlyMemory s s') (hctl : s'.ctl = s.ctl)
    (hq : (s'.procs q).state = .sleeping) : StillAsleep s s' q := by
  obtain ⟨_, _, hproc⟩ := h q
  rw [hproc] at hq
  exact ⟨hq, by rw [hproc], by rw [hctl]⟩

theorem Effect.asleep {e : Event} (h : Effect s e s') (hq : (s'.procs q).state = .sleeping) :
    StillAsleep s s' q ∨ FellAsleep s s' q := by
  cases h with
  | touched h hawake =>
    refine .inl (h.stillAsleep ?_ hq)
    rintro rfl
    exact hawake hq
  | slept hp h hc =>
    rename_i p c
    by_cases hqp : q = p
    · subst hqp
      refine .inr ⟨?_, hc, h.sameTree.toSameIds⟩
      obtain ⟨st, ch, k, h⟩ := h
      rw [h.procs] at hq ⊢
      rcases h.asleep hq with hself | ⟨-, hslept⟩
      · exact hself
      · rw [hp] at hslept
        cases hslept
    · exact .inl (h.stillAsleep hqp hq)
  | spawnFailed hcut h =>
    rename_i np
    have hqn : q ≠ np := by
      rintro rfl
      rw [h.self_eq.2.1] at hq
      cases hq
    rw [h.other_eq hqn] at hq
    exact .inl ⟨hq, by rw [h.other_eq hqn], by rw [h.rest_eq.2.2.2.2.2.2]⟩
  | forked hen h hfork | cloned hen h hclone => exact .inl (h.stillAsleep hq)
  | exited hen h =>
    rename_i p st
    have hqp : q ≠ p := by
      rintro rfl
      rw [h.procs, h.zombie] at hq
      cases hq
    rw [h.procs] at hq
    refine .inl ⟨?_, by rw [h.procs], by rw [h.ctl]⟩
    rcases h.woken q hqp with hsame | ⟨hold, -⟩
    · exact hsame.symm.trans hq
    · exact hold
  | waited hp hc htouch hstate hscan h hpgdir hfree
  | joined hp hc htouch hstate helig h hpgdirs hret =>
    exact .inl (.of_reaped htouch hp hstate h hq)
  | filed hen hc hrun =>
    obtain ⟨tables, ft, ic, rfl⟩ := fileShape_of_isFile hc hrun
    exact .inl ⟨hq, rfl, rfl⟩
  | walked hen h => exact .inl ⟨hq, rfl, rfl⟩
  | moved hen h =>
    obtain ⟨ic, ip, old, cwds, -, -, -, -, hprocs⟩ := h.moved
    rw [hprocs] at hq
    exact .inl ⟨hq, by rw [hprocs], by rw [h.ctl]⟩
  | execed hen h => exact .inl (h.onlyMemory.stillAsleep h.ctl hq)
  | resized hen h =>
    refine .inl (h.onlyMemory.stillAsleep ?_ hq)
    rw [h.shape]
    rfl

theorem LockEffect.asleep (hheld : HeldOk s) (h : LockEffect s e s')
    (hq : (s'.procs q).state = .sleeping) :
    StillAsleep s s' q ∨ FellAsleep s s' q := by
  -- whoever runs one of the pieces is awake
  have hawake : ∀ {p : Slot}, (s.procs p).state = .running → (s.procs q).state = .sleeping →
      q ≠ p := by
    rintro p hp hq rfl
    rw [hp] at hq
    cases hq
  cases h with
  | refused => exact .inl ⟨hq, rfl, rfl⟩
  | whole hcut h => exact h.asleep hq
  | allocated hp hfree hc =>
    rename_i p np c
    rw [Kernel.setCtl_procs] at hq
    have hqn : q ≠ np := by
      rintro rfl
      rw [s.allocated_procs_self] at hq
      cases hq
    rw [s.allocated_procs_of_ne hqn] at hq
    refine .inl ⟨hq, ?_, ?_⟩
    · rw [Kernel.setCtl_procs, s.allocated_procs_of_ne hqn]
    · exact update_of_ne (hawake hp hq) ..
  | filled hp hctl h hkind hstate hnext =>
    rename_i p np flags env child s₁
    rw [Kernel.setCtl_procs, (h.pid_state (hkind.elim (·.pid) (·.pid)) hstate q).2] at hq
    refine .inl ⟨hq, ?_, ?_⟩
    · rw [Kernel.setCtl_procs, h.procs]
      by_cases hqn : q = np
      · rw [hqn, Kernel.withChild_self, h.chan]
      · rw [Kernel.withChild_of_ne _ _ _ _ _ hqn]
    · rw [Kernel.setCtl_ctl, update_of_ne (hawake hp hq), h.ctl]
  | dropped hp hctl h =>
    rename_i p np env s₁
    rw [Kernel.setCtl_procs] at hq
    have hqn : q ≠ np := by
      rintro rfl
      rw [h.rest_eq.1] at hq
      cases hq
    rw [h.other_eq hqn] at hq
    refine .inl ⟨hq, ?_, ?_⟩
    · rw [Kernel.setCtl_procs, h.other_eq hqn]
    · rw [Kernel.setCtl_ctl, update_of_ne (hawake hp hq), h.rest_eq.2.2.2.2.2.2]
  | published hp hctl =>
    rename_i p np
    rw [Kernel.setCtl_procs] at hq
    have hqn : q ≠ np := by
      rintro rfl
      rw [publish, Kernel.setProc_procs_self] at hq
      cases hq
    have hproc : (publish s np).procs q = s.procs q := Kernel.setProc_procs_of_ne _ _ _ hqn
    rw [hproc] at hq
    refine .inl ⟨hq, ?_, ?_⟩
    · rw [Kernel.setCtl_procs, hproc]
    · exact update_of_ne (hawake hp hq) ..
  | released hp hctl h =>
    rw [Kernel.setCtl_procs, h.procs] at hq
    refine .inl ⟨hq, ?_, ?_⟩
    · rw [Kernel.setCtl_procs, h.procs]
    · rw [Kernel.setCtl_ctl, update_of_ne (hawake hp hq), h.ctl]
  | zombied hp hctl =>
    rename_i p
    obtain ⟨st, hst, hzombie, hwoken, -⟩ := exitZombie_procs (hheld.leaving p hctl) q
    rw [Kernel.setCtl_procs, hst] at hq
    have hqp : q ≠ p := by
      intro hqp
      rw [hzombie hqp] at hq
      cases hq
    refine .inl ⟨?_, ?_, ?_⟩
    · rcases hwoken hqp with hsame | ⟨hold, -⟩
      · exact hsame.symm.trans hq
      · exact hold
    · rw [Kernel.setCtl_procs, hst]
    · exact update_of_ne hqp ..

theorem boot_awake (q : Slot) : (boot.procs q).state ≠ .sleeping := by
  by_cases hq : q = 0
  · rw [hq]
    exact ProcState.noConfusion
  · rw [boot_procs_of_ne hq]
    exact ProcState.noConfusion

/-- Whoever sleeps, sleeps on itself. -/
theorem chan_of_sleeping (h : Reachable LockStep boot s) :
    ∀ q, (s.procs q).state = .sleeping → (s.procs q).chan = some q := by
  refine h.invariant (P := fun t : Kernel => ∀ q, (t.procs q).state = .sleeping →
    (t.procs q).chan = some q) (fun q hq => absurd hq (boot_awake q)) ?_
  intro s e s' hreach hi _ hstep q hq
  have hheld := (lineage_of_lockReachable hreach).1
  rcases (hheld.effect hstep).asleep hheld hq with hstill | hfell
  · rw [hstill.chan]
    exact hi q hstill.before
  · exact hfell.chan

/-! ## No lost wakeup of join -/

/-- A thread that exits while someone sleeps in `join` on it was cloned by that
process. If the sleeper is init, it is also woken by a zombie the thread leaves
behind. -/
def ExitWakesJoiner (s : Kernel) : LockEvent → Prop
  | .exitZombie p =>
    ∀ q, (s.procs q).state = .sleeping → s.ctl q = .joining (s.procs p).pid →
      (s.procs p).pthread = some q ∨
        q = s.initproc ∧ ∃ z, (s.procs z).parent = some p ∧ (s.procs z).state = .zombie
  | _ => True

instance (s : Kernel) (e : LockEvent) : Decidable (ExitWakesJoiner s e) := by
  unfold ExitWakesJoiner
  split <;> infer_instance

/-- `p` is a thread of `q` with the pid, and has not exited. -/
structure Awaited (s : Kernel) (q p : Slot) (pid : ℤ) : Prop where
  pid : (s.procs p).pid = pid
  parent : (s.procs p).parent = some q
  isThread : (s.procs p).isThread = true
  running : (s.procs p).state ≠ .zombie

/-- Whoever sleeps in `join` waits for a thread that has not exited. -/
def JoinersOk (s : Kernel) : Prop :=
  ∀ q pid, (s.procs q).state = .sleeping → s.ctl q = .joining pid → ∃ p, Awaited s q p pid

theorem Awaited.same (ha : Awaited s q p pid) (h : SameIds s s') : Awaited s' q p pid := by
  refine ⟨?_, ?_, ?_, ?_⟩
  · rw [h.pid, ha.pid]
  · rw [h.parent, ha.parent]
  · rw [h.isThread, ha.isThread]
  · exact mt (h.zombie p).mp ha.running

/-- A step that leaves the process alone. -/
theorem Awaited.of_eq (ha : Awaited s q p pid) (h : s'.procs p = s.procs p) : Awaited s' q p pid :=
  ⟨h ▸ ha.pid, h ▸ ha.parent, h ▸ ha.isThread, h ▸ ha.running⟩

theorem Awaited.zombied {r : Slot} (ha : Awaited s q p pid) (hheld : HeldOk s)
    (hctl : s.ctl q = .joining pid) (hasleep : (s.procs q).state = .sleeping)
    (hchan : (s.procs q).chan = some q) (hr : (s.procs r).state = .running)
    (hexit : s.ctl r = .exiting) (hgood : ExitWakesJoiner s (.exitZombie r))
    (hasleep' : ((exitZombie s r).procs q).state = .sleeping) :
    Awaited ((exitZombie s r).setCtl r .user) q p pid := by
  have hinit := hheld.leaving r hexit
  have hqr : q ≠ r := by
    rintro rfl
    rw [hr] at hasleep
    cases hasleep
  have hpr : p ≠ r := by
    rintro rfl
    -- the thread exits: its joiner cannot still be asleep
    rcases hgood q hasleep (ha.pid ▸ hctl) with hcloner | ⟨rfl, z, hparent, hzombie⟩
    · obtain ⟨st, hst, -, -, hwakes⟩ := exitZombie_procs hinit q
      have hwake := hwakes hqr hasleep (by rw [hchan, exitChan, if_pos ha.isThread, hcloner])
      rw [hst] at hasleep'
      rw [hwake] at hasleep'
      cases hasleep'
    · rw [exitZombie_wakes_init hinit hparent hzombie hchan hasleep] at hasleep'
      cases hasleep'
  obtain ⟨st, hst, -, hwoken, -⟩ := exitZombie_procs hinit p
  refine ⟨?_, ?_, ?_, ?_⟩
  · rw [Kernel.setCtl_procs, hst]
    exact ha.pid
  · rw [Kernel.setCtl_procs, hst]
    dsimp only
    rw [if_neg, ha.parent]
    rw [ha.parent]
    exact fun h => hqr (Option.some.inj h)
  · rw [Kernel.setCtl_procs, hst]
    exact ha.isThread
  · rw [Kernel.setCtl_procs, hst]
    exact mt (hwoken hpr).zombie_iff.mp ha.running

theorem Awaited.step (ha : Awaited s q p pid) (hheld : HeldOk s) (htree : TreeOk s)
    (hgood : ExitWakesJoiner s e) (h : LockEffect s e s') (hctl : s.ctl q = .joining pid)
    (hasleep : (s.procs q).state = .sleeping) (hchan : (s.procs q).chan = some q)
    (hasleep' : (s'.procs q).state = .sleeping) : Awaited s' q p pid := by
  cases h with
  | refused => exact ha
  | whole hcut h =>
    rcases h.ids hcut with ⟨hsame, -⟩ | ⟨r, z, s₁, hsame, -, h⟩
    · exact ha.same hsame
    · have ha₁ := ha.same hsame
      apply ha₁.of_eq (h.kept p _)
      rintro rfl
      exact ha₁.running h.zombie
  | allocated hp hfree hc =>
    refine ha.of_eq (s.allocated_procs_of_ne ?_)
    rintro rfl
    have := htree.free p hfree
    rw [ha.parent] at this
    cases this
  | filled hp hunfilled h hkind hstate hnext =>
    rename_i r np flags env child s₁
    have hpn : p ≠ np := by
      rintro rfl
      have := (htree.unfilled r p hunfilled).1
      rw [ha.parent] at this
      cases this
    have hproc : (s₁.setCtl r (.publishing np)).procs p = _ :=
      (congrFun h.procs p).trans (Kernel.withChild_of_ne _ _ _ _ _ hpn)
    refine ⟨?_, ?_, ?_, ?_⟩
    · rw [hproc]
      exact ha.pid
    · rw [hproc]
      exact ha.parent
    · rw [hproc]
      exact ha.isThread
    · rw [hproc]
      exact ha.running
  | dropped hp hunfilled h =>
    rename_i r np env s₁
    refine ha.of_eq (h.other_eq ?_)
    rintro rfl
    have := (htree.unfilled r p hunfilled).1
    rw [ha.parent] at this
    cases this
  | published hp hpub =>
    rename_i r np
    have hproc : ((publish s np).setCtl r .user).procs p =
        if p = np then { s.procs np with state := .runnable } else s.procs p :=
      Kernel.setProc_procs ..
    by_cases hpn : p = np
    · subst hpn
      rw [if_pos rfl] at hproc
      refine ⟨?_, ?_, ?_, ?_⟩
      · rw [hproc]
        exact ha.pid
      · rw [hproc]
        exact ha.parent
      · rw [hproc]
        exact ha.isThread
      · rw [hproc]
        exact ProcState.noConfusion
    · rw [if_neg hpn] at hproc
      exact ha.of_eq hproc
  | released hp hexit h => exact ha.same h.sameIds
  | zombied hp hexit => exact ha.zombied hheld hctl hasleep hchan hp hexit hgood hasleep'

/-- A thread seen by the scan of `join` just before it sleeps. -/
theorem awaited_of_scan
    (hscan : joinScan s.procs q pid false (List.finRange NPROC) = some (.kids true))
    (h : SameIds s s') : ∃ p, Awaited s' q p pid := by
  rcases joinScan_kids hscan with hkids | ⟨p, -, helig, hrunning⟩
  · cases hkids
  · exact ⟨p, Awaited.same ⟨helig.pid, helig.parent, helig.isThread, hrunning⟩ h⟩

theorem JoinersOk.step (hi : JoinersOk s) (hheld : HeldOk s) (htree : TreeOk s)
    (hchan : ∀ q, (s.procs q).state = .sleeping → (s.procs q).chan = some q)
    (hgood : ExitWakesJoiner s e) (hstep : LockStep s e s') : JoinersOk s' := by
  have heffect := hheld.effect hstep
  intro q pid hq hctl
  rcases heffect.asleep hheld hq with hstill | hfell
  · rw [hstill.ctl] at hctl
    obtain ⟨p, hp⟩ := hi q pid hstill.before hctl
    exact ⟨p, hp.step hheld htree hgood heffect hctl hstill.before (hchan q hstill.before) hq⟩
  · rcases hfell.loop with ⟨hwaiting, -⟩ | ⟨pid', hjoining, hscan⟩
    · rw [hctl] at hwaiting
      cases hwaiting
    · rw [hctl] at hjoining
      obtain rfl := Ctl.joining.inj hjoining
      exact awaited_of_scan hscan hfell.same

/-- If every thread that exits while its joiner sleeps was cloned by the joiner,
nobody sleeps in `join` on a thread that has exited. -/
theorem join_never_sleeps_on_zombie {s : Kernel}
    (h : ReachableBy LockStep ExitWakesJoiner boot s) :
    ∀ q pid, (s.procs q).state = .sleeping → s.ctl q = .joining pid →
      (s.procs q).chan = some q ∧ ∀ z, (s.procs z).pid = pid → (s.procs z).state ≠ .zombie := by
  have hi : JoinersOk s := by
    refine h.invariant (fun q _ hq => absurd hq (boot_awake q)) ?_
    intro s e s' hreach hi hgood hstep
    obtain ⟨hheld, -, htree⟩ := lineage_of_lockReachable hreach.reachable
    exact hi.step hheld htree (chan_of_sleeping hreach.reachable) hgood hstep
  obtain ⟨-, hpids, htree⟩ := lineage_of_lockReachable h.reachable
  intro q pid hq hctl
  refine ⟨chan_of_sleeping h.reachable q hq, ?_⟩
  intro z hz
  obtain ⟨p, hp⟩ := hi q pid hq hctl
  have hused : (s.procs p).state ≠ .unused := by
    intro hfree
    have := htree.free p hfree
    rw [hp.parent] at this
    cases this
  obtain rfl := hpids.inj p z (hp.pid.trans hz.symm) (hpids.pos p hused).ne'
  exact hp.running

/-- Init clones two threads, joins the first, which exits while init sleeps,
and then sleeps on the second. -/
theorem join_never_sleeps_on_zombie_second :
    ∃ s, ReachableBy LockStep ExitWakesJoiner boot s ∧
      ((s.procs 0).state = .sleeping ∧ s.ctl 0 = .joining 3 ∧ (s.procs 1).state = .unused ∧
        (s.procs 2).pid = 3) ∧ (s.procs 2).state ≠ .zombie := by
  have hrun : ∃ s, ReachableBy LockStep ExitWakesJoiner boot s ∧
      ((s.procs 0).state = .sleeping ∧ s.ctl 0 = .joining 3 ∧ (s.procs 1).state = .unused ∧
        (s.procs 2).pid = 3) :=
    exists_reachableBy
      [.whole (.dispatch 0), .cloneAlloc 0 0, .fill 0 ⟨true, some 1, 8⟩, .publish 0,
        .cloneAlloc 0 0, .fill 0 ⟨true, some 2, 8⟩, .publish 0, .whole (.dispatch 1),
        .whole (.call 0 (.join 2)), .exitRelease 1, .exitZombie 1, .whole (.dispatch 0),
        .whole (.call 0 .resume), .whole (.call 0 (.join 3))] (by decide +kernel)
  obtain ⟨s, hreach, hend⟩ := hrun
  exact ⟨s, hreach, hend,
    (join_never_sleeps_on_zombie hreach 0 3 hend.1 hend.2.1).2 2 hend.2.2.2⟩

/-- A thread of init clones a second one with `CLONE_THREAD`. Init, its parent,
joins it; when it exits, the first thread is woken and init sleeps on. -/
theorem join_sleeps_on_zombie :
    ∃ s, Reachable LockStep boot s ∧ (s.procs 0).state = .sleeping ∧ s.ctl 0 = .joining 3 ∧
      (s.procs 0).chan = some 0 ∧ (s.procs 2).pid = 3 ∧ (s.procs 2).state = .zombie :=
  exists_reachableBy
    [.whole (.dispatch 0), .cloneAlloc 0 0, .fill 0 ⟨true, some 1, 8⟩, .publish 0,
      .whole (.dispatch 1), .cloneAlloc 1 16, .fill 1 ⟨true, some 2, 8⟩, .publish 1,
      .whole (.call 0 (.join 3)), .whole (.dispatch 2), .exitRelease 2, .exitZombie 2]
    (by decide +kernel)

/-! ## No lost wakeup of wait -/

/-- Whoever sleeps in `wait` has no child it could free. -/
def WaitersOk (s : Kernel) : Prop :=
  ∀ q, (s.procs q).state = .sleeping → s.ctl q = .waiting → ∀ z, ¬ WaitEligible s.procs q z

/-- A child that can be freed after a step which left it alone could be freed
before. -/
theorem WaitEligible.of_eq (h : WaitEligible s'.procs q z) (hproc : s'.procs z = s.procs z) :
    WaitEligible s.procs q z :=
  ⟨hproc ▸ h.parent, hproc ▸ h.isThread, hproc ▸ h.zombie⟩

theorem WaitEligible.of_same (h : WaitEligible s'.procs q z) (hsame : SameIds s s') :
    WaitEligible s.procs q z :=
  ⟨hsame.parent z ▸ h.parent, hsame.isThread z ▸ h.isThread, (hsame.zombie z).mp h.zombie⟩

theorem WaitEligible.ne {procs : Slot → Proc} {np : Slot} (h : WaitEligible procs q z)
    (hnp : (procs np).state ≠ .zombie) : z ≠ np := by
  rintro rfl
  exact hnp h.zombie

/-- A child of a sleeper that can be freed after someone's exit could be freed
before: the exit of the child itself, and passing it to init, wake the
sleeper. -/
theorem WaitEligible.of_zombied (h : WaitEligible (exitZombie s p).procs q z) (htree : TreeOk s)
    (hinit : p ≠ s.initproc) (hp : (s.procs p).state = .running)
    (hasleep : (s.procs q).state = .sleeping) (hchan : (s.procs q).chan = some q)
    (hasleep' : ((exitZombie s p).procs q).state = .sleeping) : WaitEligible s.procs q z := by
  have hqp : q ≠ p := by
    rintro rfl
    rw [hp] at hasleep
    cases hasleep
  obtain ⟨st, hst, -, hwoken, -⟩ := exitZombie_procs hinit z
  have hthread := h.isThread
  have hparent := h.parent
  have hzombie := h.zombie
  rw [hst] at hthread hparent hzombie
  dsimp only at hthread hparent hzombie
  by_cases hzp : z = p
  · subst hzp
    -- the exiting process wakes its parent, which is the sleeper
    have hold : (s.procs z).parent ≠ some z := fun hself =>
      absurd (htree.parent z z hself).2 (lt_irrefl _)
    rw [if_neg hold] at hparent
    obtain ⟨stq, hstq, -, -, hwakes⟩ := exitZombie_procs hinit q
    have hrun := hwakes hqp hasleep (by simp [hchan, exitChan, hthread, hparent])
    rw [hstq, hrun] at hasleep'
    cases hasleep'
  · have hold := (hwoken hzp).zombie_iff.mp hzombie
    by_cases horphan : (s.procs z).parent = some p
    · -- the child is passed to init, which is woken for it
      rw [if_pos horphan] at hparent
      cases hparent
      rw [exitZombie_wakes_init hinit horphan hold hchan hasleep] at hasleep'
      cases hasleep'
    · rw [if_neg horphan] at hparent
      exact ⟨hparent, hthread, hold⟩

theorem WaitEligible.before (hz : WaitEligible s'.procs q z) (hheld : HeldOk s) (htree : TreeOk s)
    (h : LockEffect s e s') (hasleep : (s.procs q).state = .sleeping)
    (hchan : (s.procs q).chan = some q) (hasleep' : (s'.procs q).state = .sleeping) :
    WaitEligible s.procs q z := by
  cases h with
  | refused => exact hz
  | whole hcut h =>
    rcases h.ids hcut with ⟨hsame, -⟩ | ⟨r, z', s₁, hsame, -, h⟩
    · exact hz.of_same hsame
    · exact (hz.of_eq (h.kept z (hz.ne (by simp [h.unused])))).of_same hsame
  | allocated hp hfree hc =>
    refine hz.of_eq (s.allocated_procs_of_ne (hz.ne ?_))
    rw [Kernel.setCtl_procs, s.allocated_procs_self]
    exact ProcState.noConfusion
  | filled hp hunfilled h hkind hstate hnext =>
    rename_i r np flags env child s₁
    have hnp := (hheld.held r np (Ctl.held_of_unfilled hunfilled)).2
    have hzn : z ≠ np := by
      apply hz.ne
      rw [Kernel.setCtl_procs, h.procs, Kernel.withChild_self, hstate, hnp]
      exact ProcState.noConfusion
    have hproc : (s₁.setCtl r (.publishing np)).procs z = _ :=
      (congrFun h.procs z).trans (Kernel.withChild_of_ne _ _ _ _ _ hzn)
    obtain ⟨hparent, hthread, hzombie⟩ := hz
    rw [hproc] at hparent hthread hzombie
    exact ⟨hparent, hthread, hzombie⟩
  | dropped hp hunfilled h =>
    exact hz.of_eq (h.other_eq (hz.ne (by simp [h.rest_eq.1])))
  | published hp hpub =>
    refine hz.of_eq (Kernel.setProc_procs_of_ne _ _ _ (hz.ne ?_))
    rw [Kernel.setCtl_procs, publish, Kernel.setProc_procs_self]
    exact ProcState.noConfusion
  | released hp hexit h => exact hz.of_same h.sameIds
  | zombied hp hexit =>
    exact WaitEligible.of_zombied hz htree (hheld.leaving _ hexit) hp hasleep hchan hasleep'

/-- The scan of `wait` just before it sleeps saw no zombie child. -/
theorem not_waitEligible_of_scan
    (hscan : waitScan s.procs q false (List.finRange NPROC) = .kids true) (hsame : SameIds s s') :
    ¬ WaitEligible s'.procs q z := by
  intro hz
  obtain ⟨z', hfound⟩ := waitScan_of_eligible (hz.of_same hsame) (List.mem_finRange z) false
  rw [hscan] at hfound
  cases hfound

theorem WaitersOk.step (hi : WaitersOk s) (hheld : HeldOk s) (htree : TreeOk s)
    (hchan : ∀ q, (s.procs q).state = .sleeping → (s.procs q).chan = some q)
    (hstep : LockStep s e s') : WaitersOk s' := by
  have heffect := hheld.effect hstep
  intro q hq hctl z hz
  rcases heffect.asleep hheld hq with hstill | hfell
  · rw [hstill.ctl] at hctl
    exact hi q hstill.before hctl z
      (hz.before hheld htree heffect hstill.before (hchan q hstill.before) hq)
  · rcases hfell.loop with ⟨-, hscan⟩ | ⟨pid, hjoining, -⟩
    · exact not_waitEligible_of_scan hscan hfell.same hz
    · rw [hctl] at hjoining
      cases hjoining

/-- Nobody sleeps in `wait` while a child it could free is a zombie. -/
theorem wait_never_sleeps_on_zombie {s : Kernel} (h : Reachable LockStep boot s) :
    ∀ q, (s.procs q).state = .sleeping → s.ctl q = .waiting →
      ∀ z, (s.procs z).parent = some q → (s.procs z).isThread = false →
        (s.procs z).state ≠ .zombie := by
  have hi : WaitersOk s := by
    refine h.invariant (fun q hq => absurd hq (boot_awake q)) ?_
    intro s e s' hreach hi _ hstep
    obtain ⟨hheld, -, htree⟩ := lineage_of_lockReachable hreach
    exact hi.step hheld htree (chan_of_sleeping hreach) hstep
  intro q hq hctl z hparent hthread hzombie
  exact hi q hq hctl z ⟨hparent, hthread, hzombie⟩

/-- Init waits while its child `1` has a zombie child `2` of its own; the exit of
`1` makes a zombie and passes one, and init, woken, frees both and sleeps again
on a third child. -/
theorem wait_never_sleeps_on_zombie_passed :
    ∃ s, Reachable LockStep boot s ∧
      ((s.procs 0).state = .sleeping ∧ s.ctl 0 = .waiting ∧ (s.procs 1).state = .unused ∧
        (s.procs 2).state = .unused ∧ (s.procs 3).parent = some 0 ∧
        (s.procs 3).isThread = false) ∧ (s.procs 3).state ≠ .zombie := by
  have hrun : ∃ s, Reachable LockStep boot s ∧
      ((s.procs 0).state = .sleeping ∧ s.ctl 0 = .waiting ∧ (s.procs 1).state = .unused ∧
        (s.procs 2).state = .unused ∧ (s.procs 3).parent = some 0 ∧
        (s.procs 3).isThread = false) :=
    exists_reachableBy
      [.whole (.dispatch 0), .forkAlloc 0, .fill 0 ⟨true, some 1, 8⟩, .publish 0,
        .whole (.dispatch 1), .forkAlloc 1, .fill 1 ⟨true, some 2, 8⟩, .publish 1,
        .forkAlloc 0, .fill 0 ⟨true, some 3, 8⟩, .publish 0, .whole (.dispatch 2),
        .whole (.call 0 .wait), .exitRelease 2, .exitZombie 2, .exitRelease 1, .exitZombie 1,
        .whole (.dispatch 0), .whole (.call 0 .resume), .whole (.call 0 .wait),
        .whole (.call 0 .wait)] (by decide +kernel)
  obtain ⟨s, hreach, hend⟩ := hrun
  exact ⟨s, hreach, hend, wait_never_sleeps_on_zombie hreach 0 hend.1 hend.2.1 3
    hend.2.2.2.2.1 hend.2.2.2.2.2⟩

end Xv6Threads
