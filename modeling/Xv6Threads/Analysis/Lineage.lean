/-
# Pids, parents and slots in the making

What holds in every state, at the granularity of `ptable.lock`: a slot between
`allocproc` and the end of `fork` or `clone` belongs to one process; pids are
handed out once; a parent is older than its children and has not exited. The
machine of whole calls inherits all of it.
-/

import Xv6Threads.Analysis.Identity
import Xv6Threads.Lib.Cells

namespace Xv6Threads

open Lib
open Function (update update_of_ne update_self)

variable {c : Ctl} {np q p z r : Slot} {s s' : Kernel} {e : LockEvent} {flags : BitVec 32}
variable {child : Proc}

/-! ## Slots in the making -/

theorem Ctl.held_of_unfilled (h : c.unfilled = some np) : c.held = some np := by
  cases c <;> simp_all [held, unfilled]

/-- Someone who waits or is in user mode holds no slot and is not leaving. -/
theorem Ctl.Interruptible.idle (h : c.Interruptible) :
    c.held = none ∧ c.unfilled = none ∧ c ≠ .exiting := by
  rcases h with rfl | rfl | ⟨pid, rfl⟩ <;> simp [held, unfilled]

theorem CtlKept.eq_of_held (h : CtlKept s s') (hq : (s'.ctl q).held = some np) :
    s'.ctl q = s.ctl q := by
  rcases h q with hsame | hidle
  · exact hsame
  · rw [hidle.idle.1] at hq
    cases hq

theorem CtlKept.eq_of_exiting (h : CtlKept s s') (hq : s'.ctl q = .exiting) :
    s.ctl q = .exiting := by
  rcases h q with hsame | hidle
  · rw [← hsame, hq]
  · exact absurd hq hidle.idle.2.2

/-- A slot that is not runnable yet is an `EMBRYO`, and one process is about to
make it runnable. Init never leaves. -/
structure HeldOk (s : Kernel) : Prop where
  held : ∀ r np, (s.ctl r).held = some np →
    (s.procs r).state.Scheduled ∧ (s.procs np).state = .embryo
  unique : ∀ r r' np, (s.ctl r).held = some np → (s.ctl r').held = some np → r = r'
  leaving : ∀ r, s.ctl r = .exiting → r ≠ s.initproc

theorem heldOk_boot : HeldOk boot :=
  ⟨fun _ _ h => (by cases h), fun _ _ _ h => (by cases h), fun _ h => (by cases h)⟩

theorem HeldOk.ne (hi : HeldOk s) (h : (s.ctl p).held = some np) : p ≠ np := by
  rintro rfl
  obtain ⟨hp, hnp⟩ := hi.held p p h
  exact hp.ne.2.1 hnp

theorem HeldOk.effect (hi : HeldOk s) (h : LockStep s e s') : LockEffect s e s' :=
  lockStep_effect h fun _ _ hctl => hi.ne (Ctl.held_of_unfilled hctl)

/-- Nobody got a slot. -/
theorem HeldOk.of_le (hi : HeldOk s)
    (hheld : ∀ r np, (s'.ctl r).held = some np → (s.ctl r).held = some np)
    (hscheduled : ∀ r np, (s'.ctl r).held = some np → (s.procs r).state.Scheduled →
      (s'.procs r).state.Scheduled)
    (hembryo : ∀ r np, (s'.ctl r).held = some np → (s.procs np).state = .embryo →
      (s'.procs np).state = .embryo) (hleaving : ∀ r, s'.ctl r = .exiting → r ≠ s'.initproc) :
    HeldOk s' := by
  refine ⟨?_, ?_, hleaving⟩
  · intro r np h
    obtain ⟨hr, hnp⟩ := hi.held r np (hheld r np h)
    exact ⟨hscheduled r np h hr, hembryo r np h hnp⟩
  · intro r r' np h h'
    exact hi.unique r r' np (hheld r np h) (hheld r' np h')

theorem HeldOk.same (hi : HeldOk s) (h : SameIds s s') (hctl : CtlKept s s') : HeldOk s' := by
  refine hi.of_le ?_ ?_ ?_ ?_
  · intro r np hr
    rw [← hctl.eq_of_held hr, hr]
  · exact fun r _ _ => (h.scheduled r).mpr
  · exact fun _ np _ => (h.embryo np).mpr
  · intro r hr
    rw [h.initproc]
    exact hi.leaving r (hctl.eq_of_exiting hr)

theorem Reaped.ctl_eq (h : Reaped s q z s') : CtlKept s s' := by
  intro r
  rw [h.ctl]
  by_cases hr : r = q
  · rw [hr, update_self]
    exact .inr (.inl rfl)
  · rw [update_of_ne hr]
    exact .inl rfl

theorem HeldOk.reaped (hi : HeldOk s) (h : Reaped s q z s') : HeldOk s' := by
  have hkept : ∀ r, (s.procs r).state ≠ .zombie → s'.procs r = s.procs r := by
    intro r hr
    apply h.kept
    rintro rfl
    exact hr h.zombie
  refine hi.of_le ?_ ?_ ?_ ?_
  · intro r np hr
    rw [← h.ctl_eq.eq_of_held hr, hr]
  · intro r np _ hr
    rw [hkept r hr.ne.2.2]
    exact hr
  · intro r np _ hnp
    rw [hkept np (by simp [hnp])]
    exact hnp
  · intro r hr
    rw [h.initproc]
    exact hi.leaving r (h.ctl_eq.eq_of_exiting hr)

theorem ExitReleased.sameIds {s₁ : Kernel} (h : ExitReleased s p s₁) :
    SameIds s (s₁.setCtl p c) := by
  refine ⟨?_, ?_, ?_, ?_, ?_, ?_, ?_, ?_, h.initproc, h.nextpid, h.clones⟩
  all_goals
    intro q
    rw [Kernel.setCtl_procs, h.procs]

theorem Ctl.held_update {f : Slot → Ctl} (hc : c.held = none)
    (h : (update f p c r).held = some np) : r ≠ p ∧ (f r).held = some np := by
  by_cases hr : r = p
  · rw [hr, update_self, hc] at h
    cases h
  · rw [update_of_ne hr] at h
    exact ⟨hr, h⟩

theorem HeldOk.allocated (hi : HeldOk s) (hp : (s.procs p).state = .running)
    (hfree : (s.procs np).state = .unused) (hc : c.unfilled = some np) :
    HeldOk ((s.allocated np).setCtl p c) := by
  have hother : ∀ r, (s.procs r).state ≠ .unused →
      ((s.allocated np).procs r).state = (s.procs r).state := by
    intro r hr
    rw [s.allocated_procs_of_ne]
    rintro rfl
    exact hr hfree
  have hself : ((s.allocated np).procs np).state = .embryo := by rw [s.allocated_procs_self]
  have hheld := Ctl.held_of_unfilled hc
  -- what someone held before is not the slot that was free
  have hold : ∀ r m, r ≠ p → ((s.allocated np).setCtl p c |>.ctl r).held = some m →
      (s.ctl r).held = some m := by
    intro r m hr h
    rwa [Kernel.setCtl_ctl, update_of_ne hr] at h
  have hnew : ∀ m, ((s.allocated np).setCtl p c |>.ctl p).held = some m → m = np := by
    intro m h
    rw [Kernel.setCtl_ctl, update_self, hheld] at h
    exact (Option.some.inj h).symm
  have hfresh : ∀ r, (s.ctl r).held ≠ some np := by
    intro r h
    have := (hi.held r np h).2
    rw [hfree] at this
    cases this
  refine ⟨?_, ?_, ?_⟩
  · intro r m h
    rw [Kernel.setCtl_procs]
    by_cases hr : r = p
    · subst hr
      rw [hnew m h, hself, hother r (by simp [hp])]
      exact ⟨.inr (.inr hp), rfl⟩
    · obtain ⟨hsched, hm⟩ := hi.held r m (hold r m hr h)
      rw [hother r hsched.ne.1, hother m (by simp [hm])]
      exact ⟨hsched, hm⟩
  · apply unique_of_ne hi.unique (fun r hr => by rw [Kernel.setCtl_ctl, update_of_ne hr]; rfl)
    intro m h r _
    rw [hnew m h]
    exact hfresh r
  · intro r h
    by_cases hr : r = p
    · rw [hr, Kernel.setCtl_ctl, update_self] at h
      rw [h] at hc
      cases hc
    · rw [Kernel.setCtl_ctl, update_of_ne hr] at h
      exact hi.leaving r h

/-- Filling a slot writes no pid and no state. -/
theorem ChildMade.pid_state {env : SpawnEnv} (h : ChildMade s p np flags env child s')
    (hpid : child.pid = (s.procs np).pid) (hstate : child.state = (s.procs np).state) (r : Slot) :
    (s'.procs r).pid = (s.procs r).pid ∧ (s'.procs r).state = (s.procs r).state := by
  rw [h.procs]
  by_cases hr : r = np
  · rw [hr, Kernel.withChild_self]
    exact ⟨hpid, hstate⟩
  · rw [Kernel.withChild_of_ne _ _ _ _ _ hr]
    exact ⟨rfl, rfl⟩

theorem SlotReleased.other_eq (h : SlotReleased s np s') (hr : r ≠ np) :
    s'.procs r = s.procs r := by
  obtain ⟨_, _, _, _, _, _, rfl⟩ := h
  exact Kernel.setProc_procs_of_ne _ _ _ hr

theorem SlotReleased.rest_eq (h : SlotReleased s np s') :
    (s'.procs np).state = .unused ∧ (s'.procs np).pid = (s.procs np).pid ∧
      (s'.procs np).parent = (s.procs np).parent ∧ s'.initproc = s.initproc ∧
      s'.nextpid = s.nextpid ∧ s'.clones = s.clones ∧ s'.ctl = s.ctl := by
  obtain ⟨_, _, _, _, _, _, rfl⟩ := h
  rw [Kernel.setProc_procs_self]
  exact ⟨rfl, rfl, rfl, rfl, rfl, rfl, rfl⟩

/-- Giving up or publishing a slot. -/
theorem HeldOk.let_go (hi : HeldOk s) (hheld : (s.ctl p).held = some np)
    (hprocs : ∀ r, r ≠ np → s'.procs r = s.procs r)
    (hctl : s'.ctl = update s.ctl p .user) (hinit : s'.initproc = s.initproc) :
    HeldOk s' := by
  have hnp := (hi.held p np hheld).2
  have hback : ∀ r m, (s'.ctl r).held = some m → r ≠ p ∧ (s.ctl r).held = some m := by
    intro r m h
    rw [hctl] at h
    exact Ctl.held_update rfl h
  refine hi.of_le (fun r m h => (hback r m h).2) ?_ ?_ ?_
  · intro r m h hr
    rw [hprocs r]
    · exact hr
    · rintro rfl
      exact hr.ne.2.1 hnp
  · intro r m h hm
    rw [hprocs m]
    · exact hm
    · rintro rfl
      exact (hback r m h).1 (hi.unique r p m (hback r m h).2 hheld)
  · intro r h
    rw [hctl] at h
    by_cases hr : r = p
    · rw [hr, update_self] at h
      cases h
    · rw [update_of_ne hr] at h
      rw [hinit]
      exact hi.leaving r h

theorem HeldOk.zombied (hi : HeldOk s) (hp : (s.procs p).state = .running)
    (hctl : s.ctl p = .exiting) :
    HeldOk ((exitZombie s p).setCtl p .user) := by
  have hinit := hi.leaving p hctl
  have hwoken : ∀ r, r ≠ p → Woken (s.procs r).state ((exitZombie s p).procs r).state := by
    intro r hr
    obtain ⟨st, hst, -, hwoken, -⟩ := exitZombie_procs hinit r
    rw [hst]
    exact hwoken hr
  refine hi.of_le (fun r m h => (Ctl.held_update rfl h).2) ?_ ?_ ?_
  · intro r m h hr
    exact (hwoken r (Ctl.held_update rfl h).1).scheduled hr
  · intro r m h hm
    have hmp : m ≠ p := by
      rintro rfl
      rw [hp] at hm
      cases hm
    rcases hwoken m hmp with hsame | ⟨hold, -⟩
    · exact hsame.trans hm
    · rw [hm] at hold
      cases hold
  · intro r h
    by_cases hr : r = p
    · exact hr ▸ hinit
    · rw [Kernel.setCtl_ctl, update_of_ne hr] at h
      exact hi.leaving r h

theorem HeldOk.step (hi : HeldOk s) (hstep : LockStep s e s') : HeldOk s' := by
  cases hi.effect hstep with
  | refused => exact hi
  | whole hcut h =>
    rcases h.ids hcut with ⟨hsame, hctl⟩ | ⟨q, z, s₁, hsame, hctl, h⟩
    · exact hi.same hsame hctl
    · exact (hi.same hsame hctl).reaped h
  | allocated hp hfree hc => exact hi.allocated hp hfree hc
  | filled hp hctl h hkind hstate hnext =>
    rename_i p np flags env child s₁
    have hpid : child.pid = (s.procs np).pid := hkind.elim (·.pid) (·.pid)
    have hheld := Ctl.held_of_unfilled hctl
    refine hi.of_le ?_ ?_ ?_ ?_
    · intro r m hr
      by_cases hrp : r = p
      · rw [hrp, Kernel.setCtl_ctl, update_self] at hr
        rw [hrp, hheld]
        exact hr
      · rwa [Kernel.setCtl_ctl, update_of_ne hrp, h.ctl] at hr
    · intro r m _ hr
      rw [Kernel.setCtl_procs, (h.pid_state hpid hstate r).2]
      exact hr
    · intro r m _ hm
      rw [Kernel.setCtl_procs, (h.pid_state hpid hstate m).2]
      exact hm
    · intro r hr
      rw [Kernel.setCtl_initproc, h.initproc]
      by_cases hrp : r = p
      · rw [hrp, Kernel.setCtl_ctl, update_self] at hr
        cases hr
      · rw [Kernel.setCtl_ctl, update_of_ne hrp, h.ctl] at hr
        exact hi.leaving r hr
  | dropped hp hctl h =>
    obtain ⟨-, -, -, hinit, -, -, hctl'⟩ := h.rest_eq
    refine hi.let_go (Ctl.held_of_unfilled hctl) (fun r hr => h.other_eq hr) ?_ hinit
    rw [Kernel.setCtl_ctl, hctl']
  | published hp hctl =>
    refine hi.let_go (by rw [hctl]; rfl) ?_ rfl rfl
    exact fun r hr => Kernel.setProc_procs_of_ne _ _ _ hr
  | released hp hctl h =>
    refine hi.of_le ?_ ?_ ?_ ?_
    · intro r m hr
      have := (Ctl.held_update rfl hr).2
      rwa [h.ctl] at this
    · exact fun r _ _ => (h.sameIds.scheduled r).mpr
    · exact fun _ m _ => (h.sameIds.embryo m).mpr
    · intro r hr
      rename_i p s₁
      rw [Kernel.setCtl_initproc, h.initproc]
      by_cases hrp : r = p
      · exact hrp ▸ h.notInit
      · rw [Kernel.setCtl_ctl, update_of_ne hrp, h.ctl] at hr
        exact hi.leaving r hr
  | zombied hp hctl => exact hi.zombied hp hctl

/-! ## Pids -/

/-- Pids are handed out once: they are below the counter, belong to one slot
each, and everything but a free slot has one. -/
structure PidsOk (s : Kernel) : Prop where
  next : 1 < s.nextpid
  lt : ∀ q, (s.procs q).pid < s.nextpid
  pos : ∀ q, (s.procs q).state ≠ .unused → 0 < (s.procs q).pid
  inj : ∀ q r, (s.procs q).pid = (s.procs r).pid → (s.procs q).pid ≠ 0 → q = r
  clones : ∀ e ∈ s.clones, e.creator < s.nextpid ∧ e.child < s.nextpid

theorem pidsOk_boot : PidsOk boot := by
  have hpid : ∀ q : Slot, (boot.procs q).pid = if q = 0 then 1 else 0 := by
    intro q
    by_cases hq : q = 0
    · subst hq
      rfl
    · rw [boot_procs_of_ne hq, if_neg hq]
  refine ⟨by decide, ?_, ?_, ?_, by simp [boot]⟩
  · intro q
    rw [hpid]
    split_ifs <;> decide
  · intro q hused
    by_cases hq : q = 0
    · simp [hpid, hq]
    · rw [boot_procs_of_ne hq] at hused
      exact absurd rfl hused
  · intro q r
    rw [hpid, hpid]
    split_ifs <;> simp_all

/-- No pid was handed out and no slot taken. -/
theorem PidsOk.kept (hi : PidsOk s) (hpid : ∀ q, (s'.procs q).pid = (s.procs q).pid)
    (hused : ∀ q, (s'.procs q).state ≠ .unused → (s.procs q).state ≠ .unused)
    (hnext : s'.nextpid = s.nextpid)
    (hclones : ∀ e ∈ s'.clones, e.creator < s.nextpid ∧ e.child < s.nextpid) : PidsOk s' := by
  refine ⟨?_, ?_, ?_, ?_, ?_⟩
  · rw [hnext]
    exact hi.next
  · intro q
    rw [hpid, hnext]
    exact hi.lt q
  · intro q hq
    rw [hpid]
    exact hi.pos q (hused q hq)
  · intro q r
    rw [hpid, hpid]
    exact hi.inj q r
  · rw [hnext]
    exact hclones

theorem PidsOk.same (hi : PidsOk s) (h : SameIds s s') : PidsOk s' :=
  hi.kept h.pid (fun q => mt (h.unused q).mpr) h.nextpid (h.clones ▸ hi.clones)

/-- One slot gets the next pid. -/
theorem PidsOk.allocate (hi : PidsOk s) (hnew : (s'.procs np).pid = s.nextpid)
    (hold : ∀ q, q ≠ np → (s'.procs q).pid = (s.procs q).pid ∧
      (s'.procs q).state = (s.procs q).state) (hnext : s'.nextpid = s.nextpid + 1)
    (hclones : ∀ e ∈ s'.clones, e.creator < s'.nextpid ∧ e.child < s'.nextpid) : PidsOk s' := by
  have hbound := hi.next
  refine ⟨by omega, ?_, ?_, ?_, hclones⟩
  · intro q
    by_cases hq : q = np
    · rw [hq, hnew, hnext]
      omega
    · rw [(hold q hq).1, hnext]
      exact (hi.lt q).trans (by omega)
  · intro q hused
    by_cases hq : q = np
    · rw [hq, hnew]
      omega
    · rw [(hold q hq).1]
      rw [(hold q hq).2] at hused
      exact hi.pos q hused
  · intro q r heq hne
    by_cases hq : q = np
    · by_cases hr : r = np
      · rw [hq, hr]
      · have := hi.lt r
        rw [hq, hnew, (hold r hr).1] at heq
        omega
    · have := hi.lt q
      rw [(hold q hq).1] at heq hne
      by_cases hr : r = np
      · rw [hr, hnew] at heq
        omega
      · rw [(hold r hr).1] at heq
        exact hi.inj q r heq hne

theorem PidsOk.reaped (hi : PidsOk s) (h : Reaped s q z s') : PidsOk s' := by
  have hpid : ∀ r, (s'.procs r).pid = if r = z then 0 else (s.procs r).pid := by
    intro r
    by_cases hr : r = z
    · obtain ⟨_, hfreed⟩ := h.freed
      rw [if_pos hr, hr, hfreed]
    · rw [if_neg hr, h.kept r hr]
  refine ⟨?_, ?_, ?_, ?_, ?_⟩
  · rw [h.nextpid]
    exact hi.next
  · intro r
    rw [hpid, h.nextpid]
    split_ifs
    · exact lt_trans one_pos hi.next
    · exact hi.lt r
  · intro r hr
    have hrz := h.ne_of_used_after hr
    rw [h.kept r hrz] at hr ⊢
    exact hi.pos r hr
  · intro a b hab hne
    rw [hpid] at hne
    rw [hpid, hpid] at hab
    by_cases ha : a = z
    · simp [ha] at hne
    · rw [if_neg ha] at hab hne
      by_cases hb : b = z
      · exact absurd (hab.trans (if_pos hb)) hne
      · exact hi.inj a b (hab.trans (if_neg hb)) hne
  · rw [h.clones, h.nextpid]
    exact hi.clones

theorem PidsOk.step (hi : PidsOk s) (hheld : HeldOk s) (hstep : LockStep s e s') : PidsOk s' := by
  cases hheld.effect hstep with
  | refused => exact hi
  | whole hcut h =>
    rcases h.ids hcut with ⟨hsame, -⟩ | ⟨q, z, s₁, hsame, -, h⟩
    · exact hi.same hsame
    · exact (hi.same hsame).reaped h
  | allocated hp hfree hc =>
    rename_i p np c
    have hnew : (((s.allocated np).setCtl p c).procs np).pid = s.nextpid := by
      rw [Kernel.setCtl_procs, s.allocated_procs_self]
    apply hi.allocate hnew _ rfl
    · intro e he
      obtain ⟨hcreator, hchild⟩ := hi.clones e he
      exact ⟨Int.lt_add_one_of_le hcreator.le, Int.lt_add_one_of_le hchild.le⟩
    · intro q hq
      rw [Kernel.setCtl_procs, s.allocated_procs_of_ne hq]
      exact ⟨rfl, rfl⟩
  | filled hp hctl h hkind hstate hnext =>
    rename_i p np flags env child s₁
    have hpid : child.pid = (s.procs np).pid := hkind.elim (·.pid) (·.pid)
    refine hi.kept (fun q => (h.pid_state hpid hstate q).1) ?_ hnext ?_
    · intro q hq
      rwa [Kernel.setCtl_procs, (h.pid_state hpid hstate q).2] at hq
    · rw [Kernel.setCtl_clones]
      rcases hkind with hfork | hclone
      · rw [hfork.clones]
        exact hi.clones
      · rw [hclone.clones]
        intro e he
        rcases List.mem_cons.mp he with rfl | he
        · exact ⟨hi.lt p, hi.lt np⟩
        · exact hi.clones e he
  | dropped hp hctl h =>
    rename_i p np env s₁
    obtain ⟨hstate, hpid, -, -, hnext, hclones, -⟩ := h.rest_eq
    refine hi.kept ?_ ?_ hnext (hclones ▸ hi.clones)
    · intro q
      by_cases hq : q = np
      · rw [hq, Kernel.setCtl_procs, hpid]
      · rw [Kernel.setCtl_procs, h.other_eq hq]
    · intro q hq
      have hqn : q ≠ np := by
        rintro rfl
        exact hq hstate
      rwa [Kernel.setCtl_procs, h.other_eq hqn] at hq
  | published hp hctl =>
    rename_i p np
    have hnp := (hheld.held p np (by rw [hctl]; rfl)).2
    refine hi.kept ?_ ?_ rfl hi.clones
    · intro q
      rw [Kernel.setCtl_procs, publish, Kernel.setProc_procs]
      split_ifs with hq
      · rw [hq]
      · rfl
    · intro q hq
      rw [Kernel.setCtl_procs, publish, Kernel.setProc_procs] at hq
      split_ifs at hq with hqn
      · simp [hqn, hnp]
      · exact hq
  | released hp hctl h => exact hi.same h.sameIds
  | zombied hp hctl =>
    rename_i p
    have hprocs := exitZombie_procs (hheld.leaving p hctl)
    refine hi.kept ?_ ?_ rfl hi.clones
    · intro q
      obtain ⟨st, hst, -⟩ := hprocs q
      rw [Kernel.setCtl_procs, hst]
    · intro q hq
      by_cases hqp : q = p
      · simp [hqp, hp]
      · obtain ⟨st, hst, -, hwoken, -⟩ := hprocs q
        rw [Kernel.setCtl_procs, hst] at hq
        exact mt (hwoken hqp).unused_iff.mpr hq

/-! ## Parents -/

/-- A parent is older than its children and has not exited. A process that is
not a thread leads a group of its own. -/
structure TreeOk (s : Kernel) : Prop where
  free : ∀ q, (s.procs q).state = .unused → (s.procs q).parent = none
  parent : ∀ q r, (s.procs q).parent = some r →
    (s.procs r).state.Scheduled ∧ (s.procs r).pid < (s.procs q).pid
  leads : ∀ q, (s.procs q).state ≠ .unused → (s.procs q).state ≠ .embryo →
    (s.procs q).isThread = false → (s.procs q).tgid = (s.procs q).pid
  filled : ∀ p np, s.ctl p = .publishing np → (s.procs np).isThread = false →
    (s.procs np).tgid = (s.procs np).pid
  unfilled : ∀ p np, (s.ctl p).unfilled = some np →
    (s.procs np).parent = none ∧ (s.procs p).pid < (s.procs np).pid
  init : (s.procs s.initproc).state.Scheduled ∧ (s.procs s.initproc).pid = 1 ∧
    (s.procs s.initproc).parent = none ∧ (s.procs s.initproc).isThread = false

theorem treeOk_boot : TreeOk boot := by
  have hparent : ∀ q, (boot.procs q).parent = none := by
    intro q
    by_cases hq : q = 0
    · rw [hq]
      rfl
    · rw [boot_procs_of_ne hq]
  refine ⟨fun q _ => hparent q, ?_, ?_, ?_, ?_, ?_⟩
  · intro q r h
    rw [hparent] at h
    cases h
  · intro q hused _ _
    by_cases hq : q = 0
    · rw [hq]
      rfl
    · rw [boot_procs_of_ne hq] at hused
      exact absurd rfl hused
  · intro p np h
    cases h
  · intro p np h
    cases h
  · exact ⟨.inr (.inl rfl), rfl, rfl, rfl⟩

theorem TreeOk.same (hi : TreeOk s) (h : SameIds s s')
    (hctl : ∀ q np, (s'.ctl q).held = some np → s'.ctl q = s.ctl q) : TreeOk s' := by
  refine ⟨?_, ?_, ?_, ?_, ?_, ?_⟩
  · intro q hq
    rw [h.parent]
    exact hi.free q ((h.unused q).mp hq)
  · intro q r hr
    rw [h.parent] at hr
    rw [h.scheduled, h.pid, h.pid]
    exact hi.parent q r hr
  · intro q hused hembryo
    rw [h.isThread, h.tgid, h.pid]
    exact hi.leads q (mt (h.unused q).mpr hused) (mt (h.embryo q).mpr hembryo)
  · intro p np hp
    rw [h.isThread, h.tgid, h.pid]
    exact hi.filled p np (hctl p np (by rw [hp]; rfl) ▸ hp)
  · intro p np hp
    rw [h.parent, h.pid, h.pid]
    exact hi.unfilled p np (hctl p np (Ctl.held_of_unfilled hp) ▸ hp)
  · rw [h.initproc, h.scheduled, h.pid, h.parent, h.isThread]
    exact hi.init

theorem TreeOk.reaped (hi : TreeOk s) (hheld : HeldOk s) (h : Reaped s q z s') : TreeOk s' := by
  have hkept : ∀ r, (s.procs r).state ≠ .zombie → s'.procs r = s.procs r := by
    intro r hr
    apply h.kept
    rintro rfl
    exact hr h.zombie
  have hz : (s'.procs z).parent = none := by
    obtain ⟨_, hfreed⟩ := h.freed
    rw [hfreed]
  refine ⟨?_, ?_, ?_, ?_, ?_, ?_⟩
  · intro r hr
    by_cases hrz : r = z
    · rw [hrz, hz]
    · rw [h.kept r hrz] at hr ⊢
      exact hi.free r hr
  · intro r a ha
    have hrz : r ≠ z := by
      rintro rfl
      rw [hz] at ha
      cases ha
    rw [h.kept r hrz] at ha ⊢
    have hparent := hi.parent r a ha
    rwa [hkept a hparent.1.ne.2.2]
  · intro r hused hembryo
    have hrz := h.ne_of_used_after hused
    rw [h.kept r hrz] at hused hembryo ⊢
    exact hi.leads r hused hembryo
  · intro p np hp
    rw [h.ctl_eq.eq_of_held (by rw [hp]; rfl)] at hp
    have hnp := (hheld.held p np (by rw [hp]; rfl)).2
    rw [hkept np (by simp [hnp])]
    exact hi.filled p np hp
  · intro p np hp
    rw [h.ctl_eq.eq_of_held (Ctl.held_of_unfilled hp)] at hp
    obtain ⟨hps, hnp⟩ := hheld.held p np (Ctl.held_of_unfilled hp)
    rw [hkept np (by simp [hnp]), hkept p hps.ne.2.2]
    exact hi.unfilled p np hp
  · rw [h.initproc, hkept _ hi.init.1.ne.2.2]
    exact hi.init

/-- Nothing changed of what the tree is made of. -/
structure SameKin (a b : Proc) : Prop where
  state : b.state = a.state
  pid : b.pid = a.pid
  parent : b.parent = a.parent
  isThread : b.isThread = a.isThread
  tgid : b.tgid = a.tgid

theorem SameKin.refl (a : Proc) : SameKin a a := ⟨rfl, rfl, rfl, rfl, rfl⟩

/-- One process works on a slot that nobody else holds. -/
theorem TreeOk.slot (hi : TreeOk s) (hheld : HeldOk s) (p np : Slot)
    (hnp : ¬(s.procs np).state.Scheduled)
    (hother : ∀ q, q ≠ np → SameKin (s.procs q) (s'.procs q))
    (hctl : ∀ r, r ≠ p → s'.ctl r = s.ctl r ∧ (s.ctl r).held ≠ some np)
    (hinit : s'.initproc = s.initproc)
    (hfree : (s'.procs np).state = .unused → (s'.procs np).parent = none)
    (hparent : ∀ r, (s'.procs np).parent = some r →
      (s.procs r).state.Scheduled ∧ (s.procs r).pid < (s'.procs np).pid)
    (hleads : (s'.procs np).state ≠ .unused → (s'.procs np).state ≠ .embryo →
      (s'.procs np).isThread = false → (s'.procs np).tgid = (s'.procs np).pid)
    (hfilled : ∀ m, s'.ctl p = .publishing m → m = np ∧
      ((s'.procs np).isThread = false → (s'.procs np).tgid = (s'.procs np).pid))
    (hunfilled : ∀ m, (s'.ctl p).unfilled = some m → m = np ∧
      (s'.procs np).parent = none ∧ (s'.procs p).pid < (s'.procs np).pid) : TreeOk s' := by
  have hkin : ∀ r, (s.procs r).state.Scheduled → SameKin (s.procs r) (s'.procs r) := fun r hr =>
    hother r fun h => hnp (h ▸ hr)
  refine ⟨forall_of_ne hfree ?_, ?_, forall_of_ne hleads ?_, ?_, ?_, ?_⟩
  · intro q hq hstate
    rw [(hother q hq).parent]
    exact hi.free q ((hother q hq).state ▸ hstate)
  · intro q r hr
    have hold : (s.procs r).state.Scheduled ∧ (s.procs r).pid < (s'.procs q).pid := by
      by_cases hqn : q = np
      · rw [hqn] at hr ⊢
        exact hparent r hr
      · rw [(hother q hqn).parent] at hr
        rw [(hother q hqn).pid]
        exact hi.parent q r hr
    rwa [(hkin r hold.1).state, (hkin r hold.1).pid]
  · intro q hq
    rw [(hother q hq).state, (hother q hq).isThread, (hother q hq).tgid, (hother q hq).pid]
    exact hi.leads q
  · intro r m hr
    by_cases hrp : r = p
    · obtain ⟨rfl, hleader⟩ := hfilled m (hrp ▸ hr)
      exact hleader
    · obtain ⟨hsame, hne⟩ := hctl r hrp
      rw [hsame] at hr
      have hm := hother m fun h => hne (by rw [hr, h]; rfl)
      rw [hm.isThread, hm.tgid, hm.pid]
      exact hi.filled r m hr
  · intro r m hr
    by_cases hrp : r = p
    · obtain ⟨rfl, hyoung⟩ := hunfilled m (hrp ▸ hr)
      exact hrp ▸ hyoung
    · obtain ⟨hsame, hne⟩ := hctl r hrp
      rw [hsame] at hr
      have hm := hother m fun h => hne (h ▸ Ctl.held_of_unfilled hr)
      rw [hm.parent, hm.pid, (hkin r (hheld.held r m (Ctl.held_of_unfilled hr)).1).pid]
      exact hi.unfilled r m hr
  · have hsame := hkin _ hi.init.1
    rw [hinit, hsame.state, hsame.pid, hsame.parent, hsame.isThread]
    exact hi.init

/-- What someone holds, nobody else holds. -/
theorem HeldOk.others (hi : HeldOk s) (h : (s.ctl p).held = some np) :
    ∀ r, r ≠ p → (s.ctl r).held ≠ some np :=
  fun r hr hr' => hr (hi.unique r p np hr' h)

theorem HeldOk.not_scheduled (hi : HeldOk s) (h : (s.ctl p).held = some np) :
    ¬(s.procs np).state.Scheduled := fun hnp => hnp.ne.2.1 (hi.held p np h).2

theorem TreeOk.allocated (hi : TreeOk s) (hheld : HeldOk s) (hpids : PidsOk s)
    (hp : (s.procs p).state = .running) (hfree : (s.procs np).state = .unused)
    (hc : c.unfilled = some np) :
    TreeOk ((s.allocated np).setCtl p c) := by
  have hself : ((s.allocated np).setCtl p c).procs np = _ := s.allocated_procs_self np
  have hother : ∀ q, q ≠ np → ((s.allocated np).setCtl p c).procs q = s.procs q := fun q hq =>
    s.allocated_procs_of_ne hq
  have hnone := hi.free np hfree
  refine hi.slot hheld p np (fun h => h.ne.1 hfree) (fun q hq => hother q hq ▸ .refl _) ?_ rfl
    ?_ ?_ ?_ ?_ ?_
  · intro r hr
    refine ⟨update_of_ne hr .., fun h => ?_⟩
    rw [(hheld.held r np h).2] at hfree
    cases hfree
  · rw [hself]
    exact fun _ => hnone
  · rw [hself]
    intro r hr
    rw [show (s.procs np).parent = some r from hr] at hnone
    cases hnone
  · rw [hself]
    exact fun _ h => absurd rfl h
  · intro m hm
    rw [Kernel.setCtl_ctl, update_self] at hm
    rw [hm] at hc
    cases hc
  · intro m hm
    rw [Kernel.setCtl_ctl, update_self, hc] at hm
    have hpn : p ≠ np := by
      rintro rfl
      rw [hp] at hfree
      cases hfree
    rw [hself, hother p hpn]
    exact ⟨(Option.some.inj hm).symm, hnone, hpids.lt p⟩

/-- The parent `clone` picks is the caller or one of its forebears. -/
theorem TreeOk.cloneParentOf (hi : TreeOk s) (hp : (s.procs p).state.Scheduled)
    (h : Xv6Threads.cloneParentOf s p flags = .ok (some r)) :
    (s.procs r).state.Scheduled ∧
      (r = p ∧ (s.procs p).isThread = false ∧ flagParent flags = false ∨
        (s.procs r).pid < (s.procs p).pid) := by
  rw [Xv6Threads.cloneParentOf] at h
  split_ifs at h with hthread hflag hflag
  · split at h
    · cases h
    · rename_i a ha
      have hparent := hi.parent p a ha
      have hgrand := hi.parent a r (Except.ok.inj h)
      exact ⟨hgrand.1, .inr (hgrand.2.trans hparent.2)⟩
  · have hparent := hi.parent p r (Except.ok.inj h)
    exact ⟨hparent.1, .inr hparent.2⟩
  · have hparent := hi.parent p r (Except.ok.inj h)
    exact ⟨hparent.1, .inr hparent.2⟩
  · obtain rfl := Option.some.inj (Except.ok.inj h)
    exact ⟨hp, .inl ⟨rfl, by simpa using hthread, by simpa using hflag⟩⟩

theorem ForkMade.parent_of {newpid : ℤ} (h : ForkMade s p newpid child s')
    (hr : child.parent = some r) : r = p :=
  Option.some.inj (hr.symm.trans h.parent)

theorem TreeOk.filled_step {s₁ : Kernel} {env : SpawnEnv} (hi : TreeOk s) (hheld : HeldOk s)
    (hp : (s.procs p).state = .running) (hctl : (s.ctl p).unfilled = some np)
    (h : ChildMade s p np flags env child s₁)
    (hkind : ForkMade s p (s.procs np).pid child s₁ ∨
      CloneMade s p (s.procs np).pid flags child s₁) (hstate : child.state = (s.procs np).state) :
    TreeOk (s₁.setCtl p (.publishing np)) := by
  have hheldnp := Ctl.held_of_unfilled hctl
  have hnp : (s.procs np).state = .embryo := (hheld.held p np hheldnp).2
  have hsched : (s.procs p).state.Scheduled := .inr (.inr hp)
  have hself : (s₁.setCtl p (.publishing np)).procs np = child :=
    (congrFun h.procs np).trans (s.withChild_self p np flags child)
  have hpid : child.pid = (s.procs np).pid := hkind.elim (·.pid) (·.pid)
  refine hi.slot hheld p np (hheld.not_scheduled hheldnp) ?_ ?_ h.initproc ?_ ?_ ?_ ?_ ?_
  · intro q hq
    have hproc : (s₁.setCtl p (.publishing np)).procs q = _ :=
      (congrFun h.procs q).trans (s.withChild_of_ne p np flags child hq)
    rw [hproc]
    exact ⟨rfl, rfl, rfl, rfl, rfl⟩
  · intro r hr
    refine ⟨?_, hheld.others hheldnp r hr⟩
    rw [Kernel.setCtl_ctl, update_of_ne hr, h.ctl]
  · rw [hself, hstate, hnp]
    intro h
    cases h
  · -- the parent chosen for the child is the caller or older
    rw [hself, hpid]
    intro r hr
    have horder := (hi.unfilled p np hctl).2
    rcases hkind with hfork | hclone
    · rw [hfork.parent_of hr]
      exact ⟨hsched, horder⟩
    · have hchosen := hclone.parent
      rw [hr] at hchosen
      obtain ⟨hrs, ⟨rfl, -⟩ | hlt⟩ := hi.cloneParentOf hsched hchosen
      · exact ⟨hrs, horder⟩
      · exact ⟨hrs, hlt.trans horder⟩
  · rw [hself]
    exact fun _ h => absurd (hstate.trans hnp) h
  · intro m hm
    rw [Kernel.setCtl_ctl, update_self] at hm
    refine ⟨(Ctl.publishing.inj hm).symm, ?_⟩
    rw [hself]
    intro hthread
    rcases hkind with hfork | hclone
    · rw [hfork.tgid, hfork.pid]
    · rw [hclone.isThread] at hthread
      cases hthread
  · intro m hm
    rw [Kernel.setCtl_ctl, update_self] at hm
    cases hm

/-- Giving up a slot, or publishing it. -/
theorem TreeOk.let_go (hi : TreeOk s) (hheld : HeldOk s) (hctl : (s.ctl p).held = some np)
    (hprocs : ∀ q, q ≠ np → s'.procs q = s.procs q) (hpid : (s'.procs np).pid = (s.procs np).pid)
    (hparent : (s'.procs np).parent = (s.procs np).parent)
    (hend : (s'.procs np).state = .unused ∧ (s.procs np).parent = none ∨
      (s'.procs np).state = .runnable ∧ ((s'.procs np).isThread = false →
        (s'.procs np).tgid = (s'.procs np).pid)) (hctl' : s'.ctl = update s.ctl p .user)
    (hinit : s'.initproc = s.initproc) :
    TreeOk s' := by
  refine hi.slot hheld p np (hheld.not_scheduled hctl) (fun q hq => hprocs q hq ▸ .refl _) ?_ hinit
    ?_ ?_ ?_ ?_ ?_
  · intro r hr
    rw [hctl', update_of_ne hr]
    exact ⟨rfl, hheld.others hctl r hr⟩
  · intro hstate
    rcases hend with ⟨-, hnone⟩ | ⟨hrun, -⟩
    · rw [hparent, hnone]
    · rw [hrun] at hstate
      cases hstate
  · rw [hparent, hpid]
    exact hi.parent np
  · intro hused _
    rcases hend with ⟨hfree, -⟩ | ⟨-, hleads⟩
    · exact absurd hfree hused
    · exact hleads
  · intro m hm
    rw [hctl', update_self] at hm
    cases hm
  · intro m hm
    rw [hctl', update_self] at hm
    cases hm

theorem TreeOk.zombied (hi : TreeOk s) (hheld : HeldOk s) (hpids : PidsOk s)
    (hp : (s.procs p).state = .running) (hctl : s.ctl p = .exiting) :
    TreeOk ((exitZombie s p).setCtl p .user) := by
  have hinit := hheld.leaving p hctl
  choose st hst hzombie hwoken _ using fun q => exitZombie_procs (p := p) hinit q
  have hsched : ∀ r, r ≠ p → (s.procs r).state.Scheduled →
      ((exitZombie s p).procs r).state.Scheduled := by
    intro r hr hrs
    rw [hst]
    exact (hwoken r hr).scheduled hrs
  refine ⟨?_, ?_, ?_, ?_, ?_, ?_⟩
  · intro q hq
    rw [Kernel.setCtl_procs, hst] at hq ⊢
    by_cases hqp : q = p
    · rw [show st q = .zombie from hzombie q hqp] at hq
      cases hq
    · have hnone := hi.free q ((hwoken q hqp).unused_iff.mp hq)
      simp [hnone]
  · intro q r hr
    rw [Kernel.setCtl_procs] at hr ⊢
    rw [hst q] at hr
    have hpid : ∀ a, ((exitZombie s p).procs a).pid = (s.procs a).pid := fun a => by rw [hst a]
    rw [hpid, hpid]
    dsimp only at hr
    split_ifs at hr with hqp
    · cases hr
      have hlt := (hi.parent q p hqp).2
      have hpos := hpids.pos p (by simp [hp])
      refine ⟨hsched _ (Ne.symm hinit) hi.init.1, ?_⟩
      rw [hi.init.2.1]
      omega
    · obtain ⟨hrs, hlt⟩ := hi.parent q r hr
      refine ⟨hsched r ?_ hrs, hlt⟩
      rintro rfl
      exact hqp hr
  · intro q hused hembryo
    rw [Kernel.setCtl_procs, hst] at hused hembryo ⊢
    by_cases hqp : q = p
    · exact hi.leads q (by simp [hqp, hp]) (by simp [hqp, hp])
    · refine hi.leads q (mt (hwoken q hqp).unused_iff.mpr hused) ?_
      intro hq
      rcases hwoken q hqp with hsame | ⟨hold, -⟩
      · exact hembryo (hsame.trans hq)
      · rw [hq] at hold
        cases hold
  · intro r m hr hthread
    rw [Kernel.setCtl_procs, hst] at hthread ⊢
    by_cases hrp : r = p
    · rw [hrp, Kernel.setCtl_ctl, update_self] at hr
      cases hr
    · rw [Kernel.setCtl_ctl, update_of_ne hrp] at hr
      exact hi.filled r m hr hthread
  · intro r m hr
    rw [Kernel.setCtl_procs, hst, hst]
    by_cases hrp : r = p
    · rw [hrp, Kernel.setCtl_ctl, update_self] at hr
      cases hr
    · rw [Kernel.setCtl_ctl, update_of_ne hrp] at hr
      have hm := hi.unfilled r m hr
      simp only [hm.1]
      exact ⟨if_neg (by simp), hm.2⟩
  · have hkeep : ((exitZombie s p).setCtl p .user).initproc = s.initproc := rfl
    have hnone := hi.init.2.2.1
    rw [Kernel.setCtl_procs, hkeep]
    refine ⟨hsched _ (Ne.symm hinit) hi.init.1, ?_⟩
    rw [hst]
    simp only [hnone]
    exact ⟨hi.init.2.1, if_neg (by simp), hi.init.2.2.2⟩

theorem TreeOk.step (hi : TreeOk s) (hheld : HeldOk s) (hpids : PidsOk s)
    (hstep : LockStep s e s') : TreeOk s' := by
  cases hheld.effect hstep with
  | refused => exact hi
  | whole hcut h =>
    rcases h.ids hcut with ⟨hsame, hctl⟩ | ⟨q, z, s₁, hsame, hctl, h⟩
    · exact hi.same hsame fun _ _ => hctl.eq_of_held
    · exact (hi.same hsame fun _ _ => hctl.eq_of_held).reaped (hheld.same hsame hctl) h
  | allocated hp hfree hc => exact hi.allocated hheld hpids hp hfree hc
  | filled hp hctl h hkind hstate hnext => exact hi.filled_step hheld hp hctl h hkind hstate
  | dropped hp hctl h =>
    rename_i p np env s₁
    obtain ⟨hstate, hpid, hparent, hinit, -, -, hctl'⟩ := h.rest_eq
    refine hi.let_go hheld (Ctl.held_of_unfilled hctl) (fun q hq => h.other_eq hq) hpid hparent
      (.inl ⟨hstate, (hi.unfilled p np hctl).1⟩) ?_ hinit
    rw [Kernel.setCtl_ctl, hctl']
  | published hp hctl =>
    rename_i p np
    have hself : ((publish s np).setCtl p .user).procs np =
        { s.procs np with state := .runnable } := Kernel.setProc_procs_self ..
    have hheldnp : (s.ctl p).held = some np := by rw [hctl]; rfl
    refine hi.let_go hheld hheldnp ?_ ?_ ?_ ?_ rfl rfl
    · exact fun q hq => Kernel.setProc_procs_of_ne _ _ _ hq
    · rw [hself]
    · rw [hself]
    · rw [hself]
      exact .inr ⟨rfl, hi.filled p np hctl⟩
  | released hp hctl h =>
    refine hi.same h.sameIds fun q np hq => ?_
    obtain ⟨hqp, -⟩ := Ctl.held_update rfl hq
    rw [Kernel.setCtl_ctl, update_of_ne hqp, h.ctl]
  | zombied hp hctl => exact hi.zombied hheld hpids hp hctl

/-! ## Every state -/

theorem lineage_of_lockReachable (h : Reachable LockStep boot s) :
    HeldOk s ∧ PidsOk s ∧ TreeOk s := by
  refine h.invariant (P := fun s => HeldOk s ∧ PidsOk s ∧ TreeOk s)
    ⟨heldOk_boot, pidsOk_boot, treeOk_boot⟩ ?_
  rintro s e s' - ⟨hheld, hpids, htree⟩ - hstep
  exact ⟨hheld.step hstep, hpids.step hheld hstep, htree.step hheld hpids hstep⟩

theorem pidsOk_of_reachable (h : Reachable Step boot s) : PidsOk s :=
  (lineage_of_lockReachable (lockReachable_of_reachable h)).2.1

theorem treeOk_of_reachable (h : Reachable Step boot s) : TreeOk s :=
  (lineage_of_lockReachable (lockReachable_of_reachable h)).2.2

/-- A clone with `CLONE_PARENT` is not made by a thread without a parent. For such a thread
the kernel takes the word at user address `0x14` for a parent. -/
def ClimbsFromParent (s : Kernel) : LockEvent → Prop
  | .fill p _ => (s.ctl p).climbs = true → (s.procs p).isThread = true → (s.procs p).parent ≠ none
  | _ => True

instance (s : Kernel) : (e : LockEvent) → Decidable (ClimbsFromParent s e)
  | .fill _ _ => inferInstanceAs (Decidable (_ → _ → _))
  | .forkAlloc _ | .cloneAlloc _ _ | .publish _ | .exitRelease _ | .exitZombie _ | .whole _ =>
    .isTrue trivial

/-- Parents form a forest: those above a process live and have smaller pids. -/
theorem ancestors_older (h : ReachableBy LockStep ClimbsFromParent boot s) {q r : Slot}
    (habove : Relation.TransGen (fun a b => (s.procs a).parent = some b) q r) :
    (s.procs r).state.Scheduled ∧ (s.procs r).pid < (s.procs q).pid := by
  have htree := (lineage_of_lockReachable h.reachable).2.2
  induction habove with
  | single hr => exact htree.parent _ _ hr
  | tail _ hr ih =>
    obtain ⟨hlive, hlt⟩ := htree.parent _ _ hr
    exact ⟨hlive, hlt.trans ih.2⟩

/-- Init forks a process that clones a thread. -/
theorem ancestors_older_thread : ∃ s, ReachableBy LockStep ClimbsFromParent boot s ∧
    (s.procs 2).isThread = true ∧ (s.procs 0).pid < (s.procs 2).pid := by
  have hrun : ∃ s, ReachableBy LockStep ClimbsFromParent boot s ∧
      ((s.procs 2).isThread = true ∧ (s.procs 2).parent = some 1 ∧ (s.procs 1).parent = some 0) :=
    exists_reachableBy
      [.whole (.dispatch 0), .forkAlloc 0, .fill 0 ⟨true, some 1, 8⟩, .publish 0,
        .whole (.dispatch 1), .cloneAlloc 1 0, .fill 1 ⟨true, some 2, 8⟩] (by decide +kernel)
  obtain ⟨s, hs, hthread, hparent, hinit⟩ := hrun
  exact ⟨s, hs, hthread, (ancestors_older hs (.tail (.single hparent) hinit)).2⟩

end Xv6Threads
