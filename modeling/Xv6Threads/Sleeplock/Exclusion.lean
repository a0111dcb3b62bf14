/-
# Sleep-locks exclude and strand nobody

Who holds each spin-lock can be read off the phases, and `locked` with `pid` names
the one process that has taken the lock and not cleared it. A process goes to sleep
only after it has seen `locked` under the spin-lock, and has `ptable.lock` from
before it gives the spin-lock up until it sleeps; so whoever clears `locked` meets
every sleeper in the `wakeup` it still owes.
-/

import Xv6Threads.Sleeplock.Steps

namespace Xv6Threads.Sleeplock

open Lib
open Function (update update_of_ne update_self)

variable {ph a b : Phase} {inner : Option Pid} {table : Option (Option Pid)}

/-- Between `acquire(&lk->lk)` and `release(&lk->lk)`. -/
def Phase.HoldsInner : Phase → Bool
  | .testing | .taken | .dozing | .handing => true
  | .releasing | .waking | .sweeping | .swept | .leaving => true
  | .asking | .answered _ => true
  | _ => false

/-- Has `ptable.lock`, itself or the scheduler on its behalf. -/
def Phase.HoldsTable : Phase → Bool
  | .handing | .settling | .switching | .resumed | .sweeping | .swept => true
  | _ => false

/-- On the way to sleep, or asleep. -/
def Phase.Drowsy : Phase → Bool
  | .dozing | .handing | .settling | .switching | .asleep => true
  | _ => false

/-- Has cleared `locked` and not called `wakeup1` yet. -/
def Phase.OwesWakeup : Phase → Bool
  | .waking | .sweeping => true
  | _ => false

/-- Has set `locked` and not returned yet, or has called `releasesleep` and not
cleared it yet. -/
def Phase.HasTaken : Phase → Bool
  | .taken | .returning | .releasing => true
  | _ => false

theorem Phase.holdsInner_of_owesWakeup (h : ph.OwesWakeup = true) : ph.HoldsInner = true := by
  cases ph <;> first | rfl | cases h

theorem Phase.drowsy_of_sleeping (h : ph.Sleeping = true) : ph.Drowsy = true := by
  cases ph <;> first | rfl | cases h

/-- A drowsy process has one of the two spin-locks, or sleeps. -/
theorem Phase.asleep_of_drowsy (h : ph.Drowsy = true) (hinner : ph.HoldsInner = false)
    (htable : ph.HoldsTable = false) : ph = .asleep := by
  cases ph <;>
    first | rfl | exact Bool.noConfusion h | exact Bool.noConfusion hinner |
      exact Bool.noConfusion htable

/-- What becomes of a spin-lock when `x` moves from a phase that holds it or not to
another one. -/
def Passes {α : Type} (held held' : Bool) (x : α) (lock lock' : Option α) : Prop :=
  match held, held' with
  | false, true => lock = none ∧ lock' = some x
  | true, false => lock' = none
  | _, _ => lock' = lock

/-- A move that neither takes nor gives the lock, nor brings a process near sleep. -/
structure Quiet (a b : Phase) : Prop where
  taken : b.HasTaken = a.HasTaken
  owes : b.OwesWakeup = a.OwesWakeup
  drowsy : b.Drowsy = true → a.Drowsy = true
  silent : ∀ r, b ≠ .answered r

/-- What a step can do. -/
inductive Effect (s : LockState) : LockState → Prop
  | quiet (p : Pid) (b : Phase) (inner : Option Pid) (table : Option (Option Pid))
      (hquiet : Quiet (s.phase p) b)
      (hinner : Passes (s.phase p).HoldsInner b.HoldsInner p s.inner inner)
      (htable : Passes (s.phase p).HoldsTable b.HoldsTable (some p) s.table table) :
      Effect s { s.setPhase p b with inner := inner, table := table }
  | doze (p : Pid) (hp : s.phase p = .testing) (hlocked : s.locked = true) :
      Effect s (s.setPhase p .dozing)
  | take (p : Pid) (hp : s.phase p = .testing) (hlocked : s.locked = false) :
      Effect s { s.setPhase p .taken with locked := true, pid := p }
  | enter (p : Pid) (hp : s.phase p = .taken) :
      Effect s { s.release p .outside with between := Function.update s.between p true }
  | give (p : Pid) (hp : s.phase p = .outside) (hbetween : s.between p = true) :
      Effect s { s.setPhase p .returning with between := Function.update s.between p false }
  | clear (p : Pid) (hp : s.phase p = .releasing) :
      Effect s { s.setPhase p .waking with locked := false, pid := 0 }
  | sweep (p : Pid) (hp : s.phase p = .sweeping) : Effect s (s.wakeup1.setPhase p .swept)
  | answer (p : Pid) (hp : s.phase p = .asking) :
      Effect s (s.setPhase p (.answered (s.locked && decide (s.pid = p))))
  | others (table : Option (Option Pid)) (hold : ∀ p, s.table ≠ some (some p))
      (hnew : ∀ p, table ≠ some (some p)) : Effect s { s with table := table }

section

variable {s s' : LockState} {p : Pid}

/-- A quiet move from a known phase, in the two locks it may pass. -/
theorem Effect.quiet_of (hp : s.phase p = a) (hquiet : Quiet a b)
    (hinner : Passes a.HoldsInner b.HoldsInner p s.inner inner)
    (htable : Passes a.HoldsTable b.HoldsTable (some p) s.table table) :
    Effect s { s.setPhase p b with inner := inner, table := table } := by
  subst hp
  exact .quiet p b inner table hquiet hinner htable

theorem effect_acquire (h : s.acquire p b = some s') (hp : s.phase p = a) (hquiet : Quiet a b)
    (hold : a.HoldsInner = false) (hnew : b.HoldsInner = true)
    (htable : b.HoldsTable = a.HoldsTable) : Effect s s' := by
  rw [LockState.acquire] at h
  split at h
  next hfree =>
    cases h
    apply Effect.quiet_of hp hquiet
    · rw [hold, hnew]
      exact ⟨hfree, rfl⟩
    · rw [htable]
      cases a.HoldsTable <;> rfl
  next => cases h

theorem effect_acquireTable (h : s.acquireTable p b = some s') (hp : s.phase p = a)
    (hquiet : Quiet a b) (hold : a.HoldsTable = false) (hnew : b.HoldsTable = true)
    (hinner : b.HoldsInner = a.HoldsInner) : Effect s s' := by
  rw [LockState.acquireTable] at h
  split at h
  next hfree =>
    cases h
    apply Effect.quiet_of hp hquiet
    · rw [hinner]
      cases a.HoldsInner <;> rfl
    · rw [hold, hnew]
      exact ⟨hfree, rfl⟩
  next => cases h

theorem effect_turn (h : s.turn p = some s') : Effect s s' := by
  rw [LockState.turn] at h
  cases hp : s.phase p <;> rw [hp] at h <;> simp only at h
  case outside | asleep => cases h
  case entering =>
    exact effect_acquire h hp ⟨rfl, rfl, nofun, nofun⟩ rfl rfl rfl
  case testing =>
    cases hlocked : s.locked <;> rw [hlocked] at h <;> cases h
    · exact .take p hp hlocked
    · exact .doze p hp hlocked
  case taken =>
    cases h
    exact .enter p hp
  case dozing =>
    exact effect_acquireTable h hp ⟨rfl, rfl, fun _ => rfl, nofun⟩ rfl rfl rfl
  case runnable | waking =>
    exact effect_acquireTable h hp ⟨rfl, rfl, nofun, nofun⟩ rfl rfl rfl
  case handing | settling | switching =>
    cases h
    exact .quiet_of hp ⟨rfl, rfl, fun _ => rfl, nofun⟩ rfl rfl
  case resumed | swept | leaving | answered =>
    cases h
    exact .quiet_of hp ⟨rfl, rfl, nofun, nofun⟩ rfl rfl
  case returning | querying =>
    exact effect_acquire h hp ⟨rfl, rfl, nofun, nofun⟩ rfl rfl rfl
  case releasing =>
    cases h
    exact .clear p hp
  case sweeping =>
    cases h
    exact .sweep p hp
  case asking =>
    cases h
    exact .answer p hp

theorem effect_of_step {e : Event} (h : Step s e s') : Effect s s' := by
  cases e with
  | turn p => exact effect_turn h
  | acquiresleep p | holdingsleep p =>
    simp only [Step, next] at h
    split at h
    next hp =>
      cases h
      exact .quiet_of hp ⟨rfl, rfl, nofun, nofun⟩ rfl rfl
    next => cases h
  | releasesleep p =>
    simp only [Step, next] at h
    split at h
    next hp =>
      cases h
      exact .give p hp.1 hp.2
    next => cases h
  | lockTable | unlockTable =>
    simp only [Step, next] at h
    split at h
    next htable =>
      cases h
      exact .others _ (by simp [htable]) nofun
    next => cases h
  | kill p =>
    simp only [Step, next] at h
    split at h
    next htable =>
      cases h
      split
      next hp => exact .quiet_of hp ⟨rfl, rfl, nofun, nofun⟩ rfl rfl
      next => exact .others s.table (by simp [htable]) (by simp [htable])
    next => cases h

/-- Has set `locked`, and has not cleared it. -/
def LockState.Owns (s : LockState) (p : Pid) : Prop :=
  s.between p = true ∨ (s.phase p).HasTaken = true

/-- `locked` and `pid` name the process that owns the lock. -/
structure Owned (s : LockState) : Prop where
  owner : ∀ p, s.Owns p → s.locked = true ∧ s.pid = p
  owned : s.locked = true → s.Owns s.pid
  apart : ∀ p, (s.phase p).HasTaken = true → s.between p = false

structure Sound (s : LockState) : Prop where
  inner : ∀ p, (s.phase p).HoldsInner = true ↔ s.inner = some p
  table : ∀ p, (s.phase p).HoldsTable = true ↔ s.table = some (some p)
  owned : Owned s
  drowsy : ∀ p, (s.phase p).Drowsy = true →
    s.locked = true ∨ ∃ q, (s.phase q).OwesWakeup = true
  answer : ∀ p r, s.phase p = .answered r → (r = true ↔ s.between p = true)

theorem sound_initsleeplock : Sound initsleeplock where
  inner _ := ⟨nofun, nofun⟩
  table _ := ⟨nofun, nofun⟩
  owned :=
    { owner := fun _ h => by rcases h with h | h <;> cases h
      owned := nofun
      apart := fun _ _ => rfl }
  drowsy := nofun
  answer := nofun

/-- A spin-lock whose holder the phases name, after one of the processes has moved. -/
theorem holder_of_passes {α : Type} {name : Pid → α} (hname : Function.Injective name)
    {flag : Phase → Bool} {phase : Pid → Phase} {lock lock' : Option α}
    (hholder : ∀ q, flag (phase q) = true ↔ lock = some (name q))
    (hpass : Passes (flag (phase p)) (flag b) (name p) lock lock') (q : Pid) :
    flag (update phase p b q) = true ↔ lock' = some (name q) := by
  by_cases hq : q = p
  · subst hq
    rw [update_self]
    cases hold : flag (phase q) <;> cases hnew : flag b <;> rw [hold, hnew] at hpass
    · cases hpass
      rw [← hholder q, hold]
    · simp [hpass.2]
    · cases hpass
      simp
    · cases hpass
      rw [← hholder q, hold]
  · rw [update_of_ne hq, hholder q]
    have hne : name p ≠ name q := fun h => hq (hname h).symm
    cases hold : flag (phase p) <;> cases hnew : flag b <;> rw [hold, hnew] at hpass
    · cases hpass
      rfl
    · simp [hpass.1, hpass.2, hne]
    · cases hpass
      simp [(hholder p).mp hold, hne]
    · cases hpass
      rfl

theorem Sound.inner_move (h : Sound s) (hp : s.phase p = a)
    (hpass : Passes a.HoldsInner b.HoldsInner p s.inner inner) (q : Pid) :
    (update s.phase p b q).HoldsInner = true ↔ inner = some q :=
  holder_of_passes Function.injective_id h.inner (hp ▸ hpass) q

theorem Sound.table_move (h : Sound s) (hp : s.phase p = a)
    (hpass : Passes a.HoldsTable b.HoldsTable (some p) s.table table) (q : Pid) :
    (update s.phase p b q).HoldsTable = true ↔ table = some (some q) :=
  holder_of_passes (fun _ _ => Option.some.inj) h.table (hp ▸ hpass) q

/-- A flag of the phases that the one move of `p` keeps. -/
theorem flag_move (flag : Phase → Bool) (hb : flag b = flag (s.phase p)) (q : Pid) :
    flag (update s.phase p b q) = flag (s.phase q) := by
  by_cases hq : q = p
  · subst hq
    rw [update_self, hb]
  · rw [update_of_ne hq]

/-- Nobody entered, nobody left, and nobody is on the way in or out who was not. -/
theorem Owned.of_same (h : Owned s) (hlocked : s'.locked = s.locked) (hpid : s'.pid = s.pid)
    (hbetween : s'.between = s.between)
    (htaken : ∀ q, (s'.phase q).HasTaken = (s.phase q).HasTaken) : Owned s' := by
  have howns (q : Pid) : s'.Owns q ↔ s.Owns q := by
    rw [LockState.Owns, LockState.Owns, hbetween, htaken q]
  refine ⟨fun q hq => ?_, fun hl => ?_, fun q hq => ?_⟩
  · rw [hlocked, hpid]
    exact h.owner q ((howns q).mp hq)
  · rw [hpid]
    exact (howns s.pid).mpr (h.owned (hlocked.symm.trans hl))
  · rw [hbetween]
    exact h.apart q ((htaken q).symm.trans hq)

/-- The owner goes in, or is on its way out. -/
theorem Owned.pass {v : Bool} (h : Owned s) (hp : s.Owns p) (hv : v = true ∨ b.HasTaken = true)
    (hapart : b.HasTaken = true → v = false) :
    Owned { s.setPhase p b with inner := inner, between := update s.between p v } := by
  have howns (q : Pid) : ({ s.setPhase p b with
      inner := inner, between := update s.between p v } : LockState).Owns q ↔ s.Owns q := by
    by_cases hqp : q = p
    · subst hqp
      exact iff_of_true (by simpa [LockState.Owns, LockState.setPhase] using hv) hp
    · simp [LockState.Owns, LockState.setPhase, hqp]
  refine ⟨fun q hq => h.owner q ((howns q).mp hq), fun hl => (howns s.pid).mpr (h.owned hl), ?_⟩
  intro q hq
  by_cases hqp : q = p
  · subst hqp
    simp only [LockState.setPhase, update_self] at hq ⊢
    exact hapart hq
  · simp only [LockState.setPhase, update_of_ne hqp] at hq ⊢
    exact h.apart q hq

theorem Sound.unique_inner (h : Sound s) {q : Pid} (hp : (s.phase p).HoldsInner = true)
    (hq : (s.phase q).HoldsInner = true) : p = q :=
  Option.some.inj (((h.inner p).mp hp).symm.trans ((h.inner q).mp hq))

theorem Sound.unique_table (h : Sound s) {q : Pid} (hp : (s.phase p).HoldsTable = true)
    (hq : (s.phase q).HoldsTable = true) : p = q :=
  Option.some.inj (Option.some.inj (((h.table p).mp hp).symm.trans ((h.table q).mp hq)))

/-- A process that has neither come nearer to sleep nor paid a `wakeup`. -/
theorem Sound.drowsy_move (h : Sound s) (hdrowsy : b.Drowsy = true → (s.phase p).Drowsy = true)
    (howes : b.OwesWakeup = (s.phase p).OwesWakeup) (q : Pid)
    (hq : (update s.phase p b q).Drowsy = true) :
    s.locked = true ∨ ∃ r, (update s.phase p b r).OwesWakeup = true := by
  have hold : (s.phase q).Drowsy = true := by
    by_cases hqp : q = p
    · subst hqp
      rw [update_self] at hq
      exact hdrowsy hq
    · rwa [update_of_ne hqp] at hq
  refine (h.drowsy q hold).imp_right ?_
  rintro ⟨r, hr⟩
  exact ⟨r, (flag_move Phase.OwesWakeup howes r).trans hr⟩

/-- The answers given stay right, and so is that of the process that moves. -/
theorem Sound.answer_move (h : Sound s) {between : Pid → Bool}
    (hb : ∀ r, b = .answered r → (r = true ↔ between p = true))
    (hothers : ∀ q, q ≠ p → between q = s.between q) (q : Pid) (r : Bool)
    (hq : update s.phase p b q = .answered r) : r = true ↔ between q = true := by
  by_cases hqp : q = p
  · subst hqp
    rw [update_self] at hq
    exact hb r hq
  · rw [update_of_ne hqp] at hq
    rw [hothers q hqp]
    exact h.answer q r hq

/-- What `holdingsleep` computes. -/
theorem Owned.answer_iff (h : Owned s) (hp : (s.phase p).HasTaken = false) :
    (s.locked && decide (s.pid = p)) = true ↔ s.between p = true := by
  rw [Bool.and_eq_true, decide_eq_true_iff]
  constructor
  · rintro ⟨hlocked, rfl⟩
    refine (h.owned hlocked).resolve_right ?_
    rw [hp]
    exact Bool.false_ne_true
  · intro hbetween
    exact h.owner p (.inl hbetween)

theorem Sound.quiet (h : Sound s) (hquiet : Quiet (s.phase p) b)
    (hinner : Passes (s.phase p).HoldsInner b.HoldsInner p s.inner inner)
    (htable : Passes (s.phase p).HoldsTable b.HoldsTable (some p) s.table table) :
    Sound { s.setPhase p b with inner := inner, table := table } where
  inner := h.inner_move rfl hinner
  table := h.table_move rfl htable
  owned := h.owned.of_same rfl rfl rfl (flag_move Phase.HasTaken hquiet.taken)
  drowsy := h.drowsy_move hquiet.drowsy hquiet.owes
  answer := h.answer_move (fun r hr => absurd hr (hquiet.silent r)) fun _ _ => rfl

theorem Sound.doze (h : Sound s) (hp : s.phase p = .testing) (hlocked : s.locked = true) :
    Sound (s.setPhase p .dozing) where
  inner := h.inner_move hp rfl
  table := h.table_move hp rfl
  owned := h.owned.of_same rfl rfl rfl (flag_move Phase.HasTaken (by rw [hp]; rfl))
  drowsy _ _ := .inl hlocked
  answer := h.answer_move nofun fun _ _ => rfl

theorem Sound.take (h : Sound s) (hp : s.phase p = .testing) (hlocked : s.locked = false) :
    Sound { s.setPhase p .taken with locked := true, pid := p } where
  inner := h.inner_move hp rfl
  table := h.table_move hp rfl
  owned := by
    have hnone (q : Pid) : ¬ s.Owns q := fun hq => by
      rw [(h.owned.owner q hq).1] at hlocked
      cases hlocked
    have htaken (q : Pid) (hq : q ≠ p) : (update s.phase p .taken q).HasTaken = false := by
      rw [update_of_ne hq]
      exact Bool.eq_false_iff.mpr fun ht => hnone q (.inr ht)
    exact
      { owner := by
          rintro q (hq | hq)
          · exact absurd (.inl hq) (hnone q)
          · refine ⟨rfl, ?_⟩
            show p = q
            by_contra hne
            exact absurd ((htaken q (Ne.symm hne)).symm.trans hq) Bool.false_ne_true
        owned := fun _ => .inr (by simp [LockState.setPhase, Phase.HasTaken])
        apart := fun q _ => Bool.eq_false_iff.mpr fun hb => hnone q (.inl hb) }
  drowsy _ _ := .inl rfl
  answer := h.answer_move nofun fun _ _ => rfl

theorem Sound.enter (h : Sound s) (hp : s.phase p = .taken) :
    Sound { s.release p .outside with between := update s.between p true } where
  inner := h.inner_move hp rfl
  table := h.table_move hp rfl
  owned := h.owned.pass (.inr (by rw [hp]; rfl)) (.inl rfl) fun h => by cases h
  drowsy := h.drowsy_move nofun (by rw [hp]; rfl)
  answer := h.answer_move nofun fun q hq => update_of_ne hq _ _

theorem Sound.give (h : Sound s) (hp : s.phase p = .outside) (hbetween : s.between p = true) :
    Sound { s.setPhase p .returning with between := update s.between p false } where
  inner := h.inner_move hp rfl
  table := h.table_move hp rfl
  owned := h.owned.pass (.inl hbetween) (.inr rfl) fun _ => rfl
  drowsy := h.drowsy_move nofun (by rw [hp]; rfl)
  answer := h.answer_move nofun fun q hq => update_of_ne hq _ _

theorem Sound.clear (h : Sound s) (hp : s.phase p = .releasing) :
    Sound { s.setPhase p .waking with locked := false, pid := 0 } where
  inner := h.inner_move hp rfl
  table := h.table_move hp rfl
  owned := by
    have hown : s.Owns p := .inr (by rw [hp]; rfl)
    have hothers (q : Pid) (hq : q ≠ p) : ¬ s.Owns q := fun hq' =>
      hq ((h.owned.owner q hq').2.symm.trans (h.owned.owner p hown).2)
    have hbetween (q : Pid) : s.between q = false := by
      by_cases hqp : q = p
      · subst hqp
        exact h.owned.apart q (by rw [hp]; rfl)
      · exact Bool.eq_false_iff.mpr fun hb => hothers q hqp (.inl hb)
    have htaken (q : Pid) : (update s.phase p .waking q).HasTaken = false := by
      by_cases hqp : q = p
      · subst hqp
        rw [update_self]
        rfl
      · rw [update_of_ne hqp]
        exact Bool.eq_false_iff.mpr fun ht => hothers q hqp (.inr ht)
    exact
      { owner := by
          rintro q (hq | hq)
          · exact absurd ((hbetween q).symm.trans hq) Bool.false_ne_true
          · exact absurd ((htaken q).symm.trans hq) Bool.false_ne_true
        owned := nofun
        apart := fun q _ => hbetween q }
  drowsy _ _ := .inr ⟨p, by simp [LockState.setPhase, Phase.OwesWakeup]⟩
  answer := h.answer_move nofun fun _ _ => rfl

theorem Sound.tell (h : Sound s) (hp : s.phase p = .asking) :
    Sound (s.setPhase p (.answered (s.locked && decide (s.pid = p)))) where
  inner := h.inner_move hp rfl
  table := h.table_move hp rfl
  owned := h.owned.of_same rfl rfl rfl (flag_move Phase.HasTaken (by rw [hp]; rfl))
  drowsy := h.drowsy_move nofun (by rw [hp]; rfl)
  answer := by
    apply h.answer_move
    · intro r hr
      cases hr
      exact h.owned.answer_iff (by rw [hp]; rfl)
    · exact fun _ _ => rfl

/-- Nobody sleeps after `wakeup1`: a process on the way to sleep has one of the two
spin-locks, and the caller has both. -/
theorem Sound.not_drowsy_sweep (h : Sound s) (hp : s.phase p = .sweeping) (q : Pid) :
    ((s.wakeup1.setPhase p .swept).phase q).Drowsy = false := by
  by_cases hqp : q = p
  · subst hqp
    simp [LockState.setPhase, Phase.Drowsy]
  · simp only [LockState.setPhase, LockState.wakeup1, update_of_ne hqp]
    split
    next => rfl
    next hawake =>
      refine Bool.eq_false_iff.mpr fun hdrowsy => hawake ?_
      apply Phase.asleep_of_drowsy hdrowsy
      · exact Bool.eq_false_iff.mpr fun hq => hqp (h.unique_inner hq (by rw [hp]; rfl))
      · exact Bool.eq_false_iff.mpr fun hq => hqp (h.unique_table hq (by rw [hp]; rfl))

/-- `wakeup1` shows in no flag but that of the sleepers. -/
theorem flag_sweep (flag : Phase → Bool) (hsleep : flag .runnable = flag .asleep)
    (hp : flag .swept = flag (s.phase p)) (q : Pid) :
    flag ((s.wakeup1.setPhase p .swept).phase q) = flag (s.phase q) := by
  by_cases hqp : q = p
  · subst hqp
    simp only [LockState.setPhase, update_self, hp]
  · simp only [LockState.setPhase, LockState.wakeup1, update_of_ne hqp]
    split
    next hq => rw [hq, hsleep]
    next => rfl

theorem Sound.sweep (h : Sound s) (hp : s.phase p = .sweeping) :
    Sound (s.wakeup1.setPhase p .swept) where
  inner q := by
    rw [flag_sweep Phase.HoldsInner rfl (by rw [hp]; rfl) q]
    exact h.inner q
  table q := by
    rw [flag_sweep Phase.HoldsTable rfl (by rw [hp]; rfl) q]
    exact h.table q
  owned := h.owned.of_same rfl rfl rfl (flag_sweep Phase.HasTaken rfl (by rw [hp]; rfl))
  drowsy q hq := absurd ((h.not_drowsy_sweep hp q).symm.trans hq) Bool.false_ne_true
  answer q r hq := by
    apply h.answer q r
    by_cases hqp : q = p
    · subst hqp
      simp [LockState.setPhase] at hq
    · simp only [LockState.setPhase, LockState.wakeup1, update_of_ne hqp] at hq
      split at hq
      next => cases hq
      next => exact hq

theorem Sound.others (h : Sound s) (hold : ∀ p, s.table ≠ some (some p))
    (hnew : ∀ p, table ≠ some (some p)) :
    Sound { s with table := table } :=
  { h with
    table := fun p => ⟨fun hp => absurd ((h.table p).mp hp) (hold p), fun hp => absurd hp (hnew p)⟩
    owned := h.owned.of_same rfl rfl rfl fun _ => rfl }

theorem Sound.step (h : Sound s) {e : Event} (hstep : Step s e s') : Sound s' := by
  cases effect_of_step hstep with
  | quiet p b inner table hquiet hinner htable => exact h.quiet hquiet hinner htable
  | doze p hp hlocked => exact h.doze hp hlocked
  | take p hp hlocked => exact h.take hp hlocked
  | enter p hp => exact h.enter hp
  | give p hp hbetween => exact h.give hp hbetween
  | clear p hp => exact h.clear hp
  | sweep p hp => exact h.sweep hp
  | answer p hp => exact h.tell hp
  | others table hold hnew => exact h.others hold hnew

theorem sound_of_reachable (hreach : Reachable Step initsleeplock s) : Sound s := by
  apply hreach.invariant sound_initsleeplock
  intro s e s' _ hsound _ hstep
  exact hsound.step hstep

/-- A sleeper on a lock that is not taken leaves somebody inside `releasesleep`. -/
theorem Sound.not_sleeping (h : Sound s) (hlocked : s.locked = false) (hinner : s.inner = none)
    (p : Pid) : (s.phase p).Sleeping = false := by
  refine Bool.eq_false_iff.mpr fun hp => ?_
  rcases h.drowsy p (Phase.drowsy_of_sleeping hp) with htaken | ⟨q, howes⟩
  · rw [hlocked] at htaken
    cases htaken
  · have hq := (h.inner q).mp (Phase.holdsInner_of_owesWakeup howes)
    rw [hinner] at hq
    cases hq

/-- In every run at most one process is between the return of `acquiresleep` and its
call of `releasesleep`, `holdingsleep` answers true to that process and to no other,
and nobody sleeps on the lock while it is free and so are both spin-locks. -/
theorem sleeplock_excludes (hreach : Reachable Step initsleeplock s) :
    (∀ p q, s.between p = true → s.between q = true → p = q) ∧
      (∀ p r, s.phase p = .answered r → (r = true ↔ s.between p = true)) ∧
      (s.locked = false → s.inner = none → s.table = none →
        ∀ p, (s.phase p).Sleeping = false) := by
  have hsound := sound_of_reachable hreach
  refine ⟨?_, hsound.answer, ?_⟩
  · intro p q hp hq
    exact (hsound.owned.owner p (.inl hp)).2.symm.trans (hsound.owned.owner q (.inl hq)).2
  · intro hlocked hinner _
    exact hsound.not_sleeping hlocked hinner

end

/-- Process 1 has the lock and asks `holdingsleep`, process 2 sleeps on it. -/
theorem sleeplock_excludes_waiter :
    ∃ s : LockState, (s.phase 1 = .answered true ∧ s.phase 2 = .asleep) ∧
      ∀ q, s.between q = true → q = 1 := by
  have hrun : ∃ s, Reachable Step initsleeplock s ∧
      (s.phase 1 = .answered true ∧ s.phase 2 = .asleep) :=
    exists_reachableBy [.acquiresleep 1, .turn 1, .turn 1, .turn 1, .acquiresleep 2, .turn 2,
      .turn 2, .turn 2, .turn 2, .turn 2, .turn 2, .holdingsleep 1, .turn 1, .turn 1]
      (by decide +kernel)
  obtain ⟨s, hreach, hs⟩ := hrun
  have hexcl := sleeplock_excludes hreach
  have hbetween : s.between 1 = true := (hexcl.2.1 1 true hs.1).mp rfl
  exact ⟨s, hs, fun q hq => hexcl.1 q 1 hq hbetween⟩

end Xv6Threads.Sleeplock
