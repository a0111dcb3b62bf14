/-
# Commands that may stop

A command reads and changes a state, and returns a value or stops with a fault. The
judgment `Ends` says what holds when a command returns and which faults it may stop
with; the faults are a parameter of a whole argument, so they come first and a rule
passes them through unchanged. The rules follow the shape of a command: one for each
way to build it.
-/

import Mathlib.Logic.Basic

namespace Xv6Threads.Lib

universe u

/-- A command over states `σ` that can stop with a fault in `ε`. -/
def Command (σ ε : Type u) (α : Type u) : Type u := σ → Except ε (α × σ)

variable {σ ε α β : Type u}

namespace Command

instance : Monad (Command σ ε) where
  pure a := fun s => .ok (a, s)
  bind m f := fun s =>
    match m s with
    | .ok (a, s') => f a s'
    | .error e => .error e

/-- Look at the state. -/
def read (f : σ → α) : Command σ ε α := fun s => .ok (f s, s)

def modify (f : σ → σ) : Command σ ε PUnit := fun s => .ok (⟨⟩, f s)

def fail (e : ε) : Command σ ε α := fun _ => .error e

/-- Stop with `e` unless `p` holds of the state. -/
def check (p : σ → Prop) [DecidablePred p] (e : ε) : Command σ ε PUnit :=
  fun s => if p s then .ok (⟨⟩, s) else .error e

/-- Run a command on a part of a larger state. -/
def zoom {τ : Type u} (get : τ → σ) (set : σ → τ → τ) (m : Command σ ε α) : Command τ ε α :=
  fun t =>
    match m (get t) with
    | .ok (a, s) => .ok (a, set s t)
    | .error e => .error e

end Command

open Command

/-- The command ends with a value and state in `Q`, or stops with a fault in `E`. -/
def Ends (E : ε → Prop) (m : Command σ ε α) (s : σ) (Q : α → σ → Prop) : Prop :=
  match m s with
  | .ok (a, s') => Q a s'
  | .error e => E e

section

variable {E : ε → Prop} {m : Command σ ε α} {f : α → Command σ ε β} {s s' : σ}
variable {Q R : α → σ → Prop} {a : α} {e : ε}
variable {p : σ → Prop} {τ : Type u} {get : τ → σ} {set : σ → τ → τ} {t : τ}

theorem ends_iff : Ends E m s Q ↔
    (∀ a s', m s = .ok (a, s') → Q a s') ∧ ∀ e, m s = .error e → E e := by
  unfold Ends
  cases hm : m s with
  | ok r =>
    obtain ⟨a, s'⟩ := r
    simp
  | error e => simp

theorem Ends.ok (h : Ends E m s Q) (hm : m s = .ok (a, s')) : Q a s' := (ends_iff.mp h).1 a s' hm

theorem Ends.error (h : Ends E m s Q) (hm : m s = .error e) : E e := (ends_iff.mp h).2 e hm

theorem Ends.of_ok (hm : m s = .ok (a, s')) (h : Q a s') : Ends E m s Q := by
  rw [ends_iff, hm]
  refine ⟨fun b t heq => ?_, fun e heq => ?_⟩ <;> cases heq
  exact h

theorem Ends.of_error (hm : m s = .error e) (h : E e) : Ends E m s Q := by
  rw [ends_iff, hm]
  refine ⟨fun b t heq => ?_, fun e' heq => ?_⟩ <;> cases heq
  exact h

theorem Ends.mono (h : Ends E m s R) (himp : ∀ a s', R a s' → Q a s') : Ends E m s Q := by
  rw [ends_iff] at h ⊢
  exact ⟨fun a s' hm => himp a s' (h.1 a s' hm), h.2⟩

/-- Some faults are excluded, or more are allowed. -/
theorem Ends.weaken {F : ε → Prop} (h : Ends E m s Q) (himp : ∀ e, E e → F e) : Ends F m s Q := by
  rw [ends_iff] at h ⊢
  exact ⟨h.1, fun e hm => himp e (h.2 e hm)⟩

/-- The same with the faults of the second. -/
theorem Ends.also {F : ε → Prop} (h : Ends E m s R) (h' : Ends F m s Q) :
    Ends F m s fun a s' => R a s' ∧ Q a s' := by
  rw [ends_iff] at h h' ⊢
  exact ⟨fun a s' hm => ⟨h.1 a s' hm, h'.1 a s' hm⟩, h'.2⟩

theorem Ends.bind {Q : β → σ → Prop} (h : Ends E m s R)
    (hrest : ∀ a s', R a s' → Ends E (f a) s' Q) : Ends E (m >>= f) s Q := by
  unfold Ends at h ⊢
  show match (match m s with | .ok (a, s') => f a s' | .error e => .error e) with
    | .ok (b, s') => Q b s'
    | .error e => E e
  cases hm : m s with
  | ok r =>
    rw [hm] at h
    exact hrest r.1 r.2 h
  | error e =>
    rw [hm] at h
    exact h

/-- For a first command whose rule holds for any postcondition. -/
theorem Ends.seq {Q : β → σ → Prop} (h : Ends E m s fun a s' => Ends E (f a) s' Q) :
    Ends E (m >>= f) s Q := h.bind fun _ _ hrest => hrest

theorem Ends.pure (h : Q a s) : Ends E (Pure.pure a) s Q := h

theorem Ends.read {g : σ → α} (h : Q (g s) s) : Ends E (Command.read g) s Q := h

theorem Ends.modify {g : σ → σ} {Q : PUnit → σ → Prop} (h : Q ⟨⟩ (g s)) :
    Ends E (Command.modify g) s Q := h

theorem Ends.fail (h : E e) : Ends E (Command.fail e) s Q := h

theorem Ends.check [DecidablePred p] {Q : PUnit → σ → Prop} (hpass : p s → Q ⟨⟩ s)
    (hfail : ¬p s → E e) : Ends E (Command.check p e) s Q := by
  unfold Ends Command.check
  by_cases h : p s
  · rw [if_pos h]
    exact hpass h
  · rw [if_neg h]
    exact hfail h

theorem Ends.zoom {Q : α → τ → Prop} (h : Ends E m (get t) fun a s => Q a (set s t)) :
    Ends E (m.zoom get set) t Q := by
  unfold Ends Command.zoom
  cases hm : m (get t) with
  | ok r =>
    exact h.ok hm
  | error e => exact h.error hm

/-! The same three at the head of a sequence. -/

theorem Ends.read_bind {g : σ → α} {Q : β → σ → Prop} (h : Ends E (f (g s)) s Q) :
    Ends E (Command.read g >>= f) s Q := h

theorem Ends.modify_bind {g : σ → σ} {f : PUnit → Command σ ε β} {Q : β → σ → Prop}
    (h : Ends E (f ⟨⟩) (g s) Q) : Ends E (Command.modify g >>= f) s Q := h

theorem Ends.check_bind [DecidablePred p] {f : PUnit → Command σ ε β} {Q : β → σ → Prop}
    (hpass : p s → Ends E (f ⟨⟩) s Q) (hfail : ¬p s → E e) :
    Ends E (Command.check p e >>= f) s Q := by
  apply Ends.bind (R := fun _ s' => p s ∧ s = s')
  · exact Ends.check (fun h => ⟨h, rfl⟩) hfail
  · rintro _ _ ⟨h, rfl⟩
    exact hpass h

/-- A loop over a list that leaves the state alone and goes on past `x` only if `P x`. -/
theorem Ends.scan {ι : Type*} (loop : List ι → Command σ ε α) {P : ι → Prop} {l : List ι}
    (hnil : (∀ x ∈ l, P x) → Ends E (loop []) s Q)
    (hcons : ∀ x xs, x ∈ l → (P x → Ends E (loop xs) s Q) → Ends E (loop (x :: xs)) s Q) :
    Ends E (loop l) s Q := by
  induction l with
  | nil => exact hnil fun x hx => by cases hx
  | cons x xs ih =>
    apply hcons x xs List.mem_cons_self
    intro hx
    apply ih
    · exact fun hall => hnil (List.forall_mem_cons.mpr ⟨hx, hall⟩)
    · exact fun y ys hy => hcons y ys (List.mem_cons_of_mem _ hy)

/-- A command that stops with no fault returns. -/
theorem Ends.returns (h : Ends (fun _ => False) m s Q) : ∃ a s', m s = .ok (a, s') ∧ Q a s' := by
  cases hm : m s with
  | ok r => exact ⟨r.1, r.2, rfl, h.ok hm⟩
  | error e => exact absurd (h.error hm) id

theorem Ends.stops (h : Ends E m s fun _ _ => False) : ∃ e, m s = .error e ∧ E e := by
  cases hm : m s with
  | ok r => exact absurd (h.ok hm) id
  | error e => exact ⟨e, rfl, h.error hm⟩

theorem bind_ok (hm : m s = .ok (a, s')) : (m >>= f) s = f a s' := by
  show (match m s with | .ok (a, s') => f a s' | .error e => .error e) = _
  rw [hm]

theorem zoom_ok (hm : m (get t) = .ok (a, s)) : m.zoom get set t = .ok (a, set s t) := by
  rw [Command.zoom, hm]

theorem zoom_error (hm : m (get t) = .error e) : m.zoom get set t = .error e := by
  rw [Command.zoom, hm]

theorem bind_error (hm : m s = .error e) : (m >>= f) s = .error e := by
  show (match m s with | .ok (a, s') => f a s' | .error e => .error e) = _
  rw [hm]

theorem check_ok [DecidablePred p] (h : p s) : Command.check p e s = .ok (⟨⟩, s) := if_pos h

theorem check_error [DecidablePred p] (h : ¬p s) : Command.check p e s = .error e := if_neg h

private theorem id_map_command (m : Command σ ε α) : id <$> m = m := by
  funext s
  show (m >>= fun a => Pure.pure (id a)) s = m s
  cases hm : m s with
  | ok r =>
    rw [bind_ok hm]
    rfl
  | error e => rw [bind_error hm]

private theorem bind_bind_command {γ : Type u} (m : Command σ ε α) (f : α → Command σ ε β)
    (g : β → Command σ ε γ) : m >>= f >>= g = m >>= fun a => f a >>= g := by
  funext s
  cases hm : m s with
  | ok r =>
    rw [bind_ok hm]
    show (match (m >>= f) s with | .ok (b, s') => g b s' | .error e => .error e) = _
    rw [bind_ok hm]
    rfl
  | error e => rw [bind_error hm, bind_error (bind_error hm)]

instance : LawfulMonad (Command σ ε) :=
  LawfulMonad.mk' _ id_map_command (fun _ _ => rfl) bind_bind_command

end

-- from here on the rules are all that is known of it: a unifier that looks inside would run
-- the command
attribute [irreducible] Ends

end Xv6Threads.Lib
