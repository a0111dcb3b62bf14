/-
# Commands with a ghost

A command over a state and a ghost value can be read as a command over the state alone if
the ghost never decides anything. The relation `Erases` says so; its rules follow the shape
of a command, so a command that was annotated with a ghost is compared with the original
one constructor at a time.
-/

import Xv6Threads.Lib.Command

namespace Xv6Threads.Lib

universe u

variable {σ γ ε α β : Type u}

namespace Command

/-- Run a command and leave the ghost alone. -/
def beside (m : Command σ ε α) : Command (σ × γ) ε α := m.zoom Prod.fst fun s t => (s, t.2)

/-- Change the ghost only. -/
def note (f : γ → γ) : Command (σ × γ) ε PUnit := modify fun t => (t.1, f t.2)

end Command

open Command

/-- Without the ghost, `m'` is `m`. -/
structure Erases (m' : Command (σ × γ) ε α) (m : Command σ ε α) : Prop where
  eq : ∀ t, (m' t).map (fun r => (r.1, r.2.1)) = m t.1

section

variable {m' : Command (σ × γ) ε α} {m : Command σ ε α}

theorem Erases.pure (a : α) : Erases (Pure.pure a : Command (σ × γ) ε α) (Pure.pure a) :=
  ⟨fun _ => rfl⟩

theorem Erases.beside (m : Command σ ε α) : Erases (m.beside : Command (σ × γ) ε α) m := by
  refine ⟨fun t => ?_⟩
  cases hm : m t.1 with
  | ok r =>
    rw [Command.beside, zoom_ok hm]
    rfl
  | error e =>
    rw [Command.beside, zoom_error hm]
    rfl

theorem Erases.bind {f' : α → Command (σ × γ) ε β} {f : α → Command σ ε β} (h : Erases m' m)
    (hrest : ∀ a, Erases (f' a) (f a)) : Erases (m' >>= f') (m >>= f) := by
  refine ⟨fun t => ?_⟩
  have hfirst := h.eq t
  cases hm : m' t with
  | ok r =>
    rw [hm] at hfirst
    rw [bind_ok hm, bind_ok hfirst.symm]
    exact (hrest r.1).eq r.2
  | error e =>
    rw [hm] at hfirst
    rw [bind_error hm, bind_error hfirst.symm]
    rfl

/-- A note after a command that returns nothing. -/
theorem Erases.note {m' : Command (σ × γ) ε PUnit} {m : Command σ ε PUnit} (h : Erases m' m)
    (f : γ → γ) : Erases (m' >>= fun _ => Command.note f) m := by
  refine ⟨fun t => ?_⟩
  have hfirst := h.eq t
  cases hm : m' t with
  | ok r =>
    rw [hm] at hfirst
    rw [bind_ok hm, ← hfirst]
    rfl
  | error e =>
    rw [hm] at hfirst
    rw [bind_error hm, ← hfirst]

theorem Erases.ite {p : Prop} [Decidable p] {n' : Command (σ × γ) ε α} {n : Command σ ε α}
    (h : p → Erases m' m) (h' : ¬p → Erases n' n) :
    Erases (if p then m' else n') (if p then m else n) := by
  by_cases hp : p
  · rw [if_pos hp, if_pos hp]
    exact h hp
  · rw [if_neg hp, if_neg hp]
    exact h' hp

/-- What is proved of the annotated command holds of the original. -/
theorem Erases.ends {E : ε → Prop} {s : σ} {Q : α → σ → Prop} (h : Erases m' m) (g : γ)
    (hends : Ends E m' (s, g) fun a t => Q a t.1) : Ends E m s Q := by
  have heq := h.eq (s, g)
  cases hm : m' (s, g) with
  | ok r =>
    rw [hm] at heq
    exact Ends.of_ok heq.symm (hends.ok hm)
  | error e =>
    rw [hm] at heq
    exact Ends.of_error heq.symm (hends.error hm)

theorem Ends.beside {E : ε → Prop} {t : σ × γ} {Q : α → σ × γ → Prop}
    (h : Ends E m t.1 fun a s => Q a (s, t.2)) : Ends E m.beside t Q := Ends.zoom h

theorem Ends.beside_bind {E : ε → Prop} {f : α → Command (σ × γ) ε β} {t : σ × γ}
    {Q : β → σ × γ → Prop} (h : Ends E m t.1 fun a s => Ends E (f a) (s, t.2) Q) :
    Ends E (m.beside >>= f) t Q := Ends.seq (Ends.beside h)

end

end Xv6Threads.Lib
