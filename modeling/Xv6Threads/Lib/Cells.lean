/-
# Functions that differ at one point

Rules for a table, given as a function, of which one entry has changed.
-/

import Mathlib.Logic.Basic

namespace Xv6Threads.Lib

variable {α β : Type*} {a : α} {f f' : α → Option β}

theorem forall_of_ne {Q : α → Prop} (ha : Q a) (hne : ∀ b, b ≠ a → Q b) (b : α) : Q b := by
  by_cases hb : b = a
  · rwa [hb]
  · exact hne b hb

/-- No two points have one value, when the one that has changed has none of another. -/
theorem unique_of_ne (hf : ∀ b c x, f b = some x → f c = some x → b = c)
    (hne : ∀ b, b ≠ a → f' b = f b) (ha : ∀ x, f' a = some x → ∀ b, b ≠ a → f b ≠ some x)
    (b c : α) (x : β) (hb : f' b = some x) (hc : f' c = some x) : b = c := by
  by_cases hba : b = a <;> by_cases hca : c = a
  · rw [hba, hca]
  · rw [hne c hca] at hc
    exact absurd hc (ha x (hba ▸ hb) c hca)
  · rw [hne b hba] at hb
    exact absurd hb (ha x (hca ▸ hc) b hba)
  · rw [hne b hba] at hb
    rw [hne c hca] at hc
    exact hf b c x hb hc

end Xv6Threads.Lib
