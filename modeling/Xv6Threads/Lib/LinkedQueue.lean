/-
# Singly linked queues

A queue kept in `next` pointers of its elements, as a list. Elements are taken at the head,
which is a pointer of its own, and appended by walking to the end.
-/

import Mathlib.Data.List.Basic
import Mathlib.Data.List.Nodup
import Mathlib.Logic.Function.Basic

namespace Xv6Threads.Lib

variable {β : Type*}

/-- Following `next` from a pointer visits the list and ends. -/
def Chain (next : β → Option β) : Option β → List β → Prop
  | p, [] => p = none
  | p, b :: l => p = some b ∧ Chain next (next b) l

/-- The last element, found by walking at most `fuel` elements. -/
def chainEnd (next : β → Option β) : ℕ → β → Option β
  | 0, _ => none
  | fuel + 1, b =>
    match next b with
    | none => some b
    | some c => chainEnd next fuel c

section

variable {next next' : β → Option β} {p : Option β} {l : List β} {b c : β}

theorem Chain.eq_head? (h : Chain next p l) : p = l.head? := by
  cases l with
  | nil => exact h
  | cons a l => exact h.1

theorem Chain.congr (h : Chain next p l) (hsame : ∀ b ∈ l, next' b = next b) :
    Chain next' p l := by
  induction l generalizing p with
  | nil => exact h
  | cons a l ih =>
    refine ⟨h.1, ?_⟩
    rw [hsame a List.mem_cons_self]
    exact ih h.2 fun b hb => hsame b (List.mem_cons_of_mem _ hb)

theorem Chain.chainEnd_eq {fuel : ℕ} (h : Chain next (some b) l) (hfuel : l.length ≤ fuel) :
    chainEnd next fuel b = l.getLast? := by
  induction fuel generalizing b l with
  | zero =>
    cases l with
    | nil => cases h
    | cons a l => exact absurd hfuel (Nat.not_succ_le_zero _)
  | succ fuel ih =>
    cases l with
    | nil => cases h
    | cons a l =>
      obtain ⟨hab, hrest⟩ := h
      cases hab
      rw [chainEnd]
      cases hnext : next b with
      | none =>
        rw [hnext] at hrest
        cases l with
        | nil => rfl
        | cons a l => cases hrest.1
      | some c =>
        rw [hnext] at hrest
        have hlast := ih hrest (Nat.le_of_succ_le_succ hfuel)
        cases l with
        | nil => cases hrest
        | cons a l =>
          rw [List.getLast?_cons_cons]
          exact hlast

/-- The last element now points at a new one, which points nowhere. -/
theorem Chain.append [DecidableEq β] (h : Chain next p l) (hnodup : l.Nodup)
    (hlast : l.getLast? = some c) (hb : b ∉ l) (hend : next b = none) :
    Chain (Function.update next c (some b)) p (l ++ [b]) := by
  induction l generalizing p with
  | nil => cases hlast
  | cons a l ih =>
    have hbc : b ≠ c := by
      rintro rfl
      exact hb (List.mem_of_getLast? hlast)
    refine ⟨h.1, ?_⟩
    cases l with
    | nil =>
      have hac : a = c := by simpa using hlast
      rw [hac, Function.update_self]
      refine ⟨rfl, ?_⟩
      rw [Function.update_of_ne hbc]
      exact hend
    | cons a' l =>
      rw [List.getLast?_cons_cons] at hlast
      have hne : a ≠ c := by
        rintro rfl
        exact (List.nodup_cons.mp hnodup).1 (List.mem_of_getLast? hlast)
      rw [Function.update_of_ne hne]
      exact ih h.2 (List.nodup_cons.mp hnodup).2 hlast fun hmem =>
        hb (List.mem_cons_of_mem _ hmem)

end

end Xv6Threads.Lib
