/-
# Slots as a map

A row of slots, each empty or holding a key and a value, read as a partial function from
keys to values. As long as no key stands in two slots, filling an empty slot with a new key
adds one binding and emptying a slot removes one.
-/

import Mathlib.Logic.Function.Basic
import Mathlib.Data.List.Basic

namespace Xv6Threads.Lib

open Function (update update_of_ne update_self)

universe u v

variable {κ : Type u} {ν : Type v}

/-- No key stands in two of the first `n` slots. -/
def DistinctKeys (n : ℕ) (e : ℕ → Option (κ × ν)) : Prop :=
  ∀ i < n, ∀ j < n, ∀ k v w, e i = some (k, v) → e j = some (k, w) → i = j

/-- The value in the first slot that holds the key. -/
def slotLookup [DecidableEq κ] (n : ℕ) (e : ℕ → Option (κ × ν)) (k : κ) : Option ν :=
  ((List.range n).findSome? fun i => (e i).filter fun x => decide (x.1 = k)).map Prod.snd

section

variable [DecidableEq κ] {n n' i : ℕ} {e e' : ℕ → Option (κ × ν)} {k : κ} {v : ν}

theorem slotLookup_eq_none :
    slotLookup n e k = none ↔ ∀ i < n, ∀ v, e i ≠ some (k, v) := by
  rw [slotLookup, Option.map_eq_none_iff, List.findSome?_eq_none_iff]
  simp only [List.mem_range]
  refine forall₂_congr fun i hi => ?_
  cases he : e i with
  | none => simp
  | some x =>
    obtain ⟨k', v'⟩ := x
    simp [Option.filter_some]

theorem slotLookup_eq_some (h : DistinctKeys n e) :
    slotLookup n e k = some v ↔ ∃ i < n, e i = some (k, v) := by
  constructor
  · intro hk
    rw [slotLookup, Option.map_eq_some_iff] at hk
    obtain ⟨x, hx, rfl⟩ := hk
    obtain ⟨i, hi, hfilter⟩ := List.exists_of_findSome?_eq_some hx
    rw [Option.filter_eq_some_iff] at hfilter
    obtain ⟨hslot, hkey⟩ := hfilter
    refine ⟨i, List.mem_range.mp hi, ?_⟩
    rw [hslot, ← of_decide_eq_true hkey]
  · rintro ⟨i, hi, hslot⟩
    cases hk : slotLookup n e k with
    | none => exact absurd hslot (slotLookup_eq_none.mp hk i hi v)
    | some w =>
      -- the slot found first is the only one
      rw [slotLookup, Option.map_eq_some_iff] at hk
      obtain ⟨x, hx, rfl⟩ := hk
      obtain ⟨j, hj, hfilter⟩ := List.exists_of_findSome?_eq_some hx
      rw [Option.filter_eq_some_iff] at hfilter
      obtain ⟨hslot', hkey⟩ := hfilter
      have hpair : e j = some (k, x.2) := by rw [hslot', ← of_decide_eq_true hkey]
      have hij := h j (List.mem_range.mp hj) i hi k x.2 v hpair hslot
      rw [hij, hslot, Option.some.injEq, Prod.mk.injEq] at hpair
      rw [hpair.2]

/-! ## Filling and emptying -/

/-- Slot `i`, the first one beyond the row or an empty one, is filled. -/
structure FillsSlot (n : ℕ) (e : ℕ → Option (κ × ν)) (i : ℕ) (k : κ) (v : ν) (n' : ℕ)
    (e' : ℕ → Option (κ × ν)) : Prop where
  empty : i < n → e i = none
  row : n' = max n (i + 1)
  bound : i ≤ n
  slot : e' i = some (k, v)
  others : ∀ j < n, j ≠ i → e' j = e j

omit [DecidableEq κ] in
theorem FillsSlot.exists_iff (f : FillsSlot n e i k v n' e') (k' : κ) (v' : ν) :
    (∃ j < n', e' j = some (k', v')) ↔ (k' = k ∧ v' = v) ∨ ∃ j < n, e j = some (k', v') := by
  have hrow := f.row
  have hbound := f.bound
  constructor
  · rintro ⟨j, hj, hslot⟩
    by_cases hji : j = i
    · rw [hji, f.slot, Option.some.injEq, Prod.mk.injEq] at hslot
      exact .inl ⟨hslot.1.symm, hslot.2.symm⟩
    · have hjn : j < n := by omega
      rw [f.others j hjn hji] at hslot
      exact .inr ⟨j, hjn, hslot⟩
  · rintro (⟨rfl, rfl⟩ | ⟨j, hj, hslot⟩)
    · exact ⟨i, by omega, f.slot⟩
    · have hji : j ≠ i := by
        rintro rfl
        rw [f.empty hj] at hslot
        cases hslot
      exact ⟨j, by omega, by rw [f.others j hj hji, hslot]⟩

theorem FillsSlot.distinct (f : FillsSlot n e i k v n' e') (h : DistinctKeys n e)
    (hnew : slotLookup n e k = none) : DistinctKeys n' e' := by
  have hrow := f.row
  have hbound := f.bound
  have hnone := slotLookup_eq_none.mp hnew
  intro a ha b hb k' v' w' hslot hslot'
  by_cases hai : a = i <;> by_cases hbi : b = i
  · rw [hai, hbi]
  · rw [hai, f.slot, Option.some.injEq, Prod.mk.injEq] at hslot
    rw [f.others b (by omega) hbi, ← hslot.1] at hslot'
    exact absurd hslot' (hnone b (by omega) w')
  · rw [hbi, f.slot, Option.some.injEq, Prod.mk.injEq] at hslot'
    rw [f.others a (by omega) hai, ← hslot'.1] at hslot
    exact absurd hslot (hnone a (by omega) v')
  · rw [f.others a (by omega) hai] at hslot
    rw [f.others b (by omega) hbi] at hslot'
    exact h a (by omega) b (by omega) k' v' w' hslot hslot'

theorem FillsSlot.lookup (f : FillsSlot n e i k v n' e') (h : DistinctKeys n e)
    (hnew : slotLookup n e k = none) :
    slotLookup n' e' = update (slotLookup n e) k (some v) := by
  funext k'
  apply Option.ext
  intro v'
  rw [slotLookup_eq_some (f.distinct h hnew), f.exists_iff]
  by_cases hk : k' = k
  · subst hk
    rw [update_self, Option.some.injEq]
    constructor
    · rintro (⟨-, rfl⟩ | ⟨j, hj, hslot⟩)
      · rfl
      · exact absurd hslot (slotLookup_eq_none.mp hnew j hj v')
    · rintro rfl
      exact .inl ⟨rfl, rfl⟩
  · rw [update_of_ne hk, slotLookup_eq_some h]
    simp [hk]

/-- Slot `i` is emptied. -/
structure EmptiesSlot (n : ℕ) (e : ℕ → Option (κ × ν)) (i : ℕ) (k : κ)
    (e' : ℕ → Option (κ × ν)) : Prop where
  lt : i < n
  holds : ∃ v, e i = some (k, v)
  slot : e' i = none
  others : ∀ j < n, j ≠ i → e' j = e j

omit [DecidableEq κ] in
theorem EmptiesSlot.distinct (f : EmptiesSlot n e i k e') (h : DistinctKeys n e) :
    DistinctKeys n e' := by
  have hne (a : ℕ) (k' : κ) (v' : ν) (hslot : e' a = some (k', v')) : a ≠ i := by
    rintro rfl
    rw [f.slot] at hslot
    cases hslot
  intro a ha b hb k' v' w' hslot hslot'
  have hai := hne a k' v' hslot
  have hbi := hne b k' w' hslot'
  rw [f.others a ha hai] at hslot
  rw [f.others b hb hbi] at hslot'
  exact h a ha b hb k' v' w' hslot hslot'

theorem EmptiesSlot.lookup (f : EmptiesSlot n e i k e') (h : DistinctKeys n e) :
    slotLookup n e' = update (slotLookup n e) k none := by
  obtain ⟨v, hholds⟩ := f.holds
  funext k'
  apply Option.ext
  intro v'
  rw [slotLookup_eq_some (f.distinct h)]
  by_cases hk : k' = k
  · subst hk
    rw [update_self]
    refine iff_of_false ?_ fun hnone => by cases hnone
    rintro ⟨j, hj, hslot⟩
    have hji : j ≠ i := by
      rintro rfl
      rw [f.slot] at hslot
      cases hslot
    rw [f.others j hj hji] at hslot
    exact hji (h j hj i f.lt k' v' v hslot hholds)
  · rw [update_of_ne hk, slotLookup_eq_some h]
    constructor
    · rintro ⟨j, hj, hslot⟩
      have hji : j ≠ i := by
        rintro rfl
        rw [f.slot] at hslot
        cases hslot
      exact ⟨j, hj, by rw [← f.others j hj hji, hslot]⟩
    · rintro ⟨j, hj, hslot⟩
      have hji : j ≠ i := by
        rintro rfl
        rw [hholds, Option.some.injEq, Prod.mk.injEq] at hslot
        exact hk hslot.1.symm
      exact ⟨j, hj, by rw [f.others j hj hji, hslot]⟩

end

end Xv6Threads.Lib
