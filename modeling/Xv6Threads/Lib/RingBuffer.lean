/-
# Ring buffers with free-running counters

A ring of `cap` cells is addressed by two counters that are never reduced: the
one counts what was taken out, the other what was put in, and a cell is found by
the remainder of a counter modulo `cap`. The counters are machine words and wrap.
The ring keeps working across the wrap because `cap` divides the number of words,
and full differs from empty because it is smaller than that.

The buffer stands for the list of elements put in and not yet taken out.
-/

import Mathlib.Algebra.GroupWithZero.Nat
import Mathlib.Data.BitVec
import Mathlib.Data.Fin.Basic
import Mathlib.Logic.Function.Basic

namespace Xv6Threads.Lib

variable {α : Type*} {cap w : ℕ}

/-- The cell a counter points at. -/
def ringSlot [NeZero cap] (c : BitVec w) : Fin cap :=
  ⟨c.toNat % cap, Nat.mod_lt _ (Nat.pos_of_ne_zero (NeZero.ne cap))⟩

/-- The ring holds the list, oldest element first. -/
structure RingHolds [NeZero cap] (data : Fin cap → α) (taken put : BitVec w) (xs : List α) :
    Prop where
  room : xs.length ≤ cap
  count : put = taken + BitVec.ofNat w xs.length
  cells : ∀ (i : ℕ) (h : i < xs.length), data (ringSlot (taken + BitVec.ofNat w i)) = xs[i]

section

variable [NeZero cap] {data : Fin cap → α} {taken put : BitVec w} {xs ys : List α} {x : α}

theorem ringHolds_nil (data : Fin cap → α) (c : BitVec w) : RingHolds data c c [] where
  room := Nat.zero_le _
  count := by simp
  cells i h := by simp at h

/-- Where a counter points after `i` more steps, wrapped or not. -/
theorem ringSlot_add (hdiv : cap ∣ 2 ^ w) (c : BitVec w) (i : ℕ) :
    (ringSlot (c + BitVec.ofNat w i) : Fin cap).val = (c.toNat + i) % cap := by
  simp only [ringSlot, BitVec.toNat_add, BitVec.toNat_ofNat, Nat.add_mod_mod]
  exact Nat.mod_mod_of_dvd _ hdiv

theorem ringSlot_add_ne (hdiv : cap ∣ 2 ^ w) (c : BitVec w) {i j : ℕ} (hij : i < j)
    (hj : j < i + cap) :
    (ringSlot (c + BitVec.ofNat w i) : Fin cap) ≠ ringSlot (c + BitVec.ofNat w j) := by
  intro h
  have hval := congrArg Fin.val h
  rw [ringSlot_add hdiv, ringSlot_add hdiv] at hval
  -- equal remainders differ by a multiple of the capacity, and `j - i` is not one
  have hdvd : cap ∣ c.toNat + j - (c.toNat + i) := (Nat.modEq_iff_dvd' (by omega)).mp hval
  have hle := Nat.le_of_dvd (by omega) hdvd
  omega

theorem RingHolds.distance (hlt : cap < 2 ^ w) (h : RingHolds data taken put xs) :
    (put - taken).toNat = xs.length := by
  have hlen := h.room
  rw [h.count, BitVec.add_comm, BitVec.add_sub_cancel, BitVec.toNat_ofNat]
  exact Nat.mod_eq_of_lt (by omega)

theorem RingHolds.empty_iff (hlt : cap < 2 ^ w) (h : RingHolds data taken put xs) :
    taken = put ↔ xs = [] := by
  constructor
  · rintro rfl
    have hdist := h.distance hlt
    rw [BitVec.sub_self] at hdist
    exact List.length_eq_zero_iff.mp hdist.symm
  · rintro rfl
    rw [h.count]
    simp

theorem RingHolds.full_iff (hlt : cap < 2 ^ w) (h : RingHolds data taken put xs) :
    put = taken + BitVec.ofNat w cap ↔ xs.length = cap := by
  constructor
  · intro hfull
    have hdist := h.distance hlt
    rw [hfull, BitVec.add_comm, BitVec.add_sub_cancel, BitVec.toNat_ofNat,
      Nat.mod_eq_of_lt hlt] at hdist
    exact hdist.symm
  · intro hlen
    rw [h.count, hlen]

/-- Putting an element into a ring that is not full. -/
theorem RingHolds.push (hdiv : cap ∣ 2 ^ w) (h : RingHolds data taken put xs)
    (hroom : xs.length < cap) (x : α) :
    RingHolds (Function.update data (ringSlot put) x) taken (put + 1) (xs ++ [x]) where
  room := by
    rw [List.length_append, List.length_singleton]
    exact hroom
  count := by
    rw [h.count, List.length_append, List.length_singleton, BitVec.add_assoc,
      BitVec.ofNat_add]
    rfl
  cells i hi := by
    rw [List.length_append, List.length_singleton] at hi
    rcases Nat.lt_succ_iff_lt_or_eq.mp hi with hold | rfl
    · have hne : (ringSlot (taken + BitVec.ofNat w i) : Fin cap) ≠
          ringSlot (taken + BitVec.ofNat w xs.length) :=
        ringSlot_add_ne hdiv taken hold (by omega)
      rw [h.count, Function.update_of_ne hne, h.cells i hold, List.getElem_append_left hold]
    · rw [h.count, Function.update_self]
      simp

/-- Taking the oldest element. -/
theorem RingHolds.pop (h : RingHolds data taken put (x :: xs)) :
    data (ringSlot taken) = x ∧ RingHolds data (taken + 1) put xs := by
  have hstep : ∀ i, taken + 1 + BitVec.ofNat w i = taken + BitVec.ofNat w (i + 1) := by
    intro i
    rw [BitVec.add_assoc, BitVec.add_comm 1, BitVec.ofNat_add]
    rfl
  constructor
  · have hfirst := h.cells 0 (Nat.zero_lt_succ _)
    rw [BitVec.add_zero] at hfirst
    exact hfirst
  · constructor
    case room => exact (Nat.le_succ _).trans h.room
    case count => rw [h.count, hstep, List.length_cons]
    case cells =>
      intro i hi
      rw [hstep]
      exact h.cells (i + 1) (Nat.succ_lt_succ hi)

/-- The first elements alone. -/
theorem RingHolds.left (h : RingHolds data taken put (xs ++ ys)) :
    RingHolds data taken (taken + BitVec.ofNat w xs.length) xs where
  room := by
    have hroom := h.room
    rw [List.length_append] at hroom
    omega
  count := rfl
  cells i hi := by
    have hlong : i < (xs ++ ys).length := by
      rw [List.length_append]
      omega
    rw [h.cells i hlong, List.getElem_append_left hi]

/-- The elements after them. -/
theorem RingHolds.right (h : RingHolds data taken put (xs ++ ys)) :
    RingHolds data (taken + BitVec.ofNat w xs.length) put ys where
  room := by
    have hroom := h.room
    rw [List.length_append] at hroom
    omega
  count := by rw [h.count, List.length_append, BitVec.ofNat_add, BitVec.add_assoc]
  cells i hi := by
    have hlong : xs.length + i < (xs ++ ys).length := by
      rw [List.length_append]
      omega
    rw [BitVec.add_assoc, ← BitVec.ofNat_add, h.cells _ hlong,
      List.getElem_append_right (Nat.le_add_right ..)]
    congr 1
    omega

/-- Taking back the element put in last. -/
theorem RingHolds.unpush (h : RingHolds data taken put (xs ++ [x])) :
    RingHolds data taken (put - 1) xs := by
  have hone : BitVec.ofNat w 1 = 1 := rfl
  rw [h.count, List.length_append, List.length_singleton, BitVec.ofNat_add, hone,
    ← BitVec.add_assoc, BitVec.add_sub_cancel]
  exact h.left

/-- The cells from one counter up to another. -/
def ringBetween (data : Fin cap → α) (a b : BitVec w) : List α :=
  (List.range (b - a).toNat).map fun i => data (ringSlot (a + BitVec.ofNat w i))

theorem RingHolds.between (hlt : cap < 2 ^ w) (h : RingHolds data taken put xs) :
    ringBetween data taken put = xs := by
  rw [ringBetween, h.distance hlt]
  apply List.ext_getElem
  · simp
  · intro i _ hi
    rw [List.getElem_map, List.getElem_range, h.cells i hi]

end

end Xv6Threads.Lib
