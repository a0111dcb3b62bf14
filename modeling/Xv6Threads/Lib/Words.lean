/-
# Little-endian words in byte memory

A memory is a function from addresses to bytes. A 32-bit word takes four of them, the
lowest byte first; its address need not be a multiple of four.
-/

import Mathlib.Data.BitVec

namespace Xv6Threads.Lib

/-- Byte `k` of a word. -/
def byteOf (w : BitVec 32) (k : ℕ) : BitVec 8 := w.extractLsb' (8 * k) 8

/-- The word at address `a`. -/
def wordAt (m : ℕ → BitVec 8) (a : ℕ) : BitVec 32 :=
  m (a + 3) ++ m (a + 2) ++ m (a + 1) ++ m a

/-- The memory after the word `w` is stored at address `a`. -/
def putWord (m : ℕ → BitVec 8) (a : ℕ) (w : BitVec 32) : ℕ → BitVec 8 :=
  fun o => if a ≤ o ∧ o < a + 4 then byteOf w (o - a) else m o

variable {m m' : ℕ → BitVec 8} {a b : ℕ} {w : BitVec 32}

theorem wordAt_congr (h : ∀ k < 4, m' (a + k) = m (a + k)) : wordAt m' a = wordAt m a := by
  have h0 : m' a = m a := h 0 (by decide)
  rw [wordAt, wordAt, h 3 (by decide), h 2 (by decide), h 1 (by decide), h0]

theorem wordAt_of_bytes (h : ∀ k < 4, m (a + k) = byteOf w k) : wordAt m a = w := by
  have h0 : m a = byteOf w 0 := h 0 (by decide)
  rw [wordAt, h 3 (by decide), h 2 (by decide), h 1 (by decide), h0]
  ext i hi
  simp only [byteOf, BitVec.getElem_append, BitVec.getElem_extractLsb']
  have hbit (n : ℕ) (hn : n = i) : w.getLsbD n = w[i] := by
    rw [hn, BitVec.getLsbD_eq_getElem]
  split
  next => exact hbit _ (by omega)
  next =>
    split
    next => exact hbit _ (by omega)
    next => split <;> exact hbit _ (by omega)

@[simp]
theorem wordAt_zero (a : ℕ) : wordAt (fun _ => 0#8) a = 0#32 := by
  simp [wordAt]

theorem putWord_apply_add {k : ℕ} (hk : k < 4) : putWord m a w (a + k) = byteOf w k := by
  rw [putWord, if_pos (by omega), Nat.add_sub_cancel_left]

theorem putWord_of_outside {o : ℕ} (h : o < a ∨ a + 4 ≤ o) : putWord m a w o = m o := by
  rw [putWord, if_neg (by omega)]

@[simp]
theorem wordAt_putWord (m : ℕ → BitVec 8) (a : ℕ) (w : BitVec 32) :
    wordAt (putWord m a w) a = w :=
  wordAt_of_bytes fun _ hk => putWord_apply_add hk

theorem wordAt_putWord_of_disjoint (h : b + 4 ≤ a ∨ a + 4 ≤ b) :
    wordAt (putWord m a w) b = wordAt m b := by
  apply wordAt_congr
  intro k hk
  exact putWord_of_outside (by omega)

end Xv6Threads.Lib
