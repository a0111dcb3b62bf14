/-
# Entries and addresses as numbers

What the bit operations of `mmu.h` mean for the numbers the words stand for: a present
entry is odd, its frame is its quotient by the page size and its flags are the
remainder.
-/

import Mathlib.Data.Nat.Bitwise
import Xv6Threads.Vm.Paging

namespace Xv6Threads.Vm

open Lib

variable {w perm : Word} {f : ℕ}
variable {i k : ℕ}

/-! ## Bits -/

private theorem getLsbD_low_mask (hi : i < 32) : (0xFFF#32).getLsbD i = decide (i < 12) := by
  have hmask : 0xFFF#32 = BitVec.ofNat 32 (2 ^ 12 - 1) := rfl
  rw [hmask, BitVec.getLsbD_ofNat, Nat.testBit_two_pow_sub_one, decide_eq_true hi, Bool.true_and]

/-- The low `n` bits of a word are cleared. -/
theorem toNat_clear (w : Word) (n : ℕ) :
    (w &&& ~~~BitVec.ofNat 32 (2 ^ n - 1)).toNat = w.toNat / 2 ^ n * 2 ^ n := by
  have hshift : w &&& ~~~BitVec.ofNat 32 (2 ^ n - 1) = (w >>> n) <<< n := by
    apply BitVec.eq_of_getLsbD_eq
    intro i hi
    simp only [BitVec.getLsbD_and, BitVec.getLsbD_not, BitVec.getLsbD_shiftLeft,
      BitVec.getLsbD_ushiftRight, BitVec.getLsbD_ofNat, Nat.testBit_two_pow_sub_one, hi,
      decide_true, Bool.true_and]
    by_cases hlow : i < n
    · simp [hlow]
    · have hback : n + (i - n) = i := by omega
      simp [hlow, hback]
  rw [hshift, BitVec.toNat_shiftLeft, BitVec.toNat_ushiftRight, Nat.shiftRight_eq_div_pow,
    Nat.shiftLeft_eq]
  exact Nat.mod_eq_of_lt (lt_of_le_of_lt (Nat.div_mul_le_self _ _) w.isLt)

theorem toNat_clear_low (w : Word) : (w &&& ~~~0xFFF#32).toNat = w.toNat / 4096 * 4096 :=
  toNat_clear w 12

theorem toNat_pteFlags (w : Word) : (pteFlags w).toNat = w.toNat % 4096 := by
  rw [pteFlags, BitVec.toNat_and]
  exact Nat.and_two_pow_sub_one_eq_mod w.toNat 12

/-- A single bit of a word, tested the way C does. -/
private theorem and_bit_ne_zero (w : Word) (hi : i < 32) :
    (w &&& BitVec.twoPow 32 i != 0) = w.getLsbD i := by
  rw [BitVec.and_twoPow]
  cases hbit : w.getLsbD i with
  | false => simp
  | true =>
    have hne : BitVec.twoPow 32 i ≠ 0 := by
      intro hzero
      have hset := congrArg (fun v : Word => v.getLsbD i) hzero
      simp [hi] at hset
    rw [if_pos rfl, bne_iff_ne]
    exact hne

theorem present_eq (w : Word) : present w = w.getLsbD 0 :=
  and_bit_ne_zero w (i := 0) (by decide)

theorem user_eq (w : Word) : user w = w.getLsbD 2 := and_bit_ne_zero w (i := 2) (by decide)

@[simp]
theorem present_zero : present 0#32 = false := rfl

theorem present_or (w v : Word) : present (w ||| v) = (present w || present v) := by
  rw [present_eq, present_eq, present_eq, BitVec.getLsbD_or]

theorem user_or (w v : Word) : user (w ||| v) = (user w || user v) := by
  rw [user_eq, user_eq, user_eq, BitVec.getLsbD_or]

@[simp]
theorem present_or_P (w : Word) : present (w ||| PTE_P) = true := by
  rw [present_or]
  exact Bool.or_true _

/-- The frame an entry refers to. -/
def frame (pte : Word) : ℕ := frameOf (pteAddr pte)

theorem frame_eq (w : Word) : frame w = w.toNat / 4096 := by
  rw [frame, frameOf, pteAddr, toNat_clear_low]
  exact Nat.mul_div_cancel _ (by decide)

/-- The words that fit in the flags of an entry. -/
def IsFlags (perm : Word) : Prop := perm.toNat < 4096

instance : DecidablePred IsFlags := fun w => inferInstanceAs (Decidable (w.toNat < 4096))

theorem isFlags_pteFlags (w : Word) : IsFlags (pteFlags w) := by
  rw [IsFlags, toNat_pteFlags]
  omega

theorem toNat_entry (hf : f < 2 ^ 20) (hperm : IsFlags perm) :
    (addrOf f ||| perm).toNat = f * 4096 + perm.toNat := by
  have haddr : (addrOf f).toNat = 2 ^ 12 * f := by
    rw [addrOf, BitVec.toNat_ofNat]
    show f * 4096 % 2 ^ 32 = 2 ^ 12 * f
    omega
  rw [BitVec.toNat_or, haddr, ← Nat.two_pow_add_eq_or_of_lt hperm]
  omega

theorem IsFlags.or_present (h : IsFlags perm) : IsFlags (perm ||| PTE_P) := by
  rw [IsFlags, BitVec.toNat_or]
  exact Nat.or_lt_two_pow (n := 12) h (by decide)

theorem frame_entry (hf : f < 2 ^ 20) (hperm : IsFlags perm) : frame (addrOf f ||| perm) = f := by
  rw [IsFlags] at hperm
  rw [frame_eq, toNat_entry hf hperm]
  omega

theorem pteFlags_entry (hf : f < 2 ^ 20) (hperm : IsFlags perm) :
    pteFlags (addrOf f ||| perm) = perm := by
  apply BitVec.eq_of_toNat_eq
  rw [IsFlags] at hperm
  rw [toNat_pteFlags, toNat_entry hf hperm]
  omega

/-- Whether a bit below the frame is set can be read off the flags. -/
theorem getLsbD_pteFlags (w : Word) (hi : i < 12) : (pteFlags w).getLsbD i = w.getLsbD i := by
  rw [pteFlags, BitVec.getLsbD_and, getLsbD_low_mask (by omega)]
  simp [hi]

theorem pteFlags_or_present (h : present w = true) : pteFlags w ||| PTE_P = pteFlags w := by
  apply BitVec.eq_of_getLsbD_eq
  intro i hi
  rw [BitVec.getLsbD_or]
  by_cases hzero : i = 0
  · subst hzero
    rw [getLsbD_pteFlags w (by decide), ← present_eq, h, Bool.true_or]
  · have hbit : (PTE_P).getLsbD i = false := by
      show (BitVec.twoPow 32 0).getLsbD i = false
      simp [BitVec.getLsbD_twoPow, Ne.symm hzero]
    rw [hbit, Bool.or_false]

/-! ## Addresses -/

/-- The address where page `k` starts. -/
def pageAddr (k : ℕ) : Word := BitVec.ofNat 32 (k * PGSIZE)

theorem toNat_pageAddr (hk : k < 2 ^ 20) : (pageAddr k).toNat = k * 4096 := by
  rw [pageAddr, BitVec.toNat_ofNat]
  show k * 4096 % 2 ^ 32 = k * 4096
  omega

theorem pageAddr_succ (k : ℕ) : pageAddr k + BitVec.ofNat 32 PGSIZE = pageAddr (k + 1) := by
  rw [pageAddr, pageAddr, ← BitVec.ofNat_add, Nat.succ_mul]

theorem PDX_pageAddr (hk : k < 2 ^ 20) : PDX (pageAddr k) = k / 1024 := by
  rw [PDX, toNat_pageAddr hk]
  omega

theorem PTX_pageAddr (hk : k < 2 ^ 20) : PTX (pageAddr k) = k % 1024 := by
  rw [PTX, toNat_pageAddr hk]
  omega

theorem pgrounddown_eq (a : Word) : pgrounddown a = pageAddr (a.toNat / 4096) := by
  have ha := a.isLt
  apply BitVec.eq_of_toNat_eq
  rw [pgrounddown, toNat_clear_low, toNat_pageAddr (by omega)]

theorem pgroundup_eq {sz : Word} (hsz : sz.toNat ≤ KERNBASE) :
    pgroundup sz = pageAddr ((sz.toNat + 4095) / 4096) := by
  have hsum : (sz + BitVec.ofNat 32 PGSIZE - 1).toNat = sz.toNat + 4095 := by
    rw [BitVec.toNat_sub, BitVec.toNat_add, BitVec.toNat_ofNat]
    show (2 ^ 32 - 1 + (sz.toNat + 4096 % 2 ^ 32) % 2 ^ 32) % 2 ^ 32 = sz.toNat + 4095
    change sz.toNat ≤ 0x80000000 at hsz
    omega
  apply BitVec.eq_of_toNat_eq
  rw [pgroundup, toNat_clear_low, hsum, toNat_pageAddr]
  change sz.toNat ≤ 0x80000000 at hsz
  omega

theorem pgaddr_eq (d : ℕ) : pgaddr d = pageAddr (d * 1024) := by
  have hpages : 2 ^ 22 = 1024 * PGSIZE := by decide
  rw [pgaddr, pageAddr, Nat.mul_assoc, hpages]

end Xv6Threads.Vm
