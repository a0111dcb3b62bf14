/-
# Enough free blocks

`writei` panics in `balloc` when the disk is full. This module says exactly how many free
blocks a write needs: one for each place of the inode that the bytes lie in and that holds
no block yet. While a write fills places, the free blocks and the empty places go down
together.

The rule for the loop is the one about the annotated functions; the block numbers passed
to `log_write` do not matter here.
-/

import Xv6Threads.Fs.Chunks
import Xv6Threads.Fs.Files

namespace Xv6Threads.Fs

open Lib Command
open Xv6Threads.Log (Block getWord setWord)

section

variable {L : Layout} {T : Finset Place} {d : Image} {x : Dinode} {off n : ℕ}

/-- The part of a file without holes that lies within its size has all its places. -/
theorem Dinode.Solid.missing_eq_zero (h : x.Solid d) (hfit : off + n ≤ x.size.toNat) :
    x.missing d (places off n) = 0 := by
  rw [Dinode.missing, Finset.card_eq_zero, Finset.filter_eq_empty_iff]
  intro r hr
  cases r with
  | data k =>
    obtain ⟨hpos, -, hlast⟩ := data_mem_places.mp hr
    have hlt : k.val * BSIZE < x.size.toNat := by
      have := (Nat.le_div_iff_mul_le (by decide : 0 < BSIZE)).mp hlast
      omega
    have hblock := h _ hlt
    rwa [Nat.mul_div_cancel _ (by decide)] at hblock
  | indirect =>
    obtain ⟨hpos, hlast⟩ := indirect_mem_places.mp hr
    have hblock := h (off + n - 1) (by omega)
    show x.indirect ≠ 0
    intro hzero
    apply hblock
    rw [Dinode.block, dif_neg (by omega), if_pos hzero]

/-! ## `writei` -/

variable {E : Panic → Prop} {s : FsState} {ip : Ip} {src : ℕ → Byte}

theorem freeBlocks_setInode {i : ℕ} (hi : i < L.ninodes) (y : Dinode) :
    L.freeBlocks (L.setInode d i y) = L.freeBlocks d := by
  rw [Layout.freeBlocks, Layout.freeBlocks]
  congr 1
  apply Finset.filter_congr
  intro c _
  rw [Layout.marked, Layout.marked, Layout.setInode,
    Function.update_of_ne (Layout.iblock_ne_bblock hi c).symm]

theorem Tidy.ref_setInode {i : ℕ} (h : Tidy L d x) (hi : i < L.ninodes) (y : Dinode) (r : Place) :
    x.ref (L.setInode d i y) r = x.ref d r := by
  apply ref_congr
  intro hind
  exact Function.update_of_ne ((h.inData (r := .indirect) hind).ne_iblock hi) ..

/-- A write stops only if there are fewer free blocks than places to fill, and the free
blocks it takes are those for the places it fills. -/
theorem writei_room {off n : BitVec 32} (hop : 1 ≤ s.outstanding)
    (h : Tidy L s.disk (s.icache ip).din) (hlt : (s.icache ip).inum < L.ninodes)
    (hdev : (s.icache ip).din.type ≠ T_DEV)
    (hT : places off.toNat n.toNat ⊆ T)
    (hfull : L.freeBlocks s.disk < (s.icache ip).din.missing s.disk T → E .ballocOutOfBlocks) :
    Ends E (writei L ip src off n) s fun _ s' =>
      L.freeBlocks s.disk + (s'.icache ip).din.missing s'.disk T =
        L.freeBlocks s'.disk + (s.icache ip).din.missing s.disk T := by
  apply (Traced.writei_erases ip src off n).ends []
  apply Traced.lift_bind_ends
  apply Ends.read
  rw [if_neg hdev]
  by_cases hrange : (s.icache ip).din.size < off ∨ off + n < off
  · rw [if_pos hrange]
    exact Ends.pure rfl
  rw [if_neg hrange]
  by_cases hmax : BitVec.ofNat 32 (MAXFILE * BSIZE) < off + n
  · rw [if_pos hmax]
    exact Ends.pure rfl
  rw [if_neg hmax]
  have hfit : off.toNat + n.toNat ≤ MAXFILE * BSIZE := by
    simp only [not_or, BitVec.not_lt] at hrange
    have hwrap := hrange.2
    rw [BitVec.lt_def, BitVec.toNat_ofNat] at hmax
    change ¬71680 < (off + n).toNat at hmax
    show off.toNat + n.toNat ≤ 71680
    bv_omega
  apply Ends.seq
  apply writeLoop_traced le_rfl hfit hop h hT hfull
  intro d₁ x₁ _ tr₁ hfills _ _
  have haccount := hfills.account
  split_ifs with hgrow
  · apply Traced.lift_bind_ends
    apply Ends.modify
    apply Ends.seq
    apply Traced.lift_bind_ends
    apply Ends.read
    apply Traced.lift_bind_ends
    apply Ends.read
    apply logWrite_traced
    · exact hop
    apply Ends.pure
    have hsame : ∀ r, ({ x₁ with size := off + n } : Dinode).ref
        (L.setInode d₁ (s.icache ip).inum { x₁ with size := off + n }) r = x₁.ref d₁ r := fun r =>
      hfills.tidy.ref_setInode hlt _ r
    have hcount := freeBlocks_setInode (L := L) (d := d₁) hlt { x₁ with size := off + n }
    rw [← Dinode.missing_congr hsame, ← hcount] at haccount
    simpa [FsState.put, Layout.setInode] using haccount
  · apply Ends.pure
    simpa [FsState.put] using haccount

end

end Xv6Threads.Fs
