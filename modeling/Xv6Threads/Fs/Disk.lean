/-
# The disk format

`fs.h`: where inodes and the free map lie on a disk and how they are laid out in
bytes. Both the kernel and `mkfs` use these definitions. A disk is seen here as the
buffer cache and the log show it, one block of bytes for each block number; a
`struct dinode` is sixteen little-endian words, the first two of them pairs of
shorts.

The readers and writers of single inodes and single bits of the map come with the laws
of a store: what was written is read back, and nothing else changes.
-/

import Mathlib.Data.Fin.VecNotation
import Xv6Threads.Log.Basic

namespace Xv6Threads.Fs

open Xv6Threads.Log (Block byteAt byteOf getWord setWord)
open Function (update update_of_ne update_self)

@[reducible] def NDIRECT : ℕ := 12

theorem lt_of_direct {k : ℕ} (h : k < NDIRECT) : k < NDIRECT + 1 := h.trans (by decide)

@[reducible] def NINDIRECT : ℕ := BSIZE / 4

@[reducible] def MAXFILE : ℕ := NDIRECT + NINDIRECT

/-- Inodes per block. -/
@[reducible] def IPB : ℕ := BSIZE / 64

/-- Bitmap bits per block. -/
@[reducible] def BPB : ℕ := BSIZE * 8

abbrev Byte : Type := BitVec 8

abbrev Image : Type := ℕ → Block

@[reducible] def T_DIR : BitVec 16 := 1

@[reducible] def T_FILE : BitVec 16 := 2

@[reducible] def T_DEV : BitVec 16 := 3

/-- `struct dinode`. -/
structure Dinode where
  type : BitVec 16 := 0
  major : BitVec 16 := 0
  minor : BitVec 16 := 0
  nlink : BitVec 16 := 0
  size : BitVec 32 := 0
  addrs : Fin (NDIRECT + 1) → BitVec 32 := fun _ => 0
  deriving DecidableEq

/-- The part of a superblock that `fs.c` reads, and that its regions do not overlap:
inodes below the map, the map below `datastart`, and data blocks from there on. -/
structure Layout where
  size : ℕ
  ninodes : ℕ
  inodestart : ℕ
  bmapstart : ℕ
  datastart : ℕ
  -- the boot block and the superblock come first
  inodes_pos : 2 ≤ inodestart
  inodes_fit : ∀ i < ninodes, i / IPB + inodestart < bmapstart
  map_fits : ∀ b < size, b / BPB + bmapstart < datastart
  data_le : datastart ≤ size
  -- `balloc` counts in an `int`
  size_lt : size < 2 ^ 31
  ninodes_lt : ninodes < 2 ^ 31

/-! ## Words and shorts -/

/-- Two shorts in the order they stand in memory. -/
def pair (lo hi : BitVec 16) : BitVec 32 := BitVec.ofNat 32 (lo.toNat + 65536 * hi.toNat)

def low (w : BitVec 32) : BitVec 16 := BitVec.ofNat 16 w.toNat

def high (w : BitVec 32) : BitVec 16 := BitVec.ofNat 16 (w.toNat / 65536)

@[simp]
theorem low_pair (lo hi : BitVec 16) : low (pair lo hi) = lo := by
  apply BitVec.eq_of_toNat_eq
  have := lo.isLt
  have := hi.isLt
  simp only [low, pair, BitVec.toNat_ofNat]
  omega

@[simp]
theorem high_pair (lo hi : BitVec 16) : high (pair lo hi) = hi := by
  apply BitVec.eq_of_toNat_eq
  have := lo.isLt
  have := hi.isLt
  simp only [high, pair, BitVec.toNat_ofNat]
  omega

/-- Store consecutive words. -/
def putWords (b : Block) (base n : ℕ) (ws : ℕ → BitVec 32) : Block :=
  fun t =>
    if base ≤ t.val / 4 ∧ t.val / 4 < base + n then byteOf (ws (t.val / 4 - base)) (t.val % 4)
    else b t

theorem getWord_congr {b b' : Block} {i j : ℕ}
    (h : ∀ r < 4, byteAt b (4 * i + r) = byteAt b' (4 * j + r)) : getWord b i = getWord b' j := by
  have h₀ := h 0 (by omega)
  rw [Nat.add_zero, Nat.add_zero] at h₀
  simp only [getWord, h₀, h 1 (by omega), h 2 (by omega), h 3 (by omega)]

theorem getWord_putWords (b : Block) {base n j : ℕ} (ws : ℕ → BitVec 32) (hj : 4 * j + 3 < BSIZE) :
    getWord (putWords b base n ws) j =
      if base ≤ j ∧ j < base + n then ws (j - base) else getWord b j := by
  have hbyte : ∀ r < 4, byteAt (putWords b base n ws) (4 * j + r) =
      if base ≤ j ∧ j < base + n then byteOf (ws (j - base)) r else byteAt b (4 * j + r) := by
    intro r hr
    have hdiv : (4 * j + r) / 4 = j := by omega
    have hmod : (4 * j + r) % 4 = r := by omega
    have hlt : 4 * j + r < BSIZE := by omega
    simp only [byteAt, hlt, dif_pos, putWords, hdiv, hmod]
  split_ifs at hbyte ⊢ with hin
  · rw [← Log.getWord_setWord_self b (ws (j - base)) hj]
    apply getWord_congr
    intro r hr
    rw [hbyte r hr, Log.byteAt_setWord b j _ (by omega), if_pos (by omega)]
    congr 1
    omega
  · exact getWord_congr hbyte

/-! ## Inodes on disk -/

section

variable (L : Layout)

/-- `IBLOCK`. -/
def Layout.iblock (i : ℕ) : ℕ := i / IPB + L.inodestart

/-- `BBLOCK`. -/
def Layout.bblock (b : ℕ) : ℕ := b / BPB + L.bmapstart

/-- The words of a `struct dinode`. -/
def Dinode.words (x : Dinode) (j : ℕ) : BitVec 32 :=
  if j = 0 then pair x.type x.major
  else if j = 1 then pair x.minor x.nlink
  else if j = 2 then x.size
  else if h : j - 3 < NDIRECT + 1 then x.addrs ⟨j - 3, h⟩ else 0

def Dinode.ofWords (ws : ℕ → BitVec 32) : Dinode where
  type := low (ws 0)
  major := high (ws 0)
  minor := low (ws 1)
  nlink := high (ws 1)
  size := ws 2
  addrs := fun k => ws (k + 3)

@[simp]
theorem Dinode.ofWords_words (x : Dinode) : Dinode.ofWords x.words = x := by
  have haddrs : (fun k : Fin (NDIRECT + 1) => x.words (k + 3)) = x.addrs := by
    ext1 k
    have hk : (k : ℕ) + 3 - 3 < NDIRECT + 1 := by
      rw [Nat.add_sub_cancel]
      exact k.isLt
    rw [Dinode.words, if_neg (by omega), if_neg (by omega), if_neg (by omega), dif_pos hk]
    exact congrArg x.addrs (Fin.ext (Nat.add_sub_cancel ..))
  rw [Dinode.ofWords, haddrs]
  simp [Dinode.words]

theorem Dinode.ofWords_congr {ws ws' : ℕ → BitVec 32} (h : ∀ j < 16, ws j = ws' j) :
    Dinode.ofWords ws = Dinode.ofWords ws' := by
  have haddrs : ∀ k : Fin (NDIRECT + 1), ws (k + 3) = ws' (k + 3) := fun k =>
    h _ (show (k : ℕ) + 3 < 12 + 1 + 3 from Nat.add_lt_add_right k.isLt 3)
  simp only [Dinode.ofWords, h 0 (by omega), h 1 (by omega), h 2 (by omega), haddrs]

/-- `(struct dinode*)bp->data + inum%IPB`, read. -/
def Layout.inode (d : Image) (i : ℕ) : Dinode :=
  Dinode.ofWords fun j => getWord (d (L.iblock i)) (16 * (i % IPB) + j)

/-- The same, written. -/
def Layout.putInode (d : Image) (i : ℕ) (x : Dinode) : Block :=
  putWords (d (L.iblock i)) (16 * (i % IPB)) 16 x.words

def Layout.setInode (d : Image) (i : ℕ) (x : Dinode) : Image :=
  update d (L.iblock i) (L.putInode d i x)

@[simp]
theorem inode_setInode_self (d : Image) (i : ℕ) (x : Dinode) :
    L.inode (L.setInode d i x) i = x := by
  rw [Layout.inode, Layout.setInode, update_self]
  conv_rhs => rw [← Dinode.ofWords_words x]
  apply Dinode.ofWords_congr
  intro j hj
  have hmod : i % IPB < 8 := Nat.mod_lt _ (by decide)
  rw [Layout.putInode, getWord_putWords _ _ (show _ < 512 by omega), if_pos (by omega)]
  congr 1
  omega

theorem inode_setInode_of_ne (d : Image) {i j : ℕ} (x : Dinode) (hij : j ≠ i) :
    L.inode (L.setInode d i x) j = L.inode d j := by
  rw [Layout.inode, Layout.inode, Layout.setInode]
  by_cases hblock : L.iblock j = L.iblock i
  · apply Dinode.ofWords_congr
    intro t ht
    have hmod : j % IPB < 8 := Nat.mod_lt _ (by decide)
    have hsame : j / IPB = i / IPB := Nat.add_right_cancel hblock
    have hne : j % IPB ≠ i % IPB := by
      intro h
      rw [← Nat.div_add_mod j IPB, ← Nat.div_add_mod i IPB, hsame, h] at hij
      exact hij rfl
    rw [hblock, update_self, Layout.putInode,
      getWord_putWords _ _ (show _ < 512 by omega), if_neg (by omega)]
  · rw [update_of_ne hblock]

theorem inode_setInode (d : Image) (i : ℕ) (x : Dinode) :
    L.inode (L.setInode d i x) = update (L.inode d) i x := by
  ext1 j
  by_cases hj : j = i
  · rw [hj, inode_setInode_self, update_self]
  · rw [inode_setInode_of_ne L d x hj, update_of_ne hj]

/-- Blocks that hold no inode do not matter for inodes. -/
theorem inode_congr {d d' : Image} {i : ℕ} (h : d' (L.iblock i) = d (L.iblock i)) :
    L.inode d' i = L.inode d i := by
  rw [Layout.inode, Layout.inode, h]

/-! ## The free map -/

/-- `bp->data[bi/8] & (1 << (bi % 8))`. -/
def getBit (b : Block) (bi : ℕ) : Bool := (byteAt b (bi / 8)).getLsbD (bi % 8)

/-- `bp->data[bi/8] |= m`. -/
def setBit (b : Block) (bi : ℕ) : Block :=
  fun t => if t.val = bi / 8 then b t ||| BitVec.twoPow 8 (bi % 8) else b t

/-- `bp->data[bi/8] &= ~m`. -/
def clearBit (b : Block) (bi : ℕ) : Block :=
  fun t => if t.val = bi / 8 then b t &&& ~~~BitVec.twoPow 8 (bi % 8) else b t

theorem bit_eq_iff (bi bj : ℕ) : bj = bi ↔ bj / 8 = bi / 8 ∧ bi % 8 = bj % 8 := by omega

theorem getBit_setBit (b : Block) {bi bj : ℕ} (hj : bj < BPB) :
    getBit (setBit b bi) bj = (decide (bj = bi) || getBit b bj) := by
  have hlt : bj / 8 < BSIZE := Nat.div_lt_of_lt_mul (Nat.mul_comm BSIZE 8 ▸ hj)
  have hmod : bi % 8 < 8 := Nat.mod_lt _ (by decide)
  simp only [getBit, byteAt, hlt, dif_pos, setBit, bit_eq_iff bi bj]
  split
  next hbyte => simp [hbyte, hmod, Bool.or_comm]
  next hbyte => simp [hbyte]

theorem getBit_clearBit (b : Block) {bi bj : ℕ} (hj : bj < BPB) :
    getBit (clearBit b bi) bj = (decide (bj ≠ bi) && getBit b bj) := by
  have hlt : bj / 8 < BSIZE := Nat.div_lt_of_lt_mul (Nat.mul_comm BSIZE 8 ▸ hj)
  have hmod (i : ℕ) : i % 8 < 8 := Nat.mod_lt _ (by decide)
  simp only [getBit, byteAt, hlt, dif_pos, clearBit, ne_eq, bit_eq_iff bi bj]
  split
  next hbyte => simp [hbyte, hmod, Bool.and_comm, eq_comm (a := bi % 8)]
  next hbyte => simp [hbyte]

/-- Block `b` is marked in use. -/
def Layout.marked (d : Image) (b : ℕ) : Bool := getBit (d (L.bblock b)) (b % BPB)

def Layout.mark (d : Image) (b : ℕ) : Image :=
  update d (L.bblock b) (setBit (d (L.bblock b)) (b % BPB))

def Layout.unmark (d : Image) (b : ℕ) : Image :=
  update d (L.bblock b) (clearBit (d (L.bblock b)) (b % BPB))

theorem mod_eq_of_bblock_eq {b c : ℕ} (h : L.bblock c = L.bblock b) :
    c % BPB = b % BPB ↔ c = b := by
  have hdiv : c / BPB = b / BPB := Nat.add_right_cancel h
  refine ⟨fun hmod => ?_, fun h => by rw [h]⟩
  rw [← Nat.div_add_mod c BPB, ← Nat.div_add_mod b BPB, hdiv, hmod]

theorem marked_mark (d : Image) (b c : ℕ) :
    L.marked (L.mark d b) c = (decide (c = b) || L.marked d c) := by
  have hmod : c % BPB < BPB := Nat.mod_lt _ (by decide)
  rw [Layout.marked, Layout.marked, Layout.mark]
  by_cases h : L.bblock c = L.bblock b
  · rw [h, update_self, getBit_setBit _ hmod]
    congr 1
    exact decide_eq_decide.mpr (mod_eq_of_bblock_eq L h)
  · have hne : c ≠ b := fun hc => h (by rw [hc])
    rw [update_of_ne h]
    simp [hne]

theorem marked_unmark (d : Image) (b c : ℕ) :
    L.marked (L.unmark d b) c = (decide (c ≠ b) && L.marked d c) := by
  have hmod : c % BPB < BPB := Nat.mod_lt _ (by decide)
  rw [Layout.marked, Layout.marked, Layout.unmark]
  by_cases h : L.bblock c = L.bblock b
  · rw [h, update_self, getBit_clearBit _ hmod]
    congr 1
    exact decide_eq_decide.mpr (mod_eq_of_bblock_eq L h).not
  · have hne : c ≠ b := fun hc => h (by rw [hc])
    rw [update_of_ne h]
    simp [hne]

/-! ## Regions -/

/-- The blocks that hold file contents. -/
def Layout.InData (b : ℕ) : Prop := L.datastart ≤ b ∧ b < L.size

variable {L} {i b : ℕ}

theorem Layout.iblock_lt_bmapstart (hi : i < L.ninodes) : L.iblock i < L.bmapstart :=
  L.inodes_fit i hi

theorem Layout.bblock_lt_datastart (hb : b < L.size) : L.bblock b < L.datastart :=
  L.map_fits b hb

theorem Layout.bmapstart_le_bblock (b : ℕ) : L.bmapstart ≤ L.bblock b := Nat.le_add_left ..

theorem Layout.iblock_ne_bblock (hi : i < L.ninodes) (b : ℕ) : L.iblock i ≠ L.bblock b :=
  ((Layout.iblock_lt_bmapstart hi).trans_le (Layout.bmapstart_le_bblock b)).ne

theorem Layout.InData.pos (h : L.InData b) : 0 < b := by
  have hpos : 0 < L.size := h.2.trans_le' (Nat.zero_le b)
  exact (Nat.zero_le _).trans_lt (Layout.bblock_lt_datastart hpos) |>.trans_le h.1

theorem Layout.InData.ne_bblock (h : L.InData b) {c : ℕ} (hc : c < L.size) : b ≠ L.bblock c :=
  ((Layout.bblock_lt_datastart hc).trans_le h.1).ne'

theorem Layout.InData.ne_iblock (h : L.InData b) (hi : i < L.ninodes) : b ≠ L.iblock i := by
  have hmap := Layout.bmapstart_le_bblock (L := L) b
  have hdata := Layout.bblock_lt_datastart h.2
  exact ((Layout.iblock_lt_bmapstart hi).trans_le hmap |>.trans hdata |>.trans_le h.1).ne'

end

end Xv6Threads.Fs
