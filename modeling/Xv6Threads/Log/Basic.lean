/-
# The redo log

`log.c` at the level of the block writes it issues. A disk is a map from block
numbers to blocks of bytes; block numbers are the 32-bit words the code stores
in its header, and offsets into the log region are computed with the code's own
wrapping arithmetic.

The buffer cache appears only through what it can make `bread` return: a block
pinned dirty by `log_write` reads back as its cached contents, every other
block as what is on disk. A machine state also records the writes issued so
far, in program order, because a crash is a prefix of that record.
-/

import Mathlib.Data.List.Basic
import Mathlib.Data.BitVec
import Xv6Threads.Params
import Xv6Threads.Lib.CrashWrites

namespace Xv6Threads.Log

open Lib

abbrev Block : Type := Fin BSIZE → BitVec 8

/-- A block number, as `struct buf` and the log header hold it. -/
abbrev BlockNo : Type := BitVec 32

abbrev Disk : Type := BlockNo → Block

/-! ## Words inside a block

The header is a C structure laid over the bytes of a block: consecutive
little-endian 32-bit words.
-/

/-- Byte `j` of a word, least significant first. -/
def byteOf (w : BitVec 32) (j : ℕ) : BitVec 8 := BitVec.ofNat 8 (w.toNat / 256 ^ j)

def byteAt (b : Block) (k : ℕ) : BitVec 8 := if h : k < BSIZE then b ⟨k, h⟩ else 0

def getWord (b : Block) (i : ℕ) : BitVec 32 :=
  BitVec.ofNat 32 ((byteAt b (4 * i)).toNat + 256 * (byteAt b (4 * i + 1)).toNat +
    65536 * (byteAt b (4 * i + 2)).toNat + 16777216 * (byteAt b (4 * i + 3)).toNat)

/-- Store a word, leaving every other byte of the block alone. -/
def setWord (b : Block) (i : ℕ) (w : BitVec 32) : Block :=
  fun k => if k.val / 4 = i then byteOf w (k.val % 4) else b k

theorem byteAt_setWord (b : Block) (i : ℕ) (w : BitVec 32) {k : ℕ} (hk : k < BSIZE) :
    byteAt (setWord b i w) k = if k / 4 = i then byteOf w (k % 4) else byteAt b k := by
  simp [byteAt, setWord, hk]

theorem getWord_setWord_self (b : Block) {i : ℕ} (w : BitVec 32) (hi : 4 * i + 3 < BSIZE) :
    getWord (setWord b i w) i = w := by
  apply BitVec.eq_of_toNat_eq
  simp only [getWord, byteAt_setWord b i w (show 4 * i < BSIZE by omega),
    byteAt_setWord b i w (show 4 * i + 1 < BSIZE by omega),
    byteAt_setWord b i w (show 4 * i + 2 < BSIZE by omega), byteAt_setWord b i w hi,
    show 4 * i / 4 = i by omega, show (4 * i + 1) / 4 = i by omega,
    show (4 * i + 2) / 4 = i by omega, show (4 * i + 3) / 4 = i by omega,
    show 4 * i % 4 = 0 by omega, show (4 * i + 1) % 4 = 1 by omega,
    show (4 * i + 2) % 4 = 2 by omega, show (4 * i + 3) % 4 = 3 by omega,
    if_true, byteOf, BitVec.toNat_ofNat]
  have hw := w.isLt
  omega

theorem getWord_setWord_of_ne (b : Block) {i j : ℕ} (w : BitVec 32) (hij : j ≠ i) :
    getWord (setWord b i w) j = getWord b j := by
  have hbyte : ∀ r < 4, byteAt (setWord b i w) (4 * j + r) = byteAt b (4 * j + r) := by
    intro r hr
    by_cases hk : 4 * j + r < BSIZE
    · rw [byteAt_setWord b i w hk, if_neg (by omega)]
    · simp [byteAt, hk]
  simp only [getWord, hbyte 1 (by omega), hbyte 2 (by omega), hbyte 3 (by omega)]
  rw [show 4 * j = 4 * j + 0 from rfl, hbyte 0 (by omega)]

/-! ## The header -/

/-- `struct logheader`: the home block numbers of a transaction. The array has
room for `LOGSIZE` of them, and `n` is how many are in use. -/
structure LogHeader where
  block : List BlockNo
  fits : block.length ≤ LOGSIZE

def LogHeader.n (lh : LogHeader) : ℕ := lh.block.length

def LogHeader.empty : LogHeader := ⟨[], by simp⟩

/-- The `int n` stored in a header block. -/
def headN (b : Block) : ℤ := (getWord b 0).toInt

/-- The copy loop of `write_head`, from index `i` on. -/
def putBlocks (hb : Block) (i : ℕ) : List BlockNo → Block
  | [] => hb
  | b :: bs => putBlocks (setWord hb (i + 1) b) (i + 1) bs

/-- The header block `write_head` writes: `n` and the first `n` entries are
stored over whatever the buffer held. -/
def encodeHead (hb : Block) (lh : LogHeader) : Block :=
  putBlocks (setWord hb 0 (BitVec.ofNat 32 lh.n)) 0 lh.block

/-- The header `read_head` copies into memory. A stored `n` above `LOGSIZE`
would overflow the in-memory array, which the code does not check; such a
header has no defined reading. A negative one copies nothing. -/
def decodeHead (b : Block) : Option LogHeader :=
  if h : headN b ≤ LOGSIZE then
    some ⟨(List.range (headN b).toNat).map fun i => getWord b (i + 1), by
      rw [List.length_map, List.length_range]; omega⟩
  else none

theorem getWord_putBlocks_of_le (hb : Block) (i : ℕ) (bs : List BlockNo) {j : ℕ} (hj : j ≤ i) :
    getWord (putBlocks hb i bs) j = getWord hb j := by
  induction bs generalizing hb i with
  | nil => rfl
  | cons b bs ih =>
    rw [putBlocks, ih _ _ (by omega), getWord_setWord_of_ne _ _ (by omega)]

theorem getWord_putBlocks (hb : Block) (i : ℕ) (bs : List BlockNo)
    (hroom : 4 * (i + bs.length) + 3 < BSIZE) {t : ℕ} (ht : t < bs.length) :
    getWord (putBlocks hb i bs) (i + 1 + t) = bs[t] := by
  induction bs generalizing hb i t with
  | nil => simp at ht
  | cons b bs ih =>
    simp only [List.length_cons] at hroom ht
    cases t with
    | zero =>
      rw [putBlocks, getWord_putBlocks_of_le _ _ _ (by omega)]
      exact getWord_setWord_self _ _ (by omega)
    | succ t =>
      rw [putBlocks, show i + 1 + (t + 1) = i + 1 + 1 + t by omega,
        ih _ _ (by omega) (by omega)]
      rfl

theorem headN_encodeHead (hb : Block) (lh : LogHeader) : headN (encodeHead hb lh) = lh.n := by
  have hfits : lh.n ≤ 30 := lh.fits
  rw [headN, encodeHead, getWord_putBlocks_of_le _ _ _ le_rfl,
    getWord_setWord_self _ _ (by decide), BitVec.toInt_eq_toNat_of_lt]
  · rw [BitVec.toNat_ofNat, Nat.mod_eq_of_lt (by omega)]
  · rw [BitVec.toNat_ofNat, Nat.mod_eq_of_lt (by omega)]
    omega

/-- What `write_head` stores, `read_head` reads back. -/
theorem decodeHead_encodeHead (hb : Block) (lh : LogHeader) :
    decodeHead (encodeHead hb lh) = some lh := by
  have hfits : lh.block.length ≤ 30 := lh.fits
  have hn : headN (encodeHead hb lh) = lh.n := headN_encodeHead hb lh
  have hle : headN (encodeHead hb lh) ≤ LOGSIZE := by
    rw [hn]
    exact_mod_cast lh.fits
  rw [decodeHead, dif_pos hle]
  congr
  apply List.ext_getElem
  · simp [hn, LogHeader.n]
  · intro t _ ht
    rw [List.getElem_map, List.getElem_range, encodeHead, Nat.add_comm t 1, ← Nat.zero_add 1]
    exact getWord_putBlocks _ _ _ (show 4 * (0 + lh.block.length) + 3 < 512 by omega) ht

theorem decodeHead_of_headN_eq_zero {b : Block} (h : headN b = 0) :
    decodeHead b = some LogHeader.empty := by
  simp [decodeHead, h, LogHeader.empty]

/-! ## Issuing writes -/

/-- `log.start` and `log.size`, as `initlog` takes them from the superblock. -/
structure Region where
  start : BlockNo
  size : ℕ

/-- The blocks `start, start+1, ..., start+size-1`. -/
def Region.Contains (L : Region) (b : BlockNo) : Prop :=
  ∃ i < L.size, b = L.start + BitVec.ofNat 32 i

/-- The log block that holds the copy of the transaction's entry `tail`. -/
def Region.slot (L : Region) (tail : ℕ) : BlockNo := L.start + BitVec.ofNat 32 (tail + 1)

/-- The disk, the cached contents of the blocks `log_write` pinned dirty, and the
writes issued since the state was set up, oldest first. -/
structure Machine where
  disk : Disk
  cache : BlockNo → Option Block
  issued : List (Write BlockNo Block)

def Machine.bread (m : Machine) (b : BlockNo) : Block := (m.cache b).getD (m.disk b)

/-- `bwrite`: the block reaches the disk and is clean afterwards. -/
def Machine.bwrite (m : Machine) (b : BlockNo) (data : Block) : Machine where
  disk := Function.update m.disk b data
  cache := Function.update m.cache b none
  issued := m.issued ++ [⟨b, data⟩]

/-- `write_log` from entry `tail` on: copy modified blocks from cache to log. -/
def writeLog (L : Region) (tail : ℕ) : List BlockNo → Machine → Machine
  | [], m => m
  | b :: bs, m => writeLog L (tail + 1) bs (m.bwrite (L.slot tail) (m.bread b))

/-- `install_trans` from entry `tail` on: copy committed blocks from log to
their home location. -/
def installTrans (L : Region) (tail : ℕ) : List BlockNo → Machine → Machine
  | [], m => m
  | b :: bs, m => installTrans L (tail + 1) bs (m.bwrite b (m.bread (L.slot tail)))

/-- `write_head`: write the in-memory header to disk. -/
def writeHead (L : Region) (lh : LogHeader) (m : Machine) : Machine :=
  m.bwrite L.start (encodeHead (m.bread L.start) lh)

def commit (L : Region) (lh : LogHeader) (m : Machine) : Machine :=
  if 0 < lh.n then
    let m := writeLog L 0 lh.block m
    let m := writeHead L lh m
    let m := installTrans L 0 lh.block m
    writeHead L LogHeader.empty m
  else m

/-- A machine just booted on a disk: nothing cached, nothing written. -/
def Machine.boot (d : Disk) : Machine := ⟨d, fun _ => none, []⟩

/-- The writes `recover_from_log` issues on a given disk. -/
def recoverFromLog (L : Region) (d : Disk) : Option (List (Write BlockNo Block)) :=
  (decodeHead ((Machine.boot d).bread L.start)).map fun lh =>
    (writeHead L LogHeader.empty (installTrans L 0 lh.block (Machine.boot d))).issued

/-- The disk a crash leaves when it cuts `commit` after `k` writes. -/
def crashDuringCommit (L : Region) (lh : LogHeader) (d : Disk)
    (cache : BlockNo → Option Block) (k : ℕ) : Disk :=
  applyWrites d ((commit L lh ⟨d, cache, []⟩).issued.take k)

end Xv6Threads.Log
