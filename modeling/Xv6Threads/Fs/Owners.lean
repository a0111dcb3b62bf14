/-
# Who owns a block

An inode refers to blocks from its thirteen addresses and, through its indirect block,
from the words of that block. This module says what `balloc`, `bfree`, `bmap` and the
loops of `itrunc` do to these references. The inodes are a parameter `I`: between calls
they are those on disk, inside a call the one being changed is the in-memory copy.
-/

import Xv6Threads.Fs.Inode
import Xv6Threads.Lib.Ownership

namespace Xv6Threads.Fs

open Lib
open Xv6Threads.Log (Block byteAt getWord setWord)
open Function (update update_of_ne update_self)

variable {k c : ℕ} {y : Dinode}

/-- The places of an inode that hold block numbers: `addrs[NDIRECT]`, and one for each
block of the file. -/
inductive Place
  | indirect
  | data (k : Fin MAXFILE)
  deriving DecidableEq

section

variable (d : Image) (x : Dinode)

/-- The number of the indirect block, 0 if there is none. -/
def Dinode.indirect : BitVec 32 := x.addrs (Fin.last NDIRECT)

/-- What block `k` of the file is mapped to, 0 if nothing. -/
def Dinode.block (k : ℕ) : BitVec 32 :=
  if h : k < NDIRECT then x.addrs ⟨k, lt_of_direct h⟩
  else if x.indirect = 0 then 0
  else if k < MAXFILE then getWord (d x.indirect.toNat) (k - NDIRECT)
  else 0

def Dinode.ref : Place → BitVec 32
  | .indirect => x.indirect
  | .data k => x.block d k

/-- Byte `o` of the file. -/
def Dinode.byte (o : ℕ) : Byte := byteAt (d (x.block d (o / BSIZE)).toNat) (o % BSIZE)

variable {d x}

theorem block_of_lt (h : k < NDIRECT) : x.block d k = x.addrs ⟨k, lt_of_direct h⟩ := dif_pos h

theorem block_of_indirect (h : ¬k < NDIRECT) (hk : k < MAXFILE) (hx : x.indirect ≠ 0) :
    x.block d k = getWord (d x.indirect.toNat) (k - NDIRECT) := by
  rw [Dinode.block, dif_neg h, if_neg hx, if_pos hk]

theorem block_of_no_indirect (h : ¬k < NDIRECT) (hx : x.indirect = 0) : x.block d k = 0 := by
  rw [Dinode.block, dif_neg h, if_pos hx]

theorem block_of_maxfile_le (hk : MAXFILE ≤ k) : x.block d k = 0 := by
  rw [Dinode.block, dif_neg (Nat.not_lt.mpr ((Nat.le_add_right ..).trans hk))]
  split_ifs with h₁ h₂
  · rfl
  · exact absurd h₂ (Nat.not_lt.mpr hk)
  · rfl

/-- Only the indirect block matters for where a file's blocks are. -/
theorem block_congr {d' : Image} (h : x.indirect ≠ 0 → d' x.indirect.toNat = d x.indirect.toNat)
    (k : ℕ) : x.block d' k = x.block d k := by
  unfold Dinode.block
  split_ifs with h₁ h₂ h₃
  · rfl
  · rfl
  · rw [h h₂]
  · rfl

theorem ref_congr {d' : Image} (h : x.indirect ≠ 0 → d' x.indirect.toNat = d x.indirect.toNat)
    (r : Place) : x.ref d' r = x.ref d r := by
  cases r with
  | indirect => rfl
  | data k => exact block_congr h k

end

section

variable (L : Layout)

/-- Place `p.2` of the allocated inode `p.1` refers to block `b`. -/
def Layout.Refs (d : Image) (I : ℕ → Dinode) (p : ℕ × Place) (b : ℕ) : Prop :=
  p.1 < L.ninodes ∧ (I p.1).type ≠ 0 ∧ ((I p.1).ref d p.2).toNat = b ∧ b ≠ 0

/-- Every block has one owner. Metadata blocks are reserved. -/
abbrev Layout.Owned (marked : ℕ → Prop) (d : Image) (I : ℕ → Dinode) (loose : Set ℕ) : Prop :=
  Lib.Owned (· < L.datastart) L.InData marked (L.Refs d I) loose

/-- The same with the map on the disk. -/
abbrev Layout.DiskOwned (d : Image) (I : ℕ → Dinode) (loose : Set ℕ) : Prop :=
  L.Owned (fun b => L.marked d b = true) d I loose

variable {L} {d d' : Image} {I : ℕ → Dinode} {loose : Set ℕ} {marked : ℕ → Prop} {i : ℕ}

theorem Layout.lt_size_of_mem {b : ℕ} (h : b < L.datastart ∨ L.InData b) : b < L.size :=
  h.elim (fun h => h.trans_le L.data_le) And.right

theorem not_reserved {b : ℕ} (h : L.InData b) : ¬b < L.datastart := Nat.not_lt.mpr h.1

theorem refs_indirect {x : Dinode} (hi : i < L.ninodes) (hx : I i = x) (htype : x.type ≠ 0)
    (hind : x.indirect ≠ 0) : L.Refs d I (i, .indirect) x.indirect.toNat :=
  ⟨hi, hx ▸ htype, by rw [hx]; rfl, fun h => hind (BitVec.eq_of_toNat_eq h)⟩

/-- References depend on the disk through indirect blocks only. -/
theorem refs_congr (h : ∀ i < L.ninodes, (I i).type ≠ 0 → (I i).indirect ≠ 0 →
    d' (I i).indirect.toNat = d (I i).indirect.toNat) (p : ℕ × Place) (b : ℕ) :
    L.Refs d' I p b ↔ L.Refs d I p b := by
  unfold Layout.Refs
  by_cases hi : p.1 < L.ninodes
  · by_cases htype : (I p.1).type = 0
    · simp [htype]
    · rw [ref_congr (h p.1 hi htype)]
  · simp [hi]

/-- A change of blocks that are nobody's indirect block. -/
theorem Layout.Owned.frame (h : L.Owned marked d I loose)
    (hsame : ∀ i b, L.Refs d I (i, .indirect) b → d' b = d b) : L.Owned marked d' I loose := by
  refine h.congr (fun _ _ => Iff.rfl) (refs_congr fun i hi htype hind => ?_)
  exact hsame i _ (refs_indirect hi rfl htype hind)

/-! ## `balloc` and `bfree` -/

/-- The disk after `balloc` returned `b`. -/
def Layout.take (L : Layout) (d : Image) (b : ℕ) : Image :=
  Function.update (L.mark d b) b fun _ => 0

section

variable {b : ℕ}

theorem take_self (L : Layout) (d : Image) (b : ℕ) : L.take d b b = fun _ => 0 :=
  update_self ..

theorem take_of_inData (hb : L.InData b) (hc : L.InData c) (hne : c ≠ b) : L.take d b c = d c := by
  rw [Layout.take, update_of_ne hne, Layout.mark,
    update_of_ne (hc.ne_bblock hb.2)]

theorem inode_take (hb : L.InData b) (hi : i < L.ninodes) :
    L.inode (L.take d b) i = L.inode d i := by
  apply inode_congr
  rw [Layout.take, update_of_ne (hb.ne_iblock hi).symm, Layout.mark,
    update_of_ne (Layout.iblock_ne_bblock hi b)]

theorem marked_take (hb : L.InData b) (hc : c < L.size) :
    L.marked (L.take d b) c = true ↔ L.marked d c = true ∨ c = b := by
  have hblock : L.marked (L.take d b) c = L.marked (L.mark d b) c := by
    rw [Layout.marked, Layout.marked, Layout.take,
      update_of_ne (hb.ne_bblock hc).symm]
  rw [hblock, marked_mark]
  simp [or_comm]

theorem Layout.DiskOwned.take (h : L.DiskOwned d I loose) (hb : L.InData b)
    (hfree : L.marked d b = false) : L.DiskOwned (L.take d b) I (insert b loose) := by
  have hframe : L.Owned (fun c => L.marked d c = true) (L.take d b) I loose := by
    apply h.frame
    intro i c hc
    apply take_of_inData hb (h.inPool hc)
    rintro rfl
    have hm := h.marked_of_ref hc
    rw [hfree] at hm
    cases hm
  apply hframe.claim hb
  · rw [hfree]
    exact Bool.false_ne_true
  · intro c hc
    exact marked_take hb (Layout.lt_size_of_mem hc)

theorem unmark_of_inData (hb : b < L.size) (hc : L.InData c) : L.unmark d b c = d c := by
  rw [Layout.unmark, update_of_ne (hc.ne_bblock hb)]

theorem inode_unmark (hi : i < L.ninodes) : L.inode (L.unmark d b) i = L.inode d i := by
  apply inode_congr
  rw [Layout.unmark, update_of_ne (Layout.iblock_ne_bblock hi b)]

theorem Layout.DiskOwned.unmark (h : L.DiskOwned d I loose) (hb : b ∈ loose) :
    L.DiskOwned (L.unmark d b) I (loose \ {b}) := by
  have hdata := h.looseInPool hb
  have hframe : L.Owned (fun c => L.marked d c = true) (L.unmark d b) I loose :=
    h.frame fun i c hc => unmark_of_inData hdata.2 (h.inPool hc)
  refine hframe.release hb (not_reserved hdata) fun c hc => ?_
  rw [marked_unmark]
  simp [and_comm]

end

variable {b : ℕ} {x : Dinode}

/-! ## Storing a block number -/

theorem toNat_ofNat_of_inData (hb : L.InData b) : (BitVec.ofNat 32 b).toNat = b := by
  have := hb.2.trans L.size_lt
  rw [BitVec.toNat_ofNat, Nat.mod_eq_of_lt (by omega)]

theorem ofNat_ne_zero_of_inData (hb : L.InData b) : BitVec.ofNat 32 b ≠ 0 := by
  intro h
  have hpos := hb.pos
  rw [← toNat_ofNat_of_inData hb, h] at hpos
  cases hpos

/-- One place of inode `i` takes up a loose block, and all others stay as they are. -/
theorem Layout.Owned.store {e : Image} {r : Place} (h : L.Owned marked d (update I i x) loose)
    (hb : b ∈ loose) (hi : i < L.ninodes) (htype : x.type ≠ 0) (htype' : y.type = x.type)
    (hold : x.ref d r = 0) (hnew : y.ref e r = BitVec.ofNat 32 b)
    (hother : ∀ q, q ≠ r → y.ref e q = x.ref d q)
    (hframe : ∀ j c, j ≠ i → L.Refs d (update I i x) (j, .indirect) c → e c = d c) :
    L.Owned marked e (update I i y) (loose \ {b}) := by
  have hdata := h.looseInPool hb
  have hpos := hdata.pos
  have hmine : ∀ r c, L.Refs d (update I i x) (i, r) c ↔
      (x.ref d r).toNat = c ∧ c ≠ 0 := by
    intro r c
    simp only [Layout.Refs, update_self, hi, true_and]
    exact and_iff_right htype
  have hmine' : ∀ r c, L.Refs e (update I i y) (i, r) c ↔
      (y.ref e r).toNat = c ∧ c ≠ 0 := by
    intro r c
    simp only [Layout.Refs, update_self, hi, htype', true_and]
    exact and_iff_right htype
  refine h.attach hb (p := (i, r)) ?_ ?_
  · intro c hc
    rw [hmine, hold] at hc
    exact hc.2 hc.1.symm
  · rintro ⟨j, q⟩ c
    by_cases hj : j = i
    · rw [hj, hmine, hmine']
      by_cases hq : q = r
      · subst hq
        rw [hnew, hold, toNat_ofNat_of_inData hdata]
        constructor
        · rintro ⟨rfl, -⟩
          exact .inr ⟨rfl, rfl⟩
        · rintro (⟨hc, hne⟩ | ⟨-, rfl⟩)
          · exact absurd hc.symm hne
          · exact ⟨rfl, hpos.ne'⟩
      · rw [hother q hq]
        simp [hq]
    · have hsame : L.Refs e (update I i y) (j, q) c ↔
          L.Refs d (update I i x) (j, q) c := by
        unfold Layout.Refs
        simp only [update_of_ne hj]
        by_cases hlt : j < L.ninodes
        · by_cases hz : (I j).type = 0
          · simp [hz]
          · rw [ref_congr]
            intro hind
            apply hframe j _ hj
            exact refs_indirect hlt (update_of_ne hj ..) hz hind
        · simp [hlt]
      rw [hsame]
      simp [hj]

/-- Inode `i` gives up some of its places. -/
theorem Layout.Owned.drop (h : L.Owned marked d (update I i x) loose) (hi : i < L.ninodes)
    (htype : x.type ≠ 0) (htype' : y.type = x.type) (gone : Place → Prop)
    (hgone : ∀ r, gone r → y.ref d r = 0) (hstay : ∀ r, ¬gone r → y.ref d r = x.ref d r) :
    L.Owned marked d (update I i y)
      (loose ∪ {c | ∃ r, gone r ∧ (x.ref d r).toNat = c ∧ c ≠ 0}) := by
  have hdetach : L.Owned marked d (update I i y) _ := h.detach (fun p => p.1 = i ∧ gone p.2)
    ?_
  · have hset : {c | ∃ q : ℕ × Place, (q.1 = i ∧ gone q.2) ∧ L.Refs d (update I i x) q c} =
        {c | ∃ r, gone r ∧ (x.ref d r).toNat = c ∧ c ≠ 0} := by
      ext c
      constructor
      · rintro ⟨⟨_, r⟩, ⟨rfl, hr⟩, hrefs⟩
        simp only [Layout.Refs, update_self] at hrefs
        exact ⟨r, hr, hrefs.2.2⟩
      · rintro ⟨r, hr, hc⟩
        refine ⟨(i, r), ⟨rfl, hr⟩, hi, ?_⟩
        rw [update_self]
        exact ⟨htype, hc⟩
    rwa [hset] at hdetach
  · rintro ⟨j, r⟩ c
    by_cases hj : j = i
    · subst hj
      simp only [Layout.Refs, update_self, htype', true_and]
      by_cases hr : gone r
      · rw [hgone r hr]
        constructor
        · rintro ⟨-, -, hc, hne⟩
          exact absurd hc.symm hne
        · rintro ⟨-, hno⟩
          exact absurd hr hno
      · rw [hstay r hr]
        simp [hr]
    · simp [Layout.Refs, hj]

/-- Inode blocks hold neither the map nor data. -/
theorem Layout.DiskOwned.setInode (h : L.DiskOwned d I loose) (hi : i < L.ninodes) (x : Dinode) :
    L.DiskOwned (L.setInode d i x) I loose := by
  have hframe : L.Owned (fun c => L.marked d c = true) (L.setInode d i x) I loose :=
    h.frame fun j c hc => update_of_ne ((h.inPool hc).ne_iblock hi) ..
  refine hframe.congr (fun c _ => ?_) fun _ _ => Iff.rfl
  rw [Layout.marked, Layout.marked, Layout.setInode,
    update_of_ne (Layout.iblock_ne_bblock hi c).symm]

/-- The table matters where there are inodes only. -/
theorem Layout.Owned.table {I' : ℕ → Dinode} (h : L.Owned marked d I loose)
    (hI : ∀ j < L.ninodes, I' j = I j) : L.Owned marked d I' loose := by
  refine h.congr (fun _ _ => Iff.rfl) fun p b => ?_
  unfold Layout.Refs
  constructor
  · rintro ⟨hi, hrest⟩
    rw [hI _ hi] at hrest
    exact ⟨hi, hrest⟩
  · rintro ⟨hi, hrest⟩
    rw [← hI _ hi] at hrest
    exact ⟨hi, hrest⟩

/-- One inode is replaced by another, and neither refers to a block. -/
theorem Layout.Owned.replace (h : L.Owned marked d (update I i x) loose)
    (hx : ∀ r c, ¬L.Refs d (update I i x) (i, r) c)
    (hy : ∀ r c, ¬L.Refs d (update I i y) (i, r) c) :
    L.Owned marked d (update I i y) loose := by
  refine h.congr (fun _ _ => Iff.rfl) ?_
  rintro ⟨j, r⟩ c
  by_cases hj : j = i
  · subst hj
    exact iff_of_false (hy r c) (hx r c)
  · simp [Layout.Refs, hj]

/-- An inode that is free, or has no addresses. -/
def Dinode.Bare (x : Dinode) : Prop := x.type = 0 ∨ x.addrs = fun _ => 0

theorem Dinode.Bare.not_refs (h : x.Bare) (r : Place) (c : ℕ) :
    ¬L.Refs d (update I i x) (i, r) c := by
  rintro ⟨-, htype, hc, hne⟩
  rw [update_self] at htype hc
  rcases h with h | h
  · exact htype h
  · have hzero : x.ref d r = 0 := by
      cases r with
      | indirect => simp [Dinode.ref, Dinode.indirect, h]
      | data k => simp [Dinode.ref, Dinode.block, Dinode.indirect, h]
    rw [hzero] at hc
    exact hne hc.symm

end

end Xv6Threads.Fs
