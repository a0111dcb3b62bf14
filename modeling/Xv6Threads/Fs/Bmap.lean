/-
# Mapping the blocks of a file

What `balloc` and `bmap` do, for an inode whose in-memory copy may be ahead of
the disk: inode `i` is `x` in memory, and all others are those of a table `I`. The
statements say what becomes of this inode and its blocks, that no other inode notices,
and that every block still has one owner.

`bmap` is one or two turns of the same step, which fills an empty place of the inode
with a new block.
-/

import Xv6Threads.Fs.Cache
import Xv6Threads.Fs.Owners

namespace Xv6Threads.Fs

open Lib Command
open Xv6Threads.Log (Block byteAt getWord setWord getWord_setWord_self getWord_setWord_of_ne)
open Function (update update_of_ne update_self)

variable {k : ℕ} {Q : ℕ → FsState → Prop}

section

variable (L : Layout) (I : ℕ → Dinode) (i : ℕ)

/-- Inode `i`, allocated, is `x` in memory. -/
structure Held (d : Image) (x : Dinode) : Prop where
  lt : i < L.ninodes
  allocated : x.type ≠ 0
  owned : L.DiskOwned d (update I i x) ∅

/-- The inode's blocks are marked data blocks, the indirect block is none of the others, and
the blocks before the data area are marked. Nothing is said about other inodes. -/
structure Tidy (d : Image) (x : Dinode) : Prop where
  reserved : ∀ {c}, c < L.datastart → L.marked d c = true
  inData : ∀ {r}, x.ref d r ≠ 0 → L.InData (x.ref d r).toNat
  marked : ∀ {r}, x.ref d r ≠ 0 → L.marked d (x.ref d r).toNat = true
  apart : ∀ {k}, x.ref d (.data k) ≠ 0 → x.ref d (.data k) ≠ x.ref d .indirect

/-- A new block `b` is stored in the empty place `r₀`. Apart from what `balloc` did, only
the inode's indirect block may have changed. -/
structure Filling (d : Image) (x : Dinode) (r₀ : Place) (d' : Image) (x' : Dinode) (b : ℕ) :
    Prop where
  inData : L.InData b
  free : L.marked d b = false
  fields : x' = { x with addrs := x'.addrs }
  old : x.ref d r₀ = 0
  new : x'.ref d' r₀ = BitVec.ofNat 32 b
  other : ∀ {r}, r ≠ r₀ → x'.ref d' r = x.ref d r
  frame : ∀ {c}, (L.InData c → x.ref d .indirect ≠ 0 → c ≠ (x.ref d .indirect).toNat) →
    d' c = L.take d b c

/-- The inode has got new blocks, and everything else stayed. -/
structure Grows (d : Image) (x : Dinode) (d' : Image) (x' : Dinode) : Prop where
  fields : x' = { x with addrs := x'.addrs }
  kept : ∀ {r}, x.ref d r ≠ 0 → x'.ref d' r = x.ref d r
  fresh : ∀ {r}, x'.ref d' r ≠ x.ref d r →
    L.InData (x'.ref d' r).toNat ∧ L.marked d (x'.ref d' r).toNat = false
  inodes : ∀ {j}, j < L.ninodes → L.inode d' j = L.inode d j
  marks : ∀ {c}, c < L.size → L.marked d c = true → L.marked d' c = true
  others : ∀ {c}, L.InData c → L.marked d c = true → (∀ r, (x.ref d r).toNat ≠ c) → d' c = d c

/-- Place `r₀` refers to block `b` now, if it did not before to a new one. -/
structure Filled (d : Image) (x : Dinode) (r₀ : Place) (d' : Image) (x' : Dinode) (b : ℕ) :
    Prop extends Grows L d x d' x' where
  found : (x'.ref d' r₀).toNat = b
  inData : L.InData b
  elsewhere : ∀ {r}, r ≠ r₀ → x'.ref d' r = x.ref d r
  same : x.ref d r₀ ≠ 0 → d' = d ∧ x' = x
  data : ∀ {k}, x.block d k ≠ 0 → d' (x.block d k).toNat = d (x.block d k).toNat
  zero : x.ref d r₀ = 0 → d' b = fun _ => 0

/-- What `bmap` does for block `bn` of the file. -/
structure Mapped (d : Image) (x : Dinode) (bn : ℕ) (d' : Image) (x' : Dinode) (b : ℕ) :
    Prop extends Grows L d x d' x' where
  lt : bn < MAXFILE
  found : (x'.block d' bn).toNat = b
  inData : L.InData b
  elsewhere : ∀ {k}, k ≠ bn → x'.block d' k = x.block d k
  indirect : x'.indirect ≠ 0 ↔ x.indirect ≠ 0 ∨ NDIRECT ≤ bn
  same : x.block d bn ≠ 0 → d' = d ∧ x' = x
  data : ∀ {k}, x.block d k ≠ 0 → d' (x.block d k).toNat = d (x.block d k).toNat
  zero : x.block d bn = 0 → d' b = fun _ => 0

variable {L I i} {d d' d'' : Image} {x x' x'' : Dinode} {r r₀ : Place} {b : ℕ}

/-! ## An inode and its blocks -/

theorem ne_zero_of_inData {w : BitVec 32} (h : L.InData w.toNat) : w ≠ 0 := by
  rintro rfl
  exact absurd h.pos (by decide)

theorem Held.refs (h : Held L I i d x) (hr : x.ref d r ≠ 0) :
    L.Refs d (update I i x) (i, r) (x.ref d r).toNat := by
  refine ⟨h.lt, ?_, ?_, fun hz => hr (BitVec.eq_of_toNat_eq hz)⟩
  · rw [update_self]
    exact h.allocated
  · rw [update_self]

theorem Held.inData (h : Held L I i d x) (hr : x.ref d r ≠ 0) : L.InData (x.ref d r).toNat :=
  h.owned.inPool (h.refs hr)

theorem Held.marked (h : Held L I i d x) (hr : x.ref d r ≠ 0) :
    L.marked d (x.ref d r).toNat = true :=
  h.owned.marked_of_ref (h.refs hr)

/-- Different places refer to different blocks. -/
theorem Held.inj (h : Held L I i d x) {q : Place} (hr : x.ref d r ≠ 0)
    (heq : x.ref d q = x.ref d r) : q = r := by
  have hq := h.refs (r := q) (heq ▸ hr)
  rw [heq] at hq
  exact (Prod.mk.inj (h.owned.once hq (h.refs hr))).2

theorem Held.tidy (h : Held L I i d x) : Tidy L d x where
  reserved hc := (h.owned.markedIff (.inl hc)).mpr (.inl hc)
  inData := h.inData
  marked := h.marked
  apart hk heq := by
    have hplace := h.inj hk heq.symm
    cases hplace

theorem Tidy.inData_of_unmarked (h : Tidy L d x) (hb : b < L.size)
    (hfree : L.marked d b = false) : L.InData b := by
  refine ⟨?_, hb⟩
  by_contra hlt
  have hm := h.reserved (Nat.lt_of_not_le hlt)
  simp [hfree] at hm

theorem Tidy.ref_ne_of_unmarked (h : Tidy L d x) (hb : L.InData b)
    (hfree : L.marked d b = false) : (x.ref d r).toNat ≠ b := by
  rintro rfl
  have hm := h.marked (ne_zero_of_inData hb)
  rw [hfree] at hm
  cases hm

/-! ## Growing -/

theorem Grows.refl : Grows L d x d x where
  fields := rfl
  kept _ := rfl
  fresh hne := absurd rfl hne
  inodes _ := rfl
  marks _ hm := hm
  others _ _ _ := rfl

theorem Grows.type (h : Grows L d x d' x') : x'.type = x.type := by rw [h.fields]

theorem Grows.size (h : Grows L d x d' x') : x'.size = x.size := by rw [h.fields]

theorem Grows.trans (h : Grows L d x d' x') (h' : Grows L d' x' d'' x'') :
    Grows L d x d'' x'' where
  fields := by
    rw [h'.fields, h.fields]
  kept {r} hr := by
    rw [h'.kept (by rwa [h.kept hr]), h.kept hr]
  fresh {r} hne := by
    by_cases hfirst : x'.ref d' r = x.ref d r
    · obtain ⟨hdata, hfree⟩ := h'.fresh (r := r) (hfirst ▸ hne)
      refine ⟨hdata, ?_⟩
      cases hm : L.marked d (x''.ref d'' r).toNat with
      | false => rfl
      | true =>
        rw [h.marks hdata.2 hm] at hfree
        cases hfree
    · obtain ⟨hdata, hfree⟩ := h.fresh hfirst
      rw [h'.kept (ne_zero_of_inData hdata)]
      exact ⟨hdata, hfree⟩
  inodes hj := (h'.inodes hj).trans (h.inodes hj)
  marks hc hm := h'.marks hc (h.marks hc hm)
  others {c} hc hm hrefs := by
    rw [h'.others hc (h.marks hc.2 hm), h.others hc hm hrefs]
    intro r hr
    by_cases hfirst : x'.ref d' r = x.ref d r
    · exact hrefs r (hfirst ▸ hr)
    · have hfree := (h.fresh hfirst).2
      rw [hr, hm] at hfree
      cases hfree

/-! ## Filling a place -/

theorem Filled.refl (h : Held L I i d x) (hr : x.ref d r ≠ 0) :
    Filled L d x r d x (x.ref d r).toNat where
  toGrows := .refl
  found := rfl
  inData := h.inData hr
  elsewhere _ := rfl
  same _ := ⟨rfl, rfl⟩
  data _ := rfl
  zero hz := absurd hz hr

theorem ref_take (h : Tidy L d x) (hb : L.InData b) (hfree : L.marked d b = false) :
    x.ref (L.take d b) r = x.ref d r := by
  apply ref_congr
  intro hind
  exact take_of_inData hb (h.inData (r := .indirect) hind)
    (h.ref_ne_of_unmarked (r := .indirect) hb hfree)

theorem Filling.found (f : Filling L d x r₀ d' x' b) : (x'.ref d' r₀).toNat = b := by
  rw [f.new, toNat_ofNat_of_inData f.inData]

/-- The free map is the one `balloc` left. -/
theorem Filling.marks (f : Filling L d x r₀ d' x' b) {c : ℕ} (hc : c < L.size) :
    L.marked d' c = true ↔ L.marked d c = true ∨ c = b := by
  rw [← marked_take f.inData hc, Layout.marked, Layout.marked, f.frame]
  exact fun hd => absurd rfl (hd.ne_bblock hc)

theorem Filling.data (f : Filling L d x r₀ d' x' b) {c : ℕ} (hc : L.InData c) (hne : c ≠ b)
    (hind : x.ref d .indirect ≠ 0 → c ≠ (x.ref d .indirect).toNat) : d' c = d c := by
  rw [f.frame fun _ => hind, take_of_inData f.inData hc hne]

theorem Tidy.fill (h : Tidy L d x) (f : Filling L d x r₀ d' x' b) : Tidy L d' x' where
  reserved hc := (f.marks (hc.trans_le L.data_le)).mpr (.inl (h.reserved hc))
  inData {r} hr := by
    by_cases heq : r = r₀
    · rw [heq, f.found]
      exact f.inData
    · rw [f.other heq] at hr ⊢
      exact h.inData hr
  marked {r} hr := by
    by_cases heq : r = r₀
    · rw [heq, f.found]
      exact (f.marks f.inData.2).mpr (.inr rfl)
    · rw [f.other heq] at hr ⊢
      exact (f.marks (h.inData hr).2).mpr (.inl (h.marked hr))
  apart {k} hk heq := by
    -- the new block is not among the old ones
    have hnew : ∀ r, x.ref d r ≠ x'.ref d' r₀ := by
      intro r hr
      apply h.ref_ne_of_unmarked (r := r) f.inData f.free
      rw [hr, f.found]
    by_cases hdata : Place.data k = r₀
    · have hind : Place.indirect ≠ r₀ := by
        rw [← hdata]
        intro hplace
        cases hplace
      rw [f.other hind, hdata] at heq
      exact hnew _ heq.symm
    · rw [f.other hdata] at hk heq
      by_cases hind : Place.indirect = r₀
      · rw [hind] at heq
        exact hnew _ heq
      · rw [f.other hind] at heq
        exact h.apart hk heq

theorem Held.fill (h : Held L I i d x) (f : Filling L d x r₀ d' x' b) :
    Held L I i d' x' ∧ Filled L d x r₀ d' x' b := by
  have htake : ∀ r, x.ref (L.take d b) r = x.ref d r := fun r =>
    ref_take h.tidy f.inData f.free
  constructor
  · refine ⟨h.lt, by rw [f.fields]; exact h.allocated, ?_⟩
    have hstored := (h.owned.take f.inData f.free).store (e := d') (y := x') (r := r₀)
      (Set.mem_insert b ∅) h.lt h.allocated (by rw [f.fields]) ((htake r₀).trans f.old)
      f.new (fun r hr => (f.other hr).trans (htake r).symm) ?_
    · have hnone : (insert b ∅ \ {b} : Set ℕ) = ∅ := by simp
      rw [hnone] at hstored
      refine hstored.congr (fun c hc => ?_) fun _ _ => Iff.rfl
      rw [f.marks (Layout.lt_size_of_mem hc), marked_take f.inData (Layout.lt_size_of_mem hc)]
    · intro j c hj hc
      apply f.frame
      intro _ hind heq
      have hold' := (h.owned.take f.inData f.free).once hc (b := c) (q := (i, .indirect)) (by
        rw [heq]
        refine ⟨h.lt, ?_, ?_, fun hz => hind (BitVec.eq_of_toNat_eq hz)⟩
        · rw [update_self]
          exact h.allocated
        · rw [update_self]
          rfl)
      exact hj (Prod.mk.inj hold').1
  · refine ⟨⟨f.fields, ?_, ?_, ?_, ?_, ?_⟩, f.found, f.inData, f.other, fun hne => absurd f.old hne,
      ?_, ?_⟩
    · intro r hr
      exact f.other fun heq => hr (heq ▸ f.old)
    · intro r hr
      by_cases heq : r = r₀
      · rw [heq, f.found]
        exact ⟨f.inData, f.free⟩
      · exact absurd (f.other heq) hr
    · intro j hj
      have hblock := f.frame (c := L.iblock j) fun hd => absurd rfl (hd.ne_iblock hj)
      exact (inode_congr L hblock).trans (inode_take f.inData hj)
    · intro c hc hm
      exact (f.marks hc).mpr (.inl hm)
    · intro c hc hm hrefs
      apply f.data hc
      · rintro rfl
        rw [f.free] at hm
        cases hm
      · exact fun _ heq => hrefs .indirect heq.symm
    · intro k hk
      by_cases hlt : k < MAXFILE
      · have hk' : x.ref d (.data ⟨k, hlt⟩) ≠ 0 := hk
        apply f.data (h.inData hk')
          (h.tidy.ref_ne_of_unmarked (r := .data ⟨k, hlt⟩) f.inData f.free)
        exact fun _ heq => h.tidy.apart hk' (BitVec.eq_of_toNat_eq heq)
      · exact absurd (block_of_maxfile_le (Nat.le_of_not_lt hlt)) hk
    · intro _
      rw [f.frame fun _ _ => (h.tidy.ref_ne_of_unmarked f.inData f.free).symm, take_self]

/-- The inode with one address replaced. -/
def Dinode.setAddr (x : Dinode) (k : Fin (NDIRECT + 1)) (w : BitVec 32) : Dinode :=
  { x with addrs := update x.addrs k w }

theorem setAddr_self (k : Fin (NDIRECT + 1)) (w : BitVec 32) : (x.setAddr k w).addrs k = w := by
  simp [Dinode.setAddr]

theorem ref_direct (hk : k < NDIRECT) (hlt : k < MAXFILE) :
    x.ref d (.data ⟨k, hlt⟩) = x.addrs ⟨k, lt_of_direct hk⟩ := block_of_lt hk

theorem Tidy.fill_direct (h : Tidy L d x) (hb : L.InData b) (hfree : L.marked d b = false)
    (hk : k < NDIRECT) (hlt : k < MAXFILE) (hold : x.addrs ⟨k, lt_of_direct hk⟩ = 0) :
    Filling L d x (.data ⟨k, hlt⟩) (L.take d b)
      (x.setAddr ⟨k, lt_of_direct hk⟩ (BitVec.ofNat 32 b)) b where
  inData := hb
  free := hfree
  fields := rfl
  old := by rw [ref_direct hk, hold]
  new := by
    rw [ref_direct hk]
    exact update_self ..
  other {r} hr := by
    have hlast : Fin.last NDIRECT ≠ ⟨k, lt_of_direct hk⟩ := fun heq =>
      absurd (congrArg Fin.val heq) (Nat.ne_of_gt hk)
    have hind : (x.setAddr ⟨k, lt_of_direct hk⟩ (BitVec.ofNat 32 b)).indirect = x.indirect :=
      update_of_ne hlast ..
    rw [← ref_take h hb hfree]
    cases r with
    | indirect => exact hind
    | data j =>
      obtain ⟨j, hj⟩ := j
      show Dinode.block _ _ j = Dinode.block _ _ j
      have hne : j ≠ k := fun heq => hr (by subst heq; rfl)
      by_cases hdirect : j < NDIRECT
      · rw [block_of_lt hdirect, block_of_lt hdirect]
        exact update_of_ne (fun heq => hne (congrArg Fin.val heq)) ..
      · unfold Dinode.block
        rw [hind, dif_neg hdirect, dif_neg hdirect]
  frame _ := rfl

theorem getWord_zero (j : ℕ) : getWord (fun _ => 0) j = 0 := by
  simp [getWord, byteAt]

theorem fill_indirect (hb : L.InData b) (hfree : L.marked d b = false) (hold : x.indirect = 0) :
    Filling L d x .indirect (L.take d b)
      (x.setAddr (Fin.last NDIRECT) (BitVec.ofNat 32 b)) b where
  inData := hb
  free := hfree
  fields := rfl
  old := hold
  new := setAddr_self ..
  other {r} hr := by
    have hnew : (x.setAddr (Fin.last NDIRECT) (BitVec.ofNat 32 b)).indirect =
        BitVec.ofNat 32 b := setAddr_self ..
    cases r with
    | indirect => exact absurd rfl hr
    | data j =>
      obtain ⟨j, hj⟩ := j
      show Dinode.block _ _ j = Dinode.block _ _ j
      by_cases hdirect : j < NDIRECT
      · rw [block_of_lt hdirect, block_of_lt hdirect]
        exact update_of_ne (fun heq => absurd (congrArg Fin.val heq) hdirect.ne) ..
      · rw [block_of_no_indirect hdirect hold,
          block_of_indirect hdirect hj (hnew ▸ ofNat_ne_zero_of_inData hb), hnew,
          toNat_ofNat_of_inData hb, take_self, getWord_zero]
  frame _ := rfl

theorem Tidy.fill_entry (h : Tidy L d x) (hb : L.InData b) (hfree : L.marked d b = false)
    (hind : x.indirect ≠ 0) (hk : ¬k < NDIRECT) (hlt : k < MAXFILE)
    (hold : getWord (d x.indirect.toNat) (k - NDIRECT) = 0) :
    Filling L d x (.data ⟨k, hlt⟩) (update (L.take d b) x.indirect.toNat
      (setWord (d x.indirect.toNat) (k - NDIRECT) (BitVec.ofNat 32 b))) x b where
  inData := hb
  free := hfree
  fields := rfl
  old := (block_of_indirect hk hlt hind).trans hold
  new := by
    show Dinode.block _ _ k = _
    rw [block_of_indirect hk hlt hind, update_self]
    apply getWord_setWord_self
    have : k < 12 + 128 := hlt
    show 4 * (k - 12) + 3 < 512
    omega
  other {r} hr := by
    cases r with
    | indirect => rfl
    | data j =>
      obtain ⟨j, hj⟩ := j
      have hne : j ≠ k := fun heq => hr (by subst heq; rfl)
      show Dinode.block _ _ j = Dinode.block _ _ j
      by_cases hdirect : j < NDIRECT
      · rw [block_of_lt hdirect, block_of_lt hdirect]
      · rw [block_of_indirect hdirect hj hind, block_of_indirect hdirect hj hind,
          update_self]
        apply getWord_setWord_of_ne
        omega
  frame {c} hc := by
    apply update_of_ne
    rintro rfl
    exact hc (h.inData (r := .indirect) hind) hind rfl

/-! ## `balloc` and `bmap` -/

/-- Inode entry `ip` and the disk have changed. -/
def FsState.put (s : FsState) (ip : Ip) (d : Image) (x : Dinode) : FsState :=
  { s with disk := d, icache := update s.icache ip { s.icache ip with din := x } }

section

variable {s : FsState} {ip : Ip}

@[simp]
theorem put_disk : (s.put ip d x).disk = d := rfl

@[simp]
theorem put_din : ((s.put ip d x).icache ip).din = x := by
  simp [FsState.put]

@[simp]
theorem put_put : (s.put ip d x).put ip d' x' = s.put ip d' x' := by
  simp [FsState.put]

@[simp]
theorem put_self : s.put ip s.disk (s.icache ip).din = s := by
  simp [FsState.put]

variable {E : Panic → Prop}

theorem balloc_ends (hE : Tolerant E)
    (hQ : ∀ b, b < L.size → L.marked s.disk b = false →
      Q b { s with disk := L.take s.disk b }) : Ends E (balloc L) s Q := by
  apply Ends.read_bind
  cases hfind : (List.range L.size).find? fun b => !L.marked s.disk b with
  | none =>
    exact Ends.fail (hE.allows)
  | some b =>
    have hfree : L.marked s.disk b = false := by simpa using List.find?_some hfind
    have hlt := List.mem_range.mp (List.mem_of_find?_eq_some hfind)
    apply Ends.seq
    apply logWrite_ends hE
    apply Ends.seq
    apply logWrite_ends hE
    exact Ends.pure (hQ b hlt hfree)

theorem addrOrAlloc_ends (hE : Tolerant E) {k : Fin (NDIRECT + 1)}
    (h : Held L I i s.disk (s.icache ip).din)
    (hr : (s.icache ip).din.ref s.disk r = (s.icache ip).din.addrs k)
    (hfill : ∀ b, L.InData b → L.marked s.disk b = false → (s.icache ip).din.addrs k = 0 →
      Filling L s.disk (s.icache ip).din r (L.take s.disk b)
        ((s.icache ip).din.setAddr k (BitVec.ofNat 32 b)) b)
    (hQ : ∀ b d' x', Held L I i d' x' → Filled L s.disk (s.icache ip).din r d' x' b →
      Q b (s.put ip d' x')) : Ends E (addrOrAlloc L ip k) s Q := by
  apply Ends.read_bind
  by_cases hz : (s.icache ip).din.addrs k = 0
  · rw [if_pos hz]
    apply Ends.seq
    apply balloc_ends hE
    intro b hlt hfree
    obtain ⟨hheld, hfilled⟩ := h.fill (hfill b (h.tidy.inData_of_unmarked hlt hfree) hfree hz)
    apply Ends.modify_bind
    exact Ends.pure (hQ b _ _ hheld hfilled)
  · rw [if_neg hz]
    apply Ends.pure
    have hQ := hQ _ _ _ h (Filled.refl h (hr ▸ hz))
    rwa [put_self, hr] at hQ

theorem entryOrAlloc_ends (hE : Tolerant E) (h : Held L I i s.disk (s.icache ip).din)
    (hind : (s.icache ip).din.indirect ≠ 0) (hk : ¬k < NDIRECT) (hlt : k < MAXFILE)
    (hQ : ∀ b d', Held L I i d' (s.icache ip).din →
      Filled L s.disk (s.icache ip).din (.data ⟨k, hlt⟩) d' (s.icache ip).din b →
      Q b { s with disk := d' }) :
    Ends E (entryOrAlloc L (s.icache ip).din.indirect.toNat (k - NDIRECT)) s Q := by
  have hr := block_of_indirect (d := s.disk) hk hlt hind
  apply Ends.read_bind
  by_cases hz : getWord (s.disk (s.icache ip).din.indirect.toNat) (k - NDIRECT) = 0
  · rw [if_pos hz]
    apply Ends.seq
    apply balloc_ends hE
    intro b hsize hfree
    obtain ⟨hheld, hfilled⟩ := h.fill
      (h.tidy.fill_entry (h.tidy.inData_of_unmarked hsize hfree) hfree hind hk hlt hz)
    apply Ends.seq
    apply logWrite_ends hE
    exact Ends.pure (hQ b _ hheld hfilled)
  · rw [if_neg hz]
    apply Ends.pure
    have hQ := hQ _ _ h (Filled.refl h (r := .data ⟨k, hlt⟩) (fun heq => hz (hr ▸ heq)))
    rwa [show (s.icache ip).din.ref s.disk (.data ⟨k, hlt⟩) = _ from hr] at hQ

theorem Filled.block_of_ne (h : Filled L d x r₀ d' x' b) (hk : ∀ hlt, r₀ ≠ .data ⟨k, hlt⟩) :
    x'.block d' k = x.block d k := by
  by_cases hlt : k < MAXFILE
  · exact h.elsewhere (r := .data ⟨k, hlt⟩) (hk hlt).symm
  · have hle := Nat.le_of_not_lt hlt
    rw [block_of_maxfile_le hle, block_of_maxfile_le hle]

theorem Filled.mapped_direct (hk : k < NDIRECT) (hlt : k < MAXFILE)
    (h : Filled L d x (.data ⟨k, hlt⟩) d' x' b) : Mapped L d x k d' x' b where
  toGrows := h.toGrows
  lt := hlt
  found := h.found
  inData := h.inData
  elsewhere hj := h.block_of_ne fun _ heq => hj (by cases heq; rfl)
  indirect := by
    have hind : x'.indirect = x.indirect := h.elsewhere (r := .indirect) (by intro heq; cases heq)
    rw [hind]
    exact (or_iff_left (Nat.not_le.mpr hk)).symm
  same := h.same
  data := h.data
  zero := h.zero

theorem Filled.mapped_indirect {ind : ℕ} {x₁ : Dinode} {d₁ : Image} (hk : ¬k < NDIRECT)
    (hlt : k < MAXFILE) (h₁ : Filled L d x .indirect d₁ x₁ ind)
    (h₂ : Filled L d₁ x₁ (.data ⟨k, hlt⟩) d' x' b) : Mapped L d x k d' x' b where
  toGrows := h₁.toGrows.trans h₂.toGrows
  lt := hlt
  found := h₂.found
  inData := h₂.inData
  elsewhere {j} hj := by
    have hfirst := h₁.block_of_ne (k := j) fun _ heq => by cases heq
    exact (h₂.block_of_ne fun _ heq => hj (by cases heq; rfl)).trans hfirst
  indirect := by
    have hne : x₁.indirect ≠ 0 := ne_zero_of_inData (h₁.found ▸ h₁.inData)
    have hind : x'.indirect = x₁.indirect := h₂.elsewhere (r := .indirect) (by intro heq; cases heq)
    rw [hind]
    exact iff_of_true hne (.inr (Nat.le_of_not_lt hk))
  same hne := by
    have hind : x.indirect ≠ 0 := fun hz => hne (block_of_no_indirect hk hz)
    obtain ⟨rfl, rfl⟩ := h₁.same hind
    exact h₂.same hne
  data {j} hj := by
    have hkeep := h₁.block_of_ne (k := j) fun _ heq => by cases heq
    rw [← h₁.data hj]
    rw [← hkeep] at hj ⊢
    exact h₂.data hj
  zero hz := by
    apply h₂.zero
    exact (h₁.block_of_ne fun _ heq => by cases heq).trans hz

theorem bmap_ends (hE : Tolerant E) {bn : ℕ} (h : Held L I i s.disk (s.icache ip).din)
    (hQ : ∀ b d' x', Held L I i d' x' → Mapped L s.disk (s.icache ip).din bn d' x' b →
      Q b (s.put ip d' x')) : Ends E (bmap L ip bn) s Q := by
  unfold bmap bmapWith
  by_cases hdirect : bn < NDIRECT
  · have hlt : bn < MAXFILE := hdirect.trans (by decide)
    rw [dif_pos hdirect]
    apply addrOrAlloc_ends hE h (ref_direct hdirect hlt)
    · intro b hb hfree hz
      exact h.tidy.fill_direct hb hfree hdirect hlt hz
    · intro b d' x' hheld hfilled
      exact hQ b d' x' hheld (hfilled.mapped_direct hdirect hlt)
  · rw [dif_neg hdirect]
    by_cases hentry : bn - NDIRECT < NINDIRECT
    · have hlt : bn < MAXFILE := by
        have : bn - 12 < 128 := hentry
        show bn < 140
        omega
      rw [if_pos hentry]
      apply Ends.seq
      apply addrOrAlloc_ends hE h (r := .indirect) rfl
      · intro b hb hfree hz
        exact fill_indirect hb hfree hz
      · intro ind d₁ x₁ hheld hfilled
        have hind : ind = ((s.put ip d₁ x₁).icache ip).din.indirect.toNat := by
          rw [put_din]
          exact hfilled.found.symm
        have hne : ((s.put ip d₁ x₁).icache ip).din.indirect ≠ 0 :=
          ne_zero_of_inData (hind ▸ hfilled.inData)
        rw [hind]
        apply entryOrAlloc_ends hE (by rwa [put_din, put_disk]) hne hdirect hlt
        intro b d' hheld' hfilled'
        rw [put_din, put_disk] at hfilled'
        rw [put_din] at hheld'
        exact hQ b d' x₁ hheld' (hfilled.mapped_indirect hdirect hlt hfilled')
    · rw [if_neg hentry]
      exact Ends.fail (hE.allows)

end

end

end Xv6Threads.Fs
