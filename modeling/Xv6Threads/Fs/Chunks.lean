/-
# A chunk of `filewrite` fits in one operation

`filewrite` cuts a write into chunks so that each of them, in an operation of its own,
passes at most `MAXOPBLOCKS` block numbers to `log_write`. This module counts them: for
each block of the file that the chunk touches its number and, if it is new, the block of
the free map with its bit; the same two for the indirect block; and the block of the inode.
A chunk that starts inside a block touches one block more, but that one is not new.
-/

import Mathlib.Order.Interval.Finset.Nat
import Xv6Threads.Fs.Content
import Xv6Threads.Fs.Traced

namespace Xv6Threads.Fs

open Lib Command
open Xv6Threads.Log (Block getWord setWord)
open Function (update)

variable {Q : ℕ → FsState × List ℕ → Prop} {ind : ℕ}

/-- `max` of `filewrite`. -/
def maxChunk : ℕ := (MAXOPBLOCKS - 1 - 1 - 2) / 2 * 512

/-- How many blocks the map does not mark. -/
def Layout.freeBlocks (L : Layout) (d : Image) : ℕ :=
  ((Finset.range L.size).filter fun c => L.marked d c = false).card

/-- How many blocks of a file the bytes from `off` to `off + n` lie in. -/
def turns (off n : ℕ) : ℕ := if n = 0 then 0 else (off % BSIZE + n - 1) / BSIZE + 1

/-- Block `k` of a file has some of the bytes from `off` up to `off + n`. -/
def Covers (off n k : ℕ) : Prop := 0 < n ∧ off / BSIZE ≤ k ∧ k ≤ (off + n - 1) / BSIZE

instance (off n : ℕ) : DecidablePred (Covers off n) := fun k =>
  inferInstanceAs (Decidable (0 < n ∧ off / BSIZE ≤ k ∧ k ≤ (off + n - 1) / BSIZE))

/-- The places for the bytes from `off` up to `off + n`: those of their blocks and, if one of
them is listed there, that of the indirect block. -/
def places (off n : ℕ) : Finset Place :=
  (Finset.univ.filter fun k : Fin MAXFILE => Covers off n k).image .data ∪
    if 0 < n ∧ NDIRECT ≤ (off + n - 1) / BSIZE then {.indirect} else ∅

section

variable {L : Layout} {d d' : Image} {x x' : Dinode} {r₀ : Place} {b : ℕ}

theorem Filling.freeBlocks (f : Filling L d x r₀ d' x' b) :
    L.freeBlocks d' + 1 = L.freeBlocks d := by
  have hmem : b ∈ (Finset.range L.size).filter fun c => L.marked d c = false := by
    rw [Finset.mem_filter, Finset.mem_range]
    exact ⟨f.inData.2, f.free⟩
  have hset : (Finset.range L.size).filter (fun c => L.marked d' c = false) =
      ((Finset.range L.size).filter fun c => L.marked d c = false).erase b := by
    ext c
    simp only [Finset.mem_erase, Finset.mem_filter, Finset.mem_range]
    by_cases hc : c < L.size
    · have hmarks := f.marks hc
      simp only [← Bool.not_eq_true, hmarks]
      tauto
    · simp [hc]
  rw [Layout.freeBlocks, hset, Finset.card_erase_add_one hmem]
  rfl

theorem freeBlocks_update (hb : L.InData b) (data : Block) :
    L.freeBlocks (update d b data) = L.freeBlocks d := by
  rw [Layout.freeBlocks, Layout.freeBlocks]
  congr 1
  apply Finset.filter_congr
  intro c hc
  rw [marked_update hb data (Finset.mem_range.mp hc)]

/-- Data blocks may be written. -/
theorem Tidy.update (h : Tidy L d x) {k : ℕ} (hk : x.block d k ≠ 0) (data : Block) :
    Tidy L (update d (x.block d k).toNat data) x := by
  have hlt : k < MAXFILE := Nat.lt_of_not_le fun hle => hk (block_of_maxfile_le hle)
  have hdata : L.InData (x.block d k).toNat := h.inData (r := .data ⟨k, hlt⟩) hk
  have href := h.ref_update hk data
  refine ⟨?_, ?_, ?_, ?_⟩
  · intro c hc
    rw [marked_update hdata data (hc.trans_le L.data_le)]
    exact h.reserved hc
  · intro r hr
    rw [href] at hr ⊢
    exact h.inData hr
  · intro r hr
    rw [href] at hr ⊢
    rw [marked_update hdata data (h.inData hr).2]
    exact h.marked hr
  · intro j hj
    rw [href] at hj
    rw [href, href]
    exact h.apart hj

end

/-! ## The account -/

/-- How many of the places hold no block. -/
def Dinode.missing (d : Image) (x : Dinode) (T : Finset Place) : ℕ :=
  (T.filter fun r => x.ref d r = 0).card

/-- Places in `T` may have got new blocks. -/
structure Fills (L : Layout) (T : Finset Place) (d : Image) (x : Dinode) (d' : Image)
    (x' : Dinode) : Prop where
  tidy : Tidy L d' x'
  fields : x' = { x with addrs := x'.addrs }
  kept : ∀ {r}, x.ref d r ≠ 0 → x'.ref d' r = x.ref d r
  account : L.freeBlocks d + x'.missing d' T = L.freeBlocks d' + x.missing d T

section

variable {L : Layout} {T : Finset Place} {d d' d'' : Image} {x x' x'' : Dinode} {r₀ : Place}
variable {b k : ℕ}

theorem Dinode.missing_congr (h : ∀ r, x'.ref d' r = x.ref d r) :
    x'.missing d' T = x.missing d T := by
  simp only [Dinode.missing, h]

theorem Dinode.missing_pos (hr : r₀ ∈ T) (hz : x.ref d r₀ = 0) : 0 < x.missing d T :=
  Finset.card_pos.mpr ⟨r₀, Finset.mem_filter.mpr ⟨hr, hz⟩⟩

theorem Filling.missing (f : Filling L d x r₀ d' x' b) (hr : r₀ ∈ T) :
    x'.missing d' T + 1 = x.missing d T := by
  have hmem : r₀ ∈ T.filter fun r => x.ref d r = 0 := Finset.mem_filter.mpr ⟨hr, f.old⟩
  have hset : (T.filter fun r => x'.ref d' r = 0) = (T.filter fun r => x.ref d r = 0).erase r₀ := by
    ext r
    rw [Finset.mem_erase, Finset.mem_filter, Finset.mem_filter]
    by_cases hrr : r = r₀
    · subst hrr
      have hnew : x'.ref d' r ≠ 0 := by
        rw [f.new]
        exact ofNat_ne_zero_of_inData f.inData
      exact iff_of_false (fun hr => hnew hr.2) fun hr => hr.1 rfl
    · simp [f.other hrr, hrr]
  rw [Dinode.missing, hset, Finset.card_erase_add_one hmem]
  rfl

theorem Fills.refl (h : Tidy L d x) : Fills L T d x d x := ⟨h, rfl, fun _ => rfl, rfl⟩

theorem Fills.of_filling (h : Tidy L d x) (hr : r₀ ∈ T) (f : Filling L d x r₀ d' x' b) :
    Fills L T d x d' x' := by
  refine ⟨h.fill f, f.fields, fun hr => f.other fun heq => hr (heq ▸ f.old), ?_⟩
  have hfree := f.freeBlocks
  have hmissing := f.missing hr
  omega

theorem Fills.trans (h : Fills L T d x d' x') (h' : Fills L T d' x' d'' x'') :
    Fills L T d x d'' x'' := by
  refine ⟨h'.tidy, ?_, fun hr => ?_, ?_⟩
  · rw [h'.fields, h.fields]
  · rw [h'.kept (by rwa [h.kept hr]), h.kept hr]
  · have hfirst := h.account
    have hsecond := h'.account
    omega

theorem Fills.update (h : Fills L T d x d' x') (hk : x'.block d' k ≠ 0) (data : Block) :
    Fills L T d x (update d' (x'.block d' k).toNat data) x' := by
  have hlt : k < MAXFILE := Nat.lt_of_not_le fun hle => hk (block_of_maxfile_le hle)
  have hdata : L.InData (x'.block d' k).toNat := h.tidy.inData (r := .data ⟨k, hlt⟩) hk
  refine ⟨h.tidy.update hk data, h.fields, fun hr => ?_, ?_⟩
  · rw [h.tidy.ref_update hk, h.kept hr]
  · rw [Dinode.missing_congr (h.tidy.ref_update hk data), freeBlocks_update hdata]
    exact h.account

theorem Fills.full (h : Fills L T d x d' x') :
    L.freeBlocks d' < x'.missing d' T ↔ L.freeBlocks d < x.missing d T := by
  have haccount := h.account
  omega

/-- A place that has a block now, and had none, is not missing any more. -/
theorem Fills.fewer (h : Fills L T d x d' x') {A : Finset Place} (hr : r₀ ∈ A)
    (hnow : x'.ref d' r₀ ≠ 0) :
    x'.missing d' A + (if x.ref d r₀ = 0 then 1 else 0) ≤ x.missing d A := by
  have hsub : (A.filter fun r => x'.ref d' r = 0) ⊆
      (A.filter fun r => x.ref d r = 0).erase r₀ := by
    intro r hr
    obtain ⟨hmem, hz⟩ := Finset.mem_filter.mp hr
    rw [Finset.mem_erase, Finset.mem_filter]
    refine ⟨?_, hmem, ?_⟩
    · rintro rfl
      exact hnow hz
    · by_contra hne
      exact hne ((h.kept hne).symm.trans hz)
  have hle := Finset.card_le_card hsub
  split_ifs with hz
  · have hmem : r₀ ∈ A.filter fun r => x.ref d r = 0 := Finset.mem_filter.mpr ⟨hr, hz⟩
    exact (Nat.succ_le_succ hle).trans (Finset.card_erase_add_one hmem).le
  · exact hle.trans Finset.card_erase_le

end

/-! ## Allocation -/

section

variable (L : Layout)

/-- The indirect block, or the block of the map with its bit. -/
def OfIndirect (x : Dinode) (c : ℕ) : Prop :=
  x.indirect ≠ 0 ∧ (c = x.indirect.toNat ∨ c = L.bblock x.indirect.toNat)

/-- What `bmap` does for block `bn` and what it passes to `log_write`: the trace grows from
`tr` to `tr'`. -/
structure Maps (T : Finset Place) (d : Image) (x : Dinode) (tr : List ℕ) (bn : ℕ) (d' : Image)
    (x' : Dinode) (tr' : List ℕ) (b : ℕ) : Prop extends Fills L T d x d' x' where
  found : (x'.block d' bn).toNat = b
  nonzero : x'.block d' bn ≠ 0
  logged : ∀ c ∈ tr', c ∈ tr ∨ OfIndirect L x' c ∨ x.block d bn = 0 ∧ (c = b ∨ c = L.bblock b)

variable {L} {E : Panic → Prop} {s : FsState} {tr : List ℕ} {ip : Ip} {r : Place}

theorem logWrite_traced {c : ℕ} {data : Block} {Q : Unit → FsState × List ℕ → Prop}
    (hop : 1 ≤ s.outstanding)
    (hQ : Q () ({ s with disk := update s.disk c data }, c :: tr)) :
    Ends E (Traced.logWrite c data) (s, tr) Q := by
  apply Traced.lift_bind_ends
  apply Ends.check_bind
  · intro _
    exact Ends.modify (Ends.modify hQ)
  · intro hnone
    exact absurd hop hnone

theorem balloc_traced (hop : 1 ≤ s.outstanding)
    (hfull : L.freeBlocks s.disk = 0 → E .ballocOutOfBlocks)
    (hQ : ∀ b, b < L.size → L.marked s.disk b = false →
      Q b ({ s with disk := L.take s.disk b }, b :: L.bblock b :: tr)) :
    Ends E (Traced.balloc L) (s, tr) Q := by
  apply Traced.lift_bind_ends
  apply Ends.read
  cases hfind : (List.range L.size).find? fun b => !L.marked s.disk b with
  | none =>
    apply Ends.fail (hfull _)
    rw [Layout.freeBlocks, Finset.card_eq_zero, Finset.filter_eq_empty_iff]
    intro c hc
    have hmarked := List.find?_eq_none.mp hfind c (List.mem_range.mpr (Finset.mem_range.mp hc))
    simpa using hmarked
  | some b =>
    have hfree : L.marked s.disk b = false := by simpa using List.find?_some hfind
    have hlt := List.mem_range.mp (List.mem_of_find?_eq_some hfind)
    apply Ends.seq
    apply logWrite_traced hop
    apply Ends.seq
    apply logWrite_traced
    · exact hop
    exact Ends.pure (hQ b hlt hfree)

theorem addrOrAlloc_traced {k : Fin (NDIRECT + 1)} (hop : 1 ≤ s.outstanding)
    (h : Tidy L s.disk (s.icache ip).din)
    (hfull : (s.icache ip).din.addrs k = 0 → L.freeBlocks s.disk = 0 → E .ballocOutOfBlocks)
    (hold : (s.icache ip).din.addrs k ≠ 0 → Q ((s.icache ip).din.addrs k).toNat (s, tr))
    (hnew : ∀ b, L.InData b → L.marked s.disk b = false → (s.icache ip).din.addrs k = 0 →
      Q b (s.put ip (L.take s.disk b) ((s.icache ip).din.setAddr k (BitVec.ofNat 32 b)),
        b :: L.bblock b :: tr)) :
    Ends E (Traced.addrOrAlloc L ip k) (s, tr) Q := by
  apply Traced.lift_bind_ends
  apply Ends.read
  by_cases hz : (s.icache ip).din.addrs k = 0
  · rw [if_pos hz]
    apply Ends.seq
    apply balloc_traced hop (hfull hz)
    intro b hlt hfree
    apply Traced.lift_bind_ends
    apply Ends.modify
    exact Ends.pure (hnew b (h.inData_of_unmarked hlt hfree) hfree hz)
  · rw [if_neg hz]
    exact Ends.pure (hold hz)

theorem entryOrAlloc_traced {j : ℕ} {x : Dinode} (hop : 1 ≤ s.outstanding) (h : Tidy L s.disk x)
    (hfull : getWord (s.disk ind) j = 0 → L.freeBlocks s.disk = 0 → E .ballocOutOfBlocks)
    (hold : getWord (s.disk ind) j ≠ 0 → Q (getWord (s.disk ind) j).toNat (s, tr))
    (hnew : ∀ b, L.InData b → L.marked s.disk b = false → getWord (s.disk ind) j = 0 →
      Q b ({ s with
        disk := update (L.take s.disk b) ind (setWord (s.disk ind) j (BitVec.ofNat 32 b)) },
        ind :: b :: L.bblock b :: tr)) :
    Ends E (Traced.entryOrAlloc L ind j) (s, tr) Q := by
  apply Traced.lift_bind_ends
  apply Ends.read
  by_cases hz : getWord (s.disk ind) j = 0
  · rw [if_pos hz]
    apply Ends.seq
    apply balloc_traced hop (hfull hz)
    intro b hlt hfree
    apply Ends.seq
    apply logWrite_traced
    · exact hop
    exact Ends.pure (hnew b (h.inData_of_unmarked hlt hfree) hfree hz)
  · rw [if_neg hz]
    exact Ends.pure (hold hz)

/-! ## `bmap` -/

variable {d d' d₁ : Image} {x x' x₁ : Dinode} {T : Finset Place} {tr' : List ℕ} {b bn : ℕ}

theorem Maps.refl (h : Tidy L d x) (hbn : x.block d bn ≠ 0) :
    Maps L T d x tr bn d x tr (x.block d bn).toNat :=
  ⟨.refl h, rfl, hbn, fun _ hc => .inl hc⟩

/-- A place for data is filled. -/
theorem Maps.of_filling (h : Tidy L d x) {hlt : bn < MAXFILE} (hT : .data ⟨bn, hlt⟩ ∈ T)
    (f : Filling L d x (.data ⟨bn, hlt⟩) d' x' b)
    (hlogged : ∀ c ∈ tr', c ∈ b :: L.bblock b :: tr ∨ OfIndirect L x' c) :
    Maps L T d x tr bn d' x' tr' b := by
  have hnew : x'.block d' bn = BitVec.ofNat 32 b := f.new
  refine ⟨.of_filling h hT f, f.found, ?_, fun c hc => ?_⟩
  · rw [hnew]
    exact ofNat_ne_zero_of_inData f.inData
  · rcases hlogged c hc with hmem | hof
    · rw [List.mem_cons, List.mem_cons, ← or_assoc] at hmem
      exact hmem.elim (fun hb => .inr (.inr ⟨f.old, hb⟩)) .inl
    · exact .inr (.inl hof)

/-- The indirect block has been allocated before. -/
theorem Maps.of_indirect (hbn : ¬bn < NDIRECT) (f : Filling L d x .indirect d₁ x₁ ind)
    (hfirst : Fills L T d x d₁ x₁)
    (h : Maps L T d₁ x₁ (ind :: L.bblock ind :: tr) bn d' x' tr' b) :
    Maps L T d x tr bn d' x' tr' b := by
  have hnum : x₁.indirect.toNat = ind := f.found
  have hne : x₁.indirect ≠ 0 := ne_zero_of_inData (hnum ▸ f.inData)
  have hkept : x'.indirect = x₁.indirect := h.kept (r := .indirect) hne
  refine ⟨hfirst.trans h.toFills, h.found, h.nonzero, fun c hc => ?_⟩
  have hof (hc : c = ind ∨ c = L.bblock ind) : OfIndirect L x' c := by
    rw [OfIndirect, hkept, hnum]
    exact ⟨hne, hc⟩
  rcases h.logged c hc with hmem | hold | ⟨-, hnew⟩
  · rw [List.mem_cons, List.mem_cons, ← or_assoc] at hmem
    exact hmem.elim (fun hc => .inr (.inl (hof hc))) .inl
  · exact .inr (.inl hold)
  · exact .inr (.inr ⟨block_of_no_indirect hbn f.old, hnew⟩)

theorem entry_traced (hop : 1 ≤ s.outstanding) (h : Tidy L s.disk x) (hind : x.indirect ≠ 0)
    (hnum : x.indirect.toNat = ind) (hbn : ¬bn < NDIRECT) (hlt : bn < MAXFILE)
    (hT : .data ⟨bn, hlt⟩ ∈ T)
    (hfull : L.freeBlocks s.disk < x.missing s.disk T → E .ballocOutOfBlocks)
    (hQ : ∀ b d' tr', Maps L T s.disk x tr bn d' x tr' b → Q b ({ s with disk := d' }, tr')) :
    Ends E (Traced.entryOrAlloc L ind (bn - NDIRECT)) (s, tr) Q := by
  subst hnum
  have hblock := block_of_indirect (d := s.disk) hbn hlt hind
  apply entryOrAlloc_traced hop h
  · intro hz hnone
    exact hfull (hnone ▸ Dinode.missing_pos hT (hblock.trans hz))
  · intro hne
    rw [← hblock] at hne ⊢
    exact hQ _ s.disk tr (Maps.refl h hne)
  · intro b hb hfree hz
    apply hQ b _ _ (Maps.of_filling h hT (h.fill_entry hb hfree hind hbn hlt hz) _)
    intro c hc
    rcases List.mem_cons.mp hc with rfl | hc
    · exact .inr ⟨hind, .inl rfl⟩
    · exact .inl hc

theorem bmap_traced (hop : 1 ≤ s.outstanding) (h : Tidy L s.disk (s.icache ip).din)
    (hlt : bn < MAXFILE) (hT : .data ⟨bn, hlt⟩ ∈ T) (hindT : NDIRECT ≤ bn → .indirect ∈ T)
    (hfull : L.freeBlocks s.disk < (s.icache ip).din.missing s.disk T → E .ballocOutOfBlocks)
    (hQ : ∀ b d' x' tr', Maps L T s.disk (s.icache ip).din tr bn d' x' tr' b →
      Q b (s.put ip d' x', tr')) :
    Ends E (Traced.bmap L ip bn) (s, tr) Q := by
  unfold Traced.bmap bmapWith
  by_cases hdirect : bn < NDIRECT
  · have hblock := block_of_lt (x := (s.icache ip).din) (d := s.disk) hdirect
    rw [dif_pos hdirect]
    apply addrOrAlloc_traced hop h
    · intro hz hnone
      exact hfull (hnone ▸ Dinode.missing_pos hT (hblock.trans hz))
    · intro hne
      rw [← hblock] at hne ⊢
      have hdone := hQ _ _ _ tr (Maps.refl h hne)
      rwa [put_self] at hdone
    · intro b hb hfree hz
      have f := h.fill_direct hb hfree hdirect hlt hz
      exact hQ _ _ _ _ (Maps.of_filling h hT f fun _ hc => .inl hc)
  · have hentry : bn - NDIRECT < NINDIRECT := by
      have : bn < 140 := hlt
      show bn - 12 < 128
      omega
    have hindT := hindT (Nat.le_of_not_lt hdirect)
    rw [dif_neg hdirect, if_pos hentry]
    apply Ends.seq
    apply addrOrAlloc_traced hop h
    · intro hz hnone
      exact hfull (hnone ▸ Dinode.missing_pos hindT hz)
    · intro hind
      apply entry_traced hop h hind rfl hdirect hlt hT hfull
      intro b d' tr' hmaps
      have hdone := hQ b d' _ tr' hmaps
      rwa [show s.put ip d' (s.icache ip).din = { s with disk := d' } by simp [FsState.put]]
        at hdone
    · intro ind hb hfree hz
      have f : Filling L s.disk (s.icache ip).din .indirect _ _ ind := fill_indirect hb hfree hz
      have hfirst := Fills.of_filling h hindT f
      have hnum : ((s.icache ip).din.setAddr (Fin.last NDIRECT)
        (BitVec.ofNat 32 ind)).indirect.toNat = ind := f.found
      apply entry_traced (s := s.put ip _ _) hop hfirst.tidy (ne_zero_of_inData (hnum ▸ hb)) hnum
        hdirect hlt hT
      · intro hless
        exact hfull (hfirst.full.mp hless)
      · exact fun b d' tr' hmaps => hQ b d' _ tr' (hmaps.of_indirect hdirect f hfirst)

/-! ## The loop of `writei` -/

variable {src : ℕ → Byte} {fuel off tot n : ℕ}

theorem data_mem_places {k : Fin MAXFILE} : Place.data k ∈ places off n ↔ Covers off n k := by
  rw [places, Finset.mem_union, Finset.mem_image]
  split
  · simp
  · simp

theorem indirect_mem_places :
    Place.indirect ∈ places off n ↔ 0 < n ∧ NDIRECT ≤ (off + n - 1) / BSIZE := by
  rw [places, Finset.mem_union, Finset.mem_image]
  split
  next h => simpa using h
  next h => simpa using h

theorem turns_step (hn : n ≠ 0) :
    turns off n =
      turns (off + min n (BSIZE - off % BSIZE)) (n - min n (BSIZE - off % BSIZE)) + 1 := by
  have hmod : off % 512 < 512 := Nat.mod_lt _ (by decide)
  show turns off n = turns (off + min n (512 - off % 512)) (n - min n (512 - off % 512)) + 1
  rw [turns, turns, if_neg hn]
  by_cases hlast : n ≤ 512 - off % 512
  · rw [min_eq_left hlast, if_pos (Nat.sub_self n)]
    show (off % 512 + n - 1) / 512 + 1 = 0 + 1
    omega
  · rw [min_eq_right (by omega), if_neg (by omega)]
    show (off % 512 + n - 1) / 512 + 1 =
      ((off + (512 - off % 512)) % 512 + (n - (512 - off % 512)) - 1) / 512 + 1 + 1
    omega

theorem div_lt_maxfile (hn : n ≠ 0) (hfit : off + n ≤ MAXFILE * BSIZE) : off / BSIZE < MAXFILE := by
  have hfit' : off + n ≤ 140 * 512 := hfit
  show off / 512 < 140
  omega

/-- The places of one turn are among those of the whole write. -/
theorem covers_first (hn : n ≠ 0) : Covers off n (off / BSIZE) := by
  refine ⟨Nat.pos_of_ne_zero hn, le_rfl, ?_⟩
  show off / 512 ≤ (off + n - 1) / 512
  omega

theorem places_turn :
    places (off + min n (BSIZE - off % BSIZE)) (n - min n (BSIZE - off % BSIZE)) ⊆
      places off n := by
  have hmod : off % 512 < 512 := Nat.mod_lt _ (by decide)
  intro r hr
  cases r with
  | indirect =>
    rw [indirect_mem_places] at hr ⊢
    obtain ⟨hpos, hle⟩ := hr
    change 0 < n - min n (512 - off % 512) at hpos
    change 12 ≤ (off + min n (512 - off % 512) + (n - min n (512 - off % 512)) - 1) / 512 at hle
    refine ⟨by omega, ?_⟩
    show 12 ≤ (off + n - 1) / 512
    omega
  | data k =>
    rw [data_mem_places] at hr ⊢
    obtain ⟨hpos, hlo, hhi⟩ := hr
    change 0 < n - min n (512 - off % 512) at hpos
    change (off + min n (512 - off % 512)) / 512 ≤ k at hlo
    change k ≤ (off + min n (512 - off % 512) + (n - min n (512 - off % 512)) - 1) / 512 at hhi
    refine ⟨by omega, ?_, ?_⟩
    · show off / 512 ≤ k
      omega
    · show k ≤ (off + n - 1) / 512
      omega

variable (L) in
/-- The trace grew by numbers from `S` and those of the indirect block. -/
def LoggedIn (x : Dinode) (S : Finset ℕ) (tr tr' : List ℕ) : Prop :=
  ∀ c ∈ tr', c ∈ tr ∨ c ∈ S ∨ OfIndirect L x c

theorem OfIndirect.kept {c : ℕ} (h : OfIndirect L x c)
    (hkept : x.indirect ≠ 0 → x'.indirect = x.indirect) : OfIndirect L x' c := by
  rw [OfIndirect, hkept h.1]
  exact h

/-- A turn passes the number of its block to `log_write` and, if the block is new, that of the
block of the map. -/
theorem Maps.loggedIn {S : Finset ℕ} {tr'' : List ℕ} (h : Maps L T d x tr bn d₁ x₁ tr' b)
    (hkept : x₁.indirect ≠ 0 → x'.indirect = x₁.indirect)
    (hrest : LoggedIn L x' S (b :: tr') tr'') :
    ∃ S', S'.card ≤ S.card + (if x.block d bn = 0 then 1 else 0) + 1 ∧
      LoggedIn L x' S' tr tr'' := by
  refine ⟨insert b (if x.block d bn = 0 then insert (L.bblock b) S else S), ?_, ?_⟩
  · apply (Finset.card_insert_le ..).trans
    split_ifs
    · exact Nat.succ_le_succ (Finset.card_insert_le ..)
    · exact le_rfl
  have hsub : S ⊆ if x.block d bn = 0 then insert (L.bblock b) S else S := by
    split_ifs
    · exact Finset.subset_insert ..
    · exact subset_rfl
  intro c hc
  rw [Finset.mem_insert]
  rcases hrest c hc with hmem | hS | hof
  · rcases List.mem_cons.mp hmem with rfl | hmem
    · exact .inr (.inl (.inl rfl))
    · rcases h.logged c hmem with hold | hof | ⟨hz, rfl | rfl⟩
      · exact .inl hold
      · exact .inr (.inr (hof.kept hkept))
      · exact .inr (.inl (.inl rfl))
      · rw [if_pos hz]
        exact .inr (.inl (.inr (Finset.mem_insert_self ..)))
  · exact .inr (.inl (.inr (hsub hS)))
  · exact .inr (.inr hof)

/-- The loop fills places of `T`. It passes one number to `log_write` in each turn, and one
more for each block of the file that is new. -/
theorem writeLoop_traced {Q : Unit → FsState × List ℕ → Prop} (hfuel : n ≤ fuel)
    (hfit : off + n ≤ MAXFILE * BSIZE) (hop : 1 ≤ s.outstanding)
    (h : Tidy L s.disk (s.icache ip).din) (hT : places off n ⊆ T)
    (hfull : L.freeBlocks s.disk < (s.icache ip).din.missing s.disk T → E .ballocOutOfBlocks)
    (hQ : ∀ d' x' S tr', Fills L T s.disk (s.icache ip).din d' x' →
      S.card + x'.missing d' (T.erase .indirect) ≤
        turns off n + (s.icache ip).din.missing s.disk (T.erase .indirect) →
      LoggedIn L x' S tr tr' → Q () (s.put ip d' x', tr')) :
    Ends E (Traced.writeLoop L ip src fuel off tot n) (s, tr) Q := by
  induction fuel generalizing s tr off tot n
  all_goals
    have hnone := hQ s.disk _ ∅ tr (.refl h) (Nat.add_le_add_right (Nat.zero_le _) _)
      fun _ hc => .inl hc
    rw [put_self] at hnone
  case zero => exact Ends.pure hnone
  case succ fuel ih =>
    unfold Traced.writeLoop writeLoopWith
    by_cases hn : n = 0
    · rw [if_pos hn]
      exact Ends.pure hnone
    · have hpos : 0 < 512 - off % 512 := Nat.sub_pos_of_lt (Nat.mod_lt _ (by decide))
      have hsteps : turns off n = _ := turns_step hn
      have hlt := div_lt_maxfile hn hfit
      have hdata : .data ⟨off / BSIZE, hlt⟩ ∈ T := hT (data_mem_places.mpr (covers_first hn))
      have hindT (hle : NDIRECT ≤ off / BSIZE) : .indirect ∈ T :=
        hT (indirect_mem_places.mpr ⟨Nat.pos_of_ne_zero hn, hle.trans (covers_first hn).2.2⟩)
      rw [if_neg hn]
      apply Ends.seq
      apply bmap_traced hop h hlt hdata hindT hfull
      intro b d₁ x₁ tr₁ hmaps
      obtain rfl := hmaps.found
      apply Traced.lift_bind_ends
      apply Ends.read
      apply Ends.seq
      apply logWrite_traced
      · exact hop
      have hturn (data : Block) := hmaps.update hmaps.nonzero data
      have hfewer (data : Block) :
          _ + (if (s.icache ip).din.block s.disk (off / BSIZE) = 0 then 1 else 0) ≤ _ :=
        (hturn data).fewer (A := T.erase .indirect)
          (Finset.mem_erase.mpr ⟨(by intro hno; cases hno), hdata⟩)
          ((hmaps.tidy.ref_update hmaps.nonzero data _).trans_ne hmaps.nonzero)
      apply ih (s := s.put ip (update d₁ _ _) x₁)
      · show n - min n (512 - off % 512) ≤ fuel
        omega
      · have hfit' : off + n ≤ 140 * 512 := hfit
        show off + min n (512 - off % 512) + (n - min n (512 - off % 512)) ≤ 140 * 512
        omega
      · exact hop
      · rw [put_din]
        exact (hturn _).tidy
      · exact places_turn.trans hT
      · rw [put_din]
        exact fun hless => hfull ((hturn _).full.mp hless)
      · rw [put_din]
        intro d' x' S tr' hrest hcard hlogged
        obtain ⟨S', hS', hlogged'⟩ := hmaps.loggedIn (hrest.kept (r := .indirect)) hlogged
        rw [put_put]
        apply hQ d' x' S' tr' ((hturn _).trans hrest) _ hlogged'
        have hless := (Nat.add_le_add_right hcard _).trans
          ((Nat.add_assoc ..).le.trans (Nat.add_le_add_left (hfewer _) _))
        omega

theorem LoggedIn.card_le {S : Finset ℕ} {tr : List ℕ} (h : LoggedIn L x S [] tr) (c : ℕ) :
    (c :: tr).toFinset.card ≤ S.card + 3 := by
  have hsub : (c :: tr).toFinset ⊆
      insert c (insert x.indirect.toNat (insert (L.bblock x.indirect.toNat) S)) := by
    intro e he
    simp only [Finset.mem_insert]
    rcases List.mem_cons.mp (List.mem_toFinset.mp he) with rfl | he
    · exact .inl rfl
    · rcases h e he with hnone | hmem | ⟨-, rfl | rfl⟩
      · cases hnone
      · exact .inr (.inr (.inr hmem))
      · exact .inr (.inl rfl)
      · exact .inr (.inr (.inl rfl))
  apply (Finset.card_le_card hsub).trans
  apply (Finset.card_insert_le ..).trans
  apply Nat.succ_le_succ
  apply (Finset.card_insert_le ..).trans
  exact Nat.succ_le_succ (Finset.card_insert_le ..)

/-- A chunk may lie in four blocks, but the one that it starts inside of is not new. -/
theorem missing_chunk (off : ℕ) (hn : n ≤ maxChunk)
    (hold : off % BSIZE ≠ 0 → x.block d (off / BSIZE) ≠ 0) :
    turns off n ≤ 4 ∧ x.missing d ((places off n).erase .indirect) ≤ 3 ∧
      x.missing d (places off n) ≤ 4 := by
  have hn' : n ≤ 1536 := hn
  have hturns : turns off n ≤ 4 := by
    have hmod : off % 512 < 512 := Nat.mod_lt _ (by decide)
    rw [turns]
    show (if n = 0 then 0 else (off % 512 + n - 1) / 512 + 1) ≤ 4
    split_ifs <;> omega
  have hdata : x.missing d ((places off n).erase .indirect) ≤ 3 := by
    have hsub : (((places off n).erase .indirect).filter fun r => x.ref d r = 0) ⊆
        (Finset.Icc ((off + 511) / 512) ((off + 511) / 512 + 2)).image fun k =>
          if h : k < MAXFILE then Place.data ⟨k, h⟩ else .indirect := by
      intro r hr
      obtain ⟨hmem, hz⟩ := Finset.mem_filter.mp hr
      obtain ⟨hne, hmem⟩ := Finset.mem_erase.mp hmem
      cases r with
      | indirect => exact absurd rfl hne
      | data k =>
        obtain ⟨hpos, hlo, hhi⟩ := data_mem_places.mp hmem
        have hinside : off % 512 ≠ 0 → k.val ≠ off / 512 := by
          intro hmod heq
          apply hold hmod
          rw [← show k.val = off / BSIZE from heq]
          exact hz
        change off / 512 ≤ k at hlo
        change k ≤ (off + n - 1) / 512 at hhi
        rw [Finset.mem_image]
        refine ⟨k, Finset.mem_Icc.mpr ⟨?_, ?_⟩, dif_pos k.isLt⟩ <;> omega
    apply (Finset.card_le_card hsub).trans (Finset.card_image_le.trans _)
    rw [Nat.card_Icc]
    omega
  refine ⟨hturns, hdata, ?_⟩
  rw [Dinode.missing, Finset.filter_erase] at hdata
  have hpred := Finset.pred_card_le_card_erase (a := .indirect)
    (s := (places off n).filter fun r => x.ref d r = 0)
  rw [Dinode.missing]
  omega

end

/-! ## `writei` -/

/-- A chunk of `filewrite` passes at most `MAXOPBLOCKS` different block numbers to
`log_write`, whatever the free map looks like outside of the file's own blocks and the
blocks before the data area; and it needs no more than four free blocks. -/
theorem chunk_fits {L : Layout} {s : FsState} {ip : Ip} (src : ℕ → Byte) {off n : BitVec 32}
    (htype : (s.icache ip).din.type = T_FILE) (htidy : Tidy L s.disk (s.icache ip).din)
    (hblocks : ∀ k, k < ((s.icache ip).din.size.toNat + (BSIZE - 1)) / BSIZE →
      (s.icache ip).din.block s.disk k ≠ 0)
    (hoff : off.toNat ≤ (s.icache ip).din.size.toNat) (hn : n.toNat ≤ maxChunk)
    (hfit : off.toNat + n.toNat ≤ MAXFILE * BSIZE) (hop : 1 ≤ s.outstanding) :
    Erases (Traced.writei L ip src off n) (writei L ip src off n) ∧
      Ends (fun e => e = .ballocOutOfBlocks ∧ L.freeBlocks s.disk < 4)
        (Traced.writei L ip src off n) (s, []) fun r t =>
          r = some n.toNat ∧ t.2.toFinset.card ≤ MAXOPBLOCKS := by
  refine ⟨Traced.writei_erases ip src off n, ?_⟩
  have hfit' : off.toNat + n.toNat ≤ 140 * 512 := hfit
  have hsum : (off + n).toNat = off.toNat + n.toNat := by
    rw [BitVec.toNat_add]
    omega
  apply Traced.lift_bind_ends
  apply Ends.read
  rw [if_neg (by rw [htype]; decide), if_neg, if_neg]
  · apply Ends.seq
    have hchunk := missing_chunk off.toNat (d := s.disk) (x := (s.icache ip).din) hn (by
      intro (hinside : off.toNat % 512 ≠ 0)
      apply hblocks
      show off.toNat / 512 < ((s.icache ip).din.size.toNat + (512 - 1)) / 512
      omega)
    apply writeLoop_traced le_rfl hfit hop htidy subset_rfl
    · exact fun hless => ⟨rfl, by omega⟩
    · intro d' x' S tr' _ hcard hlogged
      have hcount := fun c => hlogged.card_le c
      split_ifs with hgrows
      · apply Traced.lift_bind_ends
        apply Ends.modify
        apply Ends.seq
        apply Traced.lift_bind_ends
        apply Ends.read
        apply Traced.lift_bind_ends
        apply Ends.read
        apply logWrite_traced
        · exact hop
        apply Ends.pure
        exact ⟨rfl, (hcount _).trans (show _ ≤ 10 by omega)⟩
      · apply Ends.pure
        refine ⟨rfl, ?_⟩
        show tr'.toFinset.card ≤ 10
        have hsub : tr'.toFinset.card ≤ (0 :: tr').toFinset.card := by
          apply Finset.card_le_card
          intro c hc
          rw [List.mem_toFinset] at hc ⊢
          exact List.mem_cons_of_mem _ hc
        have := hcount 0
        omega
  · rw [BitVec.lt_def, hsum]
    show ¬71680 < off.toNat + n.toNat
    omega
  · rw [BitVec.lt_def, BitVec.lt_def, hsum]
    show ¬((s.icache ip).din.size.toNat < off.toNat ∨ off.toNat + n.toNat < off.toNat)
    omega

/-- Sixteen inodes and five data blocks. -/
def fiveBlocks : Layout where
  size := 12
  ninodes := 16
  inodestart := 3
  bmapstart := 5
  datastart := 7
  inodes_pos := by decide
  inodes_fit := by decide
  map_fits := by decide
  data_le := by decide
  size_lt := by decide
  ninodes_lt := by decide

/-- An empty file, locked in an operation, on a disk with nothing else. -/
def emptyFile : FsState where
  disk := fun b t => if b = 5 ∧ t.val = 0 then 0x7f else 0
  icache := fun _ =>
    { inum := 1, ref := 1, locked := true, valid := true, din := { type := T_FILE } }
  outstanding := 1

theorem chunk_fits_empty : ∃ t, Traced.writei fiveBlocks 0 (fun _ => 7) 0 1536 (emptyFile, []) =
    .ok (some 1536, t) ∧ t.2.toFinset.card ≤ MAXOPBLOCKS := by
  have hzero : ∀ k, (emptyFile.icache 0).din.block emptyFile.disk k = 0 := by
    intro k
    by_cases hk : k < NDIRECT
    · rw [block_of_lt hk]
      rfl
    · exact block_of_no_indirect hk rfl
  have hnone : ∀ r, (emptyFile.icache 0).din.ref emptyFile.disk r = 0 := by
    intro r
    cases r with
    | indirect => rfl
    | data k => exact hzero k
  have htidy : Tidy fiveBlocks emptyFile.disk (emptyFile.icache 0).din := by
    refine ⟨?_, fun hr => absurd (hnone _) hr, fun hr => absurd (hnone _) hr,
      fun hr => absurd (hnone _) hr⟩
    have hmarked : ∀ c < 7, fiveBlocks.marked emptyFile.disk c = true := by decide +kernel
    exact fun {c} hc => hmarked c hc
  have hends := (@chunk_fits fiveBlocks emptyFile 0 (fun _ => 7) 0 1536 rfl htidy
    (fun k hk => absurd hk (Nat.not_lt_zero k)) (Nat.zero_le _) (by decide) (by decide) le_rfl).2
  have hfree : 4 ≤ fiveBlocks.freeBlocks emptyFile.disk := by decide +kernel
  cases hrun : Traced.writei fiveBlocks 0 (fun _ => 7) 0 1536 (emptyFile, []) with
  | ok r =>
    obtain ⟨a, t⟩ := r
    obtain ⟨rfl, hcard⟩ := hends.ok hrun
    exact ⟨t, rfl, hcard⟩
  | error e => exact absurd (hends.error hrun).2 (Nat.not_lt.mpr hfree)

end Xv6Threads.Fs
