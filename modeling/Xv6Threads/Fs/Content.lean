/-
# Reading and writing files

`readi` and `writei` in terms of the bytes of a file. A read that meets no hole returns
the bytes and changes nothing at all, so it needs no transaction. A write says which
blocks the file has afterwards, which bytes changed, and that other files did not.
-/

import Xv6Threads.Fs.Bmap

namespace Xv6Threads.Fs

open Lib Command
open Xv6Threads.Log (Block byteAt getWord)
open Function (update update_of_ne update_self)

variable {off n m k : ℕ}

section

variable {L : Layout} {d d' d'' : Image} {x x' x'' : Dinode} {s : FsState} {ip : Ip}

/-- `n` bytes of the file, from `off` on. -/
def Dinode.bytes (d : Image) (x : Dinode) (off n : ℕ) : List Byte :=
  (List.range n).map fun t => x.byte d (off + t)

@[simp]
theorem length_bytes (off n : ℕ) : (x.bytes d off n).length = n := by
  simp [Dinode.bytes]

theorem bytes_add (off m n : ℕ) :
    x.bytes d off (m + n) = x.bytes d off m ++ x.bytes d (off + m) n := by
  simp only [Dinode.bytes, List.range_add, List.map_append, List.map_map]
  congr 2
  ext1 t
  simp [Nat.add_assoc]

/-- No block below the end of the file is missing. -/
def Dinode.Solid (d : Image) (x : Dinode) : Prop :=
  ∀ o < x.size.toNat, x.block d (o / BSIZE) ≠ 0

/-! ## `readi` -/

theorem bmap_of_ne {bn : ℕ} (h : (s.icache ip).din.block s.disk bn ≠ 0) :
    bmap L ip bn s = .ok (((s.icache ip).din.block s.disk bn).toNat, s) := by
  have haddr : ∀ k, (s.icache ip).din.addrs k ≠ 0 →
      addrOrAlloc L ip k s = .ok (((s.icache ip).din.addrs k).toNat, s) := by
    intro k hk
    exact congrFun (if_neg hk) s
  unfold bmap bmapWith
  by_cases hdirect : bn < NDIRECT
  · rw [dif_pos hdirect, block_of_lt hdirect] at *
    exact haddr _ h
  · have hind : (s.icache ip).din.indirect ≠ 0 := fun hz => h (block_of_no_indirect hdirect hz)
    have hlt : bn < MAXFILE := Nat.lt_of_not_le fun hle => h (block_of_maxfile_le hle)
    have hentry : bn - NDIRECT < NINDIRECT := by
      have : bn < 140 := hlt
      show bn - 12 < 128
      omega
    rw [block_of_indirect hdirect hlt hind] at *
    rw [dif_neg hdirect, if_pos hentry]
    exact (bind_ok (haddr _ hind)).trans (congrFun (if_neg h) s)

/-- The part of a block that one turn of a loop handles. -/
theorem turn_offsets {t : ℕ} (ht : t < min n (BSIZE - off % BSIZE)) :
    (off + t) / BSIZE = off / BSIZE ∧ (off + t) % BSIZE = off % BSIZE + t := by
  have : t < min n (512 - off % 512) := ht
  constructor
  · show (off + t) / 512 = off / 512
    omega
  · show (off + t) % 512 = off % 512 + t
    omega

theorem readLoop_eq (fuel : ℕ) (hfuel : n ≤ fuel)
    (hblocks : ∀ o, off ≤ o → o < off + n → (s.icache ip).din.block s.disk (o / BSIZE) ≠ 0) :
    readLoop L ip fuel off n s = .ok ((s.icache ip).din.bytes s.disk off n, s) := by
  induction fuel generalizing off n with
  | zero =>
    obtain rfl : n = 0 := by omega
    rfl
  | succ fuel ih =>
    by_cases hn : n = 0
    · subst hn
      rfl
    · unfold readLoop
      have hpos : 0 < BSIZE - off % BSIZE := Nat.sub_pos_of_lt (Nat.mod_lt _ (by decide))
      have hm : min n (BSIZE - off % BSIZE) ≤ n := Nat.min_le_left ..
      rw [if_neg hn, bind_ok (bmap_of_ne (hblocks off le_rfl (by omega)))]
      show (readLoop L ip fuel (off + min n (BSIZE - off % BSIZE))
        (n - min n (BSIZE - off % BSIZE)) >>= _) s = _
      rw [bind_ok (ih (by omega) fun o h₁ h₂ => hblocks o (by omega) (by omega))]
      show Except.ok (_, s) = Except.ok (_, s)
      have hsum : n = min n (BSIZE - off % BSIZE) + (n - min n (BSIZE - off % BSIZE)) := by omega
      conv_rhs => rw [hsum, bytes_add]
      congr 3
      apply List.map_congr_left
      intro t ht
      obtain ⟨hdiv, hmod⟩ := turn_offsets (List.mem_range.mp ht)
      rw [Dinode.byte, hdiv, hmod]

/-- Reading where the file has no holes. -/
theorem readi_of_blocks (off n : BitVec 32) (htype : (s.icache ip).din.type ≠ T_DEV)
    (hblocks : ∀ o < (s.icache ip).din.size.toNat, off.toNat ≤ o → o < off.toNat + n.toNat →
      (s.icache ip).din.block s.disk (o / BSIZE) ≠ 0) :
    readi L ip off n s = .ok
      (if (s.icache ip).din.size < off ∨ off + n < off then none
        else some ((s.icache ip).din.bytes s.disk off.toNat
          (min n.toNat ((s.icache ip).din.size.toNat - off.toNat))), s) := by
  show (if (s.icache ip).din.type = T_DEV then _ else _ : FsM (Option (List Byte))) s = _
  rw [if_neg htype]
  by_cases hrange : (s.icache ip).din.size < off ∨ off + n < off
  · rw [if_pos hrange, if_pos hrange]
    rfl
  · rw [if_neg hrange, if_neg hrange]
    simp only [not_or, BitVec.not_lt] at hrange
    have hcount : (if (s.icache ip).din.size < off + n then (s.icache ip).din.size - off
        else n).toNat = min n.toNat ((s.icache ip).din.size.toNat - off.toNat) := by
      obtain ⟨h₁, h₂⟩ := hrange
      split_ifs with h
      · bv_omega
      · bv_omega
    show (readLoop L ip _ off.toNat _ >>= _) s = _
    rw [hcount, bind_ok (readLoop_eq _ le_rfl fun o h₁ h₂ =>
      hblocks o (by omega) h₁ (by omega))]
    rfl

theorem readi_eq (off n : BitVec 32) (htype : (s.icache ip).din.type ≠ T_DEV)
    (hsolid : (s.icache ip).din.Solid s.disk) :
    readi L ip off n s = .ok
      (if (s.icache ip).din.size < off ∨ off + n < off then none
        else some ((s.icache ip).din.bytes s.disk off.toNat
          (min n.toNat ((s.icache ip).din.size.toNat - off.toNat))), s) :=
  readi_of_blocks off n htype fun o ho _ _ => hsolid o ho

/-! ## One block of `writei` -/

theorem byteAt_splice (b : Block) {pos len t : ℕ} (src : ℕ → Byte) (hlen : pos + len ≤ BSIZE) :
    byteAt (splice b pos len src) t =
      if pos ≤ t ∧ t < pos + len then src (t - pos) else byteAt b t := by
  unfold byteAt
  by_cases ht : t < BSIZE
  · simp only [dif_pos ht, splice]
  · rw [dif_neg ht, dif_neg ht, if_neg (by omega)]

variable (L) in
/-- Bytes `off` to `off + n` of the file were replaced by `g 0`, `g 1` and so on. -/
structure Written (d : Image) (x : Dinode) (off n : ℕ) (g : ℕ → Byte) (d' : Image)
    (x' : Dinode) : Prop extends Grows L d x d' x' where
  blocks : ∀ {k}, x'.block d' k ≠ 0 ↔
    x.block d k ≠ 0 ∨ ∃ o, off ≤ o ∧ o < off + n ∧ o / BSIZE = k
  indirect : x'.indirect ≠ 0 ↔
    x.indirect ≠ 0 ∨ ∃ o, off ≤ o ∧ o < off + n ∧ NDIRECT ≤ o / BSIZE
  same : (∀ o, off ≤ o → o < off + n → x.block d (o / BSIZE) ≠ 0) → x' = x
  written : ∀ {t}, t < n → x'.byte d' (off + t) = g t
  left : ∀ {o}, ¬(off ≤ o ∧ o < off + n) → x.block d (o / BSIZE) ≠ 0 → x'.byte d' o = x.byte d o

theorem Written.refl (off : ℕ) (g : ℕ → Byte) : Written L d x off 0 g d x where
  toGrows := .refl
  blocks := by
    intro k
    refine (or_iff_left ?_).symm
    rintro ⟨o, h₁, h₂, -⟩
    omega
  indirect := by
    refine (or_iff_left ?_).symm
    rintro ⟨o, h₁, h₂, -⟩
    omega
  same _ := rfl
  written ht := absurd ht (Nat.not_lt_zero _)
  left _ _ := rfl

theorem exists_offset_add {p : ℕ → Prop} :
    (∃ o, off ≤ o ∧ o < off + (m + n) ∧ p o) ↔
      (∃ o, off ≤ o ∧ o < off + m ∧ p o) ∨ ∃ o, off + m ≤ o ∧ o < off + m + n ∧ p o := by
  constructor
  · rintro ⟨o, h₁, h₂, hp⟩
    by_cases ho : o < off + m
    · exact .inl ⟨o, h₁, ho, hp⟩
    · exact .inr ⟨o, by omega, by omega, hp⟩
  · rintro (⟨o, h₁, h₂, hp⟩ | ⟨o, h₁, h₂, hp⟩)
    · exact ⟨o, by omega, by omega, hp⟩
    · exact ⟨o, by omega, by omega, hp⟩

theorem Written.trans {g : ℕ → Byte} (h : Written L d x off m g d' x')
    (h' : Written L d' x' (off + m) n (fun t => g (m + t)) d'' x'') :
    Written L d x off (m + n) g d'' x'' where
  toGrows := h.toGrows.trans h'.toGrows
  blocks := by
    intro k
    rw [h'.blocks, h.blocks, exists_offset_add, or_assoc]
  indirect := by
    rw [h'.indirect, h.indirect, exists_offset_add, or_assoc]
  same hall := by
    rw [h'.same, h.same]
    · exact fun o h₁ h₂ => hall o h₁ (by omega)
    · exact fun o h₁ h₂ => h.blocks.mpr (.inl (hall o (by omega) (by omega)))
  written {t} ht := by
    by_cases hm : t < m
    · have hblock := h.blocks.mpr (.inr ⟨off + t, by omega, by omega, rfl⟩)
      rw [h'.left (by omega) hblock, h.written hm]
    · have hrest := h'.written (t := t - m) (by omega)
      rwa [show off + m + (t - m) = off + t by omega, show m + (t - m) = t by omega] at hrest
  left {o} ho hblock := by
    rw [h'.left (by omega) (h.blocks.mpr (.inl hblock)), h.left (by omega) hblock]

end

section

variable {L : Layout} {I : ℕ → Dinode} {i : ℕ} {d d' : Image} {x x' : Dinode}

/-- Data blocks hold no block numbers. -/
theorem Tidy.ref_update (h : Tidy L d x) (hk : x.block d k ≠ 0) (data : Block) (r : Place) :
    x.ref (update d (x.block d k).toNat data) r = x.ref d r := by
  have hlt : k < MAXFILE := Nat.lt_of_not_le fun hle => hk (block_of_maxfile_le hle)
  apply ref_congr
  intro _
  apply update_of_ne
  intro heq
  exact h.apart (k := ⟨k, hlt⟩) hk (BitVec.eq_of_toNat_eq heq.symm)

theorem Tidy.block_update (h : Tidy L d x) (hk : x.block d k ≠ 0) (data : Block) (j : ℕ) :
    x.block (update d (x.block d k).toNat data) j = x.block d j := by
  by_cases hj : j < MAXFILE
  · exact h.ref_update hk data (.data ⟨j, hj⟩)
  · have hle := Nat.le_of_not_lt hj
    rw [block_of_maxfile_le hle, block_of_maxfile_le hle]

theorem marked_update {b : ℕ} (hb : L.InData b) (data : Block) {c : ℕ} (hc : c < L.size) :
    L.marked (update d b data) c = L.marked d c := by
  rw [Layout.marked, Layout.marked, update_of_ne (hb.ne_bblock hc).symm]

theorem Held.update (h : Held L I i d x) (hk : x.block d k ≠ 0) (data : Block) :
    Held L I i (update d (x.block d k).toNat data) x ∧
      Grows L d x (update d (x.block d k).toNat data) x := by
  have hlt : k < MAXFILE := Nat.lt_of_not_le fun hle => hk (block_of_maxfile_le hle)
  have hdata : L.InData (x.block d k).toNat := h.inData (r := .data ⟨k, hlt⟩) hk
  have hmarks : ∀ c, c < L.size →
      L.marked (Function.update d (x.block d k).toNat data) c = L.marked d c := fun _ =>
    marked_update hdata data
  constructor
  · refine ⟨h.lt, h.allocated, ?_⟩
    refine Lib.Owned.congr (Layout.Owned.frame h.owned ?_) ?_ fun _ _ => Iff.rfl
    · intro j c hc
      apply update_of_ne
      rintro rfl
      have hplace := h.owned.once hc (h.refs (r := .data ⟨k, hlt⟩) hk)
      cases hplace
    · intro c hc
      rw [hmarks c (Layout.lt_size_of_mem hc)]
  · refine ⟨rfl, fun _ => h.tidy.ref_update hk data _, ?_, ?_, ?_, ?_⟩
    · intro r hne
      exact absurd (h.tidy.ref_update hk data r) hne
    · intro j hj
      exact inode_congr L (update_of_ne (hdata.ne_iblock hj).symm ..)
    · intro c hc hm
      rwa [hmarks c hc]
    · intro c _ _ hrefs
      exact update_of_ne (Ne.symm (hrefs (.data ⟨k, hlt⟩))) ..

/-- One turn of the loop of `writei`. -/
theorem Mapped.write {b : ℕ} {g : ℕ → Byte} (hheld : Held L I i d x)
    (h : Mapped L d x (off / BSIZE) d' x' b) (h' : Held L I i d' x') (hm : 0 < m)
    (hlen : off % BSIZE + m ≤ BSIZE) :
    Held L I i (update d' b (splice (d' b) (off % BSIZE) m g)) x' ∧
      Written L d x off m g (update d' b (splice (d' b) (off % BSIZE) m g)) x' := by
  have hmod : off % BSIZE < 512 := Nat.mod_lt _ (by decide)
  have hlen' : off % 512 + m ≤ 512 := hlen
  have hne : x'.block d' (off / BSIZE) ≠ 0 := ne_zero_of_inData (h.found ▸ h.inData)
  have hupdate := h'.update hne (splice (d' b) (off % BSIZE) m g)
  have hblock := h'.tidy.block_update hne (splice (d' b) (off % BSIZE) m g)
  rw [h.found] at hupdate hblock
  have hturn : ∀ o, off ≤ o → o < off + m → o / BSIZE = off / BSIZE := by
    intro o h₁ h₂
    show o / 512 = off / 512
    omega
  refine ⟨hupdate.1, h.toGrows.trans hupdate.2, ?_, ?_, ?_, ?_, ?_⟩
  · intro k
    rw [hblock]
    by_cases hk : k = off / BSIZE
    · subst hk
      exact iff_of_true hne (.inr ⟨off, le_rfl, by omega, rfl⟩)
    · rw [h.elsewhere hk]
      refine (or_iff_left ?_).symm
      rintro ⟨o, h₁, h₂, rfl⟩
      exact hk (hturn o h₁ h₂)
  · rw [h.indirect]
    apply or_congr_right
    constructor
    · intro hbn
      exact ⟨off, le_rfl, by omega, hbn⟩
    · rintro ⟨o, h₁, h₂, hbn⟩
      rwa [hturn o h₁ h₂] at hbn
  · intro hall
    exact (h.same (hall off le_rfl (by omega))).2
  · intro t ht
    obtain ⟨hdiv, hmod'⟩ : (off + t) / BSIZE = off / BSIZE ∧
        (off + t) % BSIZE = off % BSIZE + t :=
      turn_offsets (show t < min m (512 - off % 512) by omega)
    rw [Dinode.byte, hdiv, hmod', hblock, h.found, update_self,
      byteAt_splice _ _ hlen, if_pos (by omega), Nat.add_sub_cancel_left]
  · intro o ho hold
    rw [Dinode.byte, Dinode.byte, hblock]
    by_cases hk : o / BSIZE = off / BSIZE
    · -- the block was there before, so `bmap` changed nothing
      rw [hk] at hold ⊢
      obtain ⟨rfl, rfl⟩ := h.same hold
      rw [h.found, update_self, byteAt_splice _ _ hlen, if_neg]
      have hk' : o / 512 = off / 512 := hk
      show ¬(off % 512 ≤ o % 512 ∧ o % 512 < off % 512 + m)
      omega
    · rw [h.elsewhere hk, ← h.data hold, update_of_ne]
      intro heq
      have hlt : o / BSIZE < MAXFILE := Nat.lt_of_not_le fun hle => hold (block_of_maxfile_le hle)
      have hplace := h'.inj (r := .data ⟨off / BSIZE, h.lt⟩) (q := .data ⟨o / BSIZE, hlt⟩) hne (by
        apply BitVec.eq_of_toNat_eq
        show (x'.block d' _).toNat = (x'.block d' _).toNat
        rw [h.elsewhere hk, heq, h.found])
      simp only [Place.data.injEq, Fin.mk.injEq] at hplace
      exact hk hplace

/-! ## `writei` -/

variable {s : FsState} {ip : Ip} {E : Panic → Prop}

theorem writeLoop_ends (hE : Tolerant E) (src : ℕ → Byte) (fuel : ℕ) {tot : ℕ} (hfuel : n ≤ fuel)
    {Q : Unit → FsState → Prop} (h : Held L I i s.disk (s.icache ip).din)
    (hQ : ∀ d' x', Held L I i d' x' →
      Written L s.disk (s.icache ip).din off n (fun t => src (tot + t)) d' x' →
      Q () (s.put ip d' x')) : Ends E (writeLoop L ip src fuel off tot n) s Q := by
  induction fuel generalizing off tot n s with
  | zero =>
    obtain rfl : n = 0 := by omega
    have hdone := hQ _ _ h (Written.refl ..)
    rw [put_self] at hdone
    exact Ends.pure hdone
  | succ fuel ih =>
    unfold writeLoop writeLoopWith
    by_cases hn : n = 0
    · subst hn
      have hdone := hQ _ _ h (Written.refl ..)
      rw [put_self] at hdone
      rw [if_pos rfl]
      exact Ends.pure hdone
    · have hpos : 0 < BSIZE - off % BSIZE := Nat.sub_pos_of_lt (Nat.mod_lt _ (by decide))
      rw [if_neg hn]
      apply Ends.seq
      apply bmap_ends hE h
      intro b d₁ x₁ hheld hmapped
      apply Ends.read_bind
      apply Ends.seq
      apply logWrite_ends hE
      have hturn := hmapped.write (g := fun t => src (tot + t))
        (m := min n (BSIZE - off % BSIZE)) h hheld (by omega) (by omega)
      apply ih (by omega)
      · rw [show ∀ d, ({ s.put ip d₁ x₁ with disk := d } : FsState) = s.put ip d x₁ from
          fun _ => rfl, put_din]
        exact hturn.1
      · intro d' x' hheld' hwritten
        rw [show ∀ d, ({ s.put ip d₁ x₁ with disk := d } : FsState) = s.put ip d x₁ from
          fun _ => rfl] at hwritten ⊢
        rw [put_din] at hwritten
        rw [put_put]
        apply hQ d' x' hheld'
        have hall := hturn.2.trans (n := n - min n (BSIZE - off % BSIZE)) (by
          simpa only [Nat.add_assoc, put_disk] using hwritten)
        rwa [Nat.add_sub_cancel' (Nat.min_le_left ..)] at hall

end

end Xv6Threads.Fs
