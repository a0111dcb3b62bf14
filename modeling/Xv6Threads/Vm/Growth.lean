/-
# `growproc`

A call that grows the process or shrinks it to a positive size does what it reports. Two
others do not: shrinking to size 0 frees the pages and reports a failure, because 0 is
also how `deallocuvm` says that it failed; and shrinking by more than the size wraps
around in 32 bits, so that `deallocuvm` leaves everything as it is and the call reports
success.
-/

import Xv6Threads.Vm.Copying
import Xv6Threads.Vm.Space

namespace Xv6Threads.Vm

open Lib

variable {sz n : Word} {p : Space}

section

variable {L : Layout} {E : VmFault → Prop} {D other loose : Set ℕ}
variable {s s' : PMem} {d d' f k : ℕ}

/-- Another directory sees nothing of the change. -/
theorem Grows.sameView (h : Grows d s s') (hs : Sound L D other loose s) (hd : d ∈ D)
    (hd' : d' ∈ D) (hne : d' ≠ d) : SameView d' s s' := by
  apply SameView.of_refers
  intro p f href
  apply h.mem f (hs.not_free hd' href)
  · rintro rfl
    exact hne (hs.unique hd' hd href (refers_dir s f)).1
  · intro i hi ht
    exact hne (hs.unique hd' hd href (q := .table i) ⟨hi, ht⟩).1

/-- The frames taken by a call that maps nothing are page tables now. -/
theorem Idle.taken (h : Idle L D other loose d s s') (hs : Sound L D other loose s) (hd : d ∈ D)
    (hf : f ∈ s.free) (hf' : f ∉ s'.free) :
    ∃ i < NPDENTRIES, tableOf s d i = none ∧ tableOf s' d i = some f := by
  have hother : f ∉ other := fun ho => (hs.owned.markedIff (.inl ho)).mpr (.inl ho) hf
  have halloc := hs.range f hf
  have howner := (h.sound.owned.markedIff (.inr ⟨halloc, hother⟩)).mp hf'
  rcases howner with ho | hl | ⟨⟨d', p⟩, hd', href⟩
  · exact absurd ho hother
  · exact absurd hf (hs.not_free_of_loose hl)
  · by_cases hne : d' = d
    · subst hne
      cases p with
      | dir => exact absurd hf (hs.not_free hd' (p := .dir) href)
      | table i =>
        refine ⟨i, href.1, ?_, href.2⟩
        cases hold : tableOf s d' i with
        | none => rfl
        | some t =>
          have hsame := h.grows.old i href.1 t hold
          rw [href.2] at hsame
          cases hsame
          exact absurd hf (hs.not_free hd' (p := .table i) ⟨href.1, hold⟩)
      | page k =>
        obtain ⟨hk, pte, hpte, hframe⟩ := href
        rw [h.ptes k (hk.trans (by decide))] at hpte
        exact absurd hf (hs.not_free hd' (p := .page k) ⟨hk, pte, hpte, hframe⟩)
    · have hsame := h.grows.sameView hs hd hd' hne
      exact absurd hf (hs.not_free hd' ((hsame.refers p f).mp href))

/-- What a call that returns 0 owes: the pages below the new size, those that were there
as they were and the new ones zero. -/
structure Resized (d : ℕ) (sz : Word) (s s' : PMem) : Prop where
  pages : Matches s' d sz
  kept : ∀ k < UPAGES, ∀ w, pteOf s d k = some w → k * PGSIZE < sz.toNat →
    pteOf s' d k = some w ∧ s'.mem (frame w) = s.mem (frame w)
  zero : ∀ k < UPAGES, pteOf s d k = none → ∀ w, pteOf s' d k = some w →
    s'.mem (frame w) = fun _ => 0

/-- What a call that returns -1 owes: the same pages, no frame freed, and none taken but
for page tables of the directory. -/
structure Refused (d : ℕ) (s s' : PMem) : Prop where
  ptes : ∀ k < UPAGES, pteOf s' d k = pteOf s d k
  contents : ∀ k < UPAGES, ∀ w, pteOf s d k = some w → s'.mem (frame w) = s.mem (frame w)
  freed : ∀ f, f ∈ s'.free → f ∈ s.free
  leaked : ∀ f, f ∈ s.free → f ∉ s'.free →
    ∃ i < NPDENTRIES, tableOf s d i = none ∧ tableOf s' d i = some f

theorem Idle.refused (h : Idle L D other loose d s s') (hs : Sound L D other loose s)
    (hd : d ∈ D) : Refused d s s' where
  ptes k hk := h.ptes k (hk.trans (by decide))
  contents k hk w hw := h.grows.mem_page hs hd ⟨hk, w, hw, rfl⟩
  freed := h.grows.free
  leaked _ hf hf' := h.taken hs hd hf hf'

theorem Added.resized {oldsz newsz : Word} (hs : Sound L D other loose s) (hd : d ∈ D)
    (hmatch : Matches s d oldsz) (hle : oldsz.toNat ≤ newsz.toNat) (hlt : newsz.toNat < KERNBASE)
    (h : Added L D other loose d ((oldsz.toNat + 4095) / 4096) ((newsz.toNat + 4095) / 4096) s s') :
    Resized d newsz s s' := by
  have hold (k : ℕ) (hk : k < UPAGES) : (pteOf s d k).isSome = true ↔ k * 4096 < oldsz.toNat :=
    hmatch.pages k hk
  have hbelow (k : ℕ) (hk : k < UPAGES) (w : Word) (hw : pteOf s d k = some w) :
      pteOf s' d k = some w := by
    have hpage := (hold k hk).mp (hw ▸ rfl)
    rw [h.outside k (hk.trans (by decide)) (by omega), hw]
  refine ⟨⟨hlt.le, ?_⟩, ?_, ?_⟩
  · intro k hk
    show _ ↔ k * 4096 < newsz.toNat
    by_cases hin : (oldsz.toNat + 4095) / 4096 ≤ k ∧ k < (newsz.toNat + 4095) / 4096
    · obtain ⟨f, -, hpte, -⟩ := h.inside k hin.1 hin.2
      rw [hpte]
      simp only [Option.isSome_some, true_iff]
      omega
    · rw [h.outside k (hk.trans (by decide)) hin, hold k hk]
      omega
  · intro k hk w hw _
    exact ⟨hbelow k hk w hw, h.grows.mem_page hs hd ⟨hk, w, hw, rfl⟩⟩
  · intro k hk hnone w hw
    by_cases hin : (oldsz.toNat + 4095) / 4096 ≤ k ∧ k < (newsz.toNat + 4095) / 4096
    · obtain ⟨f, hf, hpte, hzero⟩ := h.inside k hin.1 hin.2
      rw [hw] at hpte
      cases hpte
      rw [frame_userEntry (hs.range f hf).lt, hzero]
    · rw [h.outside k (hk.trans (by decide)) hin, hnone] at hw
      cases hw

theorem Shed.resized {oldsz newsz : Word} (hs : Sound L D other loose s) (hd : d ∈ D)
    (hmatch : Matches s d oldsz) (hlt : newsz.toNat < oldsz.toNat)
    (h : Shed L D other loose d ((newsz.toNat + 4095) / 4096) ((oldsz.toNat + 4095) / 4096) s s') :
    Resized d newsz s s' := by
  have hold (k : ℕ) (hk : k < UPAGES) : (pteOf s d k).isSome = true ↔ k * 4096 < oldsz.toNat :=
    hmatch.pages k hk
  refine ⟨⟨hlt.le.trans hmatch.size, ?_⟩, ?_, ?_⟩
  · intro k hk
    show _ ↔ k * 4096 < newsz.toNat
    rw [h.pteOf (hk.trans (by decide))]
    by_cases hin : (newsz.toNat + 4095) / 4096 ≤ k ∧ k < (oldsz.toNat + 4095) / 4096
    · rw [if_pos hin]
      simp only [Option.isSome_none, Bool.false_eq_true, false_iff]
      omega
    · rw [if_neg hin, hold k hk]
      omega
  · intro k hk w hw hbelow
    change k * 4096 < newsz.toNat at hbelow
    refine ⟨?_, ?_⟩
    · rw [h.pteOf (hk.trans (by decide)), if_neg (by omega), hw]
    · have href : Refers s d (.page k) (frame w) := ⟨hk, w, hw, rfl⟩
      have hout := hs.page_outside hd href
      apply h.others _ _ hout.2
      rw [mem_mapped]
      rintro ⟨j, v, hlo, hhi, hv, heq⟩
      have hj : j < UPAGES := by
        have hsize := hmatch.size
        change oldsz.toNat ≤ 0x80000000 at hsize
        change j < 0x80000
        omega
      have hkj := hs.page_inj hd href ⟨hj, v, hv, heq⟩
      omega
  · intro k hk hnone w hw
    rw [h.pteOf (hk.trans (by decide)), hnone, ite_self] at hw
    cases hw

/-- Another directory keeps its pages, which are not those that were shed. -/
theorem Shed.sameView {lo hi : ℕ} (h : Shed L D other loose d lo hi s s')
    (hs : Sound L D other loose s) (hd : d ∈ D) (hhi : hi ≤ UPAGES) (hd' : d' ∈ D)
    (hne : d' ≠ d) : SameView d' s s' := by
  apply SameView.of_refers
  intro p f href
  apply h.others f
  · rw [mem_mapped]
    rintro ⟨j, w, -, hj, hw, heq⟩
    exact hne (hs.unique hd' hd href (q := .page j) ⟨by omega, w, hw, heq⟩).1
  · intro i hi ht
    exact hne (hs.unique hd' hd href (q := .table i) ⟨hi, ht⟩).1

theorem Matches.resized (h : Matches s d sz) : Resized d sz s s where
  pages := h
  kept _ _ _ hw _ := ⟨hw, rfl⟩
  zero k _ hnone w hw := by
    rw [hnone] at hw
    cases hw

theorem Matches.none_above (h : Matches s d sz) (hk : k < UPAGES)
    (hlo : (sz.toNat + 4095) / 4096 ≤ k) : pteOf s d k = none := by
  rw [← Option.not_isSome_iff_eq_none, h.pages k hk]
  show ¬k * 4096 < sz.toNat
  omega

private theorem toInt_cases (n : Word) :
    (2 * n.toNat < 2 ^ 32 ∧ n.toInt = n.toNat) ∨
      (2 ^ 32 ≤ 2 * n.toNat ∧ n.toInt = (n.toNat : ℤ) - 2 ^ 32) := by
  rw [BitVec.toInt_eq_toNat_cond]
  split
  next h => exact .inl ⟨h, rfl⟩
  next h => exact .inr ⟨Nat.not_lt.mp h, rfl⟩

/-- The sum the kernel computes, where it is one of integers. -/
theorem toNat_add_toInt (hlt : sz.toNat < KERNBASE) (hpos : 0 < (sz.toNat : ℤ) + n.toInt) :
    ((sz + n).toNat : ℤ) = sz.toNat + n.toInt := by
  have hn := n.isLt
  change sz.toNat < 0x80000000 at hlt
  rw [BitVec.toNat_add]
  rcases toInt_cases n with ⟨hsmall, hint⟩ | ⟨hbig, hint⟩ <;> omega

/-- The rule for `growproc`, where it does what it reports. -/
theorem growproc_ends {Q : Space × ℤ → PMem → Prop} (hs : Sound L D other loose s)
    (hd : p.pgdir ∈ D) (hmatch : Matches s p.pgdir p.sz) (hlt : p.sz.toNat < KERNBASE)
    (hpos : 0 < (p.sz.toNat : ℤ) + n.toInt)
    (hfail : ∀ s', Idle L D other loose p.pgdir s s' → Q (p, -1) s')
    (hdone : ∀ sz s', Sound L D other loose s' → (sz.toNat : ℤ) = p.sz.toNat + n.toInt →
      sz.toNat < KERNBASE → Resized p.pgdir sz s s' →
      (∀ d' ∈ D, d' ≠ p.pgdir → SameView d' s s') → Q ({ p with sz := sz }, 0) s') :
    Ends E (growproc L p n) s Q := by
  have hsum := toNat_add_toInt hlt hpos
  have hne : p.sz + n ≠ 0 := by
    intro hzero
    rw [← hsum, hzero] at hpos
    exact absurd hpos (by decide)
  rw [growproc]
  split
  next hgrow =>
    apply Ends.seq
    apply allocuvm_any hd hs
    · exact fun j hj hlo _ => hmatch.none_above hj hlo
    · intro s' hidle _
      exact Ends.pure (hfail s' hidle)
    · intro hless
      omega
    · intro s' hbig hle hadded
      rw [if_neg hne]
      apply Ends.pure
      apply hdone _ s' hadded.sound hsum hbig
      · exact hadded.resized hs hd hmatch hle hbig
      · intro d' hd' hne'
        exact hadded.grows.sameView hs hd hd' hne'
  next hgrow =>
    split
    next hshrink =>
      apply Ends.seq
      have hless : (p.sz + n).toNat < p.sz.toNat := by omega
      apply deallocuvm_ends hd hmatch.size hless hs
      intro s' hshed
      rw [if_neg hne]
      apply Ends.pure
      apply hdone _ s' hshed.sound hsum (hless.trans hlt)
      · exact hshed.resized hs hd hmatch hless
      · intro d' hd' hne'
        have hsize : p.sz.toNat < 0x80000000 := hlt
        exact hshed.sameView hs hd (by change _ ≤ 0x80000; omega) hd' hne'
    next hshrink =>
      apply Ends.pure
      have hzero : n.toInt = 0 := by omega
      apply hdone p.sz s hs (by omega) hlt hmatch.resized
      exact fun d' _ _ => ⟨rfl, fun _ _ _ _ => rfl⟩

/-- Shrinking to size 0 frees every page, and is reported as a failure. -/
theorem growproc_zero {Q : Space × ℤ → PMem → Prop} (hs : Sound L D other loose s)
    (hd : p.pgdir ∈ D) (hmatch : Matches s p.pgdir p.sz) (hpos : 0 < p.sz.toNat)
    (hzero : (p.sz.toNat : ℤ) + n.toInt = 0) (h : ∀ s', pteOf s' p.pgdir 0 = none → Q (p, -1) s') :
    Ends E (growproc L p n) s Q := by
  have hsum : p.sz + n = 0 := by
    apply BitVec.eq_of_toNat_eq
    have hsz := p.sz.isLt
    rw [BitVec.toNat_add]
    rcases toInt_cases n with ⟨hsmall, hint⟩ | ⟨hbig, hint⟩ <;> simp <;> omega
  rw [growproc, if_neg (by omega), if_pos (by omega), hsum]
  apply Ends.seq
  apply deallocuvm_ends hd hmatch.size (show (0#32).toNat < _ from hpos) hs
  intro s' hshed
  rw [if_pos (by decide)]
  apply Ends.pure
  apply h
  rw [hshed.pteOf (by decide)]
  apply if_pos
  exact ⟨by decide, by omega⟩

/-- Shrinking by more than the size changes nothing, and is reported as a success. -/
theorem growproc_below (hlt : p.sz.toNat < KERNBASE) (hpos : 0 < p.sz.toNat)
    (hneg : (p.sz.toNat : ℤ) + n.toInt < 0) :
    growproc L p n s = .ok ((p, 0), s) := by
  have hge : p.sz ≤ p.sz + n := by
    have hn := n.isLt
    change p.sz.toNat < 0x80000000 at hlt
    rw [BitVec.le_def, BitVec.toNat_add]
    rcases toInt_cases n with ⟨hsmall, hint⟩ | ⟨hbig, hint⟩ <;> omega
  have hne : p.sz ≠ 0 := by
    rintro hsz
    rw [hsz] at hpos
    exact absurd hpos (by decide)
  rw [growproc, if_neg (by omega), if_pos (by omega), deallocuvm, if_pos hge]
  show (if p.sz = 0 then _ else _ : VmM (Space × ℤ)) s = _
  rw [if_neg hne]
  rfl

/-- What the value returned by `growproc` is taken to mean. -/
structure Reports (p : Space) (n : Word) (s : PMem) (r : Space × ℤ) (s' : PMem) : Prop where
  value : r.2 = 0 ∨ r.2 = -1
  pgdir : r.1.pgdir = p.pgdir
  done : r.2 = 0 → (r.1.sz.toNat : ℤ) = p.sz.toNat + n.toInt ∧ Resized p.pgdir r.1.sz s s'
  refused : r.2 = -1 → r.1.sz = p.sz ∧ Refused p.pgdir s s'

/-- `growproc` returns, and does what it reports exactly when the sum of the size and
the argument, as integers, is positive. -/
theorem growproc_reports (hs : Sound L D other loose s) (p : Space) (hd : p.pgdir ∈ D)
    (hmatch : Matches s p.pgdir p.sz) (hpos : 0 < p.sz.toNat) (hlt : p.sz.toNat < KERNBASE)
    (n : Word) :
    ∃ r s', growproc L p n s = .ok (r, s') ∧
      (Reports p n s r s' ↔ 0 < (p.sz.toNat : ℤ) + n.toInt) := by
  rcases lt_trichotomy 0 ((p.sz.toNat : ℤ) + n.toInt) with hsum | hsum | hsum
  · apply Ends.returns
    apply growproc_ends hs hd hmatch hlt hsum
    · intro s' hidle
      refine iff_of_true ⟨.inr rfl, rfl, ?_, fun _ => ⟨rfl, hidle.refused hs hd⟩⟩ hsum
      exact fun h => absurd h (show (-1 : ℤ) ≠ 0 by decide)
    · intro sz s' _ hsz _ hresized _
      refine iff_of_true ⟨.inl rfl, rfl, fun _ => ⟨hsz, hresized⟩, ?_⟩ hsum
      exact fun h => absurd h (show (0 : ℤ) ≠ -1 by decide)
  · apply Ends.returns
    apply growproc_zero hs hd hmatch hpos hsum.symm
    intro s' hnone
    refine iff_of_false (fun hreports => ?_) (by omega)
    have hkept := (hreports.refused rfl).2.ptes 0 (by decide)
    have hsome := (hmatch.pages 0 (by decide)).mpr (by rw [Nat.zero_mul]; exact hpos)
    rw [← hkept, hnone] at hsome
    cases hsome
  · refine ⟨_, s, growproc_below hlt hpos hsum, iff_of_false (fun hreports => ?_) (by omega)⟩
    have hsz := (hreports.done rfl).1
    simp only at hsz
    omega

/-- One page is added to the small process. -/
theorem growproc_reports_small : ∃ r s', growproc smallLayout ⟨300, 4096⟩ 4096 smallMemory =
    .ok (r, s') ∧ Reports ⟨300, 4096⟩ 4096 smallMemory r s' := by
  obtain ⟨other, hs, hmatch⟩ := sound_smallMemory
  obtain ⟨r, s', hr, hiff⟩ := growproc_reports hs ⟨300, 4096⟩ (Set.mem_singleton 300) hmatch
    (by decide) (by decide) 4096
  exact ⟨r, s', hr, hiff.mpr (by decide)⟩

/-- Giving back its one page, the small process loses it and is told that the call failed;
asked to give back two, it loses nothing and is told that the call succeeded. -/
theorem growproc_misreports :
    (∃ s', growproc smallLayout ⟨300, 4096⟩ (-4096) smallMemory = .ok ((⟨300, 4096⟩, -1), s') ∧
      pteOf smallMemory 300 0 ≠ none ∧ pteOf s' 300 0 = none) ∧
    growproc smallLayout ⟨300, 4096⟩ (-8192) smallMemory = .ok ((⟨300, 4096⟩, 0), smallMemory) := by
  obtain ⟨other, hs, hmatch⟩ := sound_smallMemory
  refine ⟨?_, growproc_below (by decide) (by decide) (by decide)⟩
  have hsome := (hmatch.pages 0 (by decide)).mpr (by decide)
  have hzero := growproc_zero (E := fun _ => False) (n := -4096)
    (Q := fun r s' => r = (⟨300, 4096⟩, -1) ∧ pteOf s' 300 0 = none) hs
    (p := ⟨300, 4096⟩) (Set.mem_singleton 300) hmatch (by decide) (by decide)
    fun s' hnone => ⟨rfl, hnone⟩
  obtain ⟨r, s', hr, rfl, hnone⟩ := hzero.returns
  refine ⟨s', hr, fun h => ?_, hnone⟩
  rw [h] at hsome
  cases hsome

/-! ## `deallocuvm` page by page -/

variable {lo hi : ℕ} {oldsz newsz : Word}

/-- `deallocuvm` is the loop over all pages of the range, in any memory. On a directory
whose page tables are its own it clears the range and calls `kfree` once for each page that
was there; it stops if and only if `kfree` does not take one of them. -/
theorem deallocuvm_frees_each (hsz : oldsz.toNat ≤ KERNBASE)
    (hlo : lo = (pgroundup newsz).toNat / PGSIZE) (hhi : hi = (oldsz.toNat + 4095) / 4096)
    (h : Tree s d lo hi) :
    deallocuvm L d oldsz newsz = deallocEach L d oldsz newsz ∧
    (oldsz ≤ newsz → deallocuvm L d oldsz newsz s = .ok (oldsz, s)) ∧
    (newsz < oldsz → KfreeTakes L s d lo hi → ∃ s', deallocuvm L d oldsz newsz s = .ok (newsz, s') ∧
      (∀ j, lo ≤ j → j < hi → pteOf s' d j = none) ∧ Released d lo hi s s') ∧
    (newsz < oldsz → ¬KfreeTakes L s d lo hi → deallocuvm L d oldsz newsz s = .error .kfree) := by
  have hrule (hlt : newsz < oldsz) :
      Ends (fun e => e = .kfree ∧ ¬KfreeTakes L s d lo hi) (deallocuvm L d oldsz newsz) s
        fun r s' => r = newsz ∧ KfreeTakes L s d lo hi ∧ Released d lo hi s s' :=
    deallocuvm_rule hsz hlo hhi h hlt
  refine ⟨deallocuvm_eq_each hsz, fun hle => congrFun (if_pos hle) s, ?_, ?_⟩
  · intro hlt htakes
    have hends := (hrule hlt).weaken (F := fun _ => False) fun _ hstop => hstop.2 htakes
    obtain ⟨_, s', hrun, rfl, -, hreleased⟩ := hends.returns
    refine ⟨s', hrun, fun j hj hj' => ?_, hreleased⟩
    change oldsz.toNat ≤ 0x80000000 at hsz
    rw [hreleased.pteOf (by omega), if_pos ⟨hj, hj'⟩]
  · intro hlt hrefuses
    have hends := (hrule hlt).mono (Q := fun _ _ => False) fun _ _ hdone => hrefuses hdone.2.1
    obtain ⟨e, hrun, rfl, -⟩ := hends.stops
    exact hrun

/-- The one page of the small memory, and 3073 that are not there: three page tables are
missing, and the end is not that of a page. -/
theorem deallocuvm_frees_each_small :
    ∃ s', deallocuvm smallLayout 300 0xC01001 0 smallMemory = .ok (0, s') ∧
      (∀ j, 0 ≤ j → j < 3074 → pteOf s' 300 j = none) ∧ Released 300 0 3074 smallMemory s' := by
  obtain ⟨other, hs, -⟩ := sound_smallMemory
  obtain ⟨htree, htakes⟩ : Tree smallMemory 300 0 3074 ∧ _ :=
    hs.tree (Set.mem_singleton 300) (by decide)
  exact (deallocuvm_frees_each (by decide) (by decide) (by decide) htree).2.2.1 (by decide) htakes

/-- The one user page is a page of the kernel, physical address `0x1000`. -/
def strayMemory : PMem := smallMemory.put 301 0 (addrOf 1 ||| UFLAGS ||| PTE_P)

/-- No page is at physical address 0, and still `kfree` stops the loop. -/
theorem deallocuvm_stopped_by_kfree : Tree strayMemory 300 0 1 ∧
    (∀ j < UPAGES, ∀ w, pteOf strayMemory 300 j = some w → pteAddr w ≠ 0) ∧
    deallocuvm smallLayout 300 4096 0 strayMemory = .error .kfree := by
  obtain ⟨other, hs, hmatch⟩ := sound_smallMemory
  obtain ⟨htree, -⟩ : Tree smallMemory 300 0 1 ∧ KfreeTakes smallLayout smallMemory 300 0 1 :=
    hs.tree (Set.mem_singleton 300) (by decide)
  have hone : tableOf smallMemory 300 (0 / 1024) = some 301 := by decide +kernel
  have htables (i : ℕ) : tableOf strayMemory 300 i = tableOf smallMemory 300 i :=
    tableOf_put_of_ne (by decide) i
  have hpte (j : ℕ) (hj : j < UPAGES) (w : Word) (hw : pteOf strayMemory 300 j = some w) :
      w = addrOf 1 ||| UFLAGS ||| PTE_P := by
    have hj' : j < 2 ^ 20 := hj.trans (by decide)
    have hput : pteOf strayMemory 300 j = _ :=
      pteOf_put hs (Set.mem_singleton 300) (m := 0) (by decide) hone hj'
    rw [hput] at hw
    by_cases hzero : j = 0
    · rw [if_pos hzero, if_pos (by decide)] at hw
      exact (Option.some.inj hw).symm
    · rw [if_neg hzero] at hw
      have hin := (hmatch.pages j hj).mp (by rw [hw]; rfl)
      change j * 4096 < 4096 at hin
      omega
  have hframe : frame (addrOf 1 ||| UFLAGS ||| PTE_P) = 1 := by decide
  have hstray : Tree strayMemory 300 0 1 := by
    refine ⟨?_, ?_, ?_⟩
    · intro i hi
      rw [htables]
      exact htree.dir i hi
    · intro i hi j hj t
      rw [htables, htables]
      exact htree.inj i hi j hj t
    · intro j w _ hj hw
      rw [hpte j (hj.trans (by decide)) w hw, hframe]
      refine ⟨by decide, fun i hi ht => ?_⟩
      rw [htables] at ht
      have halloc := hs.allocatable (Set.mem_singleton 300) (p := .table i) ⟨hi, ht⟩
      exact absurd halloc.1 (by decide)
  have hfirst : pteOf strayMemory 300 0 = some (addrOf 1 ||| UFLAGS ||| PTE_P) := by
    decide +kernel
  refine ⟨hstray, ?_, ?_⟩
  · intro j hj w hw
    rw [hpte j hj w hw]
    decide
  · have hends := (deallocuvm_rule (L := smallLayout) (by decide) (by decide) (by decide) hstray
      (show (0 : Word) < 4096 by decide)).mono (Q := fun _ _ => False) (by
        intro _ _ hdone
        have halloc := hdone.2.1 0 _ le_rfl (by decide) hfirst
        rw [hframe] at halloc
        exact absurd halloc.1 (by decide))
    obtain ⟨e, hrun, rfl, -⟩ := hends.stops
    exact hrun

end

end Xv6Threads.Vm
