/-
# Allocating and mapping

The rules for `kalloc`, `kfree`, `walkpgdir` and `mappages`. A call that maps pages into
a directory may add page tables to it and writes entries of its tables; every frame that
was in use before and is no part of the directory keeps its contents, also when the call
runs out of memory half-way.
-/

import Mathlib.Data.Finset.Card
import Xv6Threads.Vm.Tables

namespace Xv6Threads.Vm

open Lib

variable {Q : Bool → PMem → Prop} {perm : Word}

/-- What mapping pages into `d` may do to memory. -/
structure Grows (d : ℕ) (s s' : PMem) : Prop where
  mem : ∀ f, f ∉ s.free → f ≠ d → (∀ i < NPDENTRIES, tableOf s d i ≠ some f) →
    s'.mem f = s.mem f
  free : ∀ f, f ∈ s'.free → f ∈ s.free
  old : ∀ i < NPDENTRIES, ∀ t, tableOf s d i = some t → tableOf s' d i = some t
  new : ∀ i < NPDENTRIES, ∀ t, tableOf s' d i = some t → tableOf s d i = some t ∨ t ∈ s.free

section

variable {L : Layout} {E : VmFault → Prop} {D other loose loose' : Set ℕ}
variable {s s' s'' : PMem} {d f i k m t : ℕ} {w : Word}

theorem Grows.refl (d : ℕ) (s : PMem) : Grows d s s where
  mem _ _ _ _ := rfl
  free _ hf := hf
  old _ _ _ ht := ht
  new _ _ _ ht := .inl ht

theorem Grows.trans (h : Grows d s s') (h' : Grows d s' s'') : Grows d s s'' where
  mem f hfree hd htables := by
    rw [h'.mem f (fun hf => hfree (h.free f hf)) hd, h.mem f hfree hd htables]
    intro i hi ht
    exact (h.new i hi f ht).elim (htables i hi) hfree
  free f hf := h.free f (h'.free f hf)
  old i hi t ht := h'.old i hi t (h.old i hi t ht)
  new i hi t ht := by
    rcases h'.new i hi t ht with ht | hf
    · exact h.new i hi t ht
    · exact .inr (h.free t hf)

/-- A change that leaves the directory and its tables alone. -/
theorem Grows.of_mem (hmem : ∀ f, f ∉ s.free → s'.mem f = s.mem f)
    (hfree : ∀ f, f ∈ s'.free → f ∈ s.free) (hd : d ∉ s.free) : Grows d s s' where
  mem f hf _ _ := hmem f hf
  free := hfree
  old i _ t ht := by
    rw [← ht, tableOf, tableOf, pdeOf, pdeOf, hmem d hd]
  new i _ t ht := by
    left
    rw [← ht, tableOf, tableOf, pdeOf, pdeOf, hmem d hd]

theorem Grows.put_table (hi : i < NPDENTRIES) (ht : tableOf s d i = some t) (hne : t ≠ d)
    (j : ℕ) (w : Word) : Grows d s (s.put t j w) where
  mem _ _ _ htables := mem_put_of_ne fun heq => htables i hi (heq ▸ ht)
  free _ hf := hf
  old _ _ _ ht' := (tableOf_put_of_ne hne.symm _).trans ht'
  new _ _ _ ht' := .inl ((tableOf_put_of_ne hne.symm _).symm.trans ht')

/-- How many page tables `d` could still be given. -/
def absent (s : PMem) (d : ℕ) : ℕ :=
  ((Finset.range NPDENTRIES).filter fun i => tableOf s d i = none).card

/-- Memory suffices for all missing page tables of `d` and `n` pages more. -/
structure Room (s : PMem) (d n : ℕ) : Prop where
  fails : s.fails = []
  enough : absent s d + n ≤ s.free.length

theorem Room.mono {n n' : ℕ} (h : Room s d n) (hle : n' ≤ n) : Room s d n' :=
  ⟨h.fails, (Nat.add_le_add_left hle _).trans h.enough⟩

theorem absent_congr (h : ∀ i, tableOf s' d i = tableOf s d i) : absent s' d = absent s d := by
  simp only [absent, h]

/-- A step that may have added page tables and has mapped nothing. -/
structure Idle (L : Layout) (D other loose : Set ℕ) (d : ℕ) (s s' : PMem) : Prop where
  sound : Sound L D other loose s'
  grows : Grows d s s'
  ptes : ∀ j < 2 ^ 20, pteOf s' d j = pteOf s d j

/-- The same, and memory suffices as long as it did before. -/
structure Walked (L : Layout) (D other loose : Set ℕ) (d : ℕ) (s s' : PMem) : Prop
    extends Idle L D other loose d s s' where
  spare : ∀ n, Room s d n → Room s' d n

/-- A step that has set the entry for page `m`. -/
structure Mapped (L : Layout) (D other loose : Set ℕ) (d m : ℕ) (w : Word) (s s' : PMem) :
    Prop where
  sound : Sound L D other loose s'
  grows : Grows d s s'
  spare : ∀ n, Room s d n → Room s' d n
  only : ∀ i, i ≠ m / 1024 → tableOf s' d i = tableOf s d i
  ptes : ∀ j < 2 ^ 20, pteOf s' d j = if j = m then some w else pteOf s d j

/-! ## Rules -/

theorem kalloc_ends {Q : Option ℕ → PMem → Prop} (hs : Sound L D other loose s)
    (hnone : (s.fails = [] → s.free = []) → Q none { s with fails := s.fails.tail })
    (hsome : ∀ f rest, s.free = f :: rest →
      Sound L D other (insert f loose) { s with free := rest, fails := s.fails.tail } →
      Q (some f) { s with free := rest, fails := s.fails.tail }) :
    Ends E kalloc s Q := by
  apply Ends.read_bind
  apply Ends.modify_bind
  apply Ends.read_bind
  cases hhead : s.fails.headD false with
  | true =>
    apply Ends.pure
    apply hnone
    intro hfails
    rw [hfails] at hhead
    cases hhead
  | false =>
    cases hfree : s.free with
    | nil =>
      apply Ends.pure
      rw [← hfree]
      exact hnone fun _ => hfree
    | cons f rest =>
      apply Ends.modify_bind
      exact Ends.pure (hsome f rest hfree (hs.kalloc hfree _))

theorem kfree_ends {Q : Unit → PMem → Prop} (hs : Sound L D other loose s) (hf : f ∈ loose)
    (hQ : ∀ s', s' = { s.fill f (fun _ => 1) with free := f :: s.free } →
      Sound L D other (loose \ {f}) s' → Q () s') :
    Ends E (kfree L f) s Q := by
  apply Ends.check_bind
  · intro _
    apply Ends.modify_bind
    exact Ends.modify (hQ _ rfl (hs.kfree hf _))
  · intro hnot
    exact absurd (hs.allocatable_of_loose hf) hnot

/-- Without `alloc` nothing changes. -/
theorem walkpgdir_false {Q : Option (ℕ × ℕ) → PMem → Prop} (hk : k < 2 ^ 20)
    (hQ : Q ((tableOf s d (k / 1024)).map fun t => (t, k % 1024)) s) :
    Ends E (walkpgdir d (pageAddr k) false) s Q := by
  apply Ends.read_bind
  rw [PDX_pageAddr hk, PTX_pageAddr hk]
  rw [tableOf, pdeOf] at hQ
  split
  next hpresent =>
    rw [if_pos hpresent] at hQ
    exact Ends.pure hQ
  next habsent =>
    rw [if_neg habsent] at hQ
    exact Ends.pure hQ

theorem Walked.fails (hs : Sound L D other loose s) (d : ℕ) :
    Walked L D other loose d s { s with fails := s.fails.tail } where
  sound := hs.of_sameView rfl fun _ _ => ⟨rfl, fun _ _ _ _ => rfl⟩
  grows := ⟨fun _ _ _ _ => rfl, fun _ hf => hf, fun _ _ _ ht => ht, fun _ _ _ ht => .inl ht⟩
  ptes _ _ := rfl
  spare n h := by
    refine ⟨?_, h.enough⟩
    show s.fails.tail = []
    rw [h.fails, List.tail_nil]

/-- One page table less is missing. -/
theorem absent_addTable (hi : i < NPDENTRIES) (hnone : tableOf s d i = none)
    (hself : tableOf s' d i ≠ none) (hothers : ∀ j, j ≠ i → tableOf s' d j = tableOf s d j) :
    absent s' d + 1 = absent s d := by
  have hset : (Finset.range NPDENTRIES).filter (fun j => tableOf s' d j = none) =
      ((Finset.range NPDENTRIES).filter fun j => tableOf s d j = none).erase i := by
    ext j
    rw [Finset.mem_erase, Finset.mem_filter, Finset.mem_filter]
    by_cases hj : j = i
    · subst hj
      simp [hself]
    · rw [hothers j hj]
      simp [hj]
  have hmem : i ∈ (Finset.range NPDENTRIES).filter fun j => tableOf s d j = none :=
    Finset.mem_filter.mpr ⟨Finset.mem_range.mpr hi, hnone⟩
  rw [absent, hset]
  exact Finset.card_erase_add_one hmem

/-- The directory after a page from the free list has been cleared and hung into it. -/
theorem Walked.addTable (hs : Sound L D other loose s) (hd : d ∈ D) (hi : i < NPDENTRIES)
    (hnone : tableOf s d i = none) {rest : List ℕ} (hfree : s.free = f :: rest)
    {fails : List Bool} (hfails : s.fails = [] → fails = []) (hw : present w = true)
    (hf : frame w = f) :
    Walked L D other loose d s
        ((PMem.fill { s with free := rest, fails := fails } f fun _ => 0).put d i w) ∧
      (∀ j, j ≠ i → tableOf ((PMem.fill { s with free := rest, fails := fails } f
        fun _ => 0).put d i w) d j = tableOf s d j) ∧
      tableOf ((PMem.fill { s with free := rest, fails := fails } f fun _ => 0).put d i w) d i =
        some f := by
  have hmem : f ∈ s.free := hfree ▸ List.mem_cons_self
  have hloose : f ∉ loose := fun h => hs.not_free_of_loose h hmem
  have hfd : f ≠ d := by
    rintro rfl
    exact hs.not_free hd (refers_dir s f) hmem
  have hview : SameView d s (PMem.fill { s with free := rest, fails := fails } f fun _ => 0) := by
    refine ⟨Function.update_of_ne hfd.symm _ _, fun j hj t ht => Function.update_of_ne ?_ _ _⟩
    rintro rfl
    exact hs.not_free hd (p := .table j) ⟨hj, ht⟩ hmem
  have hsound := (hs.kalloc hfree fails).fill_loose (Set.mem_insert f loose) fun _ => 0
  have hzero : (PMem.fill { s with free := rest, fails := fails } f fun _ => 0).mem (frame w) =
      fun _ => 0 := by
    rw [hf]
    exact Function.update_self ..
  have hnone' := (hview.tableOf i).trans hnone
  have hmem' : frame w ∈ insert f loose := hf ▸ Set.mem_insert f loose
  have hself : tableOf
      ((PMem.fill { s with free := rest, fails := fails } f fun _ => 0).put d i w) d i =
        some f := by
    rw [tableOf_put_dir, if_pos rfl, if_pos hw, hf]
  have hothers (j : ℕ) (hj : j ≠ i) : tableOf
      ((PMem.fill { s with free := rest, fails := fails } f fun _ => 0).put d i w) d j =
        tableOf s d j := by
    rw [tableOf_put_dir, if_neg hj, hview.tableOf]
  refine ⟨⟨⟨?_, ?_, ?_⟩, ?_⟩, hothers, hself⟩
  · have hadd := hsound.addTable hd hi hnone' hmem' hzero hw
    rwa [hf, Set.insert_sdiff_self_of_notMem hloose] at hadd
  · constructor
    · intro g hg hgd _
      rw [mem_put_of_ne hgd]
      apply Function.update_of_ne
      rintro rfl
      exact hg hmem
    · intro g hg
      rw [hfree]
      exact List.mem_cons_of_mem f hg
    · intro j _ t ht
      rw [hothers, ht]
      rintro rfl
      rw [hnone] at ht
      cases ht
    · intro j _ t ht
      by_cases hj : j = i
      · subst hj
        rw [hself] at ht
        cases ht
        exact .inr hmem
      · rw [hothers j hj] at ht
        exact .inl ht
  · intro j hj
    rw [pteOf_addTable hsound hd hnone' hmem' hzero hw hj, hview.pteOf hj]
  · intro n hroom
    have habsent := absent_addTable hi hnone (hself ▸ Option.some_ne_none f) hothers
    have henough := hroom.enough
    rw [hfree, List.length_cons] at henough
    refine ⟨hfails hroom.fails, ?_⟩
    show _ ≤ rest.length
    omega

theorem walkpgdir_true {Q : Option (ℕ × ℕ) → PMem → Prop} (hs : Sound L D other loose s)
    (hd : d ∈ D) (hk : k < 2 ^ 20)
    (hnone : ∀ s', Walked L D other loose d s s' → ¬Room s d 0 → Q none s')
    (hsome : ∀ t s', Walked L D other loose d s s' →
      (∀ i, i ≠ k / 1024 → tableOf s' d i = tableOf s d i) → tableOf s' d (k / 1024) = some t →
      Q (some (t, k % 1024)) s') :
    Ends E (walkpgdir d (pageAddr k) true) s Q := by
  apply Ends.read_bind
  rw [PDX_pageAddr hk, PTX_pageAddr hk]
  have hindex : k / 1024 < NPDENTRIES := by
    change k / 1024 < 1024
    omega
  split
  next hpresent =>
    apply Ends.pure
    apply hsome _ s ⟨⟨hs, .refl d s, fun _ _ => rfl⟩, fun _ h => h⟩ fun _ _ => rfl
    exact if_pos hpresent
  next habsent =>
    have hempty : tableOf s d (k / 1024) = none := if_neg habsent
    apply Ends.seq
    apply kalloc_ends hs
    · intro hfull
      apply Ends.pure
      apply hnone _ (.fails hs d)
      intro hroom
      have henough := hroom.enough
      have hpos : 0 < absent s d :=
        Finset.card_pos.mpr
          ⟨_, Finset.mem_filter.mpr ⟨Finset.mem_range.mpr hindex, hempty⟩⟩
      rw [hfull hroom.fails, List.length_nil] at henough
      omega
    · intro f rest hfree _
      apply Ends.modify_bind
      apply Ends.modify_bind
      apply Ends.pure
      have hlt : f < 2 ^ 20 := (hs.range f (hfree ▸ List.mem_cons_self)).lt
      have hflags : IsFlags (PTE_P ||| PTE_W ||| PTE_U) := by decide
      have hentry : addrOf f ||| PTE_P ||| PTE_W ||| PTE_U =
          addrOf f ||| (PTE_P ||| PTE_W ||| PTE_U) := by
        rw [BitVec.or_assoc, BitVec.or_assoc, BitVec.or_assoc]
      have hadd := Walked.addTable hs hd hindex hempty hfree
        (fun h => (congrArg List.tail h : s.fails.tail = []))
        (w := addrOf f ||| PTE_P ||| PTE_W ||| PTE_U)
        (by rw [hentry, present_or]; exact Bool.or_true _)
        (by rw [hentry, frame_entry hlt hflags])
      exact hsome f _ hadd.1 hadd.2.1 hadd.2.2

/-- What the entry in memory says about the page. -/
theorem entry_of_pteOf_none (ht : tableOf s d (m / 1024) = some t) (hnone : pteOf s d m = none) :
    present (wordAt (s.mem t) (4 * (m % 1024))) = false := by
  rw [pteOf, ht, Option.bind_some] at hnone
  by_contra hpresent
  rw [Bool.not_eq_false] at hpresent
  simp [hpresent] at hnone

theorem entry_of_pteOf_some (h : pteOf s d m = some w) :
    ∃ t, tableOf s d (m / 1024) = some t ∧ wordAt (s.mem t) (4 * (m % 1024)) = w ∧
      present w = true := by
  rw [pteOf] at h
  obtain ⟨t, ht, hw⟩ := Option.bind_eq_some_iff.mp h
  refine ⟨t, ht, ?_⟩
  simp only [Option.ite_none_right_eq_some, Option.some.injEq] at hw
  exact ⟨hw.2, hw.2 ▸ hw.1⟩

/-- The body of `mappages`, for any way the new entry changes the owners. -/
theorem mapPage_ends {pa : Word} (hs : Sound L D other loose s) (hd : d ∈ D) (hm : m < 2 ^ 20)
    (hnone : pteOf s d m = none)
    (hput : ∀ s₁ t, Idle L D other loose d s s₁ → tableOf s₁ d (m / 1024) = some t →
      pteOf s₁ d m = none → Sound L D other loose' (s₁.put t (m % 1024) (pa ||| perm ||| PTE_P)))
    (hfail : ∀ s', Walked L D other loose d s s' → ¬Room s d 0 → Q false s')
    (hdone : ∀ s', Mapped L D other loose' d m (pa ||| perm ||| PTE_P) s s' → Q true s') :
    Ends E (mapPage d (pageAddr m) pa perm) s Q := by
  apply Ends.seq
  apply walkpgdir_true hs hd hm
  · intro s' hwalked hfull
    exact Ends.pure (hfail s' hwalked hfull)
  · intro t s₁ hidle honly ht
    have hnone' : pteOf s₁ d m = none := (hidle.ptes m hm).trans hnone
    apply Ends.read_bind
    apply Ends.check_bind
    · intro _
      apply Ends.modify_bind
      apply Ends.pure
      apply hdone
      have hindex : m / 1024 < NPDENTRIES := by
        change m / 1024 < 1024
        omega
      have hne := hidle.sound.table_ne_dir hd hindex ht
      refine ⟨hput s₁ t hidle.toIdle ht hnone',
        hidle.grows.trans (.put_table hindex ht hne _ _), ?_, ?_, ?_⟩
      · intro n hroom
        have hroom' := hidle.spare n hroom
        refine ⟨hroom'.fails, ?_⟩
        rw [absent_congr fun j => tableOf_put_of_ne hne.symm j]
        exact hroom'.enough
      · exact fun i hi => (tableOf_put_of_ne hne.symm i).trans (honly i hi)
      · intro j hj
        rw [pteOf_put hidle.sound hd hm ht hj, if_pos (present_or_P _), hidle.ptes j hj]
    · intro hpresent
      exact absurd (entry_of_pteOf_none ht hnone') hpresent

/-- A loose frame is mapped as a user page. -/
theorem mapPage_user (hs : Sound L D other loose s) (hd : d ∈ D) (hm : m < UPAGES)
    (hnone : pteOf s d m = none) (hf : f ∈ loose) (hperm : IsFlags perm)
    (hfail : ∀ s', Walked L D other loose d s s' → ¬Room s d 0 → Q false s')
    (hdone : ∀ s', Mapped L D other (loose \ {f}) d m (addrOf f ||| perm ||| PTE_P) s s' →
      Q true s') :
    Ends E (mapPage d (pageAddr m) (addrOf f) perm) s Q := by
  have hframe : frame (addrOf f ||| perm ||| PTE_P) = f := by
    rw [BitVec.or_assoc, frame_entry (hs.allocatable_of_loose hf).lt hperm.or_present]
  apply mapPage_ends hs hd (hm.trans (by decide)) hnone _ hfail hdone
  intro s₁ t hidle ht hnone'
  have hadd := hidle.sound.addPage hd ht hm hnone' (present_or_P (addrOf f ||| perm))
    (hframe.symm ▸ hf)
  rwa [hframe] at hadd

/-- A page of the kernel is mapped. -/
theorem mapPage_kernel {pa : Word} (hs : Sound L D other loose s) (hd : d ∈ D) (hm : m < 2 ^ 20)
    (hkern : UPAGES ≤ m) (hnone : pteOf s d m = none)
    (hfail : ∀ s', Walked L D other loose d s s' → ¬Room s d 0 → Q false s')
    (hdone : ∀ s', Mapped L D other loose d m (pa ||| perm ||| PTE_P) s s' → Q true s') :
    Ends E (mapPage d (pageAddr m) pa perm) s Q := by
  apply mapPage_ends hs hd hm hnone _ hfail hdone
  intro s₁ t hidle ht _
  exact hidle.sound.setKernel hd ht hm hkern

/-- `mappages` of `n + 1` whole pages. -/
theorem mappages_eq {n : ℕ} (hn : m + n < 2 ^ 20) (pa perm : Word) :
    mappages d (pageAddr m) (BitVec.ofNat 32 ((n + 1) * PGSIZE)) pa perm =
      mapLoop d perm n (pageAddr m) pa := by
  have hstart : pgrounddown (pageAddr m) = pageAddr m := by
    rw [pgrounddown_eq, toNat_pageAddr (by omega), Nat.mul_div_cancel _ (by decide)]
  have hsum : (pageAddr m + BitVec.ofNat 32 ((n + 1) * PGSIZE) - 1).toNat =
      (m + n) * 4096 + 4095 := by
    rw [BitVec.toNat_sub, BitVec.toNat_add, toNat_pageAddr (by omega), BitVec.toNat_ofNat]
    show (2 ^ 32 - 1 + (m * 4096 + (n + 1) * 4096 % 2 ^ 32) % 2 ^ 32) % 2 ^ 32 = _
    omega
  have hlast : pgrounddown (pageAddr m + BitVec.ofNat 32 ((n + 1) * PGSIZE) - 1) =
      pageAddr (m + n) := by
    rw [pgrounddown_eq, hsum]
    congr 1
    omega
  have hcount : (pageAddr (m + n) - pageAddr m).toNat / PGSIZE = n := by
    rw [BitVec.toNat_sub, toNat_pageAddr hn, toNat_pageAddr (by omega)]
    show (2 ^ 32 - m * 4096 + (m + n) * 4096) % 2 ^ 32 / 4096 = n
    omega
  rw [mappages, hstart, hlast, hcount]

end

end Xv6Threads.Vm
