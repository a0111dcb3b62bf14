/-
# New directories and new pages

`setupkvm` and `allocuvm`. A call that fails leaves nothing behind but, in a directory
that stays, page tables without entries; `setupkvm` gives even those back.
-/

import Xv6Threads.Vm.Freeing

namespace Xv6Threads.Vm

open Lib
open Function (update_of_ne update_self)

variable {Q : Bool → PMem → Prop} {j : ℕ} {rest : List ℕ} {s₀ : PMem} {oldsz newsz : Word}

/-! ## The kernel's mappings -/

/-- Page `j` is in a row of `kmap`. -/
def Kmap.Covers (k : Kmap) (j : ℕ) : Prop :=
  k.virt ≤ j * PGSIZE ∧ j * PGSIZE < k.virt + (k.physEnd - k.physStart)

instance (k : Kmap) : DecidablePred k.Covers := fun _ => inferInstanceAs (Decidable (_ ∧ _))

/-- The entry a row gives to page `j`. -/
def Kmap.entry (k : Kmap) (j : ℕ) : Word :=
  BitVec.ofNat 32 (k.physStart + (j * PGSIZE - k.virt)) ||| k.perm ||| PTE_P

/-- The entries of the kernel's part of a directory. -/
def kernelPte (rows : List Kmap) (j : ℕ) : Option Word :=
  (rows.find? fun k => decide (k.Covers j)).map fun k => k.entry j

/-- A row is made of the `n + 1` pages from `m` on and of the frames from `p` on, above
user memory. -/
structure Kmap.Ok (k : Kmap) (m n p : ℕ) : Prop where
  virt : k.virt = m * PGSIZE
  phys : k.physStart = p * PGSIZE
  size : k.physEnd - k.physStart = (n + 1) * PGSIZE
  above : UPAGES ≤ m
  below : m + n < 2 ^ 20

/-- Pages of the kernel have been mapped, or some of them. -/
structure Partly (L : Layout) (D other loose : Set ℕ) (d : ℕ) (s s' : PMem) : Prop where
  sound : Sound L D other loose s'
  grows : Grows d s s'
  spare : ∀ n, Room s d n → Room s' d n
  user : ∀ j < UPAGES, pteOf s' d j = pteOf s d j

section

variable {L : Layout} {E : VmFault → Prop} {D other loose : Set ℕ}
variable {s s' s'' : PMem} {d f i k m n p t lo hi : ℕ} {w perm : Word}

theorem Partly.refl (hs : Sound L D other loose s) (d : ℕ) : Partly L D other loose d s s :=
  ⟨hs, .refl d s, fun _ h => h, fun _ _ => rfl⟩

theorem Partly.trans (h : Partly L D other loose d s s') (h' : Partly L D other loose d s' s'') :
    Partly L D other loose d s s'' :=
  ⟨h'.sound, h.grows.trans h'.grows, fun n hroom => h'.spare n (h.spare n hroom),
    fun j hj => (h'.user j hj).trans (h.user j hj)⟩

theorem Walked.partly (h : Walked L D other loose d s s') : Partly L D other loose d s s' :=
  ⟨h.sound, h.grows, h.spare, fun j hj => h.ptes j (hj.trans (by decide))⟩

theorem Mapped.partly (h : Mapped L D other loose d m w s s') (hm : UPAGES ≤ m) :
    Partly L D other loose d s s' := by
  refine ⟨h.sound, h.grows, h.spare, fun j hj => ?_⟩
  rw [h.ptes j (hj.trans (by decide)), if_neg (by omega)]

/-- Every page table has a page. -/
def Used (s : PMem) (d : ℕ) : Prop :=
  ∀ i < NPDENTRIES, tableOf s d i ≠ none → ∃ k < 2 ^ 20, k / 1024 = i ∧ pteOf s d k ≠ none

theorem Mapped.used (h : Mapped L D other loose d m w s s') (hm : m < 2 ^ 20) (hused : Used s d) :
    Used s' d := by
  intro i hi hsome
  by_cases him : i = m / 1024
  · refine ⟨m, hm, him.symm, ?_⟩
    rw [h.ptes m hm, if_pos rfl]
    exact Option.some_ne_none w
  · rw [h.only i him] at hsome
    obtain ⟨k, hk, hki, hpte⟩ := hused i hi hsome
    refine ⟨k, hk, hki, ?_⟩
    rwa [h.ptes k hk, if_neg fun hkm => him (by rw [← hki, hkm])]

theorem Used.sameView (h : Used s d) (hview : SameView d s s') : Used s' d := by
  intro i hi hsome
  rw [hview.tableOf] at hsome
  obtain ⟨k, hk, hki, hpte⟩ := h i hi hsome
  exact ⟨k, hk, hki, by rwa [hview.pteOf hk]⟩

/-- A page table none of whose pages is mapped is not there. -/
theorem Used.no_table (h : Used s d) (hk : k < 2 ^ 20)
    (hnone : ∀ j < 2 ^ 20, j / 1024 = k / 1024 → pteOf s d j = none) :
    tableOf s d (k / 1024) = none := by
  by_contra hsome
  obtain ⟨j, hj, hjk, hpte⟩ := h (k / 1024) (by change _ < 1024; omega) hsome
  exact hpte (hnone j hj hjk)

/-- The loop of `mappages` over the `n + 1` pages of the kernel from page `m` on. -/
theorem mapLoop_kernel (hs : Sound L D other loose s) (hd : d ∈ D) (hm : UPAGES ≤ m)
    (hn : m + n < 2 ^ 20) (hnone : ∀ j, m ≤ j → j ≤ m + n → pteOf s d j = none)
    (hfail : ∀ s', Partly L D other loose d s s' → ¬Room s d 0 → Q false s')
    (hdone : ∀ s', Partly L D other loose d s s' →
      (∀ j < 2 ^ 20, pteOf s' d j =
        if m ≤ j ∧ j ≤ m + n then some (pageAddr (p + (j - m)) ||| perm ||| PTE_P)
        else pteOf s d j) → (Used s d → Used s' d) → Q true s') :
    Ends E (mapLoop d perm n (pageAddr m) (pageAddr p)) s Q := by
  induction n generalizing s m p with
  | zero =>
    apply mapPage_kernel hs hd (by omega) hm (hnone m le_rfl le_rfl)
    · intro s' hwalked hfull
      exact hfail s' hwalked.partly hfull
    · intro s' hmapped
      apply hdone s' (hmapped.partly hm) _ (hmapped.used (by omega))
      intro j hj
      rw [hmapped.ptes j hj]
      by_cases hjm : j = m
      · subst hjm
        rw [if_pos rfl, if_pos (by omega), Nat.sub_self, Nat.add_zero]
      · rw [if_neg hjm, if_neg (by omega)]
  | succ n ih =>
    rw [mapLoop]
    apply Ends.seq
    apply mapPage_kernel hs hd (by omega) hm (hnone m le_rfl (by omega))
    · intro s' hwalked hfull
      exact Ends.pure (hfail s' hwalked.partly hfull)
    · intro s₁ hmapped
      rw [if_pos rfl, pageAddr_succ, pageAddr_succ]
      apply ih hmapped.sound (by omega) (by omega)
      · intro j hlo hhi
        rw [hmapped.ptes j (by omega), if_neg (by omega)]
        exact hnone j (by omega) (by omega)
      · intro s' hpartly hfull
        exact hfail s' ((hmapped.partly hm).trans hpartly) fun h => hfull (hmapped.spare 0 h)
      · intro s' hpartly hptes hused
        apply hdone s' ((hmapped.partly hm).trans hpartly) _
          fun h => hused (hmapped.used (by omega) h)
        intro j hj
        rw [hptes j hj, hmapped.ptes j hj]
        by_cases hjm : j = m
        · subst hjm
          rw [if_neg (by omega), if_pos rfl, if_pos (by omega), Nat.sub_self, Nat.add_zero]
        · rw [if_neg hjm]
          by_cases hin : m + 1 ≤ j ∧ j ≤ m + 1 + n
          · rw [if_pos hin, if_pos (by omega)]
            have hoff : p + 1 + (j - (m + 1)) = p + (j - m) := by omega
            rw [hoff]
          · rw [if_neg hin, if_neg (by omega)]

theorem Kmap.Ok.covers {k : Kmap} (hk : k.Ok m n p) (j : ℕ) :
    k.Covers j ↔ m ≤ j ∧ j ≤ m + n := by
  rw [Kmap.Covers, hk.virt, hk.size]
  show m * 4096 ≤ j * 4096 ∧ j * 4096 < m * 4096 + (n + 1) * 4096 ↔ _
  omega

theorem Kmap.Ok.entry {k : Kmap} (hk : k.Ok m n p) (j : ℕ) :
    k.entry j = pageAddr (p + (j - m)) ||| k.perm ||| PTE_P := by
  rw [Kmap.entry, pageAddr, hk.virt, hk.phys, Nat.add_mul, Nat.sub_mul]

/-- One row of `kmap`. -/
theorem mappages_row {k : Kmap} (hk : k.Ok m n p) (hs : Sound L D other loose s) (hd : d ∈ D)
    (hnone : ∀ j, k.Covers j → pteOf s d j = none)
    (hfail : ∀ s', Partly L D other loose d s s' → ¬Room s d 0 → Q false s')
    (hdone : ∀ s', Partly L D other loose d s s' →
      (∀ j < 2 ^ 20, pteOf s' d j = if k.Covers j then some (k.entry j) else pteOf s d j) →
      (Used s d → Used s' d) → Q true s') :
    Ends E (mappages d (BitVec.ofNat 32 k.virt) (BitVec.ofNat 32 (k.physEnd - k.physStart))
      (BitVec.ofNat 32 k.physStart) k.perm) s Q := by
  have hvirt : BitVec.ofNat 32 k.virt = pageAddr m := by rw [hk.virt, pageAddr]
  have hphys : BitVec.ofNat 32 k.physStart = pageAddr p := by rw [hk.phys, pageAddr]
  rw [hvirt, hphys, hk.size, mappages_eq hk.below]
  apply mapLoop_kernel hs hd hk.above hk.below
  · intro j hlo hhi
    exact hnone j ((hk.covers j).mpr ⟨hlo, hhi⟩)
  · exact hfail
  · intro s' hpartly hptes hused
    apply hdone s' hpartly _ hused
    intro j hj
    rw [hptes j hj]
    by_cases hcover : k.Covers j
    · have hrange := (hk.covers j).mp hcover
      rw [if_pos hcover, if_pos hrange, hk.entry j]
    · rw [if_neg hcover, if_neg fun hrange => hcover ((hk.covers j).mpr hrange)]

theorem kernelPte_cons (k : Kmap) (rows : List Kmap) (j : ℕ) :
    kernelPte (k :: rows) j = if k.Covers j then some (k.entry j) else kernelPte rows j := by
  rw [kernelPte, List.find?_cons]
  by_cases hcover : k.Covers j
  · simp [hcover]
  · simp [hcover, kernelPte]

theorem kernelPte_eq_none {rows : List Kmap} (h : ∀ k ∈ rows, ¬k.Covers j) :
    kernelPte rows j = none := by
  rw [kernelPte, List.find?_eq_none.mpr (by simpa using h), Option.map_none]

theorem mapKernel_ends {rows : List Kmap} (hrows : ∀ k ∈ rows, ∃ m n p, k.Ok m n p)
    (hdisj : rows.Pairwise fun k k' => ∀ j, k.Covers j → ¬k'.Covers j)
    (hs : Sound L D other loose s) (hd : d ∈ D)
    (hnone : ∀ k ∈ rows, ∀ j, k.Covers j → pteOf s d j = none)
    (hfail : ∀ s', Partly L D other loose d s s' → ¬Room s d 0 → Q false s')
    (hdone : ∀ s', Partly L D other loose d s s' →
      (∀ j < 2 ^ 20, pteOf s' d j = (kernelPte rows j).or (pteOf s d j)) →
      (Used s d → Used s' d) → Q true s') :
    Ends E (mapKernel d rows) s Q := by
  induction rows generalizing s with
  | nil =>
    apply Ends.pure
    exact hdone s (.refl hs d) (fun _ _ => rfl) id
  | cons k rows ih =>
    obtain ⟨m, n, p, hk⟩ := hrows k List.mem_cons_self
    rw [List.pairwise_cons] at hdisj
    apply Ends.seq
    apply mappages_row hk hs hd (hnone k List.mem_cons_self)
    · intro s' hpartly hfull
      exact Ends.pure (hfail s' hpartly hfull)
    · intro s₁ hfirst hptes hused
      rw [if_pos rfl]
      apply ih (fun k' hk' => hrows k' (List.mem_cons_of_mem k hk')) hdisj.2 hfirst.sound
      · intro k' hk' j hcover
        have hj : j < 2 ^ 20 := by
          obtain ⟨m', n', p', hok⟩ := hrows k' (List.mem_cons_of_mem k hk')
          have hrange := (hok.covers j).mp hcover
          have hbelow := hok.below
          omega
        rw [hptes j hj, if_neg fun h => hdisj.1 k' hk' j h hcover]
        exact hnone k' (List.mem_cons_of_mem k hk') j hcover
      · intro s' hpartly hfull
        exact hfail s' (hfirst.trans hpartly) fun h => hfull (hfirst.spare 0 h)
      · intro s' hpartly hptes' hused'
        apply hdone s' (hfirst.trans hpartly) _ fun h => hused' (hused h)
        intro j hj
        rw [hptes' j hj, hptes j hj, kernelPte_cons]
        by_cases hcover : k.Covers j
        · rw [if_pos hcover, if_pos hcover,
            kernelPte_eq_none fun k' hk' => hdisj.1 k' hk' j hcover]
          rfl
        · rw [if_neg hcover, if_neg hcover]

theorem kmap_ok (L : Layout) : ∀ k ∈ kmap L, ∃ m n p, k.Ok m n p := by
  have htext : 256 < L.data := L.text
  have horder := L.order
  have hroom : L.kend ≤ 57344 := L.room
  simp only [kmap, List.mem_cons, List.not_mem_nil, or_false]
  rintro k (rfl | rfl | rfl | rfl)
  · exact ⟨0x80000, 255, 0, rfl, rfl, rfl, by decide, by decide⟩
  · refine ⟨0x80100, L.data - 257, 256, rfl, rfl, ?_, by decide, ?_⟩
    · show L.data * 4096 - 0x100000 = (L.data - 257 + 1) * 4096
      omega
    · omega
  · refine ⟨0x80000 + L.data, 57343 - L.data, L.data, ?_, rfl, ?_, ?_, ?_⟩
    · show 0x80000000 + L.data * 4096 = (0x80000 + L.data) * 4096
      omega
    · show 0xE000000 - L.data * 4096 = (57343 - L.data + 1) * 4096
      omega
    · show 0x80000 ≤ 0x80000 + L.data
      omega
    · omega
  · exact ⟨0xFE000, 0x1FFF, 0xFE000, rfl, rfl, rfl, by decide, by decide⟩

/-- The rows are in order, each ends where the next one starts or before. -/
theorem kmap_sorted (L : Layout) :
    (kmap L).Pairwise fun k k' => k.virt + (k.physEnd - k.physStart) ≤ k'.virt := by
  have htext : 256 < L.data := L.text
  have horder := L.order
  have hroom : L.kend ≤ 57344 := L.room
  have htop : KERNLINK + (L.data * PGSIZE - EXTMEM) = KERNBASE + L.data * PGSIZE := by
    show 0x80100000 + (L.data * 4096 - 0x100000) = 0x80000000 + L.data * 4096
    omega
  have hstop : KERNBASE + L.data * PGSIZE + (PHYSTOP - L.data * PGSIZE) = KERNBASE + PHYSTOP := by
    show 0x80000000 + L.data * 4096 + (0xE000000 - L.data * 4096) = 0x80000000 + 0xE000000
    omega
  have hlow : KERNLINK ≤ KERNBASE + L.data * PGSIZE := by
    rw [← htop]
    exact Nat.le_add_right _ _
  have hdev : KERNBASE + L.data * PGSIZE ≤ DEVSPACE := by
    show 0x80000000 + L.data * 4096 ≤ 0xFE000000
    omega
  simp only [kmap, List.pairwise_cons, List.mem_cons, List.not_mem_nil, or_false]
  refine ⟨?_, ?_, ?_, fun _ hnone => hnone.elim, List.Pairwise.nil⟩
  · rintro k (rfl | rfl | rfl)
    · exact le_rfl
    · exact hlow
    · decide
  · rintro k (rfl | rfl)
    · exact htop.le
    · exact htop.le.trans hdev
  · rintro k rfl
    rw [hstop]
    decide

theorem kmap_disjoint (L : Layout) :
    (kmap L).Pairwise fun k k' => ∀ j, k.Covers j → ¬k'.Covers j :=
  (kmap_sorted L).imp fun hle _ hcover hcover' =>
    absurd (hle.trans hcover'.1) (Nat.not_le.mpr hcover.2)

theorem not_covers_user (L : Layout) {k : Kmap} (hk : k ∈ kmap L) (hj : j < UPAGES) :
    ¬k.Covers j := by
  obtain ⟨m, n, p, hok⟩ := kmap_ok L k hk
  intro hcover
  have hrange := (hok.covers j).mp hcover
  have habove := hok.above
  omega

/-! ## `setupkvm` -/

/-- Between the last of physical memory and the devices nothing is mapped. -/
theorem kernelPte_gap (L : Layout) (hlo : (KERNBASE + PHYSTOP) / PGSIZE ≤ j)
    (hhi : j < DEVSPACE / PGSIZE) : kernelPte (kmap L) j = none := by
  have hroom : L.kend ≤ 57344 := L.room
  have horder := L.order
  change 0x8E000 ≤ j at hlo
  change j < 0xFE000 at hhi
  apply kernelPte_eq_none
  simp only [kmap, List.mem_cons, List.not_mem_nil, or_false]
  rintro k (rfl | rfl | rfl | rfl) ⟨hstart, hend⟩
  · change j * 4096 < 0x80000000 + (0x100000 - 0) at hend
    omega
  · change j * 4096 < 0x80100000 + (L.data * 4096 - 0x100000) at hend
    omega
  · change j * 4096 < 0x80000000 + L.data * 4096 + (0xE000000 - L.data * 4096) at hend
    omega
  · change 0xFE000000 ≤ j * 4096 at hstart
    omega

/-- A cleared page from the free list as a directory of its own. -/
theorem Sound.addDir (hs : Sound L D other loose s) (hf : f ∈ loose)
    (hzero : s.mem f = fun _ => 0) : Sound L (insert f D) other (loose \ {f}) s where
  owned := by
    have htable (i : ℕ) : tableOf s f i = none := by
      simp [tableOf, pdeOf, hzero]
    have hpte (k : ℕ) : pteOf s f k = none := pteOf_of_tableOf_none (htable _)
    have hnot : f ∉ D := fun hd => hs.not_loose hd (refers_dir s f) hf
    apply hs.owned.attach hf (p := (f, .dir))
    · rintro c ⟨hd, -⟩
      exact hnot hd
    · rintro ⟨d, p⟩ c
      simp only [Set.mem_insert_iff, Prod.mk.injEq]
      by_cases hdf : d = f
      · subst hdf
        cases p with
        | dir => simp [Refers, hnot]
        | table i => simp [Refers, htable]
        | page k => simp [Refers, hpte]
      · simp [hdf]
  nodup := hs.nodup
  range := hs.range

/-- What was in use before keeps its contents. -/
def Untouched (s s' : PMem) : Prop := ∀ f, f ∉ s.free → s'.mem f = s.mem f

/-- A new directory with the kernel's part and nothing else. -/
structure NewDir (L : Layout) (D other loose : Set ℕ) (d : ℕ) (s s' : PMem) : Prop where
  sound : Sound L (insert d D) other loose s'
  fresh : d ∈ s.free
  tables : ∀ i < NPDENTRIES, ∀ t, tableOf s' d i = some t → t ∈ s.free
  kept : Untouched s s'
  free : ∀ f, f ∈ s'.free → f ∈ s.free
  spare : ∀ n, s.fails = [] → 1025 + n ≤ s.free.length → Room s' d n
  used : Used s' d
  ptes : ∀ j < 2 ^ 20, pteOf s' d j = kernelPte (kmap L) j

theorem Untouched.sameView (h : Untouched s s') (hs : Sound L D other loose s) (hd : d ∈ D) :
    SameView d s s' :=
  .of_refers fun _ f href => h f (hs.not_free hd href)

/-- With 1025 frames free `setupkvm` does not fail: they suffice for a directory and every
page table. -/
theorem setupkvm_ends {Q : Option ℕ → PMem → Prop} (hs : Sound L D other loose s)
    (hfail : ∀ s', Sound L D other loose s' → Untouched s s' →
      ¬(s.fails = [] ∧ 1025 ≤ s.free.length) → Q none s')
    (hdone : ∀ d s', NewDir L D other loose d s s' → Q (some d) s') :
    Ends E (setupkvm L) s Q := by
  apply Ends.seq
  apply kalloc_ends hs
  · intro hfull
    apply Ends.pure
    apply hfail _ (Walked.fails hs 0).sound fun _ _ => rfl
    rintro ⟨hfails, hlength⟩
    rw [hfull hfails, List.length_nil] at hlength
    omega
  · intro d rest hfree halloc
    have hmem : d ∈ s.free := hfree ▸ List.mem_cons_self
    have hloose : d ∉ loose := fun h => hs.not_free_of_loose h hmem
    apply Ends.modify_bind
    have hdir := (halloc.fill_loose (Set.mem_insert d loose) fun _ => 0).addDir
      (Set.mem_insert d loose) (update_self ..)
    rw [Set.insert_sdiff_self_of_notMem hloose] at hdir
    have htable (i : ℕ) :
        tableOf (PMem.fill { s with free := rest, fails := s.fails.tail } d fun _ => 0) d i =
          none := by
      simp [tableOf, pdeOf, PMem.fill]
    have hpte (k : ℕ) :
        pteOf (PMem.fill { s with free := rest, fails := s.fails.tail } d fun _ => 0) d k = none :=
      pteOf_of_tableOf_none (htable _)
    have hroom (n : ℕ) (hfails : s.fails = []) (hlength : 1025 + n ≤ s.free.length) :
        Room (PMem.fill { s with free := rest, fails := s.fails.tail } d fun _ => 0) d n := by
      refine ⟨(congrArg List.tail hfails : s.fails.tail = []), ?_⟩
      have hall := Finset.card_filter_le (Finset.range NPDENTRIES) fun i => tableOf
        (PMem.fill { s with free := rest, fails := s.fails.tail } d fun _ => 0) d i = none
      rw [Finset.card_range] at hall
      change _ ≤ 1024 at hall
      rw [hfree, List.length_cons] at hlength
      show absent _ d + n ≤ rest.length
      rw [absent]
      omega
    -- whatever happens next stays within the pages that were free
    have hkept (s₁ : PMem) (hgrows :
        Grows d (PMem.fill { s with free := rest, fails := s.fails.tail } d fun _ => 0) s₁) :
        Untouched s s₁ := by
      intro f hf
      have hfd : f ≠ d := fun heq => hf (heq ▸ hmem)
      rw [hgrows.mem f (fun h => hf (hfree ▸ List.mem_cons_of_mem d h)) hfd fun i _ => by
        rw [htable]; exact (Option.some_ne_none f).symm]
      exact update_of_ne hfd _ _
    have htables (s₁ : PMem) (hgrows :
        Grows d (PMem.fill { s with free := rest, fails := s.fails.tail } d fun _ => 0) s₁)
        (i : ℕ) (hi : i < NPDENTRIES) (t : ℕ) (ht : tableOf s₁ d i = some t) : t ∈ s.free := by
      rcases hgrows.new i hi t ht with hold | hnew
      · rw [htable] at hold
        cases hold
      · exact hfree ▸ List.mem_cons_of_mem d hnew
    apply Ends.seq
    apply mapKernel_ends (kmap_ok L) (kmap_disjoint L) hdir (Set.mem_insert d D)
      (fun _ _ j _ => hpte j)
    · intro s₁ hpartly hfull
      apply Ends.seq
      apply freevm_ends hpartly.sound (Set.mem_insert d D)
      intro s' hfreed
      apply Ends.pure
      have hnot : d ∉ D := fun hd => hs.not_free hd (refers_dir s d) hmem
      apply hfail _ _ _ fun h => hfull (hroom 0 h.1 h.2)
      · have hsound := hfreed.sound
        rwa [Set.insert_sdiff_self_of_notMem hnot] at hsound
      · intro f hf
        rw [hfreed.mem f, hkept s₁ hpartly.grows f hf]
        intro p href
        cases p with
        | dir => exact hf (href ▸ hmem)
        | table i => exact hf (htables s₁ hpartly.grows i href.1 f href.2)
        | page k =>
          obtain ⟨hk, pte, hpte', -⟩ := href
          rw [hpartly.user k hk, hpte] at hpte'
          cases hpte'
    · intro s' hpartly hptes hused
      apply Ends.pure
      apply hdone d s'
      refine ⟨hpartly.sound, hmem, htables s' hpartly.grows, hkept s' hpartly.grows, ?_, ?_,
        hused fun i _ hsome => absurd (htable i) hsome, ?_⟩
      · intro f hf
        exact hfree ▸ List.mem_cons_of_mem d (hpartly.grows.free f hf)
      · intro n hfails hlength
        exact hpartly.spare n (hroom n hfails hlength)
      · intro j hj
        rw [hptes j hj, hpte, Option.or_none]

/-! ## `allocuvm` -/

/-- The flags of the pages `allocuvm` maps. -/
@[reducible] def UFLAGS : Word := PTE_W ||| PTE_U

theorem frame_userEntry (hf : f < 2 ^ 20) : frame (addrOf f ||| UFLAGS ||| PTE_P) = f := by
  rw [BitVec.or_assoc, frame_entry hf (by decide)]

/-- The pages from `lo` up to `hi` are new and zero. -/
structure Added (L : Layout) (D other loose : Set ℕ) (d lo hi : ℕ) (s s' : PMem) : Prop where
  sound : Sound L D other loose s'
  grows : Grows d s s'
  spare : ∀ n, Room s d (n + (hi - lo)) → Room s' d n
  used : Used s d → Used s' d
  outside : ∀ j < 2 ^ 20, ¬(lo ≤ j ∧ j < hi) → pteOf s' d j = pteOf s d j
  inside : ∀ j, lo ≤ j → j < hi → ∃ f ∈ s.free,
    pteOf s' d j = some (addrOf f ||| UFLAGS ||| PTE_P) ∧ s'.mem f = fun _ => 0

theorem Added.refl (hs : Sound L D other loose s) (d lo : ℕ) :
    Added L D other loose d lo lo s s where
  sound := hs
  grows := .refl d s
  spare n h := h.mono (Nat.le_add_right n _)
  used h := h
  outside _ _ _ := rfl
  inside _ hlo hhi := absurd hlo (Nat.not_le.mpr hhi)

/-- What the frame of a user page of `d` goes through while `d` grows: nothing. -/
theorem Grows.mem_page (h : Grows d s s') (hs : Sound L D other loose s) (hd : d ∈ D)
    (href : Refers s d (.page k) f) : s'.mem f = s.mem f :=
  h.mem f (hs.not_free hd href) (hs.page_outside hd href).1 (hs.page_outside hd href).2

/-- A page taken from the free list and filled: nothing in use has changed. -/
theorem untouched_kalloc (hfree : s.free = f :: rest) (fails : List Bool) (p : Page) :
    Untouched s (PMem.fill { s with free := rest, fails := fails } f p) := by
  intro g hg
  apply update_of_ne
  rintro rfl
  exact hg (hfree ▸ List.mem_cons_self)

theorem Grows.of_kalloc (hfree : s.free = f :: rest) (fails : List Bool) (p : Page)
    (hd : d ∉ s.free) :
    Grows d s (PMem.fill { s with free := rest, fails := fails } f p) :=
  .of_mem (untouched_kalloc hfree fails p)
    (fun g hg => by rw [hfree]; exact List.mem_cons_of_mem f hg) hd

/-- The page takes a frame of the room there was. -/
theorem Room.kalloc (h : Room s d (n + 1)) (hfree : s.free = f :: rest) (p : Page)
    (hview : SameView d s (PMem.fill { s with free := rest, fails := s.fails.tail } f p)) :
    Room (PMem.fill { s with free := rest, fails := s.fails.tail } f p) d n := by
  refine ⟨(congrArg List.tail h.fails : s.fails.tail = []), ?_⟩
  have henough := h.enough
  rw [hfree, List.length_cons] at henough
  rw [absent_congr hview.tableOf]
  show _ ≤ rest.length
  omega

/-- The page has what was stored in it before it was mapped. -/
theorem Mapped.mem_new {p : Page} {w : Word} (hs : Sound L D other loose' s) (hd : d ∈ D)
    (hfree : s.free = f :: rest)
    (hmap : Mapped L D other loose d k w
      (PMem.fill { s with free := rest, fails := s.fails.tail } f p) s') : s'.mem f = p := by
  have hmem : f ∈ s.free := hfree ▸ List.mem_cons_self
  have hview := (untouched_kalloc hfree s.fails.tail p).sameView hs hd
  have hnodup := hs.nodup
  rw [hfree, List.nodup_cons] at hnodup
  rw [hmap.grows.mem f hnodup.1 fun heq => hs.not_free hd (refers_dir s d) (heq ▸ hmem)]
  · exact update_self ..
  · intro i hi ht
    rw [hview.tableOf] at ht
    exact hs.not_free hd (p := .table i) ⟨hi, ht⟩ hmem

/-- One more page. -/
theorem Added.succ (hs₀ : Sound L D other loose s₀) (h : Added L D other loose d lo k s₀ s)
    (hd : d ∈ D) (hlo : lo ≤ k) (hk : k < UPAGES) (hfree : s.free = f :: rest)
    (hmap : Mapped L D other loose d k (addrOf f ||| UFLAGS ||| PTE_P)
      (PMem.fill { s with free := rest, fails := s.fails.tail } f fun _ => 0) s') :
    Added L D other loose d lo (k + 1) s₀ s' := by
  have hk' : k < 0x80000 := hk
  have hmem : f ∈ s.free := hfree ▸ List.mem_cons_self
  have hdfree : d ∉ s.free := h.sound.not_free hd (refers_dir s d)
  have htaken := Grows.of_kalloc hfree s.fails.tail (fun _ => 0) hdfree
  have hview := (untouched_kalloc hfree s.fails.tail fun _ => 0).sameView h.sound hd
  have hstep := htaken.trans hmap.grows
  refine ⟨hmap.sound, h.grows.trans hstep, ?_,
    fun hused => hmap.used (hk.trans (by decide)) ((h.used hused).sameView hview), ?_, ?_⟩
  · intro n hroom
    have hcount : n + (k + 1 - lo) = n + 1 + (k - lo) := by omega
    rw [hcount] at hroom
    exact hmap.spare n ((h.spare (n + 1) hroom).kalloc hfree _ hview)
  · intro j hj hout
    rw [hmap.ptes j hj, if_neg (by omega), hview.pteOf hj, h.outside j hj (by omega)]
  · intro j hjlo hjhi
    by_cases hjk : j = k
    · subst hjk
      refine ⟨f, h.grows.free f hmem, ?_, ?_⟩
      · rw [hmap.ptes j (hk.trans (by decide)), if_pos rfl]
      · exact hmap.mem_new h.sound hd hfree
    · obtain ⟨g, hg, hpte, hzero⟩ := h.inside j hjlo (by omega)
      have hlt : g < 2 ^ 20 := (hs₀.range g hg).lt
      refine ⟨g, hg, ?_, ?_⟩
      · rw [hmap.ptes j (by omega), if_neg hjk, hview.pteOf (by omega), hpte]
      · have href : Refers s d (.page j) g := ⟨by change j < 0x80000; omega, _, hpte,
          frame_userEntry hlt⟩
        rw [hstep.mem_page h.sound hd href, hzero]

/-- The pages added so far are taken back. -/
theorem Added.undo (hs₀ : Sound L D other loose s₀) {loose' : Set ℕ}
    (hnone : ∀ j, lo ≤ j → j < hi → pteOf s₀ d j = none) (hk : k ≤ hi)
    (h : Added L D other loose d lo k s₀ s) (hgrows : Grows d s s')
    (hptes : ∀ j < 2 ^ 20, pteOf s' d j = pteOf s d j) (hhi : hi ≤ UPAGES)
    (hshed : Shed L D other loose' d lo hi s' s'') :
    Grows d s₀ s'' ∧ ∀ j < 2 ^ 20, pteOf s'' d j = pteOf s₀ d j := by
  have hhi' : hi ≤ 0x80000 := hhi
  have hall := h.grows.trans hgrows
  -- the frames of the pages that go were free at the start
  have hpages (j : ℕ) (w : Word) (hlo : lo ≤ j) (hj : j < hi) (hpte : pteOf s' d j = some w) :
      frame w ∈ s₀.free := by
    rw [hptes j (by omega)] at hpte
    by_cases hjk : j < k
    · obtain ⟨f, hf, hpte', -⟩ := h.inside j hlo hjk
      rw [hpte'] at hpte
      cases hpte
      rwa [frame_userEntry (hs₀.range f hf).lt]
    · rw [h.outside j (by omega) (by omega), hnone j hlo hj] at hpte
      cases hpte
  refine ⟨⟨?_, ?_, ?_, ?_⟩, ?_⟩
  · intro f hf hd htables
    rw [hshed.others f, hall.mem f hf hd htables]
    · rw [mem_mapped]
      rintro ⟨j, w, hlo, hj, hpte, rfl⟩
      exact hf (hpages j w hlo hj hpte)
    · intro i hi ht
      exact (hall.new i hi f ht).elim (htables i hi) hf
  · intro f hf
    rw [hshed.free, List.mem_append, List.mem_reverse, mem_mapped] at hf
    rcases hf with ⟨j, w, hlo, hj, hpte, rfl⟩ | hf
    · exact hpages j w hlo hj hpte
    · exact hall.free f hf
  · intro i hi t ht
    rw [hshed.tableOf]
    exact hall.old i hi t ht
  · intro i hi t ht
    rw [hshed.tableOf] at ht
    exact hall.new i hi t ht
  · intro j hj
    rw [hshed.pteOf hj, hptes j hj]
    split
    next hin => exact (hnone j hin.1 hin.2).symm
    next hout => exact h.outside j hj (by omega)

theorem Sound.sameView_kfree (hs : Sound L D other loose s) (hd : d ∈ D) (hf : f ∈ loose)
    (p : Page) : SameView d s { s.fill f p with free := f :: s.free } := by
  apply SameView.of_refers
  intro q g href
  apply update_of_ne
  rintro rfl
  exact hs.not_loose hd href hf

/-- Giving back a loose frame that was free at the start. -/
theorem Grows.kfree (hgrows : Grows d s₀ s) (hs : Sound L D other loose s) (hd : d ∈ D)
    (hf : f ∈ loose) (hfree : f ∈ s₀.free) (p : Page) :
    Grows d s₀ { s.fill f p with free := f :: s.free } ∧
      SameView d s { s.fill f p with free := f :: s.free } := by
  have hview := hs.sameView_kfree hd hf p
  refine ⟨⟨?_, ?_, ?_, ?_⟩, hview⟩
  · intro g hg hgd htables
    have hgf : g ≠ f := fun heq => hg (heq ▸ hfree)
    exact (update_of_ne hgf _ _).trans (hgrows.mem g hg hgd htables)
  · intro g hg
    rcases List.mem_cons.mp hg with rfl | hg
    · exact hfree
    · exact hgrows.free g hg
  · intro i hi t ht
    rw [hview.tableOf]
    exact hgrows.old i hi t ht
  · intro i hi t ht
    rw [hview.tableOf] at ht
    exact hgrows.new i hi t ht

theorem allocLoop_ends {Q : Word → PMem → Prop} {fuel : ℕ} (hd : d ∈ D)
    (hsz : newsz.toNat < KERNBASE) (hle : oldsz.toNat ≤ newsz.toNat)
    (hlo : lo = (oldsz.toNat + 4095) / 4096) (hhi : hi = (newsz.toNat + 4095) / 4096)
    (hs₀ : Sound L D other loose s₀) (hnone : ∀ j, lo ≤ j → j < hi → pteOf s₀ d j = none)
    (hlk : lo ≤ k) (hkhi : k ≤ hi) (hfuel : hi ≤ k + fuel)
    (hadded : Added L D other loose d lo k s₀ s)
    (hfail : ∀ s', Idle L D other loose d s₀ s' → lo < hi → ¬Room s₀ d (hi - lo) → Q 0 s')
    (hdone : ∀ s', Added L D other loose d lo hi s₀ s' → Q newsz s') :
    Ends E (allocLoop L d oldsz newsz fuel (pageAddr k)) s Q := by
  have hsz' : newsz.toNat < 0x80000000 := hsz
  have hhi' : hi ≤ UPAGES := by
    change hi ≤ 0x80000
    omega
  induction fuel generalizing s k with
  | zero =>
    obtain rfl : k = hi := by omega
    exact Ends.pure (hdone s hadded)
  | succ fuel ih =>
    have hk20 : k < 2 ^ 20 := by omega
    rw [allocLoop]
    by_cases hlt : k < hi
    · rw [if_pos ((pageAddr_lt hk20).mpr (hhi ▸ hlt))]
      have hold : oldsz.toNat < newsz.toNat := by omega
      have hkU : k < UPAGES := lt_of_lt_of_le hlt hhi'
      -- while there was room for all pages there is room for this one
      have hroom (h : Room s₀ d (hi - lo)) : Room s d (hi - k - 1 + 1) := by
        apply hadded.spare
        have hcount : hi - k - 1 + 1 + (k - lo) = hi - lo := by omega
        rwa [hcount]
      apply Ends.seq
      apply kalloc_ends hadded.sound
      · intro hfull
        have hidle := (Walked.fails hadded.sound d).toIdle
        apply Ends.seq
        apply deallocuvm_ends hd hsz.le hold hidle.sound
        intro s' hshed
        rw [← hlo, ← hhi] at hshed
        apply Ends.pure
        obtain ⟨hgrows, hptes⟩ := hadded.undo hs₀ hnone hkhi hidle.grows hidle.ptes hhi' hshed
        apply hfail s' ⟨hshed.sound, hgrows, hptes⟩ (hlk.trans_lt hlt)
        intro h
        have henough := (hroom h).enough
        rw [hfull (hroom h).fails, List.length_nil] at henough
        omega
      · intro f rest hfree halloc
        have hmem : f ∈ s.free := hfree ▸ List.mem_cons_self
        have hloose : f ∉ loose := fun h => hadded.sound.not_free_of_loose h hmem
        have hfill := halloc.fill_loose (Set.mem_insert f loose) fun _ => 0
        have hview := (untouched_kalloc hfree s.fails.tail fun _ => 0).sameView hadded.sound hd
        have htaken := Grows.of_kalloc hfree s.fails.tail (fun _ => 0)
          (hadded.sound.not_free hd (refers_dir s d))
        have hempty : pteOf s d k = none := by
          rw [hadded.outside k hk20 (by omega), hnone k hlk hlt]
        apply Ends.modify_bind
        apply Ends.seq
        have hone : BitVec.ofNat 32 PGSIZE = BitVec.ofNat 32 ((0 + 1) * PGSIZE) := rfl
        rw [hone, mappages_eq (by omega)]
        apply mapPage_user hfill hd hkU ((hview.pteOf hk20).trans hempty)
          (Set.mem_insert f loose) (by decide)
        · intro s₁ hidle hfull
          apply Ends.seq
          apply deallocuvm_ends hd hsz.le hold hidle.sound
          intro s₂ hshed
          rw [← hlo, ← hhi] at hshed
          obtain ⟨hgrows, hptes⟩ := hadded.undo hs₀ hnone hkhi (htaken.trans hidle.grows)
            (fun j hj => (hidle.ptes j hj).trans (hview.pteOf hj)) hhi' hshed
          apply Ends.seq
          apply kfree_ends hshed.sound (Set.mem_insert f loose)
          intro s' heq hs'
          rw [Set.insert_sdiff_self_of_notMem hloose] at hs'
          apply Ends.pure
          obtain ⟨hgrows', hview'⟩ := hgrows.kfree hshed.sound hd (Set.mem_insert f loose)
            (hadded.grows.free f hmem) fun _ => 1
          rw [← heq] at hgrows' hview'
          apply hfail s' ⟨hs', hgrows', fun j hj => (hview'.pteOf hj).trans (hptes j hj)⟩
            (hlk.trans_lt hlt)
          exact fun h => hfull (((hroom h).kalloc hfree _ hview).mono (Nat.zero_le _))
        · intro s₁ hmapped
          rw [Set.insert_sdiff_self_of_notMem hloose] at hmapped
          rw [if_pos rfl, ← hone, pageAddr_succ]
          exact ih (by omega) hlt (by omega) (hadded.succ hs₀ hd hlk hkU hfree hmapped)
    · rw [if_neg fun h => hlt (hhi ▸ (pageAddr_lt hk20).mp h)]
      obtain rfl : k = hi := by omega
      exact Ends.pure (hdone s hadded)

/-- `allocuvm` that does not stop at its first tests. -/
theorem allocuvm_ends {Q : Word → PMem → Prop} (hd : d ∈ D) (hsz : newsz.toNat < KERNBASE)
    (hle : oldsz.toNat ≤ newsz.toNat) (hs : Sound L D other loose s)
    (hnone : ∀ j, (oldsz.toNat + 4095) / 4096 ≤ j → j < (newsz.toNat + 4095) / 4096 →
      pteOf s d j = none)
    (hfail : ∀ s', Idle L D other loose d s s' →
      (oldsz.toNat + 4095) / 4096 < (newsz.toNat + 4095) / 4096 →
      ¬Room s d ((newsz.toNat + 4095) / 4096 - (oldsz.toNat + 4095) / 4096) → Q 0 s')
    (hdone : ∀ s', Added L D other loose d ((oldsz.toNat + 4095) / 4096)
      ((newsz.toNat + 4095) / 4096) s s' → Q newsz s') :
    Ends E (allocuvm L d oldsz newsz) s Q := by
  have hsz' : newsz.toNat < 0x80000000 := hsz
  have hfirst : ¬BitVec.ofNat 32 KERNBASE ≤ newsz := by
    rw [BitVec.le_def]
    show ¬0x80000000 ≤ newsz.toNat
    omega
  rw [allocuvm, if_neg hfirst, if_neg (by rw [BitVec.lt_def]; omega),
    pgroundup_eq (hle.trans hsz.le)]
  apply allocLoop_ends hd hsz hle rfl rfl hs hnone le_rfl (by omega) _ (.refl hs d _) hfail hdone
  change _ ≤ _ + (newsz.toNat / 4096 + 1)
  omega

/-- The rule for any two sizes. It fails where there is a page to add, or too much is asked. -/
theorem allocuvm_any {Q : Word → PMem → Prop} (hd : d ∈ D) (hs : Sound L D other loose s)
    (hnone : ∀ j < UPAGES, (oldsz.toNat + 4095) / 4096 ≤ j → j < (newsz.toNat + 4095) / 4096 →
      pteOf s d j = none)
    (hfail : ∀ s', Idle L D other loose d s s' → (newsz.toNat < KERNBASE →
      (oldsz.toNat + 4095) / 4096 < (newsz.toNat + 4095) / 4096) → Q 0 s')
    (hless : newsz.toNat < oldsz.toNat → Q oldsz s)
    (hdone : ∀ s', newsz.toNat < KERNBASE → oldsz.toNat ≤ newsz.toNat →
      Added L D other loose d ((oldsz.toNat + 4095) / 4096) ((newsz.toNat + 4095) / 4096) s s' →
      Q newsz s') :
    Ends E (allocuvm L d oldsz newsz) s Q := by
  by_cases hbig : newsz.toNat < KERNBASE
  · by_cases hle : oldsz.toNat ≤ newsz.toNat
    · apply allocuvm_ends hd hbig hle hs
      · intro j hlo hhi
        change newsz.toNat < 0x80000000 at hbig
        exact hnone j (by change j < 0x80000; omega) hlo hhi
      · exact fun s' hidle hlt _ => hfail s' hidle fun _ => hlt
      · exact fun s' hadded => hdone s' hbig hle hadded
    · have hfirst : ¬BitVec.ofNat 32 KERNBASE ≤ newsz := by
        rw [BitVec.le_def]
        exact Nat.not_le.mpr hbig
      rw [allocuvm, if_neg hfirst, if_pos (by rw [BitVec.lt_def]; omega)]
      exact Ends.pure (hless (Nat.not_le.mp hle))
  · have hfirst : BitVec.ofNat 32 KERNBASE ≤ newsz := by
      rw [BitVec.le_def]
      exact Nat.not_lt.mp hbig
    rw [allocuvm, if_pos hfirst]
    exact Ends.pure (hfail s ⟨hs, .refl d s, fun _ _ => rfl⟩ fun h => absurd h hbig)

end

end Xv6Threads.Vm
