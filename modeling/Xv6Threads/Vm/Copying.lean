/-
# `copyuvm`

The copy is made of frames that were free: a directory, its page tables, and a page for
every page of the source, with the same contents and flags. Nothing that was in use
changes, so the source stays as it was; and freeing the copy, which `copyuvm` itself
does when memory runs out, leaves the same frames free as before.
-/

import Xv6Threads.Vm.Building

namespace Xv6Threads.Vm

open Lib

/-- A directory made only of frames that were free in `s`. -/
structure Draft (L : Layout) (D other loose : Set ℕ) (d : ℕ) (s s' : PMem) : Prop where
  sound : Sound L (insert d D) other loose s'
  kept : Untouched s s'
  fresh : ∀ p f, Refers s' d p f → f ∈ s.free

/-- A draft whose pages below `k` are copies of those of `src`. -/
structure Copied (L : Layout) (D other loose : Set ℕ) (src d k : ℕ) (s s' : PMem) : Prop
    extends Draft L D other loose d s s' where
  free : ∀ f, f ∈ s'.free → f ∈ s.free
  spare : ∀ n, s.fails = [] → 1025 + k + n ≤ s.free.length → Room s' d n
  kernel : ∀ j, UPAGES ≤ j → j < 2 ^ 20 → pteOf s' d j = kernelPte (kmap L) j
  rest : ∀ j, k ≤ j → j < UPAGES → pteOf s' d j = none
  pages : ∀ j < k, ∃ w f, pteOf s src j = some w ∧ f ∈ s.free ∧
    pteOf s' d j = some (addrOf f ||| pteFlags w) ∧ s'.mem f = s.mem (frame w)

section

variable {L : Layout} {E : VmFault → Prop} {D other loose loose' : Set ℕ}
variable {s s₀ s' s'' : PMem} {src d f i k t : ℕ} {w : Word}

theorem Untouched.trans_grows (h : Untouched s₀ s) (hgrows : Grows d s s')
    (hfree : ∀ f, f ∈ s.free → f ∈ s₀.free) (hd : d ∈ s₀.free)
    (htables : ∀ i < NPDENTRIES, ∀ t, tableOf s d i = some t → t ∈ s₀.free) :
    Untouched s₀ s' := by
  intro f hf
  rw [hgrows.mem f (fun h => hf (hfree f h)) (fun heq => hf (heq ▸ hd)), h f hf]
  intro i hi ht
  exact hf (htables i hi f ht)

/-- A fresh directory is an empty copy. -/
theorem NewDir.copied (h : NewDir L D other loose d s s') (src : ℕ) :
    Copied L D other loose src d 0 s s' where
  sound := h.sound
  kept := h.kept
  fresh p f href := by
    cases p with
    | dir => exact href ▸ h.fresh
    | table i => exact h.tables i href.1 f href.2
    | page k =>
      obtain ⟨hk, pte, hpte, -⟩ := href
      rw [h.ptes k (hk.trans (by decide)),
        kernelPte_eq_none fun r hr => not_covers_user L hr hk] at hpte
      cases hpte
  free := h.free
  spare n hfails hlength := h.spare n hfails hlength
  kernel j _ hj := h.ptes j hj
  rest j _ hj := by
    rw [h.ptes j (hj.trans (by decide)), kernelPte_eq_none fun r hr => not_covers_user L hr hj]
  pages j hj := absurd hj (Nat.not_lt_zero j)

/-- The directory of a draft after page tables have been added and nothing mapped. -/
theorem Draft.idle (h : Draft L D other loose d s₀ s)
    (hfree : ∀ f, f ∈ s.free → f ∈ s₀.free) (hidle : Idle L (insert d D) other loose' d s s') :
    Untouched s₀ s' ∧ ∀ p f, Refers s' d p f → f ∈ s₀.free := by
  refine ⟨h.kept.trans_grows hidle.grows hfree (h.fresh .dir d (refers_dir s d))
    fun i hi t ht => h.fresh (.table i) t ⟨hi, ht⟩, ?_⟩
  intro p f href
  cases p with
  | dir => exact h.fresh .dir f href
  | table i =>
    rcases hidle.grows.new i href.1 f href.2 with hold | hnew
    · exact h.fresh (.table i) f ⟨href.1, hold⟩
    · exact hfree f hnew
  | page k =>
    obtain ⟨hk, pte, hpte, hframe⟩ := href
    rw [hidle.ptes k (hk.trans (by decide))] at hpte
    exact h.fresh (.page k) f ⟨hk, pte, hpte, hframe⟩

/-- A frame from the free list, filled and not stored yet. -/
theorem Draft.kalloc (h : Draft L D other loose d s₀ s) (hfree₀ : ∀ f, f ∈ s.free → f ∈ s₀.free)
    {rest : List ℕ} (hfree : s.free = f :: rest) (fails : List Bool) (p : Page) :
    Draft L D other (insert f loose) d s₀
        (PMem.fill { s with free := rest, fails := fails } f p) ∧
      SameView d s (PMem.fill { s with free := rest, fails := fails } f p) := by
  have hmem : f ∈ s.free := hfree ▸ List.mem_cons_self
  have huntouched := untouched_kalloc hfree fails p
  have hview := huntouched.sameView h.sound (Set.mem_insert d D)
  refine ⟨⟨?_, ?_, ?_⟩, hview⟩
  · exact (h.sound.kalloc hfree fails).fill_loose (Set.mem_insert f loose) p
  · intro g hg
    rw [huntouched g fun hin => hg (hfree₀ g hin), h.kept g hg]
  · intro q g href
    exact h.fresh q g ((hview.refers q g).mp href)

/-- The frame is given back. -/
theorem Draft.kfree (h : Draft L D other (insert f loose) d s₀ s) (hf : f ∉ loose)
    (hfree : f ∈ s₀.free) (p : Page) :
    Draft L D other loose d s₀ { s.fill f p with free := f :: s.free } := by
  have hview := h.sound.sameView_kfree (Set.mem_insert d D) (Set.mem_insert f loose) p
  refine ⟨?_, ?_, ?_⟩
  · have hsound := h.sound.kfree (Set.mem_insert f loose) p
    rwa [Set.insert_sdiff_self_of_notMem hf] at hsound
  · intro g hg
    have hgf : g ≠ f := fun heq => hg (heq ▸ hfree)
    exact (Function.update_of_ne hgf _ _).trans (h.kept g hg)
  · intro q g href
    exact h.fresh q g ((hview.refers q g).mp href)

/-- One more page. -/
theorem Copied.succ {rest : List ℕ} {p : Page}
    (hs₀ : Sound L D other loose s₀) (h : Copied L D other loose src d k s₀ s)
    (hk : k < UPAGES) (hsrc : pteOf s₀ src k = some w) (hp : p = s₀.mem (frame w))
    (hfree : s.free = f :: rest)
    (hmap : Mapped L (insert d D) other loose d k (addrOf f ||| pteFlags w)
      (PMem.fill { s with free := rest, fails := s.fails.tail } f p) s') :
    Copied L D other loose src d (k + 1) s₀ s' := by
  have hd := Set.mem_insert d D
  have hk' : k < 0x80000 := hk
  have hmem : f ∈ s.free := hfree ▸ List.mem_cons_self
  have hlt : f < 2 ^ 20 := (h.sound.range f hmem).lt
  have hdfree : d ∉ s.free := h.sound.not_free hd (refers_dir s d)
  obtain ⟨hdraft, hview⟩ := h.toDraft.kalloc h.free hfree s.fails.tail p
  have hstep := (Grows.of_kalloc hfree s.fails.tail p hdfree).trans hmap.grows
  have hframe : frame (addrOf f ||| pteFlags w) = f := frame_entry hlt (isFlags_pteFlags w)
  have hnew : s'.mem f = p := hmap.mem_new h.sound hd hfree
  have hothers (j : ℕ) (hj : j < 2 ^ 20) (hjk : j ≠ k) : pteOf s' d j = pteOf s d j := by
    rw [hmap.ptes j hj, if_neg hjk, hview.pteOf hj]
  refine { sound := hmap.sound, kept := ?_, fresh := ?_, free := ?_, spare := ?_, kernel := ?_,
           rest := ?_, pages := ?_ }
  · exact h.kept.trans_grows hstep h.free (h.fresh .dir d (refers_dir s d))
      fun i hi t ht => h.fresh (.table i) t ⟨hi, ht⟩
  · intro q g href
    cases q with
    | dir => exact h.fresh .dir g href
    | table i =>
      rcases hstep.new i href.1 g href.2 with hold | hin
      · exact h.fresh (.table i) g ⟨href.1, hold⟩
      · exact h.free g hin
    | page j =>
      obtain ⟨hj, pte, hpte, hpf⟩ := href
      by_cases hjk : j = k
      · subst hjk
        rw [hmap.ptes j (hj.trans (by decide)), if_pos rfl] at hpte
        cases hpte
        rw [← hpf, hframe]
        exact h.free f hmem
      · rw [hothers j (hj.trans (by decide)) hjk] at hpte
        exact h.fresh (.page j) g ⟨hj, pte, hpte, hpf⟩
  · intro g hg
    exact h.free g (hstep.free g hg)
  · intro n hfails hlength
    exact hmap.spare n ((h.spare (n + 1) hfails (by omega)).kalloc hfree p hview)
  · intro j hj hj'
    rw [hothers j hj' (by omega)]
    exact h.kernel j hj hj'
  · intro j hj hj'
    rw [hothers j (hj'.trans (by decide)) (by omega)]
    exact h.rest j (by omega) hj'
  · intro j hj
    by_cases hjk : j = k
    · subst hjk
      refine ⟨w, f, hsrc, h.free f hmem, ?_, hnew.trans hp⟩
      rw [hmap.ptes j (by omega), if_pos rfl]
    · obtain ⟨v, g, hv, hg, hpte, hcontents⟩ := h.pages j (by omega)
      refine ⟨v, g, hv, hg, ?_, ?_⟩
      · rw [hothers j (by omega) hjk, hpte]
      · have href : Refers s d (.page j) g :=
          ⟨by change j < 0x80000; omega, _, hpte,
            frame_entry (hs₀.range g hg).lt (isFlags_pteFlags v)⟩
        rw [hstep.mem_page h.sound hd href, hcontents]

theorem copyLoop_ends {Q : Bool → PMem → Prop} {sz : Word} {fuel hi : ℕ}
    (hs₀ : Sound L D other loose s₀) (hsrc : src ∈ D) (hmatch : Matches s₀ src sz)
    (hhi : hi = (sz.toNat + 4095) / 4096) (hkhi : k ≤ hi) (hfuel : hi ≤ k + fuel)
    (hcopied : Copied L D other loose src d k s₀ s)
    (hfail : ∀ s', Draft L D other loose d s₀ s' →
      ¬(s₀.fails = [] ∧ 1025 + hi ≤ s₀.free.length) → Q false s')
    (hdone : ∀ s', Copied L D other loose src d hi s₀ s' → Q true s') :
    Ends E (copyLoop L src d sz fuel (pageAddr k)) s Q := by
  have hsz : sz.toNat ≤ 0x80000000 := hmatch.size
  induction fuel generalizing s k with
  | zero =>
    obtain rfl : k = hi := by omega
    exact Ends.pure (hdone s hcopied)
  | succ fuel ih =>
    have hk20 : k < 2 ^ 20 := by omega
    rw [copyLoop]
    by_cases hlt : k < hi
    · rw [if_pos ((pageAddr_lt hk20).mpr (hhi ▸ hlt))]
      have hkU : k < UPAGES := by
        change k < 0x80000
        omega
      have hsome := (hmatch.pages k hkU).mpr (by change k * 4096 < sz.toNat; omega)
      obtain ⟨w, hw⟩ := Option.isSome_iff_exists.mp hsome
      have hroom (h : s₀.fails = [] ∧ 1025 + hi ≤ s₀.free.length) : Room s d (0 + 1) :=
        hcopied.spare (0 + 1) h.1 (by omega)
      have hview := hcopied.kept.sameView hs₀ hsrc
      obtain ⟨t, ht, hword, hpresent⟩ := entry_of_pteOf_some ((hview.pteOf hk20).trans hw)
      apply Ends.seq
      apply walkpgdir_false hk20
      rw [ht]
      apply Ends.read_bind
      rw [hword]
      apply Ends.check_bind
      case hfail => exact fun h => absurd hpresent h
      intro _
      apply Ends.seq
      apply kalloc_ends hcopied.sound
      · intro hfull
        apply Ends.pure
        have hidle := (Walked.fails hcopied.sound d).toIdle
        obtain ⟨hkept, hfresh⟩ := hcopied.toDraft.idle hcopied.free hidle
        apply hfail _ ⟨hidle.sound, hkept, hfresh⟩
        intro h
        have henough := (hroom h).enough
        rw [hfull (hroom h).fails, List.length_nil] at henough
        omega
      · intro f rest hfree _
        have hmem : f ∈ s.free := hfree ▸ List.mem_cons_self
        have hloose : f ∉ loose := fun h => hcopied.sound.not_free_of_loose h hmem
        have hpage : s.mem (frame w) = s₀.mem (frame w) :=
          hcopied.kept _ (hs₀.not_free hsrc (p := .page k) ⟨hkU, w, hw, rfl⟩)
        obtain ⟨hdraft, hview'⟩ := hcopied.toDraft.kalloc hcopied.free hfree s.fails.tail
          (s.mem (frame w))
        apply Ends.read_bind
        apply Ends.modify_bind
        apply Ends.seq
        have hone : BitVec.ofNat 32 PGSIZE = BitVec.ofNat 32 ((0 + 1) * PGSIZE) := rfl
        rw [hone, mappages_eq (by omega)]
        apply mapPage_user hdraft.sound (Set.mem_insert d D) hkU
          ((hview'.pteOf hk20).trans (hcopied.rest k le_rfl hkU)) (Set.mem_insert f loose)
          (isFlags_pteFlags w)
        · intro s₁ hwalked hfull
          have hidle := hwalked.toIdle
          have hrest (g : ℕ) (hg : g ∈ rest) : g ∈ s₀.free :=
            hcopied.free g (hfree ▸ List.mem_cons_of_mem f hg)
          obtain ⟨hkept, hfresh⟩ := hdraft.idle hrest hidle
          have hdraft' : Draft L D other (insert f loose) d s₀ s₁ :=
            ⟨hidle.sound, hkept, hfresh⟩
          apply Ends.seq
          apply kfree_ends hidle.sound (Set.mem_insert f loose)
          intro s' heq _
          apply Ends.pure
          apply hfail
          · rw [heq]
            exact hdraft'.kfree hloose (hcopied.free f hmem) _
          · exact fun h => hfull ((hroom h).kalloc hfree _ hview')
        · intro s₁ hmapped
          rw [Set.insert_sdiff_self_of_notMem hloose, BitVec.or_assoc,
            pteFlags_or_present hpresent] at hmapped
          rw [if_pos rfl, ← hone, pageAddr_succ]
          exact ih hlt (by omega) (hcopied.succ hs₀ hkU hw hpage hfree hmapped)
    · rw [if_neg fun h => hlt (hhi ▸ (pageAddr_lt hk20).mp h)]
      obtain rfl : k = hi := by omega
      exact Ends.pure (hdone s hcopied)

/-- A draft that is freed leaves the directories there were, and what was in use. -/
theorem Draft.freed (hs : Sound L D other loose s) (h : Draft L D other loose d s s')
    (hfreed : Freed L (insert d D) other loose d s' s'') :
    Sound L D other loose s'' ∧ Untouched s s'' := by
  have hnot : d ∉ D := fun hd =>
    hs.not_free hd (refers_dir s d) (h.fresh .dir d (refers_dir s' d))
  have hsound := hfreed.sound
  rw [Set.insert_sdiff_self_of_notMem hnot] at hsound
  refine ⟨hsound, fun f hf => ?_⟩
  rw [hfreed.mem f fun p href => hf (h.fresh p f href), h.kept f hf]

theorem copyuvm_ends {Q : Option ℕ → PMem → Prop} {sz : Word} (hs : Sound L D other loose s)
    (hsrc : src ∈ D) (hmatch : Matches s src sz)
    (hfail : ∀ s', Sound L D other loose s' → Untouched s s' →
      ¬(s.fails = [] ∧ 1025 + (sz.toNat + 4095) / 4096 ≤ s.free.length) → Q none s')
    (hdone : ∀ d s', Copied L D other loose src d ((sz.toNat + 4095) / 4096) s s' →
      Q (some d) s') :
    Ends E (copyuvm L src sz) s Q := by
  apply Ends.seq
  apply setupkvm_ends hs
  · intro s' hs' hkept hfull
    apply Ends.pure
    apply hfail s' hs' hkept
    exact fun h => hfull ⟨h.1, (Nat.le_add_right _ _).trans h.2⟩
  · intro d s₁ hnew
    apply Ends.seq
    have hzero : (0 : Word) = pageAddr 0 := rfl
    rw [hzero]
    apply copyLoop_ends hs hsrc hmatch rfl (Nat.zero_le _) _ (hnew.copied src)
    · intro s₂ hdraft hfull
      apply Ends.seq
      apply freevm_ends hdraft.sound (Set.mem_insert d D)
      intro s' hfreed
      obtain ⟨hsound, hkept⟩ := hdraft.freed hs hfreed
      exact Ends.pure (hfail s' hsound hkept hfull)
    · intro s' hcopied
      exact Ends.pure (hdone d s' hcopied)
    · change _ ≤ 0 + (sz.toNat / 4096 + 1)
      omega

/-- Nothing in use changed and the same directories are there: the same frames are
free. -/
theorem Untouched.free_iff (h : Untouched s s') (hs : Sound L D other loose s)
    (hs' : Sound L D other loose s') (f : ℕ) : f ∈ s'.free ↔ f ∈ s.free :=
  hs.free_iff hs' (fun _ hd p f => (h.sameView hs hd).refers p f) f

/-- The user pages of `d` are a copy of those of `src`, in frames that were free. -/
structure IsCopy (s s' : PMem) (src d : ℕ) : Prop where
  pages : ∀ k < UPAGES, ∀ w, pteOf s src k = some w → ∃ w', pteOf s' d k = some w' ∧
    frame w' ∈ s.free ∧ pteFlags w' = pteFlags w ∧ s'.mem (frame w') = s.mem (frame w)
  only : ∀ k < UPAGES, pteOf s src k = none → pteOf s' d k = none
  distinct : ∀ j < UPAGES, ∀ k < UPAGES, ∀ w w', pteOf s' d j = some w → pteOf s' d k = some w' →
    frame w = frame w' → j = k
  apart : ∀ k < UPAGES, ∀ w, pteOf s' d k = some w → ∀ p, ¬Refers s src p (frame w)

/-- Every entry of `src` and every page it refers to is as before. -/
structure Unchanged (s s' : PMem) (src : ℕ) : Prop where
  ptes : ∀ k < 2 ^ 20, pteOf s' src k = pteOf s src k
  mem : ∀ p f, Refers s src p f → s'.mem f = s.mem f

theorem Untouched.unchanged (h : Untouched s s') (hs : Sound L D other loose s)
    (hsrc : src ∈ D) : Unchanged s s' src where
  ptes _ hk := (h.sameView hs hsrc).pteOf hk
  mem _ f href := h f (hs.not_free hsrc href)

theorem Copied.isCopy {sz : Word} (hs : Sound L D other loose s) (hsrc : src ∈ D)
    (hmatch : Matches s src sz)
    (h : Copied L D other loose src d ((sz.toNat + 4095) / 4096) s s') : IsCopy s s' src d := by
  have hbelow (k : ℕ) (hk : k < UPAGES) (w : Word) (hw : pteOf s src k = some w) :
      k < (sz.toNat + 4095) / 4096 := by
    have hpage := (hmatch.pages k hk).mp (hw ▸ rfl)
    change k * 4096 < sz.toNat at hpage
    omega
  have hrefs (k : ℕ) (hk : k < UPAGES) (w : Word) (hw : pteOf s' d k = some w) :
      Refers s' d (.page k) (frame w) := ⟨hk, w, hw, rfl⟩
  refine ⟨?_, ?_, ?_, ?_⟩
  · intro k hk w hw
    obtain ⟨v, f, hv, hf, hpte, hmem⟩ := h.pages k (hbelow k hk w hw)
    rw [hw] at hv
    cases hv
    have hlt : f < 2 ^ 20 := (hs.range f hf).lt
    refine ⟨_, hpte, ?_, pteFlags_entry hlt (isFlags_pteFlags w), ?_⟩ <;>
      rwa [frame_entry hlt (isFlags_pteFlags w)]
  · intro k hk hnone
    apply h.rest k _ hk
    by_contra hlt
    obtain ⟨w, f, hw, -⟩ := h.pages k (Nat.not_le.mp hlt)
    rw [hnone] at hw
    cases hw
  · intro j hj k hk w w' hw hw' heq
    exact h.sound.page_inj (Set.mem_insert d D) (hrefs j hj w hw) (heq ▸ hrefs k hk w' hw')
  · intro k hk w hw p href
    exact hs.not_free hsrc href (h.fresh _ _ (hrefs k hk w hw))

/-- `copyuvm` never stops with a fault. When it returns a directory, that is a copy of
the source in fresh frames, the source is as before, and freeing the copy leaves free
what was free. When it returns 0, the same frames are free as before; that happens only
if `kalloc` was made to fail or too few frames were free. -/
theorem copyuvm_copies {sz : Word} (hs : Sound L D other loose s) (hsrc : src ∈ D)
    (hmatch : Matches s src sz) :
    (∃ s', copyuvm L src sz s = .ok (none, s') ∧ (∀ f, f ∈ s'.free ↔ f ∈ s.free) ∧
        ¬(s.fails = [] ∧ 1025 + (sz.toNat + 4095) / 4096 ≤ s.free.length)) ∨
      ∃ d s', copyuvm L src sz s = .ok (some d, s') ∧ IsCopy s s' src d ∧ Unchanged s s' src ∧
        ∃ s'', freevm L d s' = .ok ((), s'') ∧ ∀ f, f ∈ s''.free ↔ f ∈ s.free := by
  have hrun : Ends (fun _ => False) (copyuvm L src sz) s fun r s' =>
      (r = none ∧ (∀ f, f ∈ s'.free ↔ f ∈ s.free) ∧
          ¬(s.fails = [] ∧ 1025 + (sz.toNat + 4095) / 4096 ≤ s.free.length)) ∨
        ∃ d, r = some d ∧ IsCopy s s' src d ∧ Unchanged s s' src ∧
          ∃ s'', freevm L d s' = .ok ((), s'') ∧ ∀ f, f ∈ s''.free ↔ f ∈ s.free := by
    apply copyuvm_ends hs hsrc hmatch
    · intro s' hs' hkept hfull
      exact .inl ⟨rfl, hkept.free_iff hs hs', hfull⟩
    · intro d s' hcopied
      have hfreevm : Ends (fun _ => False) (freevm L d) s' fun _ s'' =>
          ∀ f, f ∈ s''.free ↔ f ∈ s.free := by
        apply freevm_ends hcopied.sound (Set.mem_insert d D)
        intro s'' hfreed
        obtain ⟨hsound, hkept⟩ := hcopied.toDraft.freed hs hfreed
        exact hkept.free_iff hs hsound
      obtain ⟨_, s'', hrun, hfree⟩ := hfreevm.returns
      exact .inr ⟨d, rfl, hcopied.isCopy hs hsrc hmatch, hcopied.kept.unchanged hs hsrc,
        s'', hrun, hfree⟩
  obtain ⟨r, s', hr, hcase⟩ := hrun.returns
  rcases hcase with ⟨rfl, hfree⟩ | ⟨d, rfl, hrest⟩
  · exact .inl ⟨s', hr, hfree⟩
  · exact .inr ⟨d, s', hr, hrest⟩

end

/-! ## A small memory -/

def smallLayout : Layout := ⟨257, 300, by decide, by decide, by decide⟩

/-- Frame 300 is a directory with one page table, 301, and one user page, 302. -/
def smallMemory : PMem :=
  (PMem.put ⟨fun _ _ => 0, List.range' 303 2000, []⟩ 300 0
    (addrOf 301 ||| (PTE_P ||| PTE_W ||| PTE_U))).put 301 0 (addrOf 302 ||| UFLAGS ||| PTE_P)

theorem sound_smallMemory : ∃ other, Sound smallLayout {300} other ∅ smallMemory ∧
    Matches smallMemory 300 4096 := by
  have hrange : ∀ f ∈ List.range' 300 2003, smallLayout.Allocatable f := by
    intro f hf
    rw [List.mem_range'_1] at hf
    exact ⟨hf.1, by change f < 57344; omega⟩
  have hstart := sound_start smallLayout (fun _ _ => 0) [] List.nodup_range' hrange
  have hdir := (hstart.kalloc (f := 300) rfl []).addDir (Set.mem_insert 300 ∅) rfl
  rw [Set.insert_sdiff_self_of_notMem (Set.notMem_empty 300), insert_empty_eq] at hdir
  have h301 : frame (addrOf 301 ||| (PTE_P ||| PTE_W ||| PTE_U)) = 301 := by decide
  have h302 : frame (addrOf 302 ||| UFLAGS ||| PTE_P) = 302 := by decide
  have hempty (i : ℕ) : tableOf ⟨fun _ _ => 0, List.range' 302 2001, []⟩ 300 i = none := by
    simp [tableOf, pdeOf]
  have hsound₁ := hdir.kalloc (f := 301) rfl []
  have htable := hsound₁.addTable (i := 0) (Set.mem_singleton 300) (by decide) (hempty 0)
    (h301 ▸ Set.mem_insert 301 ∅) rfl (by decide)
  rw [h301, Set.insert_sdiff_self_of_notMem (Set.notMem_empty 301)] at htable
  have hsound₂ := htable.kalloc (f := 302) rfl []
  have hnone (k : ℕ) (hk : k < 2 ^ 20) :
      pteOf (PMem.put ⟨fun _ _ => 0, List.range' 303 2000, []⟩ 300 0
        (addrOf 301 ||| (PTE_P ||| PTE_W ||| PTE_U))) 300 k = none :=
    (pteOf_addTable hsound₁ (Set.mem_singleton 300) (hempty 0) (h301 ▸ Set.mem_insert 301 ∅)
      rfl (by decide) hk).trans (pteOf_of_tableOf_none (hempty _))
  have hone : tableOf (PMem.put ⟨fun _ _ => 0, List.range' 303 2000, []⟩ 300 0
      (addrOf 301 ||| (PTE_P ||| PTE_W ||| PTE_U))) 300 (0 / 1024) = some 301 := by
    rw [tableOf_put_dir, if_pos (by decide), if_pos (by decide), h301]
  have hpage := hsound₂.addPage (m := 0) (Set.mem_singleton 300) hone (by decide)
    (hnone 0 (by decide)) (by decide) (h302 ▸ Set.mem_insert 302 ∅)
  rw [h302, Set.insert_sdiff_self_of_notMem (Set.notMem_empty 302)] at hpage
  refine ⟨_, hpage, by decide, fun j hj => ?_⟩
  have hj' := hj.trans (show UPAGES < 2 ^ 20 by decide)
  have hpte : pteOf smallMemory 300 j =
      if j = 0 then some (addrOf 302 ||| UFLAGS ||| PTE_P) else none :=
    (pteOf_put hsound₂ (Set.mem_singleton 300) (m := 0) (by decide) hone hj').trans
      (if_congr Iff.rfl (if_pos (by decide)) (hnone j hj'))
  rw [hpte]
  show _ ↔ j * 4096 < 4096
  by_cases hzero : j = 0
  · rw [if_pos hzero, hzero]
    exact iff_of_true rfl (by decide)
  · rw [if_neg hzero]
    exact iff_of_false Bool.false_ne_true (by omega)

/-- The one user page of the small memory is copied. -/
theorem copyuvm_copies_small :
    ∃ d s', copyuvm smallLayout 300 4096 smallMemory = .ok (some d, s') ∧
      IsCopy smallMemory s' 300 d := by
  obtain ⟨other, hs, hmatch⟩ := sound_smallMemory
  rcases copyuvm_copies hs (Set.mem_singleton 300) hmatch with
    ⟨s', -, -, hfull⟩ | ⟨d, s', hr, hcopy, -⟩
  · refine absurd ⟨rfl, ?_⟩ hfull
    show _ ≤ (List.range' 303 2000).length
    rw [List.length_range']
    decide
  · exact ⟨d, s', hr, hcopy⟩

end Xv6Threads.Vm
