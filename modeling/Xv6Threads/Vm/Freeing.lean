/-
# Giving user memory back

`deallocuvm` and `freevm`. What is freed is what the directory referred to, each frame
once: its user pages first, then its page tables, then the directory itself.
-/

import Mathlib.Data.List.Nodup
import Xv6Threads.Vm.Skipping

namespace Xv6Threads.Vm

open Lib

variable {Q : Unit → PMem → Prop} {is : List ℕ}

/-- The user pages from `lo` up to `hi` are gone from directory `d`, and every frame still
has one owner. -/
structure Shed (L : Layout) (D other loose : Set ℕ) (d lo hi : ℕ) (s s' : PMem) : Prop
    extends Released d lo hi s s' where
  sound : Sound L D other loose s'

section

variable {L : Layout} {E : VmFault → Prop} {D other loose : Set ℕ}
variable {s s' s'' : PMem} {d f i k t lo mid hi : ℕ} {w : Word}

/-- `kfree` for a page whose entry is cleared right after. -/
theorem Sound.release (hs : Sound L D other loose s) (hd : d ∈ D) (hk : k < UPAGES)
    (ht : tableOf s d (k / 1024) = some t) (hpte : pteOf s d k = some w) :
    Sound L D other loose (s.release (frame w) t (k % 1024)) := by
  have hindex : k / 1024 < NPDENTRIES := by
    change k < 0x80000 at hk
    change k / 1024 < 1024
    omega
  have href : Refers s d (.page k) (frame w) := ⟨hk, w, hpte, rfl⟩
  have htf : t ≠ frame w := by
    rintro rfl
    cases (hs.unique hd hd (p := .table (k / 1024)) ⟨hindex, ht⟩ href).2
  -- the two writes are to different pages, so the entry may as well be cleared first
  have hswap : s.release (frame w) t (k % 1024) =
      { (s.put t (k % 1024) 0).fill (frame w) (fun _ => 1) with free := frame w :: s.free } := by
    simp only [PMem.release, PMem.put, PMem.fill, Function.update_of_ne htf,
      Function.update_comm htf]
  have hdrop := hs.dropPage hd ht hk hpte
  have hfree := hdrop.kfree (Set.mem_insert _ _) fun _ => 1
  rw [hswap]
  rwa [Set.insert_sdiff_self_of_notMem (hs.not_loose hd href)] at hfree

theorem deallocuvm_ends {Q : Word → PMem → Prop} {oldsz newsz : Word} (hd : d ∈ D)
    (hsz : oldsz.toNat ≤ KERNBASE) (hlt : newsz.toNat < oldsz.toNat)
    (hs : Sound L D other loose s)
    (hQ : ∀ s', Shed L D other loose d ((newsz.toNat + 4095) / 4096)
      ((oldsz.toNat + 4095) / 4096) s s' → Q newsz s') :
    Ends E (deallocuvm L d oldsz newsz) s Q := by
  have hhi : (oldsz.toNat + 4095) / 4096 ≤ UPAGES := by
    change oldsz.toNat ≤ 0x80000000 at hsz
    change _ ≤ 0x80000
    omega
  obtain ⟨htree, htakes⟩ : Tree s d ((newsz.toNat + 4095) / 4096) _ ∧ _ := hs.tree hd hhi
  have hends := deallocuvm_tree (L := L) hsz rfl rfl htree hlt hs
    fun s j w t hj hs ht hpte => hs.release hd (hj.trans_le hhi) ht hpte
  apply (hends.weaken fun _ hstop => absurd htakes hstop.2).mono
  rintro _ s' ⟨rfl, -, hreleased, hsound⟩
  exact hQ s' ⟨hreleased, hsound⟩

/-! ## The whole directory -/

/-- The frames a directory refers to are free, and it is no directory any more. -/
structure Freed (L : Layout) (D other loose : Set ℕ) (d : ℕ) (s s' : PMem) : Prop where
  sound : Sound L (D \ {d}) other loose s'
  mem : ∀ f, (∀ p, ¬Refers s d p f) → s'.mem f = s.mem f

/-- The page tables for the entries in `is`. -/
def tablesIn (s : PMem) (d : ℕ) (is : List ℕ) : Set ℕ := {t | ∃ i ∈ is, tableOf s d i = some t}

/-- Everything a directory without user pages refers to, handed to the caller. -/
theorem Sound.detach (hs : Sound L D other loose s) (hd : d ∈ D)
    (hnone : ∀ j < UPAGES, pteOf s d j = none) :
    Sound L (D \ {d}) other (insert d (loose ∪ tablesIn s d (List.range NPDENTRIES))) s where
  owned := by
    have hset : insert d (loose ∪ tablesIn s d (List.range NPDENTRIES)) =
        loose ∪ {c | ∃ x : ℕ × Place, x.1 = d ∧ (x.1 ∈ D ∧ Refers s x.1 x.2 c)} := by
      ext c
      simp only [tablesIn, List.mem_range, Set.mem_insert_iff, Set.mem_union, Set.mem_ofPred_eq]
      constructor
      · rintro (rfl | hc | ⟨i, hi, ht⟩)
        · exact .inr ⟨(c, .dir), rfl, hd, refers_dir s c⟩
        · exact .inl hc
        · exact .inr ⟨(d, .table i), rfl, hd, hi, ht⟩
      · rintro (hc | ⟨⟨d', p⟩, rfl, -, href⟩)
        · exact .inr (.inl hc)
        · cases p with
          | dir => exact .inl href
          | table i => exact .inr (.inr ⟨i, href⟩)
          | page k =>
            obtain ⟨hk, pte, hpte, -⟩ := href
            rw [hnone k hk] at hpte
            cases hpte
    rw [hset]
    apply hs.owned.detach
    intro x c
    simp only [Set.mem_sdiff, Set.mem_singleton_iff]
    tauto
  nodup := hs.nodup
  range := hs.range

theorem tablesIn_cons_none (h : tableOf s d i = none) :
    tablesIn s d (i :: is) = tablesIn s d is := by
  ext t
  simp [tablesIn, h]

theorem tablesIn_cons_some (h : tableOf s d i = some t) :
    tablesIn s d (i :: is) = insert t (tablesIn s d is) := by
  ext t'
  simp [tablesIn, h, eq_comm]

theorem freeTables_ends (hnodup : is.Nodup)
    (hinj : ∀ i ∈ is, ∀ j ∈ is, ∀ t, tableOf s d i = some t → tableOf s d j = some t → i = j)
    (hfresh : ∀ t ∈ tablesIn s d is, t ∉ insert d loose)
    (hs : Sound L D other (insert d (loose ∪ tablesIn s d is)) s)
    (hQ : ∀ s', Sound L D other (insert d loose) s' →
      (∀ f, f ∉ tablesIn s d is → s'.mem f = s.mem f) → Q () s') :
    Ends E (freeTables L d is) s Q := by
  induction is generalizing s with
  | nil =>
    apply Ends.pure
    apply hQ s _ fun _ _ => rfl
    have hempty : tablesIn s d [] = ∅ := by
      ext t
      simp [tablesIn]
    rwa [hempty, Set.union_empty] at hs
  | cons i is ih =>
    have hrest := (List.nodup_cons.mp hnodup).2
    have hinj' (j : ℕ) (hj : j ∈ is) (j' : ℕ) (hj' : j' ∈ is) :=
      hinj j (List.mem_cons_of_mem _ hj) j' (List.mem_cons_of_mem _ hj')
    apply Ends.read_bind
    cases htable : tableOf s d i with
    | none =>
      have habsent : present (wordAt (s.mem d) (4 * i)) = false := by
        by_contra hp
        rw [Bool.not_eq_false] at hp
        rw [tableOf, pdeOf, if_pos hp] at htable
        cases htable
      rw [tablesIn_cons_none htable] at hs hfresh hQ
      rw [habsent]
      exact ih hrest hinj' hfresh hs hQ
    | some t =>
      have hpresent : present (wordAt (s.mem d) (4 * i)) = true := by
        by_contra hp
        rw [tableOf, pdeOf, if_neg hp] at htable
        cases htable
      have hframe : frameOf (pteAddr (wordAt (s.mem d) (4 * i))) = t := by
        rw [tableOf, pdeOf, if_pos hpresent] at htable
        exact Option.some.inj htable
      rw [tablesIn_cons_some htable] at hs hfresh hQ
      rw [hpresent, if_pos rfl, hframe]
      have htd : t ∉ insert d loose := hfresh t (Set.mem_insert _ _)
      have htrest : t ∉ tablesIn s d is := by
        rintro ⟨j, hj, ht⟩
        have heq := hinj i List.mem_cons_self j (List.mem_cons_of_mem _ hj) t htable ht
        exact (List.nodup_cons.mp hnodup).1 (heq ▸ hj)
      apply Ends.seq
      apply kfree_ends hs (by simp)
      intro s₁ hs₁ hsound
      have hmem (f : ℕ) (hf : f ≠ t) : s₁.mem f = s.mem f := by
        rw [hs₁]
        exact Function.update_of_ne hf _ _
      have hdt : d ≠ t := fun heq => htd (heq ▸ Set.mem_insert d loose)
      have htables (j : ℕ) : tableOf s₁ d j = tableOf s d j := by
        rw [tableOf, tableOf, pdeOf, pdeOf, hmem d hdt]
      have hin : tablesIn s₁ d is = tablesIn s d is := by
        simp only [tablesIn, htables]
      have hloose : insert d (loose ∪ insert t (tablesIn s d is)) \ {t} =
          insert d (loose ∪ tablesIn s₁ d is) := by
        rw [hin]
        ext c
        simp only [Set.mem_insert_iff, not_or] at htd
        simp only [Set.mem_sdiff, Set.mem_insert_iff, Set.mem_union, Set.mem_singleton_iff]
        by_cases hc : c = t
        · subst hc
          simp [htd, htrest]
        · simp [hc]
      rw [hloose] at hsound
      apply ih hrest _ _ hsound
      · intro s' hs' hkept
        apply hQ s' hs'
        intro f hf
        rw [Set.mem_insert_iff, not_or] at hf
        rw [hkept f (hin ▸ hf.2), hmem f hf.1]
      · intro j hj j' hj' u
        rw [htables, htables]
        exact hinj' j hj j' hj' u
      · intro u hu
        exact hfresh u (Set.mem_insert_of_mem t (hin ▸ hu))

theorem freevm_ends (hs : Sound L D other loose s) (hd : d ∈ D)
    (hQ : ∀ s', Freed L D other loose d s s' → Q () s') : Ends E (freevm L d) s Q := by
  apply Ends.seq
  apply deallocuvm_ends hd le_rfl (by decide) hs
  intro s₁ hshed
  have hshed' : Shed L D other loose d 0 UPAGES s s₁ := hshed
  have hnone (j : ℕ) (hj : j < UPAGES) : pteOf s₁ d j = none := by
    rw [hshed'.pteOf (hj.trans (by decide)), if_pos ⟨Nat.zero_le j, hj⟩]
  have hfresh (t : ℕ) (ht : t ∈ tablesIn s₁ d (List.range NPDENTRIES)) : t ∉ insert d loose := by
    obtain ⟨i, hi, ht⟩ := ht
    rw [List.mem_range] at hi
    rintro (rfl | hloose)
    · exact hshed.sound.table_ne_dir hd hi ht rfl
    · exact hshed.sound.not_loose hd (p := .table i) ⟨hi, ht⟩ hloose
  apply Ends.seq
  apply freeTables_ends List.nodup_range _ hfresh (hshed.sound.detach hd hnone)
  · intro s₂ hs₂ hkept
    apply kfree_ends hs₂ (Set.mem_insert d loose)
    intro s' heq hs'
    apply hQ
    have hd' : d ∉ loose := hs.not_loose hd (refers_dir s d)
    refine ⟨?_, ?_⟩
    · rwa [Set.insert_sdiff_self_of_notMem hd'] at hs'
    · intro f hf
      have hfd : f ≠ d := hf .dir
      have htables (i : ℕ) (hi : i < NPDENTRIES) : tableOf s d i ≠ some f :=
        fun ht => hf (.table i) ⟨hi, ht⟩
      have hlast : s'.mem f = s₂.mem f := by
        rw [heq]
        exact Function.update_of_ne hfd _ _
      rw [hlast, hkept, hshed'.others f _ htables]
      · rw [mem_mapped]
        rintro ⟨j, w, -, hj, hpte, hframe⟩
        exact hf (.page j) ⟨hj, w, hpte, hframe⟩
      · rintro ⟨i, hi, ht⟩
        rw [hshed.tableOf] at ht
        exact htables i (List.mem_range.mp hi) ht
  · intro i hi j hj t
    exact hshed.sound.table_inj hd (List.mem_range.mp hi) (List.mem_range.mp hj)

end

end Xv6Threads.Vm
