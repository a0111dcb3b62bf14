/-
# Skipping missing page tables

The loop of `deallocuvm` jumps over a page table that is not there. Here it is compared
with a loop that visits every page of the range one by one: the two are the same command,
in any memory. What the plain loop does to a directory is then read off page by page.

Nothing is asked of the rest of memory, and the pages of the range need not be pages that
`kfree` accepts.
-/

import Mathlib.Data.List.Intervals
import Xv6Threads.Vm.Mapping

namespace Xv6Threads.Vm

open Lib Lib.Command

/-- The page addresses from `lo` on and below `hi`, in order. -/
def pagesBetween (lo hi : Word) : List Word :=
  ((List.range (2 ^ 20)).map pageAddr).filter fun a => lo ≤ a ∧ a < hi

section

variable (L : Layout)

/-- Give one page back, if it is there. -/
def freePage (pgdir : ℕ) (a : Word) : VmM Unit := do
  match ← walkpgdir pgdir a false with
  | none => return ()
  | some (pgtab, i) => do
      let pte ← getEntry pgtab i
      if present pte then
        check (fun _ => pteAddr pte ≠ 0) .kfree
        kfree L (frameOf (pteAddr pte))
        setEntry pgtab i 0
      else return ()

def freePages (pgdir : ℕ) : List Word → VmM Unit
  | [] => return ()
  | a :: rest => do
      freePage L pgdir a
      freePages pgdir rest

/-- `deallocuvm` without skipping. -/
def deallocEach (pgdir : ℕ) (oldsz newsz : Word) : VmM Word :=
  if oldsz ≤ newsz then return oldsz
  else do
    freePages L pgdir (pagesBetween (pgroundup newsz) oldsz)
    return newsz

end

section

variable {L : Layout} {s s' : PMem} {d k t lo hi fuel : ℕ} {w oldsz newsz : Word}

/-! ## The same pages -/

theorem pageAddr_lt {sz : Word} (hk : k < 2 ^ 20) :
    pageAddr k < sz ↔ k < (sz.toNat + 4095) / 4096 := by
  rw [BitVec.lt_def, toNat_pageAddr hk]
  omega

theorem pteOf_of_tableOf_none (h : tableOf s d (k / 1024) = none) : pteOf s d k = none := by
  rw [pteOf, h, Option.bind_none]

theorem pteOf_eq_none (ht : tableOf s d (k / 1024) = some t)
    (h : present (wordAt (s.mem t) (4 * (k % 1024))) = false) : pteOf s d k = none := by
  simp [pteOf, ht, h]

theorem pteOf_eq_some (ht : tableOf s d (k / 1024) = some t)
    (h : present (wordAt (s.mem t) (4 * (k % 1024))) = true) :
    pteOf s d k = some (wordAt (s.mem t) (4 * (k % 1024))) := by
  simp [pteOf, ht, h]

private theorem filter_range_eq_Ico {n : ℕ} (hhi : hi ≤ n) :
    (List.range n).filter (fun k => decide (lo ≤ k) && decide (k < hi)) = List.Ico lo hi := by
  have hico : List.range n = List.Ico 0 n := by
    rw [List.Ico, List.range_eq_range', Nat.sub_zero]
  rw [← List.filter_filter, hico, List.Ico.filter_lt, List.Ico.filter_le, Nat.min_eq_right hhi,
    Nat.zero_max]

theorem pagesBetween_eq (hlo : lo < 2 ^ 20) (hsz : oldsz.toNat ≤ KERNBASE) :
    pagesBetween (pageAddr lo) oldsz =
      (List.Ico lo ((oldsz.toNat + 4095) / 4096)).map pageAddr := by
  change oldsz.toNat ≤ 0x80000000 at hsz
  have hmem (k : ℕ) (hk : k ∈ List.range (2 ^ 20)) :
      decide (pageAddr lo ≤ pageAddr k ∧ pageAddr k < oldsz) =
        decide (lo ≤ k ∧ k < (oldsz.toNat + 4095) / 4096) := by
    rw [List.mem_range] at hk
    rw [decide_eq_decide, pageAddr_lt hk, BitVec.le_def, toNat_pageAddr hlo, toNat_pageAddr hk]
    omega
  calc
    pagesBetween (pageAddr lo) oldsz =
        ((List.range (2 ^ 20)).filter fun k =>
          decide (pageAddr lo ≤ pageAddr k ∧ pageAddr k < oldsz)).map pageAddr :=
      List.filter_map
    _ = ((List.range (2 ^ 20)).filter fun k =>
          decide (lo ≤ k) && decide (k < (oldsz.toNat + 4095) / 4096)).map pageAddr := by
      rw [List.filter_congr hmem]
      simp only [Bool.decide_and]
    _ = (List.Ico lo ((oldsz.toNat + 4095) / 4096)).map pageAddr := by
      rw [filter_range_eq_Ico (by omega)]

theorem walkpgdir_eq (hk : k < 2 ^ 20) : walkpgdir d (pageAddr k) false s =
    .ok ((tableOf s d (k / 1024)).map fun t => (t, k % 1024), s) := by
  have hends : Ends (fun _ => False) (walkpgdir d (pageAddr k) false) s fun r s' =>
      r = (tableOf s d (k / 1024)).map (fun t => (t, k % 1024)) ∧ s' = s :=
    walkpgdir_false hk ⟨rfl, rfl⟩
  obtain ⟨r, s', hrun, rfl, rfl⟩ := hends.returns
  exact hrun

theorem freePage_absent (hk : k < 2 ^ 20) (hnone : pteOf s d k = none) :
    freePage L d (pageAddr k) s = .ok ((), s) := by
  rw [freePage, bind_ok (walkpgdir_eq hk)]
  cases htable : tableOf s d (k / 1024) with
  | none => rfl
  | some t =>
    have habsent := entry_of_pteOf_none htable hnone
    show (if present (wordAt (s.mem t) (4 * (k % 1024))) then _ else _ : VmM Unit) s = _
    rw [if_neg (by rw [habsent]; decide)]
    rfl

/-- The memory after `kfree` for the page of an entry that is cleared right after. -/
def PMem.release (s : PMem) (f t i : ℕ) : PMem :=
  PMem.put { s.fill f (fun _ => 1) with free := f :: s.free } t i 0

/-- What is left to do once the entry is known. -/
theorem freePage_of_present (hk : k < 2 ^ 20) (hpte : pteOf s d k = some w)
    (ht : tableOf s d (k / 1024) = some t) : freePage L d (pageAddr k) s = (do
      check (fun _ => pteAddr w ≠ 0) .kfree
      kfree L (frame w)
      setEntry t (k % 1024) 0 : VmM Unit) s := by
  obtain ⟨t', ht', rfl, hpresent⟩ := entry_of_pteOf_some hpte
  obtain rfl : t' = t := Option.some.inj (ht'.symm.trans ht)
  rw [freePage, bind_ok (walkpgdir_eq hk), ht]
  show (if present (wordAt (s.mem t') (4 * (k % 1024))) then _ else _ : VmM Unit) s = _
  rw [if_pos hpresent]
  rfl

theorem freePage_freed (hk : k < 2 ^ 20) (hpte : pteOf s d k = some w)
    (ht : tableOf s d (k / 1024) = some t) (halloc : L.Allocatable (frame w)) :
    freePage L d (pageAddr k) s = .ok ((), s.release (frame w) t (k % 1024)) := by
  have hzero : pteAddr w ≠ 0 := by
    intro hzero
    have hframe : frame w = 0 := by
      rw [frame, hzero]
      rfl
    exact absurd halloc.pos (by rw [hframe]; decide)
  have hcheck : check (fun _ : PMem => pteAddr w ≠ 0) VmFault.kfree s = .ok ((), s) :=
    check_ok hzero
  have hrange : check (fun _ : PMem => L.kend ≤ frame w ∧ frame w < PHYSTOP / PGSIZE)
      VmFault.kfree s = .ok ((), s) := check_ok halloc
  have hkfree : kfree L (frame w) s =
      .ok ((), { s.fill (frame w) (fun _ => 1) with free := frame w :: s.free }) := by
    rw [kfree, bind_ok hrange]
    rfl
  rw [freePage_of_present hk hpte ht, bind_ok hcheck, bind_ok hkfree]
  rfl

/-- A page that `kfree` does not take, physical page 0 among them. -/
theorem freePage_refused (hk : k < 2 ^ 20) (hpte : pteOf s d k = some w)
    (hnot : ¬L.Allocatable (frame w)) : freePage L d (pageAddr k) s = .error .kfree := by
  obtain ⟨t, ht, -, -⟩ := entry_of_pteOf_some hpte
  have hrange : check (fun _ : PMem => L.kend ≤ frame w ∧ frame w < PHYSTOP / PGSIZE)
      VmFault.kfree s = .error .kfree := check_error hnot
  have hkfree : kfree L (frame w) s = .error .kfree := by
    rw [kfree, bind_error hrange]
  rw [freePage_of_present hk hpte ht]
  by_cases hzero : pteAddr w ≠ 0
  · have hcheck : check (fun _ : PMem => pteAddr w ≠ 0) VmFault.kfree s = .ok ((), s) :=
      check_ok hzero
    rw [bind_ok hcheck, bind_error hkfree]
  · have hcheck : check (fun _ : PMem => pteAddr w ≠ 0) VmFault.kfree s = .error .kfree :=
      check_error hzero
    rw [bind_error hcheck]

/-! ## The same loop -/

theorem freePages_skip (hk : k < 2 ^ 20) (hnone : pteOf s d k = none) :
    freePages L d ((List.Ico k hi).map pageAddr) s =
      freePages L d ((List.Ico (k + 1) hi).map pageAddr) s := by
  by_cases hlt : k < hi
  · rw [List.Ico.eq_cons hlt, List.map_cons, freePages, bind_ok (freePage_absent hk hnone)]
  · rw [List.Ico.eq_nil_of_le (by omega), List.Ico.eq_nil_of_le (by omega)]

theorem freePages_skip_to {next : ℕ} (hle : k ≤ next) (hnext : next ≤ 2 ^ 20)
    (hnone : ∀ j, k ≤ j → j < next → pteOf s d j = none) :
    freePages L d ((List.Ico k hi).map pageAddr) s =
      freePages L d ((List.Ico next hi).map pageAddr) s := by
  induction next, hle using Nat.le_induction with
  | base => rfl
  | succ next hle ih =>
    rw [ih (by omega) fun j hj hlt => hnone j hj (by omega)]
    exact freePages_skip (by omega) (hnone next hle (by omega))

/-- One turn of the loop at a page whose table is there. -/
theorem deallocLoop_of_table (hk : k < 2 ^ 20) (hlt : pageAddr k < oldsz)
    (ht : tableOf s d (k / 1024) = some t) :
    deallocLoop L d oldsz (fuel + 1) (pageAddr k) s =
      (freePage L d (pageAddr k) >>= fun _ => deallocLoop L d oldsz fuel (pageAddr (k + 1))) s := by
  rw [deallocLoop, if_pos hlt, bind_ok (walkpgdir_eq hk), freePage, bind_assoc,
    bind_ok (walkpgdir_eq hk), ht, ← pageAddr_succ]
  show (if present (wordAt (s.mem t) (4 * (k % 1024))) then _ else _ : VmM Unit) s =
    ((if present (wordAt (s.mem t) (4 * (k % 1024))) then _ else _ : VmM Unit) >>= _) s
  cases present (wordAt (s.mem t) (4 * (k % 1024))) with
  | false => rfl
  | true =>
    rw [if_pos rfl, if_pos rfl, bind_assoc]
    simp only [bind_assoc]

theorem deallocLoop_eq (hsz : oldsz.toNat ≤ KERNBASE) (hhi : hi = (oldsz.toNat + 4095) / 4096)
    (hk : k < 2 ^ 20) (hfuel : hi ≤ k + fuel) (s : PMem) :
    deallocLoop L d oldsz fuel (pageAddr k) s =
      freePages L d ((List.Ico k hi).map pageAddr) s := by
  change oldsz.toNat ≤ 0x80000000 at hsz
  induction fuel generalizing s k with
  | zero =>
    rw [List.Ico.eq_nil_of_le (by omega)]
    rfl
  | succ fuel ih =>
    by_cases hlt : k < hi
    · have haddr : pageAddr k < oldsz := (pageAddr_lt hk).mpr (hhi ▸ hlt)
      cases ht : tableOf s d (k / 1024) with
      | none =>
        -- the jump lands on the first page of the next table
        have hjump : deallocLoop L d oldsz (fuel + 1) (pageAddr k) s =
            deallocLoop L d oldsz fuel (pageAddr ((k / 1024 + 1) * 1024)) s := by
          rw [deallocLoop, if_pos haddr, bind_ok (walkpgdir_eq hk), ht, ← pgaddr_eq,
            ← PDX_pageAddr hk]
          show deallocLoop L d oldsz fuel (pgaddr (PDX (pageAddr k) + 1) -
            BitVec.ofNat 32 PGSIZE + BitVec.ofNat 32 PGSIZE) s = _
          rw [BitVec.sub_add_cancel]
        rw [hjump, ih (by omega) (by omega)]
        symm
        apply freePages_skip_to (by omega) (by omega)
        intro j hlo hhi
        apply pteOf_of_tableOf_none
        rw [← ht]
        congr 1
        omega
      | some t =>
        rw [deallocLoop_of_table hk haddr ht, List.Ico.eq_cons hlt, List.map_cons, freePages]
        have hrest : deallocLoop L d oldsz fuel (pageAddr (k + 1)) =
            freePages L d ((List.Ico (k + 1) hi).map pageAddr) := by
          funext s'
          exact ih (by omega) (by omega) s'
        rw [hrest]
    · rw [deallocLoop, if_neg fun h => hlt (hhi ▸ (pageAddr_lt hk).mp h),
        List.Ico.eq_nil_of_le (by omega)]
      rfl

/-- The two functions are the same command. -/
theorem deallocuvm_eq_each (hsz : oldsz.toNat ≤ KERNBASE) :
    deallocuvm L d oldsz newsz = deallocEach L d oldsz newsz := by
  rw [deallocuvm, deallocEach]
  split
  next => rfl
  next hlt =>
    rw [BitVec.le_def] at hlt
    change oldsz.toNat ≤ 0x80000000 at hsz
    have hloop : deallocLoop L d oldsz (oldsz.toNat / PGSIZE + 1) (pgroundup newsz) =
        freePages L d (pagesBetween (pgroundup newsz) oldsz) := by
      funext s
      rw [pgroundup_eq (show newsz.toNat ≤ 0x80000000 by omega), pagesBetween_eq (by omega) hsz]
      apply deallocLoop_eq hsz rfl (by omega)
      change _ ≤ _ + (oldsz.toNat / 4096 + 1)
      omega
    rw [hloop]

/-! ## What is left of the directory -/

/-- The page tables of `d` are different pages, and the pages mapped from `lo` up to `hi` are
none of its own. -/
structure Tree (s : PMem) (d lo hi : ℕ) : Prop where
  dir : ∀ i < NPDENTRIES, tableOf s d i ≠ some d
  inj : ∀ i < NPDENTRIES, ∀ j < NPDENTRIES, ∀ t, tableOf s d i = some t →
    tableOf s d j = some t → i = j
  outside : ∀ j w, lo ≤ j → j < hi → pteOf s d j = some w →
    frame w ≠ d ∧ ∀ i < NPDENTRIES, tableOf s d i ≠ some (frame w)

/-- `kfree` accepts every page mapped from `lo` up to `hi`. -/
def KfreeTakes (L : Layout) (s : PMem) (d lo hi : ℕ) : Prop :=
  ∀ j w, lo ≤ j → j < hi → pteOf s d j = some w → L.Allocatable (frame w)

/-- The pages mapped from `lo` up to `hi`, in order. -/
def mapped (s : PMem) (d lo hi : ℕ) : List ℕ :=
  (List.Ico lo hi).filterMap fun j => (pteOf s d j).map frame

/-- The entries from `lo` up to `hi` that were present are cleared, and `kfree` was called
once for each of them. -/
structure Released (d lo hi : ℕ) (s s' : PMem) : Prop where
  dir : s'.mem d = s.mem d
  entries : ∀ i < NPDENTRIES, ∀ t, tableOf s d i = some t → ∀ e < 1024,
    wordAt (s'.mem t) (4 * e) =
      if (lo ≤ 1024 * i + e ∧ 1024 * i + e < hi) ∧ present (wordAt (s.mem t) (4 * e)) = true
      then 0 else wordAt (s.mem t) (4 * e)
  free : s'.free = (mapped s d lo hi).reverse ++ s.free
  others : ∀ f ∉ mapped s d lo hi, (∀ i < NPDENTRIES, tableOf s d i ≠ some f) →
    s'.mem f = s.mem f

theorem mem_mapped {f : ℕ} : f ∈ mapped s d lo hi ↔
    ∃ j w, lo ≤ j ∧ j < hi ∧ pteOf s d j = some w ∧ frame w = f := by
  simp only [mapped, List.mem_filterMap, List.Ico.mem, Option.map_eq_some_iff]
  constructor
  · rintro ⟨j, ⟨hlo, hhi⟩, w, hpte, hf⟩
    exact ⟨j, w, hlo, hhi, hpte, hf⟩
  · rintro ⟨j, w, hlo, hhi, hpte, hf⟩
    exact ⟨j, ⟨hlo, hhi⟩, w, hpte, hf⟩

theorem mapped_append {mid : ℕ} (hlo : lo ≤ mid) (hhi : mid ≤ hi) :
    mapped s d lo hi = mapped s d lo mid ++ mapped s d mid hi := by
  rw [mapped, ← List.Ico.append_consecutive hlo hhi, List.filterMap_append]
  rfl

theorem mapped_some (h : pteOf s d k = some w) : mapped s d k (k + 1) = [frame w] := by
  rw [mapped, List.Ico.succ_singleton]
  simp [h]

theorem Released.tableOf (h : Released d lo hi s s') (i : ℕ) :
    Vm.tableOf s' d i = Vm.tableOf s d i := by
  rw [Vm.tableOf, Vm.tableOf, pdeOf, pdeOf, h.dir]

theorem Released.pteOf (h : Released d lo hi s s') (hk : k < 2 ^ 20) :
    Vm.pteOf s' d k = if lo ≤ k ∧ k < hi then none else Vm.pteOf s d k := by
  rw [Vm.pteOf, Vm.pteOf, h.tableOf]
  cases ht : Vm.tableOf s d (k / 1024) with
  | none => simp
  | some t =>
    have hentry := h.entries (k / 1024) (show k / 1024 < 1024 by omega) t ht (k % 1024) (by omega)
    rw [Nat.div_add_mod] at hentry
    simp only [Option.bind_some, hentry]
    by_cases hin : lo ≤ k ∧ k < hi
    · by_cases hp : present (wordAt (s.mem t) (4 * (k % 1024))) = true
      · simp [hin, hp]
      · simp [hin, hp]
    · simp [hin]

theorem Released.refl (hnone : ∀ j, lo ≤ j → j < hi → Vm.pteOf s d j = none) :
    Released d lo hi s s where
  dir := rfl
  entries i hi' t ht e he := by
    symm
    rw [ite_eq_right_iff]
    rintro ⟨⟨hlo, hhi⟩, hp⟩
    have hpte := pteOf_eq_some (k := 1024 * i + e) (t := t)
      (by rwa [Nat.mul_add_div (by decide), Nat.div_eq_of_lt he, Nat.add_zero])
      (by rwa [Nat.mul_add_mod, Nat.mod_eq_of_lt he])
    rw [hnone _ hlo hhi] at hpte
    cases hpte
  free := by
    have hempty : mapped s d lo hi = [] := by
      rw [mapped, List.filterMap_eq_nil_iff]
      intro j hj
      rw [List.Ico.mem] at hj
      rw [hnone j hj.1 hj.2, Option.map_none]
    rw [hempty]
    rfl
  others _ _ _ := rfl

theorem Released.mapped {mid : ℕ} (h : Released d lo mid s s') (hbound : hi ≤ 2 ^ 20) :
    Vm.mapped s' d mid hi = Vm.mapped s d mid hi := by
  apply List.filterMap_congr
  intro j hj
  rw [List.Ico.mem] at hj
  rw [h.pteOf (by omega), if_neg (by omega)]

theorem Released.trans {s'' : PMem} {mid : ℕ} (hlo : lo ≤ mid) (hhi : mid ≤ hi)
    (hbound : hi ≤ 2 ^ 20) (h : Released d lo mid s s') (h' : Released d mid hi s' s'') :
    Released d lo hi s s'' where
  dir := h'.dir.trans h.dir
  entries i hi' t ht e he := by
    rw [h'.entries i hi' t (by rwa [h.tableOf]) e he, h.entries i hi' t ht e he]
    cases hp : present (wordAt (s.mem t) (4 * e)) with
    | false => simp [hp]
    | true =>
      by_cases hfirst : lo ≤ 1024 * i + e ∧ 1024 * i + e < mid
      · have hall : lo ≤ 1024 * i + e ∧ 1024 * i + e < hi := ⟨hfirst.1, by omega⟩
        simp [hfirst, hall]
      · have hlater : (mid ≤ 1024 * i + e ∧ 1024 * i + e < hi) ↔
            lo ≤ 1024 * i + e ∧ 1024 * i + e < hi := by omega
        simp [hfirst, hp, hlater]
  free := by
    rw [h'.free, h.free, h.mapped hbound, mapped_append hlo hhi, List.reverse_append,
      List.append_assoc]
  others f hf htables := by
    rw [mapped_append hlo hhi, List.mem_append, not_or] at hf
    rw [h'.others f, h.others f hf.1 htables]
    · rw [h.mapped hbound]
      exact hf.2
    · intro i hi'
      rw [h.tableOf]
      exact htables i hi'

theorem Tree.released {mid : ℕ} (h : Tree s d lo hi) (hlo : lo ≤ mid) (hbound : hi ≤ 2 ^ 20)
    (hr : Released d lo mid s s') : Tree s' d mid hi where
  dir i hi' := by
    rw [hr.tableOf]
    exact h.dir i hi'
  inj i hi' j hj t := by
    rw [hr.tableOf, hr.tableOf]
    exact h.inj i hi' j hj t
  outside j w hmid hhi hpte := by
    rw [hr.pteOf (by omega), if_neg (by omega)] at hpte
    refine ⟨(h.outside j w (by omega) hhi hpte).1, fun i hi' => ?_⟩
    rw [hr.tableOf]
    exact (h.outside j w (by omega) hhi hpte).2 i hi'

theorem Released.kfreeTakes (h : Released d k (k + 1) s s') (hlt : k < hi) (hbound : hi ≤ 2 ^ 20)
    (hfirst : ∀ w, Vm.pteOf s d k = some w → L.Allocatable (frame w)) :
    KfreeTakes L s' d (k + 1) hi ↔ KfreeTakes L s d k hi := by
  have hlater (j : ℕ) (hj : k + 1 ≤ j) (hjhi : j < hi) : Vm.pteOf s' d j = Vm.pteOf s d j := by
    rw [h.pteOf (by omega), if_neg (by omega)]
  constructor
  · intro htakes j w hj hjhi hpte
    by_cases hjk : j = k
    · subst hjk
      exact hfirst w hpte
    · apply htakes j w (by omega) hjhi
      rwa [hlater j (by omega) hjhi]
  · intro htakes j w hj hjhi hpte
    rw [hlater j hj hjhi] at hpte
    exact htakes j w (by omega) hjhi hpte

/-- One page that is present. -/
theorem Tree.release (h : Tree s d k hi) (hlt : k < hi) (hk : k < 2 ^ 20)
    (hpte : pteOf s d k = some w) (ht : tableOf s d (k / 1024) = some t) :
    Released d k (k + 1) s (s.release (frame w) t (k % 1024)) := by
  have hindex : k / 1024 < NPDENTRIES := show k / 1024 < 1024 by omega
  have hout := h.outside k w le_rfl hlt hpte
  have hmem (g : ℕ) (hg : g ≠ t) (hgf : g ≠ frame w) :
      (s.release (frame w) t (k % 1024)).mem g = s.mem g := by
    rw [PMem.release, mem_put_of_ne hg]
    exact Function.update_of_ne hgf ..
  have hd : d ≠ t := fun heq => h.dir _ hindex (heq ▸ ht)
  refine ⟨hmem d hd hout.1.symm, ?_, ?_, ?_⟩
  · intro i hi' u hu e he
    have huf : u ≠ frame w := fun heq => hout.2 i hi' (heq ▸ hu)
    by_cases hut : u = t
    · subst hut
      obtain rfl : i = k / 1024 := h.inj i hi' _ hindex u hu ht
      rw [PMem.release, wordAt_put]
      have hsame : (s.fill (frame w) fun _ => 1).mem u = s.mem u := Function.update_of_ne huf ..
      obtain ⟨u', hu', hword, hp⟩ := entry_of_pteOf_some hpte
      obtain rfl : u' = u := Option.some.inj (hu'.symm.trans ht)
      by_cases hek : e = k % 1024
      · subst hek
        rw [if_pos rfl, if_pos ⟨by omega, by rwa [hword]⟩]
      · rw [if_neg hek, if_neg (by omega)]
        exact congrArg (wordAt · (4 * e)) hsame
    · rw [hmem u hut huf, if_neg]
      rintro ⟨hpage, -⟩
      apply hut
      have hi : i = k / 1024 := by omega
      exact Option.some.inj (hu.symm.trans (hi ▸ ht))
  · rw [mapped_some hpte]
    rfl
  · intro f hf htables
    rw [mapped_some hpte, List.mem_singleton] at hf
    exact hmem f (fun heq => htables _ hindex (heq ▸ ht)) hf

/-- The plain loop stops in `kfree` exactly where `kfree` does not take a page. What giving
back one page of the range keeps, the loop keeps. -/
theorem freePages_ends {I : PMem → Prop} (n : ℕ) (hn : hi = k + n) (hbound : hi ≤ 2 ^ 20)
    (h : Tree s d k hi) (hinv : I s)
    (hstep : ∀ s j w t, j < hi → I s → tableOf s d (j / 1024) = some t → pteOf s d j = some w →
      I (s.release (frame w) t (j % 1024))) :
    Ends (fun e => e = .kfree ∧ ¬KfreeTakes L s d k hi)
      (freePages L d ((List.Ico k hi).map pageAddr)) s
      fun _ s' => KfreeTakes L s d k hi ∧ Released d k hi s s' ∧ I s' := by
  induction n generalizing k s with
  | zero =>
    rw [List.Ico.eq_nil_of_le (by omega)]
    apply Ends.pure
    exact ⟨fun j w hlo hhi => by omega, Released.refl fun j hlo hhi => by omega, hinv⟩
  | succ n ih =>
    have hk : k < 2 ^ 20 := by omega
    have htail (s' : PMem) (hone : Released d k (k + 1) s s') (hinv' : I s')
        (hfirst : ∀ w, pteOf s d k = some w → L.Allocatable (frame w)) :
        Ends (fun e => e = .kfree ∧ ¬KfreeTakes L s d k hi)
          (freePages L d ((List.Ico (k + 1) hi).map pageAddr)) s'
          fun _ s'' => KfreeTakes L s d k hi ∧ Released d k hi s s'' ∧ I s'' := by
      have htakes : KfreeTakes L s' d (k + 1) hi ↔ KfreeTakes L s d k hi :=
        hone.kfreeTakes (by omega) hbound hfirst
      rw [← htakes]
      apply (ih (by omega) (h.released (by omega) hbound hone) hinv').mono
      intro _ s'' hdone
      exact ⟨hdone.1, hone.trans (by omega) (by omega) hbound hdone.2.1, hdone.2.2⟩
    rw [List.Ico.eq_cons (by omega), List.map_cons, freePages]
    cases hpte : pteOf s d k with
    | none =>
      apply Ends.seq
      apply Ends.of_ok (freePage_absent hk hpte)
      apply htail s _ hinv
      · intro w hw
        rw [hpte] at hw
        cases hw
      · apply Released.refl
        intro j hlo hhi
        obtain rfl : j = k := by omega
        exact hpte
    | some w =>
      obtain ⟨t, ht, -, -⟩ := entry_of_pteOf_some hpte
      by_cases halloc : L.Allocatable (frame w)
      · apply Ends.seq
        apply Ends.of_ok (freePage_freed hk hpte ht halloc)
        apply htail _ (h.release (by omega) hk hpte ht) (hstep s k w t (by omega) hinv ht hpte)
        intro v hv
        rw [hpte] at hv
        cases hv
        exact halloc
      · apply Ends.of_error (bind_error (freePage_refused hk hpte halloc))
        exact ⟨rfl, fun htakes => halloc (htakes k w le_rfl (by omega) hpte)⟩

/-- The directories of the kernel, whose pages all come from `kalloc`. -/
theorem Sound.tree {D other loose : Set ℕ} (h : Sound L D other loose s) (hd : d ∈ D)
    (hhi : hi ≤ UPAGES) : Tree s d lo hi ∧ KfreeTakes L s d lo hi := by
  have hpage (j : ℕ) (v : Word) (hj : j < hi) (hpte : pteOf s d j = some v) :
      Refers s d (.page j) (frame v) := ⟨hj.trans_le hhi, v, hpte, rfl⟩
  refine ⟨⟨?_, ?_, ?_⟩, ?_⟩
  · intro i hi' ht
    exact h.table_ne_dir hd hi' ht rfl
  · intro i hi' j hj t
    exact h.table_inj hd hi' hj
  · intro j v _ hj hpte
    exact h.page_outside hd (hpage j v hj hpte)
  · intro j v _ hj hpte
    exact h.allocatable hd (hpage j v hj hpte)

/-- The rule for `deallocuvm`. -/
theorem deallocuvm_tree {I : PMem → Prop} (hsz : oldsz.toNat ≤ KERNBASE)
    (hlo : lo = (newsz.toNat + 4095) / 4096) (hhi : hi = (oldsz.toNat + 4095) / 4096)
    (h : Tree s d lo hi) (hlt : newsz < oldsz) (hinv : I s)
    (hstep : ∀ s j w t, j < hi → I s → tableOf s d (j / 1024) = some t → pteOf s d j = some w →
      I (s.release (frame w) t (j % 1024))) :
    Ends (fun e => e = .kfree ∧ ¬KfreeTakes L s d lo hi) (deallocuvm L d oldsz newsz) s
      fun r s' => r = newsz ∧ KfreeTakes L s d lo hi ∧ Released d lo hi s s' ∧ I s' := by
  have hnew : newsz.toNat < oldsz.toNat := hlt
  rw [deallocuvm_eq_each hsz, deallocEach, if_neg (BitVec.not_le.mpr hlt)]
  change oldsz.toNat ≤ 0x80000000 at hsz
  rw [pgroundup_eq (show newsz.toNat ≤ 0x80000000 by omega), ← hlo,
    pagesBetween_eq (by omega) hsz, ← hhi]
  apply Ends.bind (freePages_ends (hi - lo) (by omega) (by omega) h hinv hstep)
  intro _ s' hdone
  exact Ends.pure ⟨rfl, hdone⟩

/-- The same for a directory about which nothing else is known. -/
theorem deallocuvm_rule (hsz : oldsz.toNat ≤ KERNBASE)
    (hlo : lo = (pgroundup newsz).toNat / PGSIZE) (hhi : hi = (oldsz.toNat + 4095) / 4096)
    (h : Tree s d lo hi) (hlt : newsz < oldsz) :
    Ends (fun e => e = .kfree ∧ ¬KfreeTakes L s d lo hi) (deallocuvm L d oldsz newsz) s
      fun r s' => r = newsz ∧ KfreeTakes L s d lo hi ∧ Released d lo hi s s' := by
  have hnew : newsz.toNat < oldsz.toNat := hlt
  have hpage : lo = (newsz.toNat + 4095) / 4096 := by
    change oldsz.toNat ≤ 0x80000000 at hsz
    rw [hlo, pgroundup_eq (show newsz.toNat ≤ 0x80000000 by omega), toNat_pageAddr (by omega)]
    exact Nat.mul_div_cancel _ (by decide)
  apply (deallocuvm_tree (I := fun _ => True) hsz hpage hhi h hlt trivial
    fun _ _ _ _ _ _ _ _ => trivial).mono
  rintro r s' ⟨hr, htakes, hreleased, -⟩
  exact ⟨hr, htakes, hreleased⟩

end

end Xv6Threads.Vm
