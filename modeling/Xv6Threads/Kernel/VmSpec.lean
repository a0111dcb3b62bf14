/-
# Sizes and mapped pages

A size `fits` an address space when nothing is mapped at or above it, rounded
up to a page. `allocuvm`, `deallocuvm`, `copyuvm` and the loader of `exec` keep
the size they report fitting, and `allocuvm` finds no page mapped where it maps
new ones.
-/

import Xv6Threads.Kernel.Sysfile

namespace Xv6Threads

variable {a pg budget oldsz sz : ℕ} {mem mem' src : AddrSpace} {pages : List ℕ}

/-- Pages are mapped below `sz` only. -/
def Fits (mem : AddrSpace) (sz : ℕ) : Prop :=
  sz ≤ KERNBASE ∧ ∀ pg, mem pg = true → pg * PGSIZE < pgroundup sz

theorem pgroundup_eq (h : a ≤ KERNBASE) : pgroundup a = (a + 4095) / 4096 * 4096 := by
  have hlt : a + 4095 < 2 ^ 32 := by
    have : KERNBASE = 2147483648 := rfl
    omega
  change (a + 4095) % 2 ^ 32 / 4096 * 4096 = _
  rw [Nat.mod_eq_of_lt hlt]

theorem le_pgroundup (h : a ≤ KERNBASE) : a ≤ pgroundup a := by
  rw [pgroundup_eq h]
  omega

/-- A page that starts at or above `a` starts at or above `a` rounded up. -/
theorem pgroundup_le (ha : a ≤ KERNBASE) (h : a ≤ pg * PGSIZE) : pgroundup a ≤ pg * PGSIZE := by
  change a ≤ pg * 4096 at h
  change pgroundup a ≤ pg * 4096
  rw [pgroundup_eq ha]
  omega

theorem pgroundup_mono {b : ℕ} (hab : a ≤ b) (hb : b ≤ KERNBASE) : pgroundup a ≤ pgroundup b := by
  rw [pgroundup_eq (hab.trans hb), pgroundup_eq hb]
  omega

theorem mem_pagesBetween {lo hi : ℕ} (hlo : lo % 4096 = 0) :
    pg ∈ pagesBetween lo hi ↔ lo ≤ pg * 4096 ∧ pg * 4096 < hi := by
  change pg ∈ List.range' (lo / 4096) ((hi - lo + 4095) / 4096) ↔ _
  rw [List.mem_range'_1]
  omega

theorem pgroundup_mod (a : ℕ) : pgroundup a % 4096 = 0 := by
  simp [pgroundup]

/-! ## The page loops -/

/-- What the page loop of `allocuvm` returns. It finds a page mapped already only if one
was, or if it is to map one twice. -/
theorem mapPages_cases {res : Except Fault (AddrSpace × Bool)}
    (h : mapPages budget mem pages = res) :
    (res = .error .remap ∧ ¬(pages.Nodup ∧ ∀ pg ∈ pages, mem pg = false)) ∨
    res = .ok (fun pg => mem pg || decide (pg ∈ pages.take budget),
      decide (pages.length ≤ budget)) := by
  subst h
  induction pages generalizing budget mem with
  | nil => exact .inr (by simp [mapPages])
  | cons p rest ih =>
    cases budget with
    | zero => exact .inr (by simp [mapPages])
    | succ budget =>
      rw [mapPages]
      split_ifs with hmapped
      · refine .inl ⟨rfl, fun h => ?_⟩
        simp [h.2 p] at hmapped
      · rcases @ih budget (Function.update mem p true) with ⟨herror, hnot⟩ | hok
        · refine .inl ⟨herror, fun h => hnot ?_⟩
          obtain ⟨hp, hrest⟩ := List.nodup_cons.mp h.1
          refine ⟨hrest, fun pg hpg => ?_⟩
          have hne : pg ≠ p := fun heq => hp (heq ▸ hpg)
          rw [Function.update_of_ne hne]
          exact h.2 pg (List.mem_cons_of_mem _ hpg)
        · right
          rw [hok]
          congr 2
          · funext pg
            by_cases hpg : pg = p <;> simp [hpg]
          · simp

theorem copyPages_cases {dst : AddrSpace} {res : Except Fault (Option AddrSpace)}
    (h : copyPages src budget dst pages = res) :
    (res = .error .remap ∨ res = .error .copyuvm) ∨ res = .ok none ∨
    res = .ok (some fun pg => dst pg || decide (pg ∈ pages)) ∧ pages.length ≤ budget := by
  subst h
  induction pages generalizing budget dst with
  | nil => exact .inr (.inr (by simp [copyPages]))
  | cons p rest ih =>
    rw [copyPages.eq_def]
    cases budget with
    | zero =>
      dsimp only
      split_ifs
      · exact .inr (.inl rfl)
      · exact .inl (.inr rfl)
    | succ budget =>
      dsimp only
      split_ifs with hsrc hmapped
      · exact .inl (.inl rfl)
      · refine (@ih budget (Function.update dst p true)).imp_right (.imp_right ?_)
        rintro ⟨hok, hlen⟩
        refine ⟨?_, Nat.succ_le_succ hlen⟩
        rw [hok]
        congr 2
        funext pg
        by_cases hpg : pg = p <;> simp [hpg]
      · exact .inl (.inr rfl)

theorem copyPages_ok {dst dst' : AddrSpace}
    (h : copyPages src budget dst pages = .ok (some dst')) :
    dst' = (fun pg => dst pg || decide (pg ∈ pages)) ∧ pages.length ≤ budget := by
  rcases copyPages_cases h with (hcopy | hcopy) | hcopy | ⟨hcopy, hlen⟩ <;> cases hcopy
  exact ⟨rfl, hlen⟩

/-! ## Growing and shrinking -/

/-- The size after a call that reports `reported`, where 0 is failure. -/
def sizeAfter (old reported : ℕ) : ℕ := if reported = 0 then old else reported

/-- Growing over pages that are not mapped: all of them are added, or none. -/
theorem allocuvm_eq (budget : ℕ) {newsz : ℕ} (hlt : newsz < KERNBASE) (hle : oldsz ≤ newsz)
    (hpages : pagesBetween (pgroundup oldsz) newsz = pages)
    (hfree : ∀ pg ∈ pages, mem pg = false) :
    allocuvm budget mem oldsz newsz =
      if pages.length ≤ budget then .ok (fun pg => mem pg || decide (pg ∈ pages), newsz)
      else .ok ((deallocuvm (fun pg => mem pg || decide (pg ∈ pages.take budget)) newsz oldsz).1,
        0) := by
  have hnodup : pages.Nodup := hpages ▸ List.nodup_range' _
  have hmap := (mapPages_cases (refl (mapPages budget mem pages))).resolve_left
    fun h => h.2 ⟨hnodup, hfree⟩
  rw [allocuvm, if_neg (not_le.mpr hlt), if_neg (not_lt.mpr hle), hpages, hmap]
  by_cases henough : pages.length ≤ budget
  · simp [henough, List.take_of_length_le henough]
  · simp [henough]

theorem Fits.free (h : Fits mem oldsz) {newsz : ℕ}
    (hpg : pg ∈ pagesBetween (pgroundup oldsz) newsz) : mem pg = false := by
  have hge := ((mem_pagesBetween (pgroundup_mod _)).mp hpg).1
  by_contra hmapped
  exact absurd (h.2 pg (by simpa using hmapped)) (not_lt.mpr hge)

theorem sizeAfter_self (sz : ℕ) : sizeAfter sz sz = sz := ite_self _

theorem allocuvm_fits {newsz : ℕ} (hfits : Fits mem oldsz)
    (h : allocuvm budget mem oldsz newsz = .ok (mem', sz)) :
    Fits mem' (sizeAfter oldsz sz) := by
  by_cases hbig : KERNBASE ≤ newsz
  · rw [allocuvm, if_pos hbig] at h
    cases h
    exact hfits
  by_cases hsmall : newsz < oldsz
  · rw [allocuvm, if_neg hbig, if_pos hsmall] at h
    cases h
    rwa [sizeAfter_self]
  rw [not_le] at hbig
  rw [not_lt] at hsmall
  rw [allocuvm_eq budget hbig hsmall rfl fun pg => hfits.free] at h
  split_ifs at h <;> cases h
  · have hsz : sizeAfter oldsz sz = sz := by
      rw [sizeAfter]
      split_ifs <;> omega
    rw [hsz]
    refine ⟨hbig.le, fun pg hpg => ?_⟩
    rw [Bool.or_eq_true, decide_eq_true_eq] at hpg
    rcases hpg with hwas | hin
    · exact (hfits.2 pg hwas).trans_le (pgroundup_mono hsmall hbig.le)
    · exact ((mem_pagesBetween (pgroundup_mod _)).mp hin).2.trans_le (le_pgroundup hbig.le)
  · refine ⟨hfits.1, fun pg hpg => ?_⟩
    change pg * 4096 < pgroundup oldsz
    by_contra hge
    -- what was mapped before memory ran out is unmapped again
    have hin (h : (mem pg ||
        decide (pg ∈ (pagesBetween (pgroundup oldsz) newsz).take budget)) = true) :
        pgroundup oldsz ≤ pg * 4096 ∧ pg * 4096 < newsz := by
      rw [Bool.or_eq_true, decide_eq_true_eq] at h
      have hpage := h.resolve_left fun hwas => hge (hfits.2 pg hwas)
      exact (mem_pagesBetween (pgroundup_mod _)).mp (List.mem_of_mem_take hpage)
    rw [deallocuvm] at hpg
    split_ifs at hpg with hle
    · have hround := le_pgroundup hfits.1
      have hrange := hin hpg
      omega
    · dsimp only at hpg
      split_ifs at hpg with hrange
      exact hrange (hin hpg)

/-- A size that fits leaves room to grow. -/
theorem allocuvm_isOk (budget newsz : ℕ) (hfits : Fits mem oldsz) :
    ∃ res, allocuvm budget mem oldsz newsz = .ok res := by
  by_cases hbig : KERNBASE ≤ newsz
  · exact ⟨_, if_pos hbig⟩
  by_cases hsmall : newsz < oldsz
  · exact ⟨_, (if_neg hbig).trans (if_pos hsmall)⟩
  rw [allocuvm_eq budget (not_le.mp hbig) (not_lt.mp hsmall) rfl fun pg => hfits.free]
  split <;> exact ⟨_, rfl⟩

theorem deallocuvm_fits {newsz : ℕ} (hfits : Fits mem oldsz)
    (h : deallocuvm mem oldsz newsz = (mem', sz)) : Fits mem' (sizeAfter oldsz sz) := by
  obtain ⟨hold, hmapped⟩ := hfits
  rw [deallocuvm] at h
  by_cases hle : oldsz ≤ newsz
  · rw [if_pos hle] at h
    cases h
    rw [sizeAfter_self]
    exact ⟨hold, hmapped⟩
  · rw [if_neg hle] at h
    obtain ⟨rfl, rfl⟩ := Prod.mk.inj h
    rw [sizeAfter]
    split_ifs with hzero
    · refine ⟨hold, ?_⟩
      intro pg hpg
      dsimp only at hpg
      split_ifs at hpg
      exact hmapped pg hpg
    · have hnew : newsz ≤ KERNBASE := (not_le.mp hle).le.trans hold
      refine ⟨hnew, ?_⟩
      intro pg hpg
      dsimp only at hpg
      split_ifs at hpg with hrange
      by_contra hge
      have hup : oldsz ≤ pg * PGSIZE := not_lt.mp fun hlt => hrange ⟨not_lt.mp hge, hlt⟩
      exact absurd (hmapped pg hpg) (not_lt.mpr (pgroundup_le hold hup))

theorem copyuvm_fits {copy : AddrSpace} (hsz : sz ≤ KERNBASE)
    (h : copyuvm budget src sz = .ok (some copy)) : Fits copy sz := by
  refine ⟨hsz, ?_⟩
  intro pg hpg
  rw [(copyPages_ok h).1] at hpg
  have hin : pg ∈ pagesBetween 0 sz := of_decide_eq_true hpg
  exact ((mem_pagesBetween (Nat.zero_mod _)).mp hin).2.trans_le (le_pgroundup hsz)

/-! ## Loading an image -/

theorem fits_empty : Fits (fun _ => false) 0 :=
  ⟨Nat.zero_le _, fun _ h => by cases h⟩

theorem loadSegs_fits {sz' : ℕ} {segs : List Segment} (hfits : Fits mem sz)
    (h : loadSegs mem sz segs = .ok (some (mem', sz'))) : Fits mem' sz' := by
  induction segs generalizing mem sz with
  | nil =>
    simp only [loadSegs, Except.ok.injEq, Option.some.injEq, Prod.mk.injEq] at h
    obtain ⟨rfl, rfl⟩ := h
    exact hfits
  | cons seg rest ih =>
    rw [loadSegs] at h
    split_ifs at h with hok
    · split at h
      · cases h
      · rename_i mem₁ sz₁ halloc
        split_ifs at h with hzero
        · cases h
        · have hfits₁ := allocuvm_fits hfits halloc
          rw [sizeAfter, if_neg hzero] at hfits₁
          exact ih hfits₁ h
    · cases h

theorem Fits.pgroundup (h : Fits mem sz) : Fits mem (pgroundup sz) := by
  have hle : Xv6Threads.pgroundup sz ≤ KERNBASE := by
    have := h.1
    rw [pgroundup_eq h.1]
    have : KERNBASE = 2147483648 := rfl
    omega
  refine ⟨hle, fun pg hpg => (h.2 pg hpg).trans_le (le_pgroundup hle)⟩

theorem loadImage_fits {env : ExecEnv} (h : loadImage env = .ok (some (mem, sz))) :
    Fits mem sz := by
  rw [loadImage] at h
  split at h
  · cases h
  · cases h
  · rename_i mem₁ sz₁ hload
    split at h
    · cases h
    · rename_i mem₂ sz₂ halloc
      have hfits := allocuvm_fits (loadSegs_fits fits_empty hload).pgroundup halloc
      have himage := Except.ok.inj h
      split_ifs at himage with hbad
      cases himage
      rw [sizeAfter, if_neg (not_or.mp hbad).1] at hfits
      exact hfits

end Xv6Threads
