/-
# Two levels of user memory

The process code is modelled over which user pages of a directory are present, with a
budget for what `kalloc` may do. The page tables determine both: each call of `allocuvm`,
`deallocuvm` and `growproc` on page tables is a call on the pages they map, for some
budget, with the same result.
-/

import Xv6Threads.Kernel.VmSpec
import Xv6Threads.Vm.Growth

namespace Xv6Threads

open Lib Vm

variable {L : Layout} {E : VmFault → Prop} {D other loose : Set ℕ} {s s' : PMem} {d : ℕ}
variable {mem : AddrSpace} {oldsz newsz : Word} {k : Kernel} {q : Slot} {p : Space}

/-- The pages that the process code takes to be present are those mapped. -/
def Shows (mem : AddrSpace) (s : PMem) (d : ℕ) : Prop :=
  ∀ j < UPAGES, mem j = (pteOf s d j).isSome

/-- The process at slot `q` has its size and its memory from `p`. -/
structure Backs (p : Space) (s : PMem) (k : Kernel) (q : Slot) : Prop where
  sz : (k.procs q).sz = p.sz.toNat
  memory : ∃ dir mem, (k.procs q).pgdir = some dir ∧ k.pgdirs dir = some mem ∧
    Shows mem s p.pgdir

/-- Pages that go on one level go on the other. -/
theorem Shows.dealloc (h : Shows mem s d) (hlt : newsz.toNat < oldsz.toNat)
    (hnew : newsz.toNat ≤ KERNBASE)
    (hptes : ∀ j < UPAGES, pteOf s' d j =
      if (newsz.toNat + 4095) / 4096 ≤ j ∧ j < (oldsz.toNat + 4095) / 4096 then none
      else pteOf s d j) :
    Shows (deallocuvm mem oldsz.toNat newsz.toNat).1 s' d := by
  intro j hj
  have hrange : (pgroundup newsz.toNat ≤ j * 4096 ∧ j * 4096 < oldsz.toNat) ↔
      (newsz.toNat + 4095) / 4096 ≤ j ∧ j < (oldsz.toNat + 4095) / 4096 := by
    rw [pgroundup_eq hnew]
    omega
  rw [hptes j hj, deallocuvm, if_neg (Nat.not_le.mpr hlt)]
  simp only [hrange]
  split
  · rfl
  · exact h j hj

/-- The rule for any two sizes, the old one of a process. -/
theorem allocuvm_levels (hd : d ∈ D) (hs : Sound L D other loose s) (h : Shows mem s d)
    (hold : oldsz.toNat ≤ KERNBASE)
    (hnone : ∀ j < UPAGES, (oldsz.toNat + 4095) / 4096 ≤ j → pteOf s d j = none) :
    Ends E (Vm.allocuvm L d oldsz newsz) s fun r s' => ∃ budget mem',
      allocuvm budget mem oldsz.toNat newsz.toNat = .ok (mem', r.toNat) ∧
        Shows mem' s' d := by
  obtain ⟨pages, hpages⟩ : ∃ pages, pagesBetween (pgroundup oldsz.toNat)
      newsz.toNat = pages := ⟨_, rfl⟩
  have hin (j : ℕ) : j ∈ pages ↔
      (oldsz.toNat + 4095) / 4096 ≤ j ∧ j < (newsz.toNat + 4095) / 4096 := by
    rw [← hpages, mem_pagesBetween (pgroundup_mod _), pgroundup_eq hold]
    omega
  have hU (hlt : newsz.toNat < 0x80000000) (j : ℕ) (hj : j ∈ pages) : j < UPAGES := by
    rw [hin] at hj
    change j < 0x80000
    omega
  have hfree (hlt : newsz.toNat < KERNBASE) (j : ℕ) (hj : j ∈ pages) : mem j = false := by
    rw [h j (hU hlt j hj), hnone j (hU hlt j hj) ((hin j).mp hj).1]
    rfl
  apply allocuvm_any hd hs fun j hj hlo _ => hnone j hj hlo
  · intro s' hidle hfirst
    have hsame (j : ℕ) (hj : j < UPAGES) : pteOf s' d j = pteOf s d j :=
      hidle.ptes j (hj.trans (by decide))
    by_cases hlt : newsz.toNat < KERNBASE
    · have hless : oldsz.toNat < newsz.toNat := by
        have := hfirst hlt
        omega
      have hne : ¬pages.length ≤ 0 := by
        rw [Nat.le_zero, List.length_eq_zero_iff]
        exact List.ne_nil_of_mem ((hin _).mpr ⟨le_rfl, hfirst hlt⟩)
      -- without memory nothing is added, and what is taken back was not there
      refine ⟨0, _, (allocuvm_eq 0 hlt hless.le hpages (hfree hlt)).trans (if_neg hne), ?_⟩
      apply Shows.dealloc (s := s) _ hless hold
      · intro j hj
        rw [hsame j hj]
        split
        next hj' => exact hnone j hj hj'.1
        next => rfl
      · simpa using h
    · refine ⟨0, mem, if_pos (Nat.not_lt.mp hlt), fun j hj => ?_⟩
      rw [hsame j hj, h j hj]
  · intro hless
    exact ⟨0, mem, (if_neg (Nat.not_le.mpr (hless.trans_le hold))).trans (if_pos hless), h⟩
  · intro s' hlt hle hadded
    refine ⟨pages.length, _,
      (allocuvm_eq _ hlt hle hpages (hfree hlt)).trans (if_pos le_rfl), fun j hj => ?_⟩
    by_cases hj' : (oldsz.toNat + 4095) / 4096 ≤ j ∧ j < (newsz.toNat + 4095) / 4096
    · obtain ⟨f, -, hpte, -⟩ := hadded.inside j hj'.1 hj'.2
      simp [hin, hj', hpte]
    · rw [hadded.outside j (hj.trans (by decide)) hj', ← h j hj]
      simp [hin, hj']

/-- The rule for any two sizes of a process. -/
theorem deallocuvm_levels (hd : d ∈ D) (hs : Sound L D other loose s) (h : Shows mem s d)
    (hold : oldsz.toNat ≤ KERNBASE) :
    Ends E (Vm.deallocuvm L d oldsz newsz) s fun r s' => ∃ mem',
      deallocuvm mem oldsz.toNat newsz.toNat = (mem', r.toNat) ∧ Shows mem' s' d := by
  by_cases hlt : newsz.toNat < oldsz.toNat
  · apply deallocuvm_ends hd hold hlt hs
    intro s' hshed
    refine ⟨_, if_neg (Nat.not_le.mpr hlt), ?_⟩
    have := h.dealloc hlt (hlt.le.trans hold) fun j hj => hshed.pteOf (hj.trans (by decide))
    rwa [deallocuvm, if_neg (Nat.not_le.mpr hlt)] at this
  · rw [Vm.deallocuvm, if_pos (BitVec.le_def.mpr (Nat.not_lt.mp hlt))]
    exact Ends.pure ⟨mem, if_pos (Nat.not_lt.mp hlt), h⟩

/-- What `growproc` does with the size it gets, on both levels. -/
theorem Backs.finish {dir : PageAddr} {mem' : AddrSpace} (h : Backs p s k q)
    (hdir : (k.procs q).pgdir = some dir) (hshows : Shows mem' s' p.pgdir) (sz : Word) :
    Ends E (if sz = 0 then return (p, -1) else return ({ p with sz := sz }, 0) : VmM (Space × ℤ))
      s' fun r s' => ∃ k', (if sz.toNat = 0 then (.ok (k.setMem dir mem', -1) : Except Fault _)
        else .ok ((k.setMem dir mem').setProc q { k.procs q with sz := sz.toNat }, 0)) =
          .ok (k', r.2) ∧ Backs r.1 s' k' q := by
  have hset : (k.setMem dir mem').pgdirs dir = some mem' := Function.update_self ..
  by_cases hzero : sz = 0
  · rw [if_pos hzero, if_pos (by rw [hzero]; rfl)]
    exact Ends.pure ⟨_, rfl, h.sz, dir, mem', hdir, hset, hshows⟩
  · have hne : sz.toNat ≠ 0 := fun h => hzero (BitVec.eq_of_toNat_eq h)
    rw [if_neg hzero, if_neg hne]
    refine Ends.pure ⟨_, rfl, ?_, dir, mem', ?_, hset, hshows⟩
    · simp [Kernel.setProc]
    · simpa [Kernel.setProc] using hdir

/-- Each `growproc` on the page tables is one on the record of the process, for some budget:
it returns, with the same value, and the record has the new size and pages again. -/
theorem growproc_levels (hs : Sound L D other loose s) (hd : p.pgdir ∈ D)
    (hmatch : Matches s p.pgdir p.sz) (h : Backs p s k q) (n : Word) :
    ∃ r s' budget k', Vm.growproc L p n s = .ok (r, s') ∧
      growproc k q n budget = .ok (k', r.2) ∧ Backs r.1 s' k' q := by
  obtain ⟨dir, mem, hdir, hmem, hshows⟩ := h.memory
  have hspace : k.addrSpace (k.procs q).pgdir = .ok (dir, mem) := by
    simp [Kernel.addrSpace, hdir, hmem]
  suffices hends : Ends (fun _ => False) (Vm.growproc L p n) s fun r s' => ∃ budget k',
      growproc k q n budget = .ok (k', r.2) ∧ Backs r.1 s' k' q by
    obtain ⟨r, s', hrun, budget, k', hgrow⟩ := hends.returns
    exact ⟨r, s', budget, k', hrun, hgrow⟩
  simp only [Vm.growproc, growproc, hspace, h.sz, ← BitVec.toNat_add]
  by_cases hpos : 0 < n.toInt
  · simp only [if_pos hpos]
    apply Ends.seq
    apply (allocuvm_levels hd hs hshows hmatch.size fun j hj => hmatch.none_above hj).mono
    rintro sz s' ⟨budget, mem', halloc, hshows'⟩
    apply (h.finish hdir hshows' sz).mono
    rintro r s' ⟨k', hk⟩
    exact ⟨budget, k', by rwa [halloc]⟩
  by_cases hneg : n.toInt < 0
  · simp only [if_neg hpos, if_pos hneg]
    apply Ends.seq
    apply (deallocuvm_levels hd hs hshows hmatch.size).mono
    rintro sz s' ⟨mem', hdealloc, hshows'⟩
    apply (h.finish hdir hshows' sz).mono
    rintro r s' ⟨k', hk⟩
    exact ⟨0, k', by rwa [hdealloc]⟩
  · simp only [if_neg hpos, if_neg hneg]
    exact Ends.pure ⟨0, k, rfl, h⟩

end Xv6Threads
