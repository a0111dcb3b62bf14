/-
# Rules for the inode cache

One rule for each function of `fs.c` that works on cache entries, for any disk and any
cache. A rule says which state the function leaves, in terms of the entry it changed;
what such a change means for the disk or for the users of the cache is not said here.
-/

import Xv6Threads.Fs.Inode

namespace Xv6Threads.Fs

open Lib Command
open Xv6Threads.Log (Block)

variable {Q : Unit → FsState → Prop} {dev : ℕ}

/-- The faults that an argument allows. All but two are allowed everywhere: they stand
for a lack of space, a broken image or a wrong use by the caller. -/
def Tolerant (E : Panic → Prop) : Prop :=
  ∀ p, p ≠ .freeingFreeBlock → p ≠ .ilockNoType → E p

theorem Tolerant.allows {E : Panic → Prop} (hE : Tolerant E) {p : Panic}
    (h : p ≠ .freeingFreeBlock ∧ p ≠ .ilockNoType := by decide) : E p := hE p h.1 h.2

/-- One entry has changed. -/
def FsState.mapIp (s : FsState) (ip : Ip) (f : Inode → Inode) : FsState :=
  { s with icache := Function.update s.icache ip (f (s.icache ip)) }

section

variable {s : FsState} {ip jp : Ip} {f g : Inode → Inode} {E : Panic → Prop} {L : Layout}

@[simp]
theorem mapIp_disk : (s.mapIp ip f).disk = s.disk := rfl

@[simp]
theorem mapIp_outstanding : (s.mapIp ip f).outstanding = s.outstanding := rfl

@[simp]
theorem mapIp_self : (s.mapIp ip f).icache ip = f (s.icache ip) := Function.update_self ..

theorem mapIp_of_ne (h : jp ≠ ip) : (s.mapIp ip f).icache jp = s.icache jp :=
  Function.update_of_ne h ..

theorem mapIp_mapIp : (s.mapIp ip f).mapIp ip g = s.mapIp ip (g ∘ f) := by
  simp [FsState.mapIp]

theorem mapIp_congr (h : f (s.icache ip) = g (s.icache ip)) : s.mapIp ip f = s.mapIp ip g := by
  simp only [FsState.mapIp, h]

theorem logWrite_ends (hE : Tolerant E) {c : ℕ} {data : Block}
    (hQ : Q () { s with disk := Function.update s.disk c data }) :
    Ends E (logWrite c data) s Q := by
  apply Ends.check_bind
  · intro _
    exact Ends.modify hQ
  · intro _
    exact hE.allows

theorem setIp_ends (hQ : Q () (s.mapIp ip f)) : Ends E (setIp ip f) s Q :=
  Ends.modify hQ

theorem iget_rule {inum : ℕ} {Q : Ip → FsState → Prop}
    (hfull : (∀ ip, 0 < (s.icache ip).ref → (s.icache ip).dev = dev →
      (s.icache ip).inum ≠ inum) → (∀ ip, (s.icache ip).ref ≠ 0) → E .igetNoInodes)
    (hhit : ∀ ip, 0 < (s.icache ip).ref → (s.icache ip).dev = dev → (s.icache ip).inum = inum →
      Q ip (s.mapIp ip fun x => { x with ref := x.ref + 1 }))
    (hmiss : (∀ ip, 0 < (s.icache ip).ref → (s.icache ip).dev = dev →
      (s.icache ip).inum ≠ inum) → ∀ ip, (s.icache ip).ref = 0 →
      Q ip (s.mapIp ip fun x => { x with dev := dev, inum := inum, ref := 1, valid := false })) :
    Ends E (iget dev inum) s Q := by
  apply Ends.read_bind
  cases hfind : (List.finRange NINODE).find? fun ip =>
      decide (0 < (s.icache ip).ref ∧ (s.icache ip).dev = dev ∧ (s.icache ip).inum = inum) with
  | some ip =>
    have hip := List.find?_some hfind
    rw [decide_eq_true_eq] at hip
    apply Ends.modify_bind
    exact Ends.pure (hhit ip hip.1 hip.2.1 hip.2.2)
  | none =>
    have hnone : ∀ ip, 0 < (s.icache ip).ref → (s.icache ip).dev = dev →
        (s.icache ip).inum ≠ inum := by
      intro ip hr hd hi
      have := List.find?_eq_none.mp hfind ip (List.mem_finRange ip)
      exact this (decide_eq_true ⟨hr, hd, hi⟩)
    cases hempty : (List.finRange NINODE).find? fun ip => decide ((s.icache ip).ref = 0) with
    | none =>
      apply Ends.fail (hfull hnone _)
      intro ip hip
      have := List.find?_eq_none.mp hempty ip (List.mem_finRange ip)
      exact this (decide_eq_true hip)
    | some ip =>
      have hip := List.find?_some hempty
      rw [decide_eq_true_eq] at hip
      apply Ends.modify_bind
      exact Ends.pure (hmiss hnone ip hip)

theorem idup_ends (hQ : Q () (s.mapIp ip fun x => { x with ref := x.ref + 1 })) :
    Ends E (idup ip) s Q :=
  Ends.modify hQ

theorem acquiresleep_rule (hstuck : (s.icache ip).locked = true → E .stuck)
    (hQ : (s.icache ip).locked = false → Q () (s.mapIp ip fun x => { x with locked := true })) :
    Ends E (acquiresleep ip) s Q := by
  apply Ends.check_bind
  · intro h
    exact Ends.modify (hQ h)
  · intro h
    exact hstuck (Bool.eq_true_of_not_eq_false h)

/-- `valid` of the entry decides whether the inode is read in. -/
theorem ilock_rule (hbad : ¬1 ≤ (s.icache ip).ref → E .ilock)
    (hstuck : (s.icache ip).locked = true → E .stuck)
    (hvalid : 1 ≤ (s.icache ip).ref → (s.icache ip).locked = false →
      (s.icache ip).valid = true → Q () (s.mapIp ip fun x => { x with locked := true }))
    (hload : 1 ≤ (s.icache ip).ref → (s.icache ip).locked = false →
      (s.icache ip).valid = false → (L.inode s.disk (s.icache ip).inum).type ≠ 0 →
      Q () (s.mapIp ip fun x =>
        { x with locked := true, din := L.inode s.disk x.inum, valid := true }))
    (htype : 1 ≤ (s.icache ip).ref → (s.icache ip).locked = false →
      (s.icache ip).valid = false → (L.inode s.disk (s.icache ip).inum).type = 0 →
      E .ilockNoType) : Ends E (ilock L ip) s Q := by
  apply Ends.check_bind
  · intro href
    apply Ends.seq
    apply acquiresleep_rule hstuck
    intro hlocked
    apply Ends.read_bind
    rw [mapIp_self]
    cases hv : (s.icache ip).valid with
    | true =>
      rw [if_pos rfl]
      exact Ends.pure (hvalid href hlocked hv)
    | false =>
      rw [if_neg Bool.false_ne_true]
      apply Ends.read_bind
      apply Ends.seq
      apply setIp_ends
      by_cases hz : (L.inode s.disk (s.icache ip).inum).type = 0
      · rw [mapIp_disk, if_pos hz]
        exact Ends.fail (htype href hlocked hv hz)
      · rw [mapIp_disk, if_neg hz]
        apply Ends.pure
        rw [mapIp_mapIp]
        exact hload href hlocked hv hz
  · exact hbad

theorem iunlock_rule (hbad : ¬((s.icache ip).locked = true ∧ 1 ≤ (s.icache ip).ref) → E .iunlock)
    (hQ : (s.icache ip).locked = true → 1 ≤ (s.icache ip).ref →
      Q () (s.mapIp ip fun x => { x with locked := false })) : Ends E (iunlock ip) s Q := by
  apply Ends.check_bind
  · intro h
    exact Ends.modify (hQ h.1 h.2)
  · exact hbad

/-- Either a reference goes, or the inode is freed before. -/
theorem iput_rule (hstuck : (s.icache ip).locked = true → E .stuck)
    (hkeep : (s.icache ip).locked = false →
      ¬((s.icache ip).valid = true ∧ (s.icache ip).din.nlink = 0 ∧ (s.icache ip).ref = 1) →
      Q () (s.mapIp ip fun x => { x with ref := x.ref - 1 }))
    (hfree : (s.icache ip).locked = false → (s.icache ip).valid = true →
      (s.icache ip).din.nlink = 0 → (s.icache ip).ref = 1 →
      Ends E (ifree L ip) (s.mapIp ip fun x => { x with locked := true }) fun _ s' =>
        Q () (s'.mapIp ip fun x => { x with locked := false, ref := x.ref - 1 })) :
    Ends E (iput L ip) s Q := by
  apply Ends.seq
  apply acquiresleep_rule hstuck
  intro hlocked
  apply Ends.read_bind
  rw [mapIp_self]
  have hrest : ∀ s' : FsState,
      Q () (s'.mapIp ip fun x => { x with locked := false, ref := x.ref - 1 }) →
      Ends E (do releasesleep ip; setIp ip fun x => { x with ref := x.ref - 1 }) s' Q := by
    intro s' hs'
    apply Ends.seq
    apply setIp_ends
    apply setIp_ends
    rw [mapIp_mapIp]
    exact hs'
  by_cases h : (s.icache ip).valid = true ∧ (s.icache ip).din.nlink = 0 ∧ (s.icache ip).ref = 1
  · rw [if_pos h]
    apply Ends.bind (hfree hlocked h.1 h.2.1 h.2.2)
    intro _ s' hs'
    exact hrest s' hs'
  · rw [if_neg h]
    show Ends E (do releasesleep ip; setIp ip fun x => { x with ref := x.ref - 1 }) _ Q
    apply hrest
    rw [mapIp_mapIp]
    convert hkeep hlocked h using 1
    apply mapIp_congr
    simp [hlocked]

theorem ialloc_ends {type : BitVec 16} {Q : Ip → FsState → Prop} (hE : Tolerant E)
    (hQ : ∀ i, 0 < i → i < L.ninodes → (L.inode s.disk i).type = 0 →
      Ends E (iget dev i) { s with disk := L.setInode s.disk i { type := type } } Q) :
    Ends E (ialloc L dev type) s Q := by
  apply Ends.read_bind
  cases hfind : ((List.range L.ninodes).drop 1).find? fun i =>
      decide ((L.inode s.disk i).type = 0) with
  | none => exact Ends.fail (hE.allows)
  | some i =>
    have hi := List.find?_some hfind
    rw [decide_eq_true_eq] at hi
    have hmem := List.mem_of_find?_eq_some hfind
    have hpos : 0 < i ∧ i < L.ninodes := by
      rw [List.mem_drop_iff_getElem] at hmem
      obtain ⟨k, hk, rfl⟩ := hmem
      simp at hk ⊢
      omega
    apply Ends.seq
    apply logWrite_ends hE
    exact hQ i hpos.1 hpos.2 hi

end

end Xv6Threads.Fs
