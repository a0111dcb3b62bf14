/-
# Freeing the blocks of a file

`bfree` and the loops of `itrunc`. The blocks to be freed are loose from the moment
their inode gives them up, so "freeing free block" needs no argument of its own: a loose
block is marked. The direct addresses go one by one; all that an indirect block lists
goes at once, since the block itself is left as it is.
-/

import Xv6Threads.Fs.Bmap

namespace Xv6Threads.Fs

open Lib Command
open Xv6Threads.Log (Block getWord)

variable {Q : Unit → FsState → Prop}

section

variable {L : Layout} {I : ℕ → Dinode} {i : ℕ} {d d' d'' : Image} {x x' : Dinode} {b : ℕ}
variable {s : FsState} {ip : Ip} {E : Panic → Prop}

theorem bfree_ends (hE : Tolerant E) {J : ℕ → Dinode} {loose : Set ℕ}
    (h : L.DiskOwned s.disk J loose) (hb : b ∈ loose)
    (hQ : Q () { s with disk := L.unmark s.disk b }) : Ends E (bfree L b) s Q := by
  apply Ends.read_bind
  have hm : getBit (s.disk (L.bblock b)) (b % BPB) = true := h.marked_of_loose hb
  rw [if_neg (by rw [hm]; exact Bool.false_ne_true.symm)]
  exact logWrite_ends hE hQ

variable (L) in
/-- Only the free map has changed. -/
structure MapOnly (d d' : Image) : Prop where
  data : ∀ {c}, L.InData c → d' c = d c
  inodes : ∀ {j}, j < L.ninodes → L.inode d' j = L.inode d j

theorem MapOnly.refl : MapOnly L d d := ⟨fun _ => rfl, fun _ => rfl⟩

theorem MapOnly.trans (h : MapOnly L d d') (h' : MapOnly L d' d'') : MapOnly L d d'' where
  data hc := (h'.data hc).trans (h.data hc)
  inodes hj := (h'.inodes hj).trans (h.inodes hj)

theorem mapOnly_unmark (hb : b < L.size) : MapOnly L d (L.unmark d b) where
  data hc := unmark_of_inData hb hc
  inodes hj := inode_unmark hj

/-- The inode without the addresses in a list. -/
def Dinode.clear (x : Dinode) (ks : List (Fin (NDIRECT + 1))) : Dinode :=
  { x with addrs := fun k => if k ∈ ks then 0 else x.addrs k }

theorem clear_nil : x.clear [] = x := by simp [Dinode.clear]

theorem clear_cons (k : Fin (NDIRECT + 1)) (ks : List (Fin (NDIRECT + 1))) :
    x.clear (k :: ks) = (x.setAddr k 0).clear ks := by
  simp only [Dinode.clear, Dinode.setAddr, Dinode.mk.injEq, true_and]
  ext1 j
  by_cases hj : j = k
  · simp [hj]
  · simp [hj]

theorem setAddr_of_eq {k : Fin (NDIRECT + 1)} {w : BitVec 32} (h : x.addrs k = w) :
    x.setAddr k w = x := by
  rw [Dinode.setAddr, ← h, Function.update_eq_self]

/-- The direct addresses are freed one by one. -/
theorem Held.drop_direct (h : Held L I i d x) {k : Fin (NDIRECT + 1)} (hk : k ≠ Fin.last NDIRECT)
    (hne : x.addrs k ≠ 0) : Held L I i (L.unmark d (x.addrs k).toNat) (x.setAddr k 0) ∧
      L.DiskOwned d (Function.update I i (x.setAddr k 0)) {(x.addrs k).toNat} := by
  have hdirect : (k : ℕ) < NDIRECT := Nat.lt_of_le_of_ne (Nat.le_of_lt_succ k.isLt)
    fun heq => hk (Fin.ext heq)
  have hlt : (k : ℕ) < MAXFILE := hdirect.trans (by decide)
  have hind : (x.setAddr k 0).indirect = x.indirect := Function.update_of_ne hk.symm ..
  have hdrop := h.owned.drop (y := x.setAddr k 0) h.lt h.allocated rfl
    (fun r => r = .data ⟨k, hlt⟩) ?_ ?_
  · have hset : (∅ : Set ℕ) ∪ {c | ∃ r, r = Place.data ⟨k, hlt⟩ ∧ (x.ref d r).toNat = c ∧ c ≠ 0} =
        {(x.addrs k).toNat} := by
      ext c
      simp only [Set.empty_union, Set.mem_ofPred_eq, exists_eq_left, Set.mem_singleton_iff,
        ref_direct hdirect]
      constructor
      · rintro ⟨rfl, -⟩
        rfl
      · rintro rfl
        exact ⟨rfl, fun hz => hne (BitVec.eq_of_toNat_eq hz)⟩
    rw [hset] at hdrop
    refine ⟨⟨h.lt, h.allocated, ?_⟩, hdrop⟩
    have hfreed := Layout.DiskOwned.unmark hdrop (Set.mem_singleton _)
    rwa [Set.sdiff_self] at hfreed
  · rintro r rfl
    rw [ref_direct hdirect]
    exact Function.update_self ..
  · intro r hr
    cases r with
    | indirect => exact hind
    | data j =>
      obtain ⟨j, hj⟩ := j
      have hjk : j ≠ k := fun heq => hr (by subst heq; rfl)
      show Dinode.block _ _ j = Dinode.block _ _ j
      by_cases hjd : j < NDIRECT
      · rw [block_of_lt hjd, block_of_lt hjd]
        exact Function.update_of_ne (fun heq => hjk (congrArg Fin.val heq)) ..
      · unfold Dinode.block
        rw [hind, dif_neg hjd, dif_neg hjd]

theorem freeAddrs_ends (hE : Tolerant E) (ks : List (Fin (NDIRECT + 1)))
    (hks : Fin.last NDIRECT ∉ ks) (h : Held L I i s.disk (s.icache ip).din)
    (hQ : ∀ d', MapOnly L s.disk d' → Held L I i d' ((s.icache ip).din.clear ks) →
      Q () (s.put ip d' ((s.icache ip).din.clear ks))) : Ends E (freeAddrs L ip ks) s Q := by
  induction ks generalizing s with
  | nil =>
    have hQ := hQ s.disk .refl (by rwa [clear_nil])
    rw [clear_nil, put_self] at hQ
    exact Ends.pure hQ
  | cons k ks ih =>
    simp only [List.mem_cons, not_or] at hks
    apply Ends.read_bind
    by_cases hz : (s.icache ip).din.addrs k = 0
    · rw [if_pos hz]
      rw [clear_cons, setAddr_of_eq hz] at hQ
      exact ih hks.2 h hQ
    · rw [if_neg hz]
      obtain ⟨hheld, hloose⟩ := h.drop_direct (Ne.symm hks.1) hz
      apply Ends.seq
      apply bfree_ends hE hloose (Set.mem_singleton _)
      apply Ends.modify_bind
      show Ends E _ (s.put ip _ ((s.icache ip).din.setAddr k 0)) Q
      apply ih hks.2
      · rwa [put_din, put_disk]
      · intro d' hmap hheld'
        rw [put_din] at hheld'
        rw [put_din, put_put]
        rw [clear_cons] at hQ
        rw [put_disk] at hmap
        have hlt := (hloose.looseInPool (Set.mem_singleton _)).2
        exact hQ d' ((mapOnly_unmark hlt).trans hmap) hheld'

theorem freeEntries_ends (hE : Tolerant E) (a : Block) (js : List ℕ) {J : ℕ → Dinode}
    {loose : Set ℕ} (h : L.DiskOwned s.disk J loose) (hjs : js.Nodup)
    (hin : ∀ j ∈ js, getWord a j ≠ 0 → (getWord a j).toNat ∈ loose)
    (hinj : ∀ j ∈ js, ∀ j' ∈ js, getWord a j ≠ 0 → getWord a j' = getWord a j → j' = j)
    (hQ : ∀ d', MapOnly L s.disk d' →
      L.DiskOwned d' J (loose \ {c | ∃ j ∈ js, getWord a j ≠ 0 ∧ (getWord a j).toNat = c}) →
      Q () { s with disk := d' }) : Ends E (freeEntries L a js) s Q := by
  induction js generalizing s loose with
  | nil =>
    apply Ends.pure
    apply hQ s.disk .refl
    simpa using h
  | cons j js ih =>
    rw [List.nodup_cons] at hjs
    unfold freeEntries
    by_cases hz : getWord a j = 0
    · rw [if_pos hz]
      apply ih h hjs.2 (fun j' hj' => hin j' (List.mem_cons_of_mem _ hj'))
        fun j₁ h₁ j₂ h₂ => hinj j₁ (List.mem_cons_of_mem _ h₁) j₂ (List.mem_cons_of_mem _ h₂)
      intro d' hmap hown
      apply hQ d' hmap
      simpa [hz] using hown
    · have hb := hin j List.mem_cons_self hz
      have hfree := Layout.DiskOwned.unmark h hb
      rw [if_neg hz]
      apply Ends.seq
      apply bfree_ends hE h hb
      apply ih (s := { s with disk := L.unmark s.disk (getWord a j).toNat }) hfree hjs.2
      · intro j' hj' hne
        refine ⟨hin j' (List.mem_cons_of_mem _ hj') hne, fun heq => ?_⟩
        have := hinj j List.mem_cons_self j' (List.mem_cons_of_mem _ hj') hz
          (BitVec.eq_of_toNat_eq heq)
        exact hjs.1 (this ▸ hj')
      · intro j₁ h₁ j₂ h₂
        exact hinj j₁ (List.mem_cons_of_mem _ h₁) j₂ (List.mem_cons_of_mem _ h₂)
      · intro d' hmap hown
        apply hQ d' ((mapOnly_unmark (h.looseInPool hb).2).trans hmap)
        have hset : (loose \ {(getWord a j).toNat}) \
            {c | ∃ j ∈ js, getWord a j ≠ 0 ∧ (getWord a j).toNat = c} =
            loose \ {c | ∃ j' ∈ j :: js, getWord a j' ≠ 0 ∧ (getWord a j').toNat = c} := by
          ext c
          have hc : c = (getWord a j).toNat ↔ getWord a j ≠ 0 ∧ (getWord a j).toNat = c :=
            ⟨fun heq => ⟨hz, heq.symm⟩, fun heq => heq.2.symm⟩
          simp only [Set.mem_sdiff, Set.mem_singleton_iff, Set.mem_ofPred_eq, List.mem_cons,
            exists_eq_or_imp, not_or, and_assoc, hc]
        rwa [hset] at hown

theorem entry_lt {j : ℕ} (hj : j < NINDIRECT) : j + NDIRECT < MAXFILE := by
  have : j < 128 := hj
  show j + 12 < 140
  omega

theorem ref_entry (hind : x.indirect ≠ 0) {j : ℕ} (hj : j < NINDIRECT) :
    x.ref d (.data ⟨j + NDIRECT, entry_lt hj⟩) = getWord (d x.indirect.toNat) j := by
  have hentry := block_of_indirect (d := d) (k := j + NDIRECT) (by omega) (entry_lt hj) hind
  rwa [Nat.add_sub_cancel] at hentry

/-- The blocks whose numbers stand in block `a`. -/
def listed (a : Block) : Set ℕ :=
  {c | ∃ j ∈ List.range NINDIRECT, getWord a j ≠ 0 ∧ (getWord a j).toNat = c}

/-- An indirect block is not one of those it lists. -/
theorem Held.indirect_notMem_listed (h : Held L I i d x) (hind : x.indirect ≠ 0) :
    x.indirect.toNat ∉ listed (d x.indirect.toNat) := by
  rintro ⟨j, hj, hne, heq⟩
  rw [List.mem_range] at hj
  rw [← ref_entry hind hj] at hne heq
  have hplace := h.inj hne (q := .indirect) (BitVec.eq_of_toNat_eq heq.symm)
  cases hplace

theorem Held.drop_indirect (h : Held L I i d x) (hind : x.indirect ≠ 0) :
    L.DiskOwned d (Function.update I i (x.setAddr (Fin.last NDIRECT) 0))
      (insert x.indirect.toNat (listed (d x.indirect.toNat))) := by
  have hnone : (x.setAddr (Fin.last NDIRECT) 0).indirect = 0 := setAddr_self ..
  have hdrop := h.owned.drop (y := x.setAddr (Fin.last NDIRECT) 0) h.lt h.allocated rfl
    (fun r => ∀ k, r = .data k → ¬(k : ℕ) < NDIRECT) ?_ ?_
  · convert hdrop using 1
    ext c
    simp only [Set.empty_union, Set.mem_ofPred_eq, Set.mem_insert_iff, listed]
    symm
    constructor
    · rintro ⟨r, hr, rfl, hne⟩
      cases r with
      | indirect => exact .inl rfl
      | data k =>
        have hk := hr k rfl
        have hentry := block_of_indirect (d := d) hk k.isLt hind
        refine .inr ⟨k - NDIRECT, ?_, ?_, ?_⟩
        · have : (k : ℕ) < 140 := k.isLt
          rw [List.mem_range]
          show (k : ℕ) - 12 < 128
          omega
        · rw [← hentry]
          exact fun hz => hne (congrArg BitVec.toNat hz)
        · rw [← hentry]
          rfl
    · rintro (rfl | ⟨j, hj, hne, rfl⟩)
      · refine ⟨.indirect, ?_, rfl, fun hz => hind (BitVec.eq_of_toNat_eq hz)⟩
        intro k hk
        cases hk
      · have hj := List.mem_range.mp hj
        refine ⟨.data ⟨j + NDIRECT, entry_lt hj⟩, ?_, ?_, fun hz => hne (BitVec.eq_of_toNat_eq hz)⟩
        · rintro k ⟨⟩
          exact Nat.not_lt.mpr (Nat.le_add_left ..)
        · rw [ref_entry hind hj]
  · intro r hr
    cases r with
    | indirect => exact hnone
    | data k => exact block_of_no_indirect (hr k rfl) hnone
  · intro r hr
    cases r with
    | indirect => exact absurd (fun k hk => by cases hk) hr
    | data k =>
      by_cases hk : (k : ℕ) < NDIRECT
      · rw [ref_direct hk, ref_direct hk]
        exact Function.update_of_ne (fun heq => absurd (congrArg Fin.val heq) hk.ne) ..
      · exact absurd (fun k' heq => by cases heq; exact hk) hr

theorem freeIndirect_ends (hE : Tolerant E) (h : Held L I i s.disk (s.icache ip).din)
    (hQ : ∀ d', MapOnly L s.disk d' →
      Held L I i d' ((s.icache ip).din.clear [Fin.last NDIRECT]) →
      Q () (s.put ip d' ((s.icache ip).din.clear [Fin.last NDIRECT]))) :
    Ends E (freeIndirect L ip) s Q := by
  rw [clear_cons, clear_nil] at hQ
  apply Ends.read_bind
  by_cases hz : (s.icache ip).din.addrs (Fin.last NDIRECT) = 0
  · rw [if_pos hz]
    rw [setAddr_of_eq hz] at hQ
    have hQ := hQ s.disk .refl h
    rw [put_self] at hQ
    exact Ends.pure hQ
  · rw [if_neg hz]
    have hdrop := h.drop_indirect hz
    apply Ends.read_bind
    apply Ends.seq
    show Ends E (freeEntries L (s.disk (s.icache ip).din.indirect.toNat) _) s _
    apply freeEntries_ends hE _ _ hdrop List.nodup_range
    · intro j hj hne
      exact .inr ⟨j, hj, hne, rfl⟩
    · intro j hj j' hj' hne heq
      rw [List.mem_range] at hj hj'
      rw [← ref_entry hz hj] at hne heq
      rw [← ref_entry hz hj'] at heq
      have hplace := h.inj hne heq
      simp only [Place.data.injEq, Fin.mk.injEq] at hplace
      omega
    · intro d₁ hmap hown
      change L.DiskOwned d₁ _ (insert _ (listed _) \ listed _) at hown
      rw [Set.insert_sdiff_of_notMem _ (h.indirect_notMem_listed hz), Set.sdiff_self,
        insert_empty_eq] at hown
      have hfreed := Layout.DiskOwned.unmark hown (Set.mem_singleton _)
      rw [Set.sdiff_self] at hfreed
      apply Ends.seq
      apply bfree_ends hE (s := { s with disk := d₁ }) hown (Set.mem_singleton _)
      have hlt := (hown.looseInPool (Set.mem_singleton _)).2
      exact Ends.modify (hQ _ (hmap.trans (mapOnly_unmark hlt)) ⟨h.lt, h.allocated, hfreed⟩)

theorem iupdate_ends (hE : Tolerant E)
    (hQ : Q () { s with disk := L.setInode s.disk (s.icache ip).inum (s.icache ip).din }) :
    Ends E (iupdate L ip) s Q := by
  apply Ends.read_bind
  apply Ends.read_bind
  exact logWrite_ends hE hQ

/-- The inode of an empty file. -/
def Dinode.truncated (x : Dinode) : Dinode := { x with size := 0, addrs := fun _ => 0 }

theorem clear_all : (x.clear ((List.finRange NDIRECT).map Fin.castSucc)).clear
    [Fin.last NDIRECT] = { x with addrs := fun _ => 0 } := by
  simp only [Dinode.clear, Dinode.mk.injEq, true_and]
  ext1 k
  cases k using Fin.lastCases with
  | last => simp
  | cast k => simp

/-- References depend on the addresses only. -/
theorem Held.of_addrs (h : Held L I i d x) (htype : x'.type = x.type)
    (haddrs : x'.addrs = x.addrs) : Held L I i d x' := by
  have href : ∀ r, x'.ref d r = x.ref d r := by
    intro r
    cases r <;> simp [Dinode.ref, Dinode.block, Dinode.indirect, haddrs]
  refine ⟨h.lt, htype ▸ h.allocated, h.owned.congr (fun _ _ => Iff.rfl) fun p c => ?_⟩
  unfold Layout.Refs
  by_cases hp : p.1 = i
  · simp only [hp, Function.update_self, htype, href]
  · simp only [Function.update_of_ne hp]

theorem itrunc_ends (hE : Tolerant E) (h : Held L I (s.icache ip).inum s.disk (s.icache ip).din)
    (hQ : ∀ d', MapOnly L s.disk d' →
      Held L I (s.icache ip).inum d' (s.icache ip).din.truncated →
      Q () (s.put ip (L.setInode d' (s.icache ip).inum (s.icache ip).din.truncated)
        (s.icache ip).din.truncated)) : Ends E (itrunc L ip) s Q := by
  apply Ends.seq
  apply freeAddrs_ends hE _ ?_ h
  · intro d₁ hmap hheld
    apply Ends.seq
    apply freeIndirect_ends hE (by rwa [put_din, put_disk])
    intro d₂ hmap' hheld'
    rw [put_din, clear_all] at hheld' ⊢
    rw [put_disk] at hmap'
    rw [put_put]
    apply Ends.modify_bind
    apply iupdate_ends hE
    have hdone := hQ d₂ (hmap.trans hmap') (hheld'.of_addrs rfl rfl)
    simpa [FsState.put, Dinode.truncated] using hdone
  · simp

end

end Xv6Threads.Fs
