/-
# Reading never allocates

`writei` writes an inode back only when the file grows, while `bmap` may change the
addresses on any write. Both fit together because a file has exactly the blocks that its
size asks for: a write inside the file then finds all of them. The law is kept by every
call, and under it `readi` returns without changing anything, so it may run outside a
transaction.
-/

import Xv6Threads.Fs.Calls

namespace Xv6Threads.Fs

open Lib

/-- `ceil(size / BSIZE)`. -/
def blocksFor (size : ℕ) : ℕ := (size + (BSIZE - 1)) / BSIZE

/-- The file has the blocks of a file of this size. -/
structure Dinode.Shaped (d : Image) (x : Dinode) (size : ℕ) : Prop where
  block : ∀ k, x.block d k ≠ 0 ↔ k < blocksFor size
  indirect : x.indirect ≠ 0 ↔ NDIRECT < blocksFor size

/-- The blocks of the file are those its size asks for. -/
abbrev Dinode.Exact (d : Image) (x : Dinode) : Prop := x.Shaped d x.size.toNat

/-- Every file and directory is such. -/
def Layout.AllExact (L : Layout) (d : Image) : Prop :=
  ∀ i < L.ninodes, (L.inode d i).type ≠ 0 → (L.inode d i).type ≠ T_DEV → (L.inode d i).Exact d

section

variable {L : Layout} {d d' : Image} {i off n : ℕ} {g : ℕ → Byte} {x : Dinode}

theorem lt_blocksFor {o size : ℕ} (h : o < size) : o / BSIZE < blocksFor size := by
  show o / 512 < (size + 511) / 512
  omega

theorem Dinode.Exact.solid (h : x.Exact d) : x.Solid d :=
  fun _ ho => (h.block _).mpr (lt_blocksFor ho)

/-- Growing a file from `off`, at or before its end, touches the blocks it lacks. -/
theorem lt_blocksFor_max {size k : ℕ} (hoff : off ≤ size) :
    k < blocksFor (max size (off + n)) ↔
      k < blocksFor size ∨ ∃ o, off ≤ o ∧ o < off + n ∧ o / BSIZE = k := by
  constructor
  · intro hk
    have hk' : k < (max size (off + n) + 511) / 512 := hk
    by_cases hold : k < blocksFor size
    · exact .inl hold
    · have hold' : ¬k < (size + 511) / 512 := hold
      exact .inr ⟨k * 512, by omega, by omega, Nat.mul_div_cancel k (by decide)⟩
  · rintro (hk | ⟨o, h₁, h₂, rfl⟩)
    · have hk' : k < (size + 511) / 512 := hk
      show k < (max size (off + n) + 511) / 512
      omega
    · exact lt_blocksFor (by omega)

theorem Dinode.Shaped.grow {x' : Dinode} {size : ℕ} (h : x.Shaped d size) (hoff : off ≤ size)
    (hblocks : ∀ k, x'.block d' k ≠ 0 ↔
      x.block d k ≠ 0 ∨ ∃ o, off ≤ o ∧ o < off + n ∧ o / BSIZE = k)
    (hind : x'.indirect ≠ 0 ↔
      x.indirect ≠ 0 ∨ ∃ o, off ≤ o ∧ o < off + n ∧ NDIRECT ≤ o / BSIZE) :
    x'.Shaped d' (max size (off + n)) := by
  constructor
  · intro k
    rw [hblocks, h.block, lt_blocksFor_max hoff]
  · rw [hind, h.indirect]
    constructor
    · rintro (hk | ⟨o, h₁, h₂, hk⟩)
      · exact (lt_blocksFor_max hoff).mpr (.inl hk)
      · exact hk.trans_lt (lt_blocksFor (by omega))
    · intro hk
      rcases (lt_blocksFor_max hoff).mp hk with hk | ⟨o, h₁, h₂, hk⟩
      · exact .inl hk
      · exact .inr ⟨o, h₁, h₂, hk.ge⟩

theorem FileWritten.exact (hw : FileWritten L d i off n g d')
    (hoff : off ≤ (L.inode d i).size.toNat) (h : (L.inode d i).Exact d) :
    (L.inode d' i).Exact d' := by
  have hgrow := h.grow hoff (fun _ => hw.blocks) hw.indirect
  rwa [← hw.size] at hgrow

theorem exact_of_bare (haddrs : x.addrs = fun _ => 0) (hsize : x.size = 0) : x.Exact d := by
  have hind : x.indirect = 0 := by simp [Dinode.indirect, haddrs]
  have hnone : ¬0 < blocksFor (0 : BitVec 32).toNat := by decide
  constructor
  · intro k
    rw [hsize]
    refine iff_of_false (not_not.mpr ?_) fun hk => hnone (Nat.zero_lt_of_lt hk)
    simp [Dinode.block, haddrs, hind]
  · rw [hsize, hind]
    exact iff_of_false (not_not.mpr rfl) fun hk => hnone (Nat.zero_lt_of_lt hk)

theorem SameFile.exact (hsame : SameFile L d d' i) (htype : (L.inode d i).type ≠ 0)
    (h : (L.inode d i).Exact d) : (L.inode d' i).Exact d' := by
  constructor
  · intro k
    rw [hsame.block htype, hsame.inode]
    exact h.block k
  · rw [hsame.inode]
    exact h.indirect

/-- A change of one file keeps the law if it does so for this file. -/
theorem OnlyFile.allExact (honly : OnlyFile L i d d') (h : L.AllExact d)
    (hi : i < L.ninodes → (L.inode d' i).type ≠ 0 → (L.inode d' i).type ≠ T_DEV →
      (L.inode d' i).Exact d') : L.AllExact d' := by
  intro j hj htype hdev
  by_cases hji : j = i
  · subst hji
    exact hi hj htype hdev
  · have hsame := honly j hj hji
    rw [hsame.inode] at htype hdev
    exact hsame.exact htype (h j hj htype hdev)

theorem Change.allExact (hchange : Change L d d') (h : L.AllExact d) : L.AllExact d' := by
  cases hchange with
  | written hi htype hdev hoff hw =>
    apply hw.only.allExact h
    intro _ _ _
    exact hw.exact hoff (h _ hi htype hdev)
  | emptied honly haddrs hsize =>
    apply honly.allExact h
    intro _ _ _
    exact exact_of_bare haddrs hsize
  | kept honly htype hsize haddrs hblock =>
    apply honly.allExact h
    intro hi hne hdev
    rw [htype] at hne hdev
    have hold := h _ hi hne hdev
    constructor
    · intro k
      rw [hblock hne, hsize]
      exact hold.block k
    · rw [Dinode.indirect, haddrs, hsize]
      exact hold.indirect

theorem consistent_of_allExact (howned : L.DiskOwned d (L.inode d) ∅) (h : L.AllExact d) :
    Consistent L d where
  owned := howned
  solid hi htype hdev := (h _ hi htype hdev).solid

variable {s : FsState} {console : List (Option (List Byte))}

theorem allExact_of_reachable (howned : L.DiskOwned d (L.inode d) ∅) (h : L.AllExact d)
    (hreach : ReachableBy (CallStep L) (Call.Ok L) (FsState.boot d console) s) :
    L.AllExact s.disk := by
  have hd := consistent_of_allExact howned h
  induction hreach with
  | start => exact h
  | extend prior hok hstep ih =>
    have hs := sound_of_reachable hd prior
    have hrun := hs.run (E := fun _ => True) (fun _ _ _ => trivial) trivial _ hok
    exact (hrun.ok (run_eq_of_callStep hstep)).2.allExact ih

/-- Starting from a disk on which every block has one owner and every file has exactly
the blocks of its size, all this stays so, the inodes in memory agree with those on disk,
and `readi` leaves everything as it is whether or not a transaction is going on. Without
one `balloc` would panic, so it is not called. -/
theorem reading_never_allocates (howned : L.DiskOwned d (L.inode d) ∅) (hexact : L.AllExact d)
    (hreach : ReachableBy (CallStep L) (Call.Ok L) (FsState.boot d console) s) :
    L.AllExact s.disk ∧
    (∀ ip, 0 < (s.icache ip).ref → (s.icache ip).valid = true →
      (s.icache ip).din.addrs = (L.inode s.disk (s.icache ip).inum).addrs ∧
      (s.icache ip).din.size = (L.inode s.disk (s.icache ip).inum).size) ∧
    ∀ ip off n outstanding, 0 < (s.icache ip).ref → (s.icache ip).valid = true →
      (s.icache ip).din.type ≠ T_DEV →
      ∃ r, readi L ip off n { s with outstanding := outstanding } =
        .ok (r, { s with outstanding := outstanding }) := by
  have hs := sound_of_reachable (consistent_of_allExact howned hexact) hreach
  have hall := allExact_of_reachable howned hexact hreach
  refine ⟨hall, ?_, ?_⟩
  · intro ip href hvalid
    have hdin := hs.synced.din href hvalid
    exact ⟨by rw [hdin], by rw [hdin]⟩
  · intro ip off n outstanding href hvalid hdev
    have hdin := hs.synced.din href hvalid
    have htype := hs.synced.type href hvalid
    have hsolid : (s.icache ip).din.Solid s.disk := by
      rw [hdin] at htype hdev ⊢
      exact (hall _ (hs.lt href) htype hdev).solid
    exact ⟨_, readi_eq (s := { s with outstanding := outstanding }) off n hdev hsolid⟩

/-- A file of one byte, read past its end. -/
theorem reading_never_allocates_small : ∃ s : FsState, (s.icache 0).din.size = 1 ∧
    ∃ r, readi smallLayout 0 1 5 { s with outstanding := 0 } =
      .ok (r, { s with outstanding := 0 }) := by
  have hrun : ∃ s, ReachableBy (CallStep smallLayout) (Call.Ok smallLayout)
      (FsState.boot smallDisk []) s ∧ ((0 < (s.icache 0).ref ∧ (s.icache 0).valid = true) ∧
        (s.icache 0).din.type ≠ T_DEV ∧ (s.icache 0).din.size = 1) :=
    exists_reachableBy [.beginOp, .ialloc T_FILE, .ilock 0, .writei 0 (fun _ => 7) 0 1]
      (by decide +kernel)
  obtain ⟨s, hs, ⟨href, hvalid⟩, hdev, hsize⟩ := hrun
  have hfree : ∀ i < smallLayout.ninodes, (smallLayout.inode smallDisk i).type = 0 := by
    decide +kernel
  obtain ⟨-, -, hread⟩ := reading_never_allocates consistent_smallDisk.owned
    (fun i hi htype => absurd (hfree i hi) htype) hs
  exact ⟨s, hsize, hread 0 1 5 0 href hvalid hdev⟩

end

end Xv6Threads.Fs
