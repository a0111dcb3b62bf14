/-
# When the image is well formed

The last step of `mkfs` rounds the size of the root directory up to the block after its
last entry. If the entries fill whole blocks, this is a block the directory does not have.
And `ialloc` hands out inode numbers without looking at `sb.ninodes`. With neither of the
two, the image is well formed.
-/

import Xv6Threads.Mkfs.Image

namespace Xv6Threads.Mkfs

open Lib Command
open Xv6Threads.Fs

/-- The image that a successful run leaves is one the kernel can use. -/
structure WellFormed (m : State) : Prop where
  inodes : ∀ i, 0 < i → i < m.freeinode → i < sb.ninodes
  refs : ∀ i, 0 < i → i < m.freeinode → ∀ r, ((sb.inode m.img i).ref m.img r).toNat < sb.size
  map : ∀ b < sb.size, sb.marked m.img b = true ↔
    b < sb.datastart ∨ ∃ p, sb.Refs m.img (sb.inode m.img) p b
  blocks : ∀ i, 0 < i → i < m.freeinode →
    ∀ k < blocksFor (sb.inode m.img i).size.toNat, (sb.inode m.img i).block m.img k ≠ 0

section

variable {L : Layout} {d : Image} {i : ℕ} {size : BitVec 32}

theorem inode_resize : L.inode (resize L d i size) i = { L.inode d i with size := size } :=
  inode_setInode_self ..

theorem Consistent.resize_only (h : Consistent L d) (hi : i < L.ninodes) :
    OnlyFile L i d (resize L d i size) :=
  OnlyFile.refl.setInode h.owned hi _

theorem Consistent.resize_held (h : Consistent L d) (hi : i < L.ninodes)
    (htype : (L.inode d i).type ≠ 0) :
    Held L (L.inode d) i d { L.inode d i with size := size } :=
  (h.held hi htype).of_addrs rfl rfl

theorem Consistent.resize_owned (h : Consistent L d) (hi : i < L.ninodes)
    (htype : (L.inode d i).type ≠ 0) :
    L.DiskOwned (resize L d i size) (L.inode (resize L d i size)) ∅ :=
  (resize_held h hi htype).commit fun _ => rfl

theorem Consistent.resize_block (h : Consistent L d) (hi : i < L.ninodes)
    (htype : (L.inode d i).type ≠ 0) (k : ℕ) :
    (L.inode (resize L d i size) i).block (resize L d i size) k = (L.inode d i).block d k := by
  rw [inode_resize]
  exact (resize_held h hi htype).setInode_block _ k

theorem Consistent.resize_byte (h : Consistent L d) (hi : i < L.ninodes)
    (htype : (L.inode d i).type ≠ 0) {o : ℕ} (hblock : (L.inode d i).block d (o / BSIZE) ≠ 0) :
    (L.inode (resize L d i size) i).byte (resize L d i size) o = (L.inode d i).byte d o := by
  rw [inode_resize]
  exact (resize_held h hi htype).setInode_byte _ hblock

end

section

variable {m : State} {N : ℕ} {hN : N ≤ ninodeblocks * IPB} {files : List Input}

/-- The size of the root directory after rounding. -/
def rounded (files : List Input) : ℕ := (DIRENT * (files.length + 2) / BSIZE + 1) * BSIZE

theorem toNat_rounded (h : files.length + 2 ≤ N) (hN : N ≤ ninodeblocks * IPB) :
    (BitVec.ofNat 32 (rounded files)).toNat = rounded files := by
  have hle : files.length + 2 ≤ 208 := h.trans hN
  rw [BitVec.toNat_ofNat]
  apply Nat.mod_eq_of_lt
  show (16 * (files.length + 2) / 512 + 1) * 512 < 2 ^ 32
  omega

theorem blocksFor_rounded : blocksFor (rounded files) = blocksFor (DIRENT * (files.length + 2)) ↔
    (files.length + 2) % 32 ≠ 0 := by
  show ((16 * (files.length + 2) / 512 + 1) * 512 + 511) / 512 =
    (16 * (files.length + 2) + 511) / 512 ↔ _
  omega

theorem blocksFor_lt_rounded (h : (files.length + 2) % 32 = 0) :
    blocksFor (DIRENT * (files.length + 2)) < blocksFor (rounded files) := by
  show (16 * (files.length + 2) + 511) / 512 <
    ((16 * (files.length + 2) / 512 + 1) * 512 + 511) / 512
  omega

/-- The image of a successful run, seen from the kernel. -/
structure Mounted (L : Layout) (files : List Input) (d : Image) : Prop where
  owned : L.DiskOwned d (L.inode d) ∅
  rootSize : (L.inode d ROOTINO).size.toNat = rounded files
  rootShape : (L.inode d ROOTINO).Shaped d (DIRENT * (files.length + 2))
  root : (L.inode d ROOTINO).bytes d 0 (DIRENT * (files.length + 2)) = rootBytes files
  rootType : (L.inode d ROOTINO).type = T_DIR
  rootLink : (L.inode d ROOTINO).nlink = 1
  file : ∀ {k} (hk : k < files.length), Holds L d (k + 2) T_FILE (files.get ⟨k, hk⟩).content
  fileShape : ∀ {k}, k < files.length → (L.inode d (k + 2)).Exact d
  free : ∀ i, files.length + 2 ≤ i → i < L.ninodes → (L.inode d i).type = 0

theorem Made.mounted (h : Made N hN files m) (hlt : files.length + 2 ≤ N) :
    Mounted (sbOf N hN) files m.img := by
  obtain ⟨d, hc, hexact, hpacked, hfree, himg⟩ := h.image
  have hrootlt : ROOTINO < (sbOf N hN).ninodes := by
    show 1 < N
    omega
  have htype : ((sbOf N hN).inode d ROOTINO).type ≠ 0 := by
    rw [hpacked.root.type]
    decide
  have hold := hexact _ hrootlt htype (by rw [hpacked.root.type]; decide)
  have hsize := hpacked.root.size
  rw [length_rootBytes] at hsize
  rw [Dinode.Exact, hsize] at hold
  have honly : OnlyFile (sbOf N hN) ROOTINO d m.img := by
    rw [himg]
    exact Consistent.resize_only hc hrootlt
  constructor
  · rw [himg]
    exact Consistent.resize_owned hc hrootlt htype
  · rw [himg, inode_resize]
    exact toNat_rounded hlt hN
  · rw [himg]
    constructor
    · intro k
      rw [Consistent.resize_block hc hrootlt htype]
      exact hold.block k
    · rw [inode_resize]
      exact hold.indirect
  · rw [← length_rootBytes]
    conv_rhs => rw [← hpacked.root.content]
    rw [himg]
    apply bytes_congr
    intro o _ ho
    apply Consistent.resize_byte hc hrootlt htype
    apply (hold.block _).mpr
    apply lt_blocksFor
    rwa [Nat.zero_add, length_rootBytes] at ho
  · rw [himg, inode_resize]
    exact hpacked.root.type
  · rw [himg, inode_resize]
    exact hpacked.root.nlink
  · intro k hk
    exact (hpacked.file hk).other (by decide) hc (show k + 2 < N by omega) honly
      (show k + 2 ≠ 1 by omega)
  · intro k hk
    have hkN : k + 2 < (sbOf N hN).ninodes := by
      show k + 2 < N
      omega
    have hfile := (hpacked.file hk).type
    have hsame := honly (k + 2) hkN (show k + 2 ≠ 1 by omega)
    exact hsame.exact (by rw [hfile]; decide)
      (hexact _ hkN (by rw [hfile]; decide) (by rw [hfile]; decide))
  · intro i hi hiN
    have hsame := honly i hiN (show i ≠ 1 by omega)
    exact hsame.inode ▸ hfree i hi hiN

/-! ## Success -/

/-- `mkfs` can open these files, likes their names, and has room for their blocks. -/
structure Fits (files : List Input) : Prop where
  used : usedBlocks files ≤ FSSIZE
  size : ∀ f ∈ files, f.content.length ≤ MAXFILE * BSIZE
  opened : ∀ f ∈ files, f.reads.isSome = true
  noSlash : ∀ f ∈ files, slash ∉ f.name.takeWhile (· ≠ 0)

theorem Fits.allows {E : Exit → Prop} (h : Fits files) : Allows E files where
  rsect hbig := absurd h.used hbig.not_ge
  fbn hf hbig := absurd (h.size _ hf) hbig.not_ge
  openInput hf hnone := by
    have hsome := h.opened _ hf
    rw [hnone] at hsome
    cases hsome
  slash hf hmem := absurd hmem (h.noSlash _ hf)

variable (hN) in
theorem Fits.run (h : Fits files) (hlt : files.length + 2 ≤ N) :
    ∃ m, mkfs files {} = .ok ((), m) ∧ Made N hN files m := by
  have hends : Ends (fun _ => False) (mkfs files) {} fun _ m => Made N hN files m :=
    mkfs_ends h.allows hlt
  obtain ⟨_, m, hrun, hmade⟩ := hends.returns
  exact ⟨m, hrun, hmade⟩

theorem made_of_run (hlt : files.length + 2 ≤ N) (hrun : mkfs files {} = .ok ((), m)) :
    Made N hN files m := by
  have hany : Allows (fun _ => True) files := by
    constructor <;> intros <;> trivial
  exact (mkfs_ends hany hlt).ok hrun

/-! ## Inode numbers -/

/-- Where it returns, `c` has taken `n` inode numbers. -/
def Takes {α : Type} (n : ℕ) (c : MkfsM α) : Prop :=
  ∀ m, Ends (fun _ => True) c m fun _ m' => m'.freeinode = m.freeinode + n

section

variable {α β : Type} {a b : ℕ} {c : MkfsM α} {f : α → MkfsM β}

theorem Takes.bind (h : Takes a c) (hrest : ∀ x, Takes b (f x)) : Takes (a + b) (c >>= f) := by
  intro m
  apply Ends.bind (h m)
  intro x m₁ hm₁
  apply (hrest x m₁).mono
  intro _ m₂ hm₂
  rw [hm₂, hm₁, Nat.add_assoc]

theorem Takes.pure (x : α) : Takes 0 (Pure.pure x : MkfsM α) := fun _ => Ends.pure rfl

theorem Takes.fail (e : Exit) : Takes a (Command.fail e : MkfsM α) := fun _ => Ends.fail trivial

theorem Takes.check {p : State → Prop} [DecidablePred p] (e : Exit) :
    Takes 0 (Command.check p e) :=
  fun _ => Ends.check (fun _ => rfl) fun _ => trivial

theorem takes_wsect (sec : ℕ) (buf : Log.Block) : Takes 0 (wsect sec buf) :=
  fun _ => Ends.modify rfl

theorem takes_rsect (sec : ℕ) : Takes 0 (rsect sec) :=
  Takes.bind (a := 0) (b := 0) (Takes.check _) fun _ _ => Ends.read rfl

theorem takes_nextBlock : Takes 0 nextBlock :=
  fun _ => Ends.read_bind (Ends.modify_bind (Ends.pure rfl))

theorem takes_winode (i : ℕ) (din : Dinode) : Takes 0 (winode i din) :=
  (takes_rsect _).bind fun _ => takes_wsect _ _

theorem takes_ialloc (type : BitVec 16) : Takes 1 (ialloc type) := by
  intro m
  apply Ends.read_bind
  apply Ends.modify_bind
  exact Ends.bind (takes_winode _ _ _) fun _ _ h => Ends.pure h

theorem takes_addrOrNext (din : Dinode) (k : Fin (NDIRECT + 1)) : Takes 0 (addrOrNext din k) := by
  rw [addrOrNext]
  split
  · exact takes_nextBlock.bind fun _ => .pure _
  · exact .pure _

theorem takes_blockFor (din : Dinode) (fbn : ℕ) : Takes 0 (blockFor din fbn) := by
  rw [blockFor]
  split
  · exact (takes_addrOrNext _ _).bind fun _ => .pure _
  · apply Takes.bind (a := 0) (b := 0) (takes_addrOrNext _ _)
    intro din
    apply Takes.bind (a := 0) (b := 0) (takes_rsect _)
    intro indirect
    split
    · exact takes_nextBlock.bind fun _ => (takes_wsect _ _).bind fun _ => .pure _
    · exact .pure _

theorem takes_appendLoop (p : ℕ → Byte) (fuel : ℕ) (din : Dinode) (off tot n : ℕ) :
    Takes 0 (appendLoop p fuel din off tot n) := by
  induction fuel generalizing din off tot n with
  | zero => exact .pure _
  | succ fuel ih =>
    rw [appendLoop]
    split
    · exact .pure _
    · exact (Takes.check _).bind fun _ => (takes_blockFor _ _).bind fun _ =>
        (takes_rsect _).bind fun _ => (takes_wsect _ _).bind fun _ => ih _ _ _ _

theorem takes_iappend (i : ℕ) (p : ℕ → Byte) (n : ℕ) : Takes 0 (iappend i p n) :=
  ((takes_rsect _).bind fun _ => .pure _).bind fun _ =>
    (takes_appendLoop _ _ _ _ _ _).bind fun _ => takes_winode _ _

theorem takes_chunkLoop (i : ℕ) (cs : List Chunk) : Takes 0 (chunkLoop i cs) := by
  induction cs with
  | nil => exact .pure _
  | cons c cs ih => exact (takes_iappend _ _ _).bind fun _ => ih

theorem takes_addFile (rootino : ℕ) (f : Input) : Takes 1 (addFile rootino f) := by
  refine (Takes.check _).bind (b := 1) fun _ => ?_
  split
  · exact .fail _
  · exact (takes_ialloc _).bind fun _ => (takes_iappend _ _ _).bind fun _ => takes_chunkLoop _ _

theorem takes_fileLoop (rootino : ℕ) (fs : List Input) : Takes fs.length (fileLoop rootino fs) := by
  induction fs with
  | nil => exact .pure _
  | cons f fs ih =>
    rw [List.length_cons, Nat.add_comm]
    exact (takes_addFile _ _).bind fun _ => ih

end

/-- `mkfs` takes one inode for the root directory and one for each file, and there is no
inode 0. -/
theorem freeinode_of_run (hrun : mkfs files {} = .ok ((), m)) : m.freeinode = files.length + 2 := by
  have hall : Takes (1 + (0 + (0 + (0 + (files.length + (0 + (0 + 0))))))) (populate files) :=
    (takes_ialloc _).bind fun _ => (Takes.check _).bind fun _ => (takes_iappend _ _ _).bind fun _ =>
      (takes_iappend _ _ _).bind fun _ => (takes_fileLoop _ _).bind fun _ =>
        (((takes_rsect _).bind fun _ => .pure _).bind fun _ => takes_winode _ _).bind fun _ =>
          Takes.bind (a := 0) (fun _ => Ends.read rfl) fun _ =>
            (Takes.check _).bind fun _ => takes_wsect _ _
  have hcount := (hall blank).ok ((mkfs_eq files).symm.trans hrun)
  change m.freeinode = 1 + _ at hcount
  omega

/-! ## Well-formed images -/

theorem Mounted.type_ne_zero (h : Mounted sb files m.img) {i : ℕ} (hpos : 0 < i)
    (hi : i < files.length + 2) : (sb.inode m.img i).type ≠ 0 := by
  by_cases hroot : i = 1
  · subst hroot
    rw [show (sb.inode m.img 1).type = T_DIR from h.rootType]
    decide
  · have hfile := h.file (k := i - 2) (by omega)
    rw [Nat.sub_add_cancel (by omega)] at hfile
    rw [hfile.type]
    decide

theorem Mounted.wellFormed (h : Mounted sb files m.img) (hinodes : m.freeinode = files.length + 2)
    (hcount : files.length ≤ 198) (hround : (files.length + 2) % 32 ≠ 0) : WellFormed m := by
  have hlt : ∀ i, i < m.freeinode → i < sb.ninodes := by
    intro i hi
    show i < 200
    omega
  constructor
  · exact fun i _ => hlt i
  · intro i hpos hi r
    by_cases hzero : ((sb.inode m.img i).ref m.img r).toNat = 0
    · rw [hzero]
      decide
    · have htype := h.type_ne_zero hpos (hinodes ▸ hi)
      exact (h.owned.inPool (p := (i, r)) ⟨hlt i hi, htype, rfl, hzero⟩).2
  · intro b hb
    have hmap := h.owned.markedIff (b := b) (by
      by_cases hmeta : b < sb.datastart
      · exact .inl hmeta
      · exact .inr ⟨Nat.not_lt.mp hmeta, hb⟩)
    rw [hmap]
    simp
  · intro i hpos hi k hk
    by_cases hroot : i = 1
    · subst hroot
      change k < blocksFor (sb.inode m.img ROOTINO).size.toNat at hk
      rw [h.rootSize, blocksFor_rounded.mpr hround] at hk
      exact (h.rootShape.block k).mpr hk
    · have hfile := h.fileShape (k := i - 2) (by omega)
      rw [Nat.sub_add_cancel (by omega)] at hfile
      exact (hfile.block k).mpr hk

/-- A file of three bytes with the name `_a`. -/
def helloFile : Input := ⟨[0x5f, 0x61], some [⟨[1, 2, 3], by decide, by decide⟩]⟩

/-- Whatever calls run on an image that `mkfs` wrote, every block keeps one owner and every
file exactly the blocks of its size. -/
theorem packed_exact (hcount : files.length ≤ 198) (hround : (files.length + 2) % 32 ≠ 0)
    (hrun : mkfs files {} = .ok ((), m)) {console} {s : FsState}
    (hreach : ReachableBy (CallStep sb) (Call.Ok sb) (FsState.boot m.img console) s) :
    Consistent sb s.disk ∧ sb.AllExact s.disk := by
  have hlt : files.length + 2 ≤ NINODES := Nat.add_le_add_right hcount 2
  have hmade : Made NINODES (by decide) files m := made_of_run hlt hrun
  have h : Mounted sb files m.img := hmade.mounted hlt
  have hexact : sb.AllExact m.img := by
    obtain ⟨d, hc, hexact, -, -, himg⟩ := hmade.image
    have honly : OnlyFile sb ROOTINO d m.img := himg ▸ Consistent.resize_only hc (by decide)
    apply honly.allExact hexact
    intro _ _ _
    rw [Dinode.Exact, h.rootSize]
    constructor <;> rw [blocksFor_rounded.mpr hround]
    · exact h.rootShape.block
    · exact h.rootShape.indirect
  have hs := sound_of_reachable (consistent_of_allExact h.owned hexact) hreach
  exact ⟨hs.consistent, allExact_of_reachable h.owned hexact hreach⟩

/-- The file is opened and written beyond its end. -/
theorem packed_exact_hello : ∃ m s, mkfs [helloFile] {} = .ok ((), m) ∧
    ReachableBy (CallStep sb) (Call.Ok sb) (FsState.boot m.img []) s ∧
    (sb.inode s.disk 2).size = 5 ∧ Consistent sb s.disk ∧ sb.AllExact s.disk := by
  have heval : ((populate [helloFile] blank).toOption.any fun r =>
      (runList (callNext sb) (Call.Ok sb) (FsState.boot r.2.img [])
        [.beginOp, .iget 2, .ilock 0, .writei 0 (fun _ => 7) 1 4]).any fun s =>
          decide ((sb.inode s.disk 2).size = 5)) = true := by decide +kernel
  cases hpopulate : populate [helloFile] blank with
  | error e =>
    rw [hpopulate] at heval
    cases heval
  | ok r =>
    rw [hpopulate] at heval
    obtain ⟨s, hreach, hsize⟩ := exists_reachableBy _ heval
    have hrun : mkfs [helloFile] {} = .ok ((), r.2) := (mkfs_eq _).trans hpopulate
    exact ⟨r.2, s, hrun, hreach, hsize, packed_exact (by decide) (by decide) hrun hreach⟩

theorem Mounted.not_wellFormed (h : Mounted sb files m.img)
    (hround : (files.length + 2) % 32 = 0) (hpos : 1 < m.freeinode) : ¬WellFormed m := by
  intro hwell
  have hlt := blocksFor_lt_rounded hround
  rw [← h.rootSize] at hlt
  have hblock := hwell.blocks ROOTINO (by decide) hpos _ hlt
  exact (lt_irrefl _) ((h.rootShape.block _).mp hblock)

/-- The image is well formed exactly if there are at most 198 files and the entries of the
root directory do not fill whole blocks. -/
theorem image_well_formed (hrun : mkfs files {} = .ok ((), m)) :
    WellFormed m ↔ files.length ≤ 198 ∧ (files.length + 2) % 32 ≠ 0 := by
  have hinodes := freeinode_of_run hrun
  have hmounted (hcount : files.length ≤ 198) : Mounted sb files m.img := by
    have hlt : files.length + 2 ≤ NINODES := Nat.add_le_add_right hcount 2
    have hmade : Made NINODES (by decide) files m := made_of_run hlt hrun
    exact hmade.mounted hlt
  constructor
  · intro hwell
    have hlast : files.length + 1 < 200 := hwell.inodes _ (Nat.succ_pos _) (by omega)
    have hcount : files.length ≤ 198 := by omega
    exact ⟨hcount, fun hround => (hmounted hcount).not_wellFormed hround (by omega) hwell⟩
  · rintro ⟨hcount, hround⟩
    exact (hmounted hcount).wellFormed hinodes hcount hround

theorem image_well_formed_hello : ∃ m, mkfs [helloFile] {} = .ok ((), m) ∧ WellFormed m := by
  have hfits : Fits [helloFile] := by constructor <;> decide
  obtain ⟨m, hrun, -⟩ := hfits.run (N := NINODES) (by decide) (by decide)
  exact ⟨m, hrun, (image_well_formed hrun).mpr (by decide)⟩

def emptyFile : Input := ⟨[0x61], some []⟩

theorem fits_replicate {n : ℕ} (hused : usedBlocks (List.replicate n emptyFile) ≤ FSSIZE) :
    Fits (List.replicate n emptyFile) := by
  refine ⟨hused, ?_, ?_, ?_⟩
  all_goals
    intro f hf
    rw [List.eq_of_mem_replicate hf]
    decide

/-- With 30 files the root directory has one full block and the size of two; with 199 the
last file has inode 200. -/
theorem image_not_well_formed :
    (∃ m, mkfs (List.replicate 30 emptyFile) {} = .ok ((), m) ∧
      (sb.inode m.img ROOTINO).size.toNat = 2 * BSIZE ∧
      (sb.inode m.img ROOTINO).block m.img 1 = 0 ∧ ¬WellFormed m) ∧
    ∃ m, mkfs (List.replicate 199 emptyFile) {} = .ok ((), m) ∧ 200 < m.freeinode ∧
      sb.ninodes = 200 ∧ ¬WellFormed m := by
  constructor
  · have hfits : Fits (List.replicate 30 emptyFile) := fits_replicate (by decide +kernel)
    obtain ⟨m, hrun, hmade⟩ := hfits.run (N := NINODES) (by decide) (by decide)
    have hm := hmade.mounted (by decide)
    refine ⟨m, hrun, hm.rootSize, ?_, hm.not_wellFormed (by decide) ?_⟩
    · by_contra hne
      exact absurd ((hm.rootShape.block 1).mp hne) (by decide)
    · rw [hmade.inodes]
      decide
  · have hfits : Fits (List.replicate 199 emptyFile) := fits_replicate (by decide +kernel)
    obtain ⟨m, hrun, hmade⟩ := hfits.run (N := 208) (by decide) (by decide +kernel)
    have hinodes : m.freeinode = 201 := by
      rw [hmade.inodes, List.length_replicate]
    refine ⟨m, hrun, by omega, rfl, ?_⟩
    intro hwell
    have := hwell.inodes 200 (by decide) (by omega)
    exact absurd this (by decide)

end

end Xv6Threads.Mkfs
