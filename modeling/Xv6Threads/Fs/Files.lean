/-
# Files between calls

What a caller of `fs.c` sees: a disk on which every block has one owner and no file has
a hole, and a cache whose valid entries agree with it. This module states what `writei`,
`itrunc` and the changes of single inodes do to such a disk. Each of them concerns one
inode, and all other files keep their inode and their blocks.
-/

import Xv6Threads.Fs.Content
import Xv6Threads.Fs.Itrunc

namespace Xv6Threads.Fs

open Lib Command
open Xv6Threads.Log (Block byteAt getWord)
open Function (update update_eq_self update_of_ne update_self)

section

variable (L : Layout)

/-- File `j` is the same on both disks. -/
structure SameFile (d d' : Image) (j : ℕ) : Prop where
  inode : L.inode d' j = L.inode d j
  content : (L.inode d j).type ≠ 0 → ∀ {r}, (L.inode d j).ref d r ≠ 0 →
    d' ((L.inode d j).ref d r).toNat = d ((L.inode d j).ref d r).toNat

/-- Only file `i` may differ. -/
def OnlyFile (i : ℕ) (d d' : Image) : Prop := ∀ j < L.ninodes, j ≠ i → SameFile L d d' j

/-- Every block has one owner, and no file or directory has a hole. -/
structure Consistent (d : Image) : Prop where
  owned : L.DiskOwned d (L.inode d) ∅
  solid : ∀ {i}, i < L.ninodes → (L.inode d i).type ≠ 0 → (L.inode d i).type ≠ T_DEV →
    (L.inode d i).Solid d

variable {L} {d d' d'' : Image} {i j : ℕ}

theorem SameFile.refl : SameFile L d d j := ⟨rfl, fun _ _ _ => rfl⟩

theorem SameFile.ref (h : SameFile L d d' j) (htype : (L.inode d j).type ≠ 0) (r : Place) :
    (L.inode d' j).ref d' r = (L.inode d j).ref d r := by
  rw [h.inode]
  apply ref_congr
  intro hind
  exact h.content htype (r := .indirect) hind

theorem SameFile.trans (h : SameFile L d d' j) (h' : SameFile L d' d'' j) : SameFile L d d'' j where
  inode := h'.inode.trans h.inode
  content htype r hr := by
    have href := h.ref htype r
    rw [← href] at hr
    have hmid := h'.content (h.inode ▸ htype) hr
    rw [href] at hmid hr
    exact hmid.trans (h.content htype hr)

theorem SameFile.block (h : SameFile L d d' j) (htype : (L.inode d j).type ≠ 0) (k : ℕ) :
    (L.inode d' j).block d' k = (L.inode d j).block d k := by
  rw [h.inode]
  apply block_congr
  intro hind
  exact h.content htype (r := .indirect) hind

theorem SameFile.byte (h : SameFile L d d' j) (htype : (L.inode d j).type ≠ 0) {o : ℕ}
    (hblock : (L.inode d j).block d (o / BSIZE) ≠ 0) :
    (L.inode d' j).byte d' o = (L.inode d j).byte d o := by
  have hlt : o / BSIZE < MAXFILE := Nat.lt_of_not_le fun hle => hblock (block_of_maxfile_le hle)
  have hcontent := h.content htype (r := .data ⟨o / BSIZE, hlt⟩) hblock
  rw [Dinode.byte, Dinode.byte, h.block htype]
  exact congrArg (byteAt · _) hcontent

theorem SameFile.solid (h : SameFile L d d' j) (htype : (L.inode d j).type ≠ 0)
    (hsolid : (L.inode d j).Solid d) : (L.inode d' j).Solid d' := by
  intro o ho
  rw [h.inode] at ho
  rw [h.block htype]
  exact hsolid o ho

theorem OnlyFile.refl : OnlyFile L i d d := fun _ _ _ => .refl

theorem OnlyFile.trans (h : OnlyFile L i d d') (h' : OnlyFile L i d' d'') : OnlyFile L i d d'' :=
  fun j hj hne => (h j hj hne).trans (h' j hj hne)

/-- The inodes on disk, inode `i` being `x`. -/
theorem Layout.DiskOwned.held (h : L.DiskOwned d (L.inode d) ∅) (hi : i < L.ninodes)
    (htype : (L.inode d i).type ≠ 0) : Held L (L.inode d) i d (L.inode d i) := by
  refine ⟨hi, htype, ?_⟩
  rwa [update_eq_self]

theorem Consistent.held (h : Consistent L d) (hi : i < L.ninodes)
    (htype : (L.inode d i).type ≠ 0) : Held L (L.inode d) i d (L.inode d i) :=
  Layout.DiskOwned.held h.owned hi htype

/-- A block of another file is not one of this file's. -/
theorem Layout.DiskOwned.foreign (h : L.DiskOwned d (L.inode d) ∅) (hi : i < L.ninodes)
    (htype : (L.inode d i).type ≠ 0) (hj : j < L.ninodes) (hne : j ≠ i)
    (htype' : (L.inode d j).type ≠ 0) {r : Place} (hr : (L.inode d j).ref d r ≠ 0) (q : Place) :
    ((L.inode d i).ref d q).toNat ≠ ((L.inode d j).ref d r).toNat := by
  intro heq
  have hpos : ((L.inode d j).ref d r).toNat ≠ 0 := fun hz => hr (BitVec.eq_of_toNat_eq hz)
  have hone := h.once (p := (j, r)) (q := (i, q)) ⟨hj, htype', rfl, hpos⟩ ⟨hi, htype, heq, hpos⟩
  exact hne (Prod.mk.inj hone).1

theorem Layout.DiskOwned.inData (h : L.DiskOwned d (L.inode d) ∅) (hj : j < L.ninodes)
    (htype : (L.inode d j).type ≠ 0) {r : Place} (hr : (L.inode d j).ref d r ≠ 0) :
    L.InData ((L.inode d j).ref d r).toNat :=
  (Layout.DiskOwned.held h hj htype).inData hr

theorem Grows.onlyFile (h : L.DiskOwned d (L.inode d) ∅) (hi : i < L.ninodes)
    (htype : (L.inode d i).type ≠ 0) {x' : Dinode} (hgrows : Grows L d (L.inode d i) d' x') :
    OnlyFile L i d d' := by
  intro j hj hne
  refine ⟨hgrows.inodes hj, fun htype' r hr => ?_⟩
  have hrefs := (Layout.DiskOwned.held h hj htype').refs hr
  rw [update_eq_self] at hrefs
  exact hgrows.others (h.inPool hrefs) (h.marked_of_ref hrefs)
    (Layout.DiskOwned.foreign h hi htype hj hne htype' hr)

theorem MapOnly.onlyFile (h : L.DiskOwned d (L.inode d) ∅) (hmap : MapOnly L d d') :
    OnlyFile L i d d' :=
  fun _ hj _ => ⟨hmap.inodes hj, fun htype _ hr =>
    hmap.data (Layout.DiskOwned.inData h hj htype hr)⟩

/-- Inode blocks hold no data. -/
theorem onlyFile_setInode (hi : i < L.ninodes) (x : Dinode)
    (hdata : ∀ j < L.ninodes, j ≠ i → (L.inode d j).type ≠ 0 → ∀ r, (L.inode d j).ref d r ≠ 0 →
      L.InData ((L.inode d j).ref d r).toNat) : OnlyFile L i d (L.setInode d i x) :=
  fun j hj hne => ⟨inode_setInode_of_ne L d x hne, fun htype r hr =>
    update_of_ne ((hdata j hj hne htype r hr).ne_iblock hi) ..⟩

/-- The in-memory inode goes to disk. -/
theorem Held.commit {x : Dinode} (h : Held L (L.inode d) i d' x)
    (hinodes : ∀ {j}, j < L.ninodes → L.inode d' j = L.inode d j) :
    L.DiskOwned (L.setInode d' i x) (L.inode (L.setInode d' i x)) ∅ := by
  have hset := Layout.DiskOwned.setInode h.owned h.lt x
  apply Layout.Owned.table hset
  intro j hj
  rw [inode_setInode]
  by_cases hji : j = i
  · rw [hji, update_self, update_self]
  · rw [update_of_ne hji, update_of_ne hji, hinodes hj]

/-- Consistency after a change of one file. -/
theorem Consistent.of_onlyFile (h : Consistent L d) (honly : OnlyFile L i d d')
    (howned : L.DiskOwned d' (L.inode d') ∅)
    (hsolid : (L.inode d' i).type ≠ 0 → (L.inode d' i).type ≠ T_DEV →
      (L.inode d' i).Solid d') : Consistent L d' where
  owned := howned
  solid {j} hj htype hdev := by
    by_cases hji : j = i
    · subst hji
      exact hsolid htype hdev
    · have hsame := honly j hj hji
      rw [hsame.inode] at htype hdev
      exact hsame.solid htype (h.solid hj htype hdev)

/-! ## Writing -/

variable (L) in
/-- What a successful `writei` does to file `i`. -/
structure FileWritten (d : Image) (i off n : ℕ) (g : ℕ → Byte) (d' : Image) : Prop where
  only : OnlyFile L i d d'
  fields : ∃ size addrs, L.inode d' i = { L.inode d i with size := size, addrs := addrs }
  size : (L.inode d' i).size.toNat = max (L.inode d i).size.toNat (off + n)
  blocks : ∀ {k}, (L.inode d' i).block d' k ≠ 0 ↔
    (L.inode d i).block d k ≠ 0 ∨ ∃ o, off ≤ o ∧ o < off + n ∧ o / BSIZE = k
  indirect : (L.inode d' i).indirect ≠ 0 ↔
    (L.inode d i).indirect ≠ 0 ∨ ∃ o, off ≤ o ∧ o < off + n ∧ NDIRECT ≤ o / BSIZE
  written : ∀ {t}, t < n → (L.inode d' i).byte d' (off + t) = g t
  left : ∀ {o}, o < (L.inode d i).size.toNat → ¬(off ≤ o ∧ o < off + n) →
    (L.inode d' i).byte d' o = (L.inode d i).byte d o

theorem FileWritten.consistent {off n : ℕ} {g : ℕ → Byte} (h : Consistent L d)
    (hi : i < L.ninodes) (htype : (L.inode d i).type ≠ 0) (hdev : (L.inode d i).type ≠ T_DEV)
    (hw : FileWritten L d i off n g d') (hoff : off ≤ (L.inode d i).size.toNat)
    (howned : L.DiskOwned d' (L.inode d') ∅) : Consistent L d' := by
  apply h.of_onlyFile hw.only howned
  intro _ _ o ho
  rw [hw.size] at ho
  apply hw.blocks.mpr
  by_cases hold : o < (L.inode d i).size.toNat
  · exact .inl (h.solid hi htype hdev o hold)
  · exact .inr ⟨o, by omega, by omega, rfl⟩

theorem Held.setInode_block {I : ℕ → Dinode} {x : Dinode} (h : Held L I i d x) (y : Dinode)
    (k : ℕ) : x.block (L.setInode d i y) k = x.block d k := by
  apply block_congr
  intro hind
  exact update_of_ne ((h.inData (r := .indirect) hind).ne_iblock h.lt) ..

theorem Held.setInode_byte {I : ℕ → Dinode} {x : Dinode} (h : Held L I i d x) (y : Dinode) {o : ℕ}
    (hblock : x.block d (o / BSIZE) ≠ 0) : x.byte (L.setInode d i y) o = x.byte d o := by
  have hlt : o / BSIZE < MAXFILE := Nat.lt_of_not_le fun hle => hblock (block_of_maxfile_le hle)
  have hdata := h.inData (r := .data ⟨o / BSIZE, hlt⟩) hblock
  rw [Dinode.byte, Dinode.byte, h.setInode_block]
  exact congrArg (byteAt · _) (update_of_ne (hdata.ne_iblock h.lt) ..)

section

variable {off n : ℕ} {g : ℕ → Byte} {x' : Dinode}

/-- A write inside the file: the inode stays as it is. -/
theorem Written.file_inside (h : L.DiskOwned d (L.inode d) ∅) (hi : i < L.ninodes)
    (htype : (L.inode d i).type ≠ 0) (hsolid : (L.inode d i).Solid d)
    (hw : Written L d (L.inode d i) off n g d' x')
    (hend : off + n ≤ (L.inode d i).size.toNat) :
    x' = L.inode d' i ∧ FileWritten L d i off n g d' := by
  have hinode := hw.inodes hi
  have hsame : x' = L.inode d i := hw.same fun o _ ho => hsolid o (by omega)
  subst hsame
  refine ⟨hinode.symm, hw.toGrows.onlyFile h hi htype, ?_, ?_, ?_, ?_, ?_, ?_⟩
  · exact ⟨_, _, hinode⟩
  · rw [hinode]
    omega
  · intro k
    rw [hinode]
    exact hw.blocks
  · rw [hinode]
    exact hw.indirect
  · intro t ht
    rw [hinode]
    exact hw.written ht
  · intro o ho hout
    rw [hinode]
    exact hw.left hout (hsolid o ho)

theorem OnlyFile.setInode (h : L.DiskOwned d (L.inode d) ∅) (honly : OnlyFile L i d d')
    (hi : i < L.ninodes) (x : Dinode) : OnlyFile L i d (L.setInode d' i x) := by
  apply honly.trans
  apply onlyFile_setInode hi
  intro j hj hne htype r hr
  have hsame := honly j hj hne
  rw [hsame.inode] at htype
  rw [hsame.ref htype] at hr ⊢
  exact Layout.DiskOwned.inData h hj htype hr

/-- A write past the end, after which the inode is written back with its new size. -/
theorem Written.file_grow (h : L.DiskOwned d (L.inode d) ∅) (hi : i < L.ninodes)
    (htype : (L.inode d i).type ≠ 0) (hsolid : (L.inode d i).Solid d)
    (hw : Written L d (L.inode d i) off n g d' x') (h' : Held L (L.inode d) i d' x')
    {size : BitVec 32} (hsize : size.toNat = max (L.inode d i).size.toNat (off + n)) :
    FileWritten L d i off n g (L.setInode d' i { x' with size := size }) := by
  have hheld : Held L (L.inode d) i d' { x' with size := size } := h'.of_addrs rfl rfl
  have hblock : ∀ k, ({ x' with size := size } : Dinode).block
      (L.setInode d' i { x' with size := size }) k = x'.block d' k :=
    hheld.setInode_block { x' with size := size }
  have hbyte : ∀ o, x'.block d' (o / BSIZE) ≠ 0 → ({ x' with size := size } : Dinode).byte
      (L.setInode d' i { x' with size := size }) o = x'.byte d' o := fun _ ho =>
    hheld.setInode_byte { x' with size := size } ho
  constructor
  · exact (hw.toGrows.onlyFile h hi htype).setInode h hi _
  · refine ⟨size, x'.addrs, ?_⟩
    rw [inode_setInode_self, hw.fields]
  · rw [inode_setInode_self]
    exact hsize
  · intro k
    rw [inode_setInode_self, hblock]
    exact hw.blocks
  · rw [inode_setInode_self]
    exact hw.indirect
  · intro t ht
    rw [inode_setInode_self, hbyte _ (hw.blocks.mpr (.inr ⟨off + t, by omega, by omega, rfl⟩))]
    exact hw.written ht
  · intro o ho hout
    have hold := hsolid o ho
    rw [inode_setInode_self, hbyte _ (hw.blocks.mpr (.inl hold))]
    exact hw.left hout hold

end

/-! ## Single inodes -/

/-- An inode without blocks is replaced by another one. -/
theorem Consistent.setInode_bare (h : Consistent L d) (hi : i < L.ninodes) {y : Dinode}
    (hold : (L.inode d i).Bare) (hnew : y.addrs = fun _ => 0) (hsize : y.size = 0) :
    Consistent L (L.setInode d i y) := by
  have honly : OnlyFile L i d (L.setInode d i y) := OnlyFile.refl.setInode h.owned hi y
  apply h.of_onlyFile honly
  · have howned : L.DiskOwned d (update (L.inode d) i (L.inode d i)) ∅ := by
      rw [update_eq_self]
      exact h.owned
    rw [inode_setInode]
    apply Layout.DiskOwned.setInode _ hi
    exact howned.replace hold.not_refs (Dinode.Bare.not_refs (.inr hnew))
  · intro _ _ o ho
    rw [inode_setInode_self, hsize] at ho
    exact absurd ho (Nat.not_lt_zero o)

/-- The fields that do not concern the content. -/
theorem Consistent.setInode_fields (h : Consistent L d) (hi : i < L.ninodes)
    (major minor nlink : BitVec 16) : Consistent L (L.setInode d i
      { L.inode d i with major := major, minor := minor, nlink := nlink }) := by
  have honly := OnlyFile.refl.setInode h.owned hi
    { L.inode d i with major := major, minor := minor, nlink := nlink }
  have hblock : ∀ k, (L.inode d i).type ≠ 0 →
      ({ L.inode d i with major := major, minor := minor, nlink := nlink } : Dinode).block
        (L.setInode d i { L.inode d i with major := major, minor := minor, nlink := nlink }) k =
      (L.inode d i).block d k := fun k htype =>
    (h.held hi htype).setInode_block _ k
  apply h.of_onlyFile honly
  · rw [inode_setInode]
    apply Layout.DiskOwned.setInode _ hi
    by_cases htype : (L.inode d i).type = 0
    · have howned : L.DiskOwned d (update (L.inode d) i (L.inode d i)) ∅ := by
        rw [update_eq_self]
        exact h.owned
      exact howned.replace (Dinode.Bare.not_refs (.inl htype)) (Dinode.Bare.not_refs (.inl htype))
    · apply Held.owned
      exact (h.held hi htype).of_addrs rfl rfl
  · rw [inode_setInode_self]
    intro htype hdev o ho
    rw [hblock _ htype]
    exact h.solid hi htype hdev o ho

/-- A disk without files. -/
theorem consistent_of_free (hfree : ∀ i < L.ninodes, (L.inode d i).type = 0)
    (hmarked : ∀ b < L.size, L.marked d b = true ↔ b < L.datastart) : Consistent L d := by
  have hnone : ∀ p b, ¬L.Refs d (L.inode d) p b := fun p b hp => hp.2.1 (hfree _ hp.1)
  refine ⟨⟨fun hp => absurd hp (hnone _ _), fun hp => absurd hp (hnone _ _), ?_, ?_, ?_⟩, ?_⟩
  · intro b hb
    exact absurd hb (Set.notMem_empty b)
  · intro p b hb
    exact absurd hb (Set.notMem_empty b)
  · intro b hb
    rw [hmarked b (Layout.lt_size_of_mem hb)]
    constructor
    · exact .inl
    · rintro (h | h | ⟨p, hp⟩)
      · exact h
      · exact absurd h (Set.notMem_empty b)
      · exact absurd hp (hnone p b)
  · intro i hi htype
    exact absurd (hfree i hi) htype

/-! ## The cache -/

variable (L) in
/-- Valid entries in use agree with the disk, and no inode has two entries. -/
structure Synced (s : FsState) : Prop where
  lt : ∀ {ip}, 0 < (s.icache ip).ref → (s.icache ip).valid = true →
    (s.icache ip).inum < L.ninodes
  din : ∀ {ip}, 0 < (s.icache ip).ref → (s.icache ip).valid = true →
    (s.icache ip).din = L.inode s.disk (s.icache ip).inum
  type : ∀ {ip}, 0 < (s.icache ip).ref → (s.icache ip).valid = true →
    (s.icache ip).din.type ≠ 0
  dev : ∀ {ip}, 0 < (s.icache ip).ref → (s.icache ip).dev = ROOTDEV
  unique : ∀ {ip jp}, 0 < (s.icache ip).ref → 0 < (s.icache jp).ref →
    (s.icache ip).inum = (s.icache jp).inum → ip = jp

section

variable {s : FsState} {ip : Ip} {E : Panic → Prop}

theorem put_icache_of_ne {jp : Ip} {x : Dinode} (h : jp ≠ ip) :
    (s.put ip d x).icache jp = s.icache jp := by
  simp [FsState.put, h]

theorem put_icache_self {x : Dinode} :
    (s.put ip d x).icache ip = { s.icache ip with din := x } := by
  simp [FsState.put]

/-- A change of the inode of a valid entry, in memory and on disk. -/
theorem Synced.put (h : Synced L s) (href : 0 < (s.icache ip).ref)
    (hvalid : (s.icache ip).valid = true) (honly : OnlyFile L (s.icache ip).inum s.disk d')
    (htype : (L.inode d' (s.icache ip).inum).type ≠ 0) :
    Synced L (s.put ip d' (L.inode d' (s.icache ip).inum)) := by
  have hbooks : ∀ jp, ((s.put ip d' (L.inode d' (s.icache ip).inum)).icache jp).ref =
      (s.icache jp).ref ∧
      ((s.put ip d' (L.inode d' (s.icache ip).inum)).icache jp).inum = (s.icache jp).inum ∧
      ((s.put ip d' (L.inode d' (s.icache ip).inum)).icache jp).dev = (s.icache jp).dev ∧
      ((s.put ip d' (L.inode d' (s.icache ip).inum)).icache jp).valid = (s.icache jp).valid := by
    intro jp
    by_cases hjp : jp = ip
    · subst hjp
      rw [put_icache_self]
      exact ⟨rfl, rfl, rfl, rfl⟩
    · rw [put_icache_of_ne hjp]
      exact ⟨rfl, rfl, rfl, rfl⟩
  constructor
  · intro jp hr hv
    rw [(hbooks jp).1] at hr
    rw [(hbooks jp).2.2.2] at hv
    rw [(hbooks jp).2.1]
    exact h.lt hr hv
  · intro jp hr hv
    rw [(hbooks jp).1] at hr
    rw [(hbooks jp).2.2.2] at hv
    rw [(hbooks jp).2.1, put_disk]
    by_cases hjp : jp = ip
    · rw [hjp, put_din]
    · rw [put_icache_of_ne hjp, h.din hr hv]
      refine (SameFile.inode (honly _ (h.lt hr hv) ?_)).symm
      exact fun heq => hjp (h.unique hr href heq)
  · intro jp hr hv
    rw [(hbooks jp).1] at hr
    rw [(hbooks jp).2.2.2] at hv
    by_cases hjp : jp = ip
    · rwa [hjp, put_din]
    · rw [put_icache_of_ne hjp]
      exact h.type hr hv
  · intro jp hr
    rw [(hbooks jp).1] at hr
    rw [(hbooks jp).2.2.1]
    exact h.dev hr
  · intro jp kp hr hr' heq
    rw [(hbooks jp).1] at hr
    rw [(hbooks kp).1] at hr'
    rw [(hbooks jp).2.1, (hbooks kp).2.1] at heq
    exact h.unique hr hr' heq

/-- `writei` on a file without holes, whatever the other files look like. -/
theorem writei_solid (hE : Tolerant E) (src : ℕ → Byte) (off n : BitVec 32)
    {Q : Option ℕ → FsState → Prop} (howned : L.DiskOwned s.disk (L.inode s.disk) ∅)
    (hlt : (s.icache ip).inum < L.ninodes)
    (hdin : (s.icache ip).din = L.inode s.disk (s.icache ip).inum)
    (htype : (s.icache ip).din.type ≠ 0) (hdev : (s.icache ip).din.type ≠ T_DEV)
    (hsolid : (s.icache ip).din.Solid s.disk)
    (hnone : ((s.icache ip).din.size < off ∨ off + n < off ∨
      BitVec.ofNat 32 (MAXFILE * BSIZE) < off + n) → Q none s)
    (hsome : ¬((s.icache ip).din.size < off ∨ off + n < off ∨
        BitVec.ofNat 32 (MAXFILE * BSIZE) < off + n) →
      ∀ d', FileWritten L s.disk (s.icache ip).inum off.toNat n.toNat src d' →
      L.DiskOwned d' (L.inode d') ∅ → off.toNat ≤ (s.icache ip).din.size.toNat →
      Q (some n.toNat) (s.put ip d' (L.inode d' (s.icache ip).inum))) :
    Ends E (writei L ip src off n) s Q := by
  apply Ends.read_bind
  rw [if_neg hdev]
  by_cases hrange : (s.icache ip).din.size < off ∨ off + n < off
  · rw [if_pos hrange]
    exact Ends.pure (hnone (hrange.imp_right .inl))
  rw [if_neg hrange]
  by_cases hmax : BitVec.ofNat 32 (MAXFILE * BSIZE) < off + n
  · rw [if_pos hmax]
    exact Ends.pure (hnone (.inr (.inr hmax)))
  rw [if_neg hmax]
  have hsome := hsome (by tauto)
  simp only [not_or, BitVec.not_lt] at hrange
  have hoff : off.toNat ≤ (s.icache ip).din.size.toNat := hrange.1
  have hsum : (off + n).toNat = off.toNat + n.toNat := by
    have := hrange.2
    bv_omega
  have hheld : Held L (L.inode s.disk) (s.icache ip).inum s.disk (s.icache ip).din := by
    rw [hdin] at htype ⊢
    exact Layout.DiskOwned.held howned hlt htype
  apply Ends.seq
  apply writeLoop_ends hE src n.toNat le_rfl hheld
  intro d₁ x₁ hheld₁ hw
  simp only [Nat.zero_add] at hw
  rw [hdin] at htype hdev hsolid hoff hw ⊢
  by_cases hgrow : 0 < n ∧ (L.inode s.disk (s.icache ip).inum).size < off + n
  · have hsize : (off + n).toNat =
        max (L.inode s.disk (s.icache ip).inum).size.toNat (off.toNat + n.toNat) := by
      have := hgrow.2
      bv_omega
    have hheld₂ : Held L _ _ d₁ { x₁ with size := off + n } := hheld₁.of_addrs rfl rfl
    have hfile := hw.file_grow howned hlt htype hsolid hheld₁ hsize
    have hdone := hsome _ hfile (hheld₂.commit hw.inodes) (by rwa [hdin])
    rw [if_pos hgrow]
    apply Ends.modify_bind
    apply Ends.seq
    apply iupdate_ends hE
    apply Ends.pure
    rw [inode_setInode_self] at hdone
    simpa [FsState.put] using hdone
  · have hend : off.toNat + n.toNat ≤ (L.inode s.disk (s.icache ip).inum).size.toNat := by
      by_cases hn : 0 < n
      · have := fun h => hgrow ⟨hn, h⟩
        bv_omega
      · bv_omega
    obtain ⟨rfl, hfile⟩ := hw.file_inside howned hlt htype hsolid hend
    have howned' : L.DiskOwned d₁ (L.inode d₁) ∅ := by
      apply hheld₁.owned.table
      intro j hj
      by_cases hji : j = (s.icache ip).inum
      · rw [hji, update_self]
      · rw [update_of_ne hji, hw.inodes hj]
    rw [if_neg hgrow]
    apply Ends.pure
    exact hsome _ hfile howned' (by rwa [hdin])

theorem writei_ends (hE : Tolerant E) (src : ℕ → Byte) (off n : BitVec 32)
    {Q : Option ℕ → FsState → Prop} (hc : Consistent L s.disk) (hs : Synced L s)
    (href : 0 < (s.icache ip).ref) (hvalid : (s.icache ip).valid = true)
    (hdev : (s.icache ip).din.type ≠ T_DEV) (hnone : Q none s)
    (hsome : ∀ d', FileWritten L s.disk (s.icache ip).inum off.toNat n.toNat src d' →
      Consistent L d' → off.toNat ≤ (s.icache ip).din.size.toNat →
      Q (some n.toNat) (s.put ip d' (L.inode d' (s.icache ip).inum))) :
    Ends E (writei L ip src off n) s Q := by
  have hlt := hs.lt href hvalid
  have hdin := hs.din href hvalid
  have htype := hs.type href hvalid
  have htype' := htype
  have hdev' := hdev
  rw [hdin] at htype' hdev'
  apply writei_solid hE src off n hc.owned hlt hdin htype hdev
  · rw [hdin]
    exact hc.solid hlt htype' hdev'
  · intro _
    exact hnone
  · intro _ d' hw howned hoff
    refine hsome d' hw (hw.consistent hc hlt htype' hdev' ?_ howned) hoff
    rwa [hdin] at hoff

theorem itrunc_file (hE : Tolerant E) {Q : Unit → FsState → Prop} (hc : Consistent L s.disk)
    (hs : Synced L s) (href : 0 < (s.icache ip).ref) (hvalid : (s.icache ip).valid = true)
    (hQ : ∀ d', OnlyFile L (s.icache ip).inum s.disk d' → Consistent L d' →
      L.inode d' (s.icache ip).inum = (s.icache ip).din.truncated →
      Q () (s.put ip d' (s.icache ip).din.truncated)) : Ends E (itrunc L ip) s Q := by
  have hlt := hs.lt href hvalid
  have hdin := hs.din href hvalid
  have htype := hs.type href hvalid
  have hheld : Held L (L.inode s.disk) (s.icache ip).inum s.disk (s.icache ip).din := by
    rw [hdin] at htype ⊢
    exact hc.held hlt htype
  apply itrunc_ends hE hheld
  intro d₁ hmap hheld₁
  have honly : OnlyFile L (s.icache ip).inum s.disk _ :=
    (hmap.onlyFile hc.owned).setInode hc.owned hlt (s.icache ip).din.truncated
  apply hQ _ honly
  · apply hc.of_onlyFile honly (hheld₁.commit hmap.inodes)
    intro _ _ o ho
    rw [inode_setInode_self] at ho
    exact absurd ho (Nat.not_lt_zero o)
  · rw [inode_setInode_self]

/-- The inode is free afterwards. -/
theorem ifree_file (hE : Tolerant E) {Q : Unit → FsState → Prop} (hc : Consistent L s.disk)
    (hs : Synced L s) (href : 0 < (s.icache ip).ref) (hvalid : (s.icache ip).valid = true)
    (hQ : ∀ d' x, OnlyFile L (s.icache ip).inum s.disk d' → Consistent L d' →
      L.inode d' (s.icache ip).inum = { (s.icache ip).din.truncated with type := 0 } →
      Q () ((s.put ip d' x).mapIp ip fun x => { x with valid := false })) :
    Ends E (ifree L ip) s Q := by
  have hlt := hs.lt href hvalid
  apply Ends.seq
  apply itrunc_file hE hc hs href hvalid
  intro d₁ honly hcons hinode
  apply Ends.seq
  apply setIp_ends
  apply Ends.seq
  apply iupdate_ends hE
  apply setIp_ends
  have hbare : (L.inode d₁ (s.icache ip).inum).Bare := by
    rw [hinode]
    exact .inr rfl
  have hdone := hQ (L.setInode d₁ (s.icache ip).inum
    { (s.icache ip).din.truncated with type := 0 })
    { (s.icache ip).din.truncated with type := 0 }
    (honly.setInode hc.owned hlt _) (hcons.setInode_bare hlt hbare rfl rfl)
    (by rw [inode_setInode_self])
  simpa [FsState.put, FsState.mapIp] using hdone

/-- A change of one entry. -/
theorem Synced.mapIp (h : Synced L s) {f : Inode → Inode}
    (hbooks : 0 < (f (s.icache ip)).ref → (f (s.icache ip)).dev = ROOTDEV ∧
      ∀ jp, jp ≠ ip → 0 < (s.icache jp).ref → (s.icache jp).inum ≠ (f (s.icache ip)).inum)
    (hvalid : 0 < (f (s.icache ip)).ref → (f (s.icache ip)).valid = true →
      (f (s.icache ip)).inum < L.ninodes ∧
      (f (s.icache ip)).din = L.inode s.disk (f (s.icache ip)).inum ∧
      (f (s.icache ip)).din.type ≠ 0) : Synced L (s.mapIp ip f) := by
  constructor
  · intro jp hr hv
    by_cases hjp : jp = ip
    · rw [hjp, mapIp_self] at hr hv ⊢
      exact (hvalid hr hv).1
    · rw [mapIp_of_ne hjp] at hr hv ⊢
      exact h.lt hr hv
  · intro jp hr hv
    by_cases hjp : jp = ip
    · rw [hjp, mapIp_self] at hr hv ⊢
      exact (hvalid hr hv).2.1
    · rw [mapIp_of_ne hjp] at hr hv ⊢
      exact h.din hr hv
  · intro jp hr hv
    by_cases hjp : jp = ip
    · rw [hjp, mapIp_self] at hr hv ⊢
      exact (hvalid hr hv).2.2
    · rw [mapIp_of_ne hjp] at hr hv ⊢
      exact h.type hr hv
  · intro jp hr
    by_cases hjp : jp = ip
    · rw [hjp, mapIp_self] at hr ⊢
      exact (hbooks hr).1
    · rw [mapIp_of_ne hjp] at hr ⊢
      exact h.dev hr
  · intro jp kp hr hr' heq
    by_cases hjp : jp = ip <;> by_cases hkp : kp = ip
    · rw [hjp, hkp]
    · rw [hjp, mapIp_self] at hr heq
      rw [mapIp_of_ne hkp] at hr' heq
      exact absurd heq.symm ((hbooks hr).2 kp hkp hr')
    · rw [hkp, mapIp_self] at hr' heq
      rw [mapIp_of_ne hjp] at hr heq
      exact absurd heq ((hbooks hr').2 jp hjp hr)
    · rw [mapIp_of_ne hjp] at hr heq
      rw [mapIp_of_ne hkp] at hr' heq
      exact h.unique hr hr' heq

/-- The same where the entry keeps its inode. -/
theorem Synced.mapIp_same (h : Synced L s) {f : Inode → Inode}
    (hinum : (f (s.icache ip)).inum = (s.icache ip).inum)
    (hdev : (f (s.icache ip)).dev = (s.icache ip).dev)
    (hdin : (f (s.icache ip)).din = (s.icache ip).din)
    (hvalid : (f (s.icache ip)).valid = (s.icache ip).valid)
    (href : 0 < (f (s.icache ip)).ref → 0 < (s.icache ip).ref) : Synced L (s.mapIp ip f) := by
  apply h.mapIp
  · intro hr
    rw [hinum, hdev]
    exact ⟨h.dev (href hr), fun jp hne hr' heq => hne (h.unique hr' (href hr) heq)⟩
  · intro hr hv
    rw [hvalid] at hv
    rw [hdin, hinum]
    exact ⟨h.lt (href hr) hv, h.din (href hr) hv, h.type (href hr) hv⟩

/-- A file that no valid entry is about has changed. -/
theorem Synced.disk (h : Synced L s) (honly : OnlyFile L i s.disk d')
    (hnone : ∀ ip, 0 < (s.icache ip).ref → (s.icache ip).valid = true → (s.icache ip).inum ≠ i) :
    Synced L { s with disk := d' } where
  lt := h.lt
  din {ip} hr hv := by
    rw [h.din hr hv]
    exact (honly _ (h.lt hr hv) (hnone ip hr hv)).inode.symm
  type := h.type
  dev := h.dev
  unique := h.unique

end

end

end Xv6Threads.Fs
