/-
# Directories as maps

What a directory is for: a finite map from names to inode numbers, with names compared up
to their first zero and on `DIRSIZ` bytes. The array of bytes of a directory file is read as
a row of slots, one for each entry, and `dirlink`, `dirlookup` and the clearing of an entry in
`sys_unlink` are the updates and lookups of the map that these slots hold.
-/

import Xv6Threads.Fs.Arrays
import Xv6Threads.Fs.Names
import Xv6Threads.Lib.SlotMap

namespace Xv6Threads.Fs

open Lib Command
open Function (update update_eq_self update_self)

/-! ## Arrays of entries -/

/-- The entry at `off` of an array of bytes. -/
def direntAt (a : List Byte) (off : ℕ) : Dirent := Dirent.ofBytes ((a.drop off).take DIRENT)

/-- What an entry binds. -/
def Dirent.binding (de : Dirent) : Option (List Byte × ℕ) :=
  if de.inum = 0 then none else some (key de.name, de.inum.toNat)

def dirSlot (a : List Byte) (j : ℕ) : Option (List Byte × ℕ) := (direntAt a (DIRENT * j)).binding

/-- The map that an array of entries is. -/
def bindings (a : List Byte) : List Byte → Option ℕ := slotLookup (a.length / DIRENT) (dirSlot a)

section

variable {a : List Byte} {off n j k : ℕ} {src : ℕ → Byte} {de : Dirent} {name : List Byte} {i : ℕ}

theorem binding_eq_some {x : List Byte} :
    de.binding = some (x, i) ↔ de.inum ≠ 0 ∧ key de.name = x ∧ de.inum.toNat = i := by
  rw [Dirent.binding]
  split_ifs with h <;> simp_all

theorem binding_eq_none : de.binding = none ↔ de.inum = 0 := by
  rw [Dirent.binding]
  split_ifs with h <;> simp_all

/-- An entry matches a name if it binds it. -/
theorem matches_iff : de.Matches name ↔ de.binding = some (key name, de.inum.toNat) := by
  rw [binding_eq_some, Dirent.Matches, namecmp_iff]
  simp only [and_true, eq_comm]

theorem overwrite_getElem? (hoff : off ≤ a.length) (t : ℕ) :
    (overwrite a off n src)[t]? =
      if off ≤ t ∧ t < off + n then some (src (t - off)) else a[t]? := by
  rw [overwrite, List.append_assoc]
  by_cases hbefore : t < off
  · rw [List.getElem?_append_left (by rw [List.length_take]; omega), List.getElem?_take,
      if_pos hbefore, if_neg (by omega)]
  · rw [List.getElem?_append_right (by rw [List.length_take]; omega), List.length_take,
      Nat.min_eq_left hoff]
    by_cases hin : t < off + n
    · rw [List.getElem?_append_left (by simp; omega), if_pos ⟨by omega, hin⟩, List.getElem?_map,
        List.getElem?_range (by omega), Option.map_some]
    · rw [List.getElem?_append_right (by simp; omega), if_neg (by omega), List.getElem?_drop,
        List.length_map, List.length_range]
      congr 1
      omega

theorem length_overwrite (hoff : off ≤ a.length) :
    (overwrite a off n src).length = max a.length (off + n) := by
  simp [overwrite]
  omega

theorem direntAt_overwrite_self (hoff : off ≤ a.length) :
    direntAt (overwrite a off DIRENT src) off =
      Dirent.ofBytes ((List.range DIRENT).map src) := by
  unfold direntAt
  congr 1
  apply List.ext_getElem?
  intro t
  rw [List.getElem?_take, List.getElem?_drop, overwrite_getElem? hoff, List.getElem?_map]
  by_cases ht : t < DIRENT
  · rw [if_pos ht, if_pos ⟨by omega, by omega⟩, List.getElem?_range ht, Nat.add_sub_cancel_left,
      Option.map_some]
  · rw [if_neg ht, List.getElem?_eq_none (by simpa using ht), Option.map_none]

theorem dirSlot_overwrite_of_ne (hoff : DIRENT * j ≤ a.length) (hkj : k ≠ j) :
    dirSlot (overwrite a (DIRENT * j) DIRENT src) k = dirSlot a k := by
  unfold dirSlot direntAt
  congr 2
  apply List.ext_getElem?
  intro t
  rw [List.getElem?_take, List.getElem?_take, List.getElem?_drop, List.getElem?_drop,
    overwrite_getElem? hoff]
  by_cases ht : t < DIRENT
  · have hout : ¬(DIRENT * j ≤ DIRENT * k + t ∧ DIRENT * k + t < DIRENT * j + DIRENT) := by
      show ¬(16 * j ≤ 16 * k + t ∧ 16 * k + t < 16 * j + 16)
      have ht' : t < 16 := ht
      omega
    rw [if_neg hout]
  · rw [if_neg ht, if_neg ht]

theorem dvd_length_overwrite (hwhole : DIRENT ∣ a.length) (hoff : DIRENT * j ≤ a.length) :
    DIRENT ∣ (overwrite a (DIRENT * j) DIRENT src).length := by
  rw [length_overwrite hoff]
  rcases Nat.le_total a.length (DIRENT * j + DIRENT) with hle | hle
  · rw [Nat.max_eq_right hle, ← Nat.mul_succ]
    exact Nat.dvd_mul_right ..
  · rw [Nat.max_eq_left hle]
    exact hwhole

/-- A new entry in a free slot or at the end. -/
theorem fillsSlot_overwrite (name : List Byte) (hwhole : DIRENT ∣ a.length)
    (hj : j ≤ a.length / DIRENT) (hfree : j < a.length / DIRENT → dirSlot a j = none)
    (hpos : 0 < i) (hlt : i < 65536) :
    FillsSlot (a.length / DIRENT) (dirSlot a) j (key name) i
      ((overwrite a (DIRENT * j) DIRENT (direntBytes name i)).length / DIRENT)
      (dirSlot (overwrite a (DIRENT * j) DIRENT (direntBytes name i))) := by
  obtain ⟨m, hm⟩ := hwhole
  have hcount : a.length / DIRENT = m := by rw [hm, Nat.mul_div_cancel_left m (by decide)]
  rw [hcount] at hj hfree ⊢
  have hoff : DIRENT * j ≤ a.length := hm ▸ Nat.mul_le_mul_left DIRENT hj
  refine ⟨hfree, ?_, hj, ?_, ?_⟩
  · rw [length_overwrite hoff, hm]
    show max (16 * m) (16 * j + 16) / 16 = max m (j + 1)
    omega
  · rw [dirSlot, direntAt_overwrite_self hoff, binding_eq_some, entry_inum, entry_key]
    have hnat : (BitVec.ofNat 16 i).toNat = i := by
      rw [BitVec.toNat_ofNat, Nat.mod_eq_of_lt hlt]
    refine ⟨?_, rfl, hnat⟩
    intro hzero
    rw [hzero] at hnat
    exact hpos.ne hnat
  · intro k _ hkj
    exact dirSlot_overwrite_of_ne hoff hkj

theorem emptiesSlot_overwrite (hj : j < a.length / DIRENT) (hslot : dirSlot a j = some (name, i)) :
    EmptiesSlot (a.length / DIRENT) (dirSlot a) j name
      (dirSlot (overwrite a (DIRENT * j) DIRENT fun _ => 0)) := by
  have hfit : DIRENT * j + DIRENT ≤ a.length := by
    have hmul := Nat.mul_le_of_le_div DIRENT (j + 1) a.length hj
    rw [Nat.add_mul, Nat.one_mul, Nat.mul_comm] at hmul
    exact hmul
  have hoff : DIRENT * j ≤ a.length := (Nat.le_add_right ..).trans hfit
  refine ⟨hj, ⟨i, hslot⟩, ?_, ?_⟩
  · rw [dirSlot, direntAt_overwrite_self hoff, binding_eq_none]
    decide
  · intro k _ hkj
    exact dirSlot_overwrite_of_ne hoff hkj

end

/-! ## Calls on a directory -/

inductive DirOp
  | dirlink (name : List Byte) (inum : ℕ)
  | dirlookup (name : List Byte)
  -- as `sys_unlink` clears an entry
  | clear (name : List Byte)

/-- What a call returns: for `dirlookup` the inode number and the offset. -/
inductive DirResult
  | linked (ok : Bool)
  | found (r : Option (ℕ × ℕ))
  | cleared (ok : Bool)
  deriving DecidableEq

section

variable (L : Layout) (dp : Ip)

def DirOp.run : DirOp → FsM DirResult
  | .dirlink name inum => do
      let ok ← Fs.dirlink L dp name inum
      pure (.linked ok)
  | .dirlookup name => do
      let r ← Fs.dirlookup L dp name
      match r with
      | none => pure (.found none)
      | some (ip, off) => do
          let x ← readIp ip
          pure (.found (some (x.inum, off)))
  | .clear name => do
      let r ← Fs.dirlookup L dp name
      match r with
      | none => pure (.cleared false)
      | some (_, off) => do
          let n ← Fs.writei L dp (fun _ => 0) (BitVec.ofNat 32 off) (BitVec.ofNat 32 DIRENT)
          if n = some DIRENT then pure (.cleared true) else fail .unlinkWritei

end

/-- The inode numbers that an entry can hold. -/
def DirOp.InRange : DirOp → Prop
  | .dirlink _ inum => 0 < inum ∧ inum < 65536
  | .dirlookup _ => True
  | .clear _ => True

/-- What a call leaves of the map. -/
def DirOp.apply (M : List Byte → Option ℕ) : DirOp → List Byte → Option ℕ
  | .dirlink name inum =>
    if M (key name) = none then update M (key name) (some inum) else M
  | .dirlookup _ => M
  | .clear name => update M (key name) none

/-- What a call returns on an array of entries that holds the map. -/
def DirOp.Returns (a : List Byte) (M : List Byte → Option ℕ) : DirOp → DirResult → Prop
  | .dirlink name _, r => r = .linked (M (key name)).isNone
  | .dirlookup name, r => M (key name) = none ∧ r = .found none ∨
      ∃ i j, M (key name) = some i ∧ j < a.length / DIRENT ∧ dirSlot a j = some (key name, i) ∧
        r = .found (some (i, DIRENT * j))
  | .clear name, r => r = .cleared (M (key name)).isSome

/-! ## Directories -/

/-- Entry `dp` is a directory that the caller has locked, its entries are whole, no two of
them bind the same name, and together they are the map `M`. -/
structure IsDir (L : Layout) (dp : Ip) (s : FsState) (M : List Byte → Option ℕ) : Prop where
  file : IsFile L dp s ((s.icache dp).din.content s.disk)
  type : (s.icache dp).din.type = T_DIR
  ref : 0 < (s.icache dp).ref
  locked : (s.icache dp).locked = true
  unlocked : ∀ jp, (s.icache jp).ref = 0 → (s.icache jp).locked = false
  whole : DIRENT ∣ (s.icache dp).din.size.toNat
  distinct : DistinctKeys (((s.icache dp).din.content s.disk).length / DIRENT)
    (dirSlot ((s.icache dp).din.content s.disk))
  map : bindings ((s.icache dp).din.content s.disk) = M

/-- A directory without holes whose entries are whole and bind no name twice. -/
structure Dinode.Directory (d : Image) (x : Dinode) : Prop where
  type : x.type = T_DIR
  solid : x.Solid d
  whole : DIRENT ∣ x.size.toNat
  distinct : DistinctKeys ((x.content d).length / DIRENT) (dirSlot (x.content d))

/-- What other callers may do to a locked directory and the rest: its file and the cache
entry stay, references to it may come and go. -/
structure Elsewhere (L : Layout) (dp : Ip) (s s' : FsState) : Prop where
  owned : L.DiskOwned s'.disk (L.inode s'.disk) ∅
  same : SameFile L s.disk s'.disk (s.icache dp).inum
  op : 1 ≤ s'.outstanding
  entry : s'.icache dp = { s.icache dp with ref := (s'.icache dp).ref }
  ref : 0 < (s'.icache dp).ref
  unlocked : ∀ jp, (s'.icache jp).ref = 0 → (s'.icache jp).locked = false

/-- What `iget` leaves: one more reference to an entry of the inode, or a new entry. -/
def Got (s : FsState) (dev inum : ℕ) (ip : Ip) (s' : FsState) : Prop :=
  (0 < (s.icache ip).ref ∧ (s.icache ip).dev = dev ∧ (s.icache ip).inum = inum) ∧
      s' = s.mapIp ip (fun x => { x with ref := x.ref + 1 }) ∨
    ((s.icache ip).ref = 0 ∧ ∀ jp, 0 < (s.icache jp).ref → (s.icache jp).dev = dev →
      (s.icache jp).inum ≠ inum) ∧
      s' = s.mapIp ip fun x => { x with dev := dev, inum := inum, ref := 1, valid := false }

/-- The cache has an entry for an inode, or room for one. -/
def CanGet (s : FsState) (dev inum : ℕ) : Prop :=
  ∃ ip, (s.icache ip).ref = 0 ∨
    0 < (s.icache ip).ref ∧ (s.icache ip).dev = dev ∧ (s.icache ip).inum = inum

/-- There is space for an entry at `off`. -/
def Fits (L : Layout) (d : Image) (x : Dinode) (off : ℕ) : Prop :=
  off + DIRENT ≤ x.size.toNat ∨
    off + DIRENT ≤ MAXFILE * BSIZE ∧ x.missing d (places off DIRENT) ≤ L.freeBlocks d

/-- There is space for a new entry: in a free slot or, if all are in use, at the end. -/
def HasRoom (L : Layout) (d : Image) (x : Dinode) : Prop :=
  (∀ j < x.size.toNat / DIRENT, dirSlot (x.content d) j ≠ none) → Fits L d x x.size.toNat

/-- The calls that return: a bound inode finds its place in the cache, a `dirlink` of a name
that is there finds its inode unlocked, and a new name finds space on the disk. -/
def DirOp.Passes (L : Layout) (dp : Ip) (s : FsState) (M : List Byte → Option ℕ) : DirOp → Prop
  | .dirlink name _ =>
    (M (key name) = none → HasRoom L s.disk (s.icache dp).din) ∧
    ∀ i, M (key name) = some i → CanGet s (s.icache dp).dev i ∧
      ∀ ip, 0 < (s.icache ip).ref → (s.icache ip).dev = (s.icache dp).dev →
        (s.icache ip).inum = i → (s.icache ip).locked = false
  | .dirlookup name => ∀ i, M (key name) = some i → CanGet s (s.icache dp).dev i
  | .clear name => ∀ i, M (key name) = some i → CanGet s (s.icache dp).dev i

/-- A call that has returned `r`. -/
structure DirStep (L : Layout) (dp : Ip) (M : List Byte → Option ℕ) (op : DirOp) (s : FsState)
    (r : DirResult) (s' : FsState) : Prop where
  returns : op.Returns ((s.icache dp).din.content s.disk) M r
  dir : IsDir L dp s' (op.apply M)
  only : OnlyFile L (s.icache dp).inum s.disk s'.disk
  quiet : op.apply M = M → s'.disk = s.disk ∧ (s'.icache dp).din = (s.icache dp).din
  refused : r = .linked false → Recycled s s'

section

variable {L : Layout} {dp ip : Ip} {s s' : FsState} {M : List Byte → Option ℕ} {E : Panic → Prop}
variable {name a b : List Byte} {dev i off j : ℕ} {src : ℕ → Byte}

theorem Elsewhere.content (h : Elsewhere L dp s s') (hf : IsFile L dp s a) :
    (s'.icache dp).din.content s'.disk = (s.icache dp).din.content s.disk := by
  have hdin : (s'.icache dp).din = (s.icache dp).din := by rw [h.entry]
  have htype : (L.inode s.disk (s.icache dp).inum).type ≠ 0 := hf.din ▸ hf.held.allocated
  rw [hdin]
  apply List.map_congr_left
  intro t ht
  rw [Nat.zero_add]
  have hblock := hf.solid t (List.mem_range.mp ht)
  rw [hf.din] at hblock ⊢
  have hbyte := h.same.byte htype hblock
  rwa [h.same.inode] at hbyte

theorem IsDir.elsewhere (h : IsDir L dp s M) (he : Elsewhere L dp s s') : IsDir L dp s' M := by
  have hf := h.file
  have hcontent := he.content hf
  have hdin : (s'.icache dp).din = (s.icache dp).din := by rw [he.entry]
  have hinum : (s'.icache dp).inum = (s.icache dp).inum := by rw [he.entry]
  have htype : (L.inode s.disk (s.icache dp).inum).type ≠ 0 := hf.din ▸ hf.held.allocated
  refine ⟨⟨he.owned, ?_, ?_, ?_, ?_, he.op, rfl⟩, ?_, he.ref, ?_, he.unlocked, ?_, ?_, ?_⟩
  · rw [hinum]
    exact hf.lt
  · rw [hdin, hinum, he.same.inode]
    exact hf.din
  · rw [hdin]
    exact hf.type
  · have hsolid := he.same.solid htype (hf.din ▸ hf.solid)
    rwa [he.same.inode, ← hf.din, ← hdin] at hsolid
  · rw [hdin]
    exact h.type
  · rw [he.entry]
    exact h.locked
  · rw [hdin]
    exact h.whole
  · rw [hcontent]
    exact h.distinct
  · rw [hcontent]
    exact h.map

/-- Another reference or another entry does not touch a directory. -/
theorem IsDir.elsewhere_mapIp (h : IsDir L dp s M) {f : Inode → Inode}
    (hdp : ip = dp → f (s.icache dp) = { s.icache dp with ref := (f (s.icache dp)).ref } ∧
      0 < (f (s.icache dp)).ref)
    (hlocked : (f (s.icache ip)).ref = 0 → (f (s.icache ip)).locked = false) :
    Elsewhere L dp s (s.mapIp ip f) := by
  refine ⟨h.file.owned, .refl, h.file.op, ?_, ?_, ?_⟩
  · by_cases hip : ip = dp
    · subst hip
      rw [mapIp_self]
      exact (hdp rfl).1
    · rw [mapIp_of_ne (Ne.symm hip)]
  · by_cases hip : ip = dp
    · subst hip
      rw [mapIp_self]
      exact (hdp rfl).2
    · rw [mapIp_of_ne (Ne.symm hip)]
      exact h.ref
  · intro jp
    by_cases hjp : jp = ip
    · rw [hjp, mapIp_self]
      exact hlocked
    · rw [mapIp_of_ne hjp]
      exact h.unlocked jp

theorem Got.elsewhere (h : IsDir L dp s M) (hg : Got s dev i ip s') : Elsewhere L dp s s' := by
  rcases hg with ⟨⟨href, -, -⟩, rfl⟩ | ⟨⟨href, -⟩, rfl⟩
  · apply h.elsewhere_mapIp
    · rintro rfl
      exact ⟨rfl, Int.lt_add_one_of_le href.le⟩
    · intro hzero
      have : (s.icache ip).ref + 1 = 0 := hzero
      omega
  · apply h.elsewhere_mapIp
    · rintro rfl
      exact absurd href h.ref.ne'
    · intro hzero
      cases hzero

theorem Recycled.elsewhere (h : IsDir L dp s M) (hr : Recycled s s') : Elsewhere L dp s s' := by
  rcases hr with rfl | ⟨jp, dev, inum, href, rfl⟩
  · exact ⟨h.file.owned, .refl, h.file.op, rfl, h.ref, h.unlocked⟩
  · apply h.elsewhere_mapIp
    · rintro rfl
      exact absurd href h.ref.ne'
    · intro _
      exact h.unlocked jp href

theorem Got.inum (hg : Got s dev i ip s') : (s'.icache ip).inum = i := by
  rcases hg with ⟨⟨-, -, hi⟩, rfl⟩ | ⟨-, rfl⟩
  · rw [mapIp_self]
    exact hi
  · rw [mapIp_self]

theorem Got.disk (hg : Got s dev i ip s') : s'.disk = s.disk := by
  rcases hg with ⟨-, rfl⟩ | ⟨-, rfl⟩ <;> rfl

theorem iget_got {Q : Ip → FsState → Prop} (hfull : ¬CanGet s dev i → E .igetNoInodes)
    (hQ : ∀ ip s', Got s dev i ip s' → Q ip s') : Ends E (iget dev i) s Q := by
  apply iget_rule
  · intro hno hall
    apply hfull
    rintro ⟨ip, hzero | ⟨href, hdev, hi⟩⟩
    · exact hall ip hzero
    · exact hno ip href hdev hi
  · intro ip href hdev hi
    exact hQ ip _ (.inl ⟨⟨href, hdev, hi⟩, rfl⟩)
  · intro hno ip href
    exact hQ ip _ (.inr ⟨⟨href, hno⟩, rfl⟩)

/-! ## Reading the entries -/

theorem IsDir.directory (h : IsDir L dp s M) : (s.icache dp).din.Directory s.disk :=
  ⟨h.type, h.file.solid, h.whole, h.distinct⟩

section

variable {d : Image} {x : Dinode}

theorem Dinode.Directory.mem_offsets (h : x.Directory d) :
    off ∈ offsets x.size ↔ ∃ j < x.size.toNat / DIRENT, off = DIRENT * j := by
  obtain ⟨m, hm⟩ := h.whole
  have hround : (x.size.toNat + (DIRENT - 1)) / DIRENT = x.size.toNat / DIRENT := by
    rw [hm]
    show (16 * m + 15) / 16 = 16 * m / 16
    omega
  rw [offsets, hround, List.mem_map]
  simp only [List.mem_range, eq_comm]

theorem Dinode.Directory.fit (h : x.Directory d) (hj : j < x.size.toNat / DIRENT) :
    DIRENT * j + DIRENT ≤ x.size.toNat := by
  obtain ⟨m, hm⟩ := h.whole
  rw [hm] at hj ⊢
  have hj' : j < 16 * m / 16 := hj
  show 16 * j + 16 ≤ 16 * m
  omega

theorem Dinode.Directory.lookupFaults (h : x.Directory d) : LookupFaults E x := by
  refine ⟨fun hno => absurd h.type hno, ?_⟩
  intro off hoff hshort
  obtain ⟨j, hj, rfl⟩ := h.mem_offsets.mp hoff
  exact absurd (h.fit hj) hshort

theorem entry_eq (hfit : off + DIRENT ≤ x.size.toNat) :
    x.entry d off = direntAt (x.content d) off := by
  rw [direntAt, take_drop_content, Nat.min_eq_left (by omega)]
  rfl

theorem bindings_eq_none : bindings (x.content d) name = none ↔
    ∀ j < x.size.toNat / DIRENT, ∀ i, dirSlot (x.content d) j ≠ some (name, i) := by
  rw [bindings, slotLookup_eq_none, length_content]

theorem Dinode.Directory.bindings_eq_some (h : x.Directory d) :
    bindings (x.content d) name = some i ↔
      ∃ j < x.size.toNat / DIRENT, dirSlot (x.content d) j = some (name, i) := by
  rw [bindings, slotLookup_eq_some h.distinct, length_content]

/-- The offset and the slot of an entry that matches. -/
theorem Dinode.Directory.slot_of_matches (h : x.Directory d) (hoff : off ∈ offsets x.size)
    (hmatch : (x.entry d off).Matches name) :
    ∃ j < x.size.toNat / DIRENT, off = DIRENT * j ∧
      dirSlot (x.content d) j = some (key name, (x.entry d off).inum.toNat) := by
  obtain ⟨j, hj, rfl⟩ := h.mem_offsets.mp hoff
  refine ⟨j, hj, rfl, ?_⟩
  rw [matches_iff] at hmatch
  rw [dirSlot, ← entry_eq (h.fit hj)]
  exact hmatch

theorem Dinode.Directory.none_of_no_match (h : x.Directory d)
    (hno : ∀ off ∈ offsets x.size, off + DIRENT ≤ x.size.toNat ∧ ¬(x.entry d off).Matches name) :
    bindings (x.content d) (key name) = none := by
  rw [bindings_eq_none]
  intro j hj i hslot
  have hoff := h.mem_offsets.mpr ⟨j, hj, rfl⟩
  apply (hno _ hoff).2
  rw [dirSlot, ← entry_eq (h.fit hj)] at hslot
  rw [matches_iff, hslot, (binding_eq_some.mp hslot).2.2]

end

theorem Dinode.Directory.dirlookup_ends (h : (s.icache dp).din.Directory s.disk)
    {Q : Option (Ip × ℕ) → FsState → Prop}
    (hfull : ∀ i, bindings ((s.icache dp).din.content s.disk) (key name) = some i →
      ¬CanGet s (s.icache dp).dev i → E .igetNoInodes)
    (hnone : bindings ((s.icache dp).din.content s.disk) (key name) = none → Q none s)
    (hsome : ∀ i j, bindings ((s.icache dp).din.content s.disk) (key name) = some i →
      j < (s.icache dp).din.size.toNat / DIRENT →
      dirSlot ((s.icache dp).din.content s.disk) j = some (key name, i) →
      ∀ ip s', Got s (s.icache dp).dev i ip s' → Q (some (ip, DIRENT * j)) s') :
    Ends E (Fs.dirlookup L dp name) s Q := by
  apply dirlookup_rule h.lookupFaults fun _ => h.solid
  · intro _ hno
    exact hnone (h.none_of_no_match hno)
  · intro _ off hoff _ hmatch
    obtain ⟨j, hj, rfl, hslot⟩ := h.slot_of_matches hoff hmatch
    have hbound := h.bindings_eq_some.mpr ⟨j, hj, hslot⟩
    apply iget_got
    · exact hfull _ hbound
    · exact hsome _ j hbound hj hslot

/-! ## Writing an entry -/

theorem IsDir.size_le (h : IsDir L dp s M) : (s.icache dp).din.size.toNat ≤ MAXFILE * BSIZE := by
  by_contra hlt
  have hblock := h.file.solid (MAXFILE * BSIZE) (Nat.lt_of_not_le hlt)
  exact hblock (block_of_maxfile_le (by decide))

theorem IsDir.writei_ends (h : IsDir L dp s M) {Q : Option ℕ → FsState → Prop}
    (hoff : off ≤ (s.icache dp).din.size.toNat)
    (hE : ¬Fits L s.disk (s.icache dp).din off → E .ballocOutOfBlocks)
    (hnone : ¬Fits L s.disk (s.icache dp).din off → Q none s)
    (hsome : ∀ s', IsFile L dp s' (overwrite ((s.icache dp).din.content s.disk) off DIRENT src) →
      OnlyThis L dp s s' → (s'.icache dp).din.type = T_DIR → Q (some DIRENT) s') :
    Ends E (Fs.writei L dp src (BitVec.ofNat 32 off) (BitVec.ofNat 32 DIRENT)) s Q := by
  have hsize := h.size_le
  have htoNat : (BitVec.ofNat 32 off).toNat = off := by
    rw [BitVec.toNat_ofNat, Nat.mod_eq_of_lt (hoff.trans_lt (BitVec.isLt _))]
  by_cases hrefused : FileOp.Refused ((s.icache dp).din.content s.disk).length
      (.writei (BitVec.ofNat 32 off) (BitVec.ofNat 32 DIRENT) src)
  · apply Ends.of_ok (h.file.writei_refused hrefused)
    apply hnone
    rw [FileOp.Refused, htoNat, length_content] at hrefused
    change _ < _ ∨ 2 ^ 32 ≤ off + 16 ∨ 71680 < off + 16 at hrefused
    change _ ≤ 71680 at hsize
    change ¬(off + 16 ≤ _ ∨ off + 16 ≤ 71680 ∧ _)
    omega
  · have hdone := h.file.writei_ends hrefused (T := places off DIRENT) (by rw [htoNat]; rfl)
    rw [htoNat] at hdone
    apply (hdone.weaken _).mono
    · intro r s' hstep
      obtain ⟨rfl, hfile, honly, htype, -⟩ := hstep
      exact hsome s' hfile honly (htype.trans h.type)
    · rintro e ⟨rfl, hless⟩
      apply hE
      rintro (hfit | ⟨-, hfree⟩)
      · rw [h.file.solid.missing_eq_zero hfit] at hless
        exact absurd hless (Nat.not_lt_zero _)
      · exact absurd hless (Nat.not_lt.mpr hfree)

/-- A directory file whose bytes have become another array of whole entries. -/
theorem IsDir.rewritten (h : IsDir L dp s M) (hfile : IsFile L dp s' b)
    (honly : OnlyThis L dp s s') (htype : (s'.icache dp).din.type = T_DIR)
    (hwhole : DIRENT ∣ b.length) (hdistinct : DistinctKeys (b.length / DIRENT) (dirSlot b)) :
    IsDir L dp s' (bindings b) := by
  have hcontent := hfile.content
  refine ⟨hcontent.symm ▸ hfile, htype, ?_, ?_, ?_, ?_, ?_, ?_⟩
  · rw [honly.entry]
    exact h.ref
  · rw [honly.entry]
    exact h.locked
  · intro jp
    by_cases hjp : jp = dp
    · rw [hjp, honly.entry]
      exact h.unlocked dp
    · rw [honly.entries jp hjp]
      exact h.unlocked jp
  · rw [← hfile.length]
    exact hwhole
  · rw [hcontent]
    exact hdistinct
  · rw [hcontent]

theorem IsDir.linked (h : IsDir L dp s M) (hnew : M (key name) = none)
    (hj : j ≤ (s.icache dp).din.size.toNat / DIRENT)
    (hfree : j < (s.icache dp).din.size.toNat / DIRENT →
      dirSlot ((s.icache dp).din.content s.disk) j = none) (hpos : 0 < i) (hlt : i < 65536)
    (hfile : IsFile L dp s' (overwrite ((s.icache dp).din.content s.disk) (DIRENT * j) DIRENT
      (direntBytes name i))) (honly : OnlyThis L dp s s')
    (htype : (s'.icache dp).din.type = T_DIR) :
    IsDir L dp s' (update M (key name) (some i)) := by
  have hlength := length_content (d := s.disk) (x := (s.icache dp).din)
  have hwhole := h.whole
  rw [← hlength] at hj hfree hwhole
  have hoff := (Nat.mul_le_mul_left DIRENT hj).trans (Nat.mul_div_le ..)
  have hfills := fillsSlot_overwrite name hwhole hj hfree hpos hlt
  rw [← h.map] at hnew
  have hdir := h.rewritten hfile honly htype (dvd_length_overwrite hwhole hoff)
    (hfills.distinct h.distinct hnew)
  rwa [bindings, hfills.lookup h.distinct hnew, ← bindings, h.map] at hdir

theorem IsDir.cleared (h : IsDir L dp s M) (hj : j < (s.icache dp).din.size.toNat / DIRENT)
    (hslot : dirSlot ((s.icache dp).din.content s.disk) j = some (name, i))
    (hfile : IsFile L dp s' (overwrite ((s.icache dp).din.content s.disk) (DIRENT * j) DIRENT
      fun _ => 0)) (honly : OnlyThis L dp s s') (htype : (s'.icache dp).din.type = T_DIR) :
    IsDir L dp s' (update M name none) := by
  have hfit := h.directory.fit hj
  have hlength := length_content (d := s.disk) (x := (s.icache dp).din)
  have hwhole := h.whole
  rw [← hlength] at hj hfit hwhole
  have hempties := emptiesSlot_overwrite hj hslot
  have hsame : (overwrite ((s.icache dp).din.content s.disk) (DIRENT * j) DIRENT
      fun _ => 0).length = ((s.icache dp).din.content s.disk).length := by
    rw [length_overwrite (by omega), Nat.max_eq_left hfit]
  have hdir := h.rewritten hfile honly htype (by rw [hsame]; exact hwhole)
    (by rw [hsame]; exact hempties.distinct h.distinct)
  rwa [bindings, hsame, hempties.lookup h.distinct, ← bindings, h.map] at hdir

/-- Where `dirlink` puts a new entry, as a slot. -/
theorem IsDir.slotAt (h : IsDir L dp s M) (hslot : (s.icache dp).din.SlotAt s.disk off)
    (hdvd : DIRENT ∣ off) : ∃ j ≤ (s.icache dp).din.size.toNat / DIRENT, off = DIRENT * j ∧
      (j < (s.icache dp).din.size.toNat / DIRENT →
        dirSlot ((s.icache dp).din.content s.disk) j = none) := by
  have hle := hslot.le
  obtain ⟨j, rfl⟩ := hdvd
  rw [Nat.mul_comm] at hle
  refine ⟨j, (Nat.le_div_iff_mul_le (by decide)).mpr hle, rfl, ?_⟩
  intro hj
  have hfit := h.directory.fit hj
  rw [dirSlot, ← entry_eq hfit, binding_eq_none]
  rcases hslot with ⟨-, hzero⟩ | ⟨hlast, hall⟩
  · exact hzero
  · -- all entries before the end are in use
    exfalso
    have hmem := h.directory.mem_offsets.mpr ⟨j, hj, rfl⟩
    have hlt : j < (offsets (s.icache dp).din.size).length := by
      rw [hlast] at hmem
      obtain ⟨k, hk, hjk⟩ := List.mem_map.mp hmem
      have hk' := List.mem_range.mp hk
      have hsame : DIRENT * j = DIRENT * k := hlast.trans hjk.symm
      rw [Nat.eq_of_mul_eq_mul_left (by decide) hsame]
      simpa [offsets] using hk'
    exact absurd (Nat.eq_of_mul_eq_mul_left (by decide) hlast) hlt.ne

theorem IsDir.fits (h : IsDir L dp s M) (hslot : (s.icache dp).din.SlotAt s.disk off)
    (hroom : HasRoom L s.disk (s.icache dp).din) : Fits L s.disk (s.icache dp).din off := by
  rcases hslot with ⟨hfit, -⟩ | ⟨hlast, hall⟩
  · exact .inl hfit
  · obtain ⟨m, hm⟩ := h.whole
    have hend : off = (s.icache dp).din.size.toNat := by
      rw [hlast, offsets, List.length_map, List.length_range, hm]
      show 16 * ((16 * m + 15) / 16) = 16 * m
      omega
    rw [hend]
    apply hroom
    intro j hj hnone
    rw [dirSlot, ← entry_eq (h.directory.fit hj), binding_eq_none] at hnone
    exact (hall _ (h.directory.mem_offsets.mpr ⟨j, hj, rfl⟩)).2 hnone

/-! ## One call -/

theorem IsDir.step_dirlink (h : IsDir L dp s M) {inum : ℕ} (hpos : 0 < inum) (hlt : inum < 65536) :
    Ends (fun _ => ¬(DirOp.dirlink name inum).Passes L dp s M)
      ((DirOp.dirlink name inum).run L dp) s (DirStep L dp M (.dirlink name inum) s) := by
  apply Ends.seq
  apply dirlink_rule h.directory.lookupFaults _ fun _ => h.file.solid
  · intro _ off hoff _ hmatch
    obtain ⟨j, hj, -, hslot⟩ := h.directory.slot_of_matches hoff hmatch
    have hbound := h.directory.bindings_eq_some.mpr ⟨j, hj, hslot⟩
    rw [h.map] at hbound
    apply iget_iput_rule
    · intro hno hall hpasses
      obtain ⟨ip, hzero | ⟨href, hdev, hi⟩⟩ := (hpasses.2 _ hbound).1
      · exact hall ip hzero
      · exact hno ip href hdev hi
    · intro ip hlocked hentry hpasses
      rcases hentry with hzero | ⟨href, hdev, hi⟩
      · rw [h.unlocked ip hzero] at hlocked
        cases hlocked
      · rw [(hpasses.2 _ hbound).2 ip href hdev hi] at hlocked
        cases hlocked
    · intro s' hrecycled
      have helse := hrecycled.elsewhere h
      have happly : (DirOp.dirlink name inum).apply M = M := by
        rw [DirOp.apply, hbound, if_neg (by simp)]
      apply Ends.pure
      refine ⟨?_, ?_, ?_, ?_, fun _ => hrecycled⟩
      · rw [DirOp.Returns, hbound]
        rfl
      · rw [happly]
        exact h.elsewhere helse
      · rw [hrecycled.disk]
        exact .refl
      · intro _
        exact ⟨hrecycled.disk, by rw [helse.entry]⟩
  · intro _ hno off hslot hdvd
    have hnew := h.directory.none_of_no_match hno
    rw [h.map] at hnew
    apply h.writei_ends hslot.le
    · intro hfull hpasses
      exact hfull (h.fits hslot (hpasses.1 hnew))
    · intro hfull
      refine ⟨fun hr => ?_, fun _ hpasses => hfull (h.fits hslot (hpasses.1 hnew))⟩
      cases hr
    · intro s' hfile honly htype
      refine ⟨fun _ => ?_, fun hr => absurd rfl hr⟩
      obtain ⟨j, hj, rfl, hfree⟩ := h.slotAt hslot hdvd
      have happly : (DirOp.dirlink name inum).apply M =
          update M (key name) (some inum) := by
        rw [DirOp.apply, if_pos hnew]
      apply Ends.pure
      refine ⟨?_, ?_, honly.disk, ?_, ?_⟩
      · rw [DirOp.Returns, hnew]
        rfl
      · rw [happly]
        exact h.linked hnew hj hfree hpos hlt hfile honly htype
      · intro hsame
        rw [happly] at hsame
        have hat := congrFun hsame (key name)
        rw [update_self, hnew] at hat
        cases hat
      · intro hr
        cases hr
  · intro off hoff hshort
    obtain ⟨j, hj, rfl⟩ := h.directory.mem_offsets.mp hoff
    exact absurd (h.directory.fit hj) hshort

theorem IsDir.step_dirlookup (h : IsDir L dp s M) :
    Ends (fun _ => ¬(DirOp.dirlookup name).Passes L dp s M) ((DirOp.dirlookup name).run L dp) s
      (DirStep L dp M (.dirlookup name) s) := by
  have hquiet : ∀ r s', (DirOp.dirlookup name).Returns ((s.icache dp).din.content s.disk) M r →
      Elsewhere L dp s s' → s'.disk = s.disk → r ≠ .linked false →
      DirStep L dp M (.dirlookup name) s r s' := by
    intro r s' hreturns helse hdisk hr
    refine ⟨hreturns, h.elsewhere helse, ?_, fun _ => ⟨hdisk, by rw [helse.entry]⟩,
      fun hlinked => absurd hlinked hr⟩
    rw [hdisk]
    exact .refl
  apply Ends.seq
  apply h.directory.dirlookup_ends
  · intro i hbound hfull hpasses
    exact hfull (hpasses i (h.map ▸ hbound))
  · intro hnone
    apply Ends.pure
    rw [h.map] at hnone
    exact hquiet _ s (.inl ⟨hnone, rfl⟩) (Recycled.elsewhere h (.inl rfl)) rfl (by simp)
  · intro i j hbound hj hslot ip s' hgot
    apply Ends.read_bind
    apply Ends.pure
    rw [hgot.inum]
    rw [← length_content] at hj
    rw [h.map] at hbound
    exact hquiet _ s' (.inr ⟨i, j, hbound, hj, hslot, rfl⟩) (hgot.elsewhere h) hgot.disk (by simp)

theorem IsDir.step_clear (h : IsDir L dp s M) :
    Ends (fun _ => ¬(DirOp.clear name).Passes L dp s M) ((DirOp.clear name).run L dp) s
      (DirStep L dp M (.clear name) s) := by
  apply Ends.seq
  apply h.directory.dirlookup_ends
  · intro i hbound hfull hpasses
    exact hfull (hpasses i (h.map ▸ hbound))
  · intro hnone
    rw [h.map] at hnone
    have happly : (DirOp.clear name).apply M = M := by
      rw [DirOp.apply, ← hnone, update_eq_self]
    apply Ends.pure
    refine ⟨?_, happly.symm ▸ h, .refl, fun _ => ⟨rfl, rfl⟩, ?_⟩
    · rw [DirOp.Returns, hnone]
      rfl
    · intro hr
      cases hr
  · intro i j hbound hj hslot ip s₁ hgot
    -- the entry is cleared in the state that `iget` left
    have helse := hgot.elsewhere h
    have h₁ := h.elsewhere helse
    have hcontent := helse.content h.file
    have hdin : (s₁.icache dp).din = (s.icache dp).din := by rw [helse.entry]
    have hinum : (s₁.icache dp).inum = (s.icache dp).inum := by rw [helse.entry]
    rw [← hcontent] at hslot
    rw [← hdin] at hj
    rw [h.map] at hbound
    have hfit := h₁.directory.fit hj
    apply Ends.seq
    apply h₁.writei_ends ((Nat.le_add_right ..).trans hfit)
    · intro hno
      exact absurd (.inl hfit) hno
    · intro hno
      exact absurd (.inl hfit) hno
    · intro s' hfile honly htype
      rw [if_pos rfl]
      apply Ends.pure
      refine ⟨?_, h₁.cleared hj hslot hfile honly htype, ?_, ?_, ?_⟩
      · rw [DirOp.Returns, hbound]
        rfl
      · rw [← hinum, ← hgot.disk]
        exact honly.disk
      · intro hsame
        have hat := congrFun hsame (key name)
        rw [DirOp.apply, update_self, hbound] at hat
        cases hat
      · intro hr
        cases hr

theorem IsDir.step (h : IsDir L dp s M) {op : DirOp} (hop : op.InRange) :
    Ends (fun _ => ¬op.Passes L dp s M) (op.run L dp) s (DirStep L dp M op s) := by
  cases op with
  | dirlink name inum => exact h.step_dirlink hop.1 hop.2
  | dirlookup name => exact h.step_dirlookup
  | clear name => exact h.step_clear

/-! ## Any sequence of calls -/

/-- A call that returns, or a step of others. -/
inductive DirMove (L : Layout) (dp : Ip) :
    FsState × (List Byte → Option ℕ) → FsState × (List Byte → Option ℕ) → Prop
  | call {s s' : FsState} {M : List Byte → Option ℕ} {op : DirOp} {r : DirResult} (hop : op.InRange)
      (hrun : op.run L dp s = .ok (r, s')) : DirMove L dp (s, M) (s', op.apply M)
  | elsewhere {s s' : FsState} {M : List Byte → Option ℕ} (h : Elsewhere L dp s s') :
      DirMove L dp (s, M) (s', M)

theorem IsDir.move {x y : FsState × (List Byte → Option ℕ)} (h : IsDir L dp x.1 x.2)
    (hmove : DirMove L dp x y) : IsDir L dp y.1 y.2 := by
  cases hmove with
  | call hop hrun => exact ((h.step hop).ok hrun).dir
  | elsewhere helse => exact h.elsewhere helse

/-- A directory with at most one entry that a caller of `fs.c` has locked in an operation. -/
theorem Sound.isDir (h : Sound L s) (hlocked : (s.icache dp).locked = true)
    (htype : (s.icache dp).din.type = T_DIR) (hop : 1 ≤ s.outstanding)
    (hsize : (s.icache dp).din.size.toNat = 0 ∨ (s.icache dp).din.size.toNat = DIRENT) :
    IsDir L dp s (bindings ((s.icache dp).din.content s.disk)) := by
  refine ⟨h.isFile hlocked (.inr htype) hop, htype, (h.locked hlocked).1, hlocked, ?_, ?_, ?_, rfl⟩
  · intro jp hzero
    by_contra hjp
    exact (h.locked (Bool.eq_true_of_not_eq_false hjp)).1.ne' hzero
  · rcases hsize with hzero | hone
    · exact hzero ▸ Nat.dvd_zero DIRENT
    · exact hone ▸ Nat.dvd_refl DIRENT
  · rw [length_content]
    intro i hi j hj
    have hcount : (s.icache dp).din.size.toNat / 16 ≤ 1 := by
      rcases hsize with hzero | hone
      · rw [hzero]
        decide
      · rw [hone]
        decide
    change i < _ / 16 at hi
    change j < _ / 16 at hj
    omega

end

end Xv6Threads.Fs
