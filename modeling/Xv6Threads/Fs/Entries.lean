/-
# Rules for directories

`dirlookup` and `dirlink` on a directory without holes. Reading it changes nothing, so a
lookup ends in `iget` for an entry that matches, or in no change at all. `dirlink` writes
one entry if the name is not there yet, and otherwise only recycles a cache entry that
nobody used.
-/

import Xv6Threads.Fs.Directory
import Xv6Threads.Fs.Files

namespace Xv6Threads.Fs

open Lib Command

variable {size : BitVec 32} {off inum : ℕ}

/-- The entry at offset `off`. -/
def Dinode.entry (d : Image) (x : Dinode) (off : ℕ) : Dirent :=
  Dirent.ofBytes (x.bytes d off DIRENT)

/-- An entry in use with this name. -/
def Dirent.Matches (de : Dirent) (name : List Byte) : Prop :=
  de.inum ≠ 0 ∧ namecmp name de.name = true

section

variable {L : Layout} {s : FsState} {dp : Ip} {E : Panic → Prop} {name : List Byte}
variable {Q : Option (Ip × ℕ) → FsState → Prop}

theorem lt_of_mem_offsets (h : off ∈ offsets size) : off < size.toNat := by
  obtain ⟨k, hk, rfl⟩ := List.mem_map.mp h
  have hk' : k < (size.toNat + 15) / 16 := List.mem_range.mp hk
  show 16 * k < size.toNat
  omega

theorem dvd_of_mem_offsets (h : off ∈ offsets size) : DIRENT ∣ off := by
  obtain ⟨k, -, rfl⟩ := List.mem_map.mp h
  exact Nat.dvd_mul_right ..

theorem readDirent_ends {p : Panic} {Q : Dirent → FsState → Prop}
    (hshort : ¬off + DIRENT ≤ (s.icache dp).din.size.toNat → E p)
    (htype : (s.icache dp).din.type ≠ T_DEV) (hsolid : (s.icache dp).din.Solid s.disk)
    (hoff : off < (s.icache dp).din.size.toNat)
    (hQ : off + DIRENT ≤ (s.icache dp).din.size.toNat →
      Q ((s.icache dp).din.entry s.disk off) s) : Ends E (readDirent L p dp off) s Q := by
  have hread := readi_eq (L := L) (BitVec.ofNat 32 off) (BitVec.ofNat 32 DIRENT) htype hsolid
  have hlt : off < 2 ^ 32 := hoff.trans (BitVec.isLt _)
  have htoNat : (BitVec.ofNat 32 off).toNat = off := by
    rw [BitVec.toNat_ofNat, Nat.mod_eq_of_lt hlt]
  have hcount : (BitVec.ofNat 32 DIRENT).toNat = DIRENT := rfl
  rw [htoNat, hcount] at hread
  unfold Ends
  rw [readDirent, bind_ok hread]
  by_cases hrange : (s.icache dp).din.size < BitVec.ofNat 32 off ∨
      BitVec.ofNat 32 off + BitVec.ofNat 32 DIRENT < BitVec.ofNat 32 off
  · rw [if_pos hrange]
    apply hshort
    rw [BitVec.lt_def, BitVec.lt_def, BitVec.toNat_add, htoNat, hcount] at hrange
    have hsize := (s.icache dp).din.size.isLt
    omega
  · rw [if_neg hrange]
    by_cases hfit : off + DIRENT ≤ (s.icache dp).din.size.toNat
    · have hmin : min DIRENT ((s.icache dp).din.size.toNat - off) = DIRENT := by omega
      rw [hmin]
      simp only [length_bytes]
      exact hQ hfit
    · have hmin : min DIRENT ((s.icache dp).din.size.toNat - off) ≠ DIRENT := by omega
      simp only [length_bytes, if_neg hmin]
      exact hshort hfit

theorem lookupLoop_rule (offs : List ℕ)
    (hshort : ∀ off ∈ offs, ¬off + DIRENT ≤ (s.icache dp).din.size.toNat → E .dirlookupRead)
    (htype : (s.icache dp).din.type ≠ T_DEV) (hsolid : (s.icache dp).din.Solid s.disk)
    (hoffs : ∀ off ∈ offs, off < (s.icache dp).din.size.toNat)
    (hnone : (∀ off ∈ offs, off + DIRENT ≤ (s.icache dp).din.size.toNat ∧
      ¬((s.icache dp).din.entry s.disk off).Matches name) → Q none s)
    (hsome : ∀ off ∈ offs, off + DIRENT ≤ (s.icache dp).din.size.toNat →
      ((s.icache dp).din.entry s.disk off).Matches name →
      Ends E (iget (s.icache dp).dev ((s.icache dp).din.entry s.disk off).inum.toNat) s
        fun ip s' => Q (some (ip, off)) s') : Ends E (lookupLoop L dp name offs) s Q := by
  apply Ends.scan (lookupLoop L dp name) fun hall => Ends.pure (hnone hall)
  intro off rest hoff hrest
  apply Ends.seq
  apply readDirent_ends (hshort off hoff) htype hsolid (hoffs off hoff)
  intro hfit
  by_cases hz : ((s.icache dp).din.entry s.disk off).inum = 0
  · rw [if_pos hz]
    exact hrest ⟨hfit, fun h => h.1 hz⟩
  · rw [if_neg hz]
    by_cases hname : namecmp name ((s.icache dp).din.entry s.disk off).name = true
    · rw [if_pos hname]
      apply Ends.read_bind
      apply Ends.seq
      apply (hsome off hoff hfit ⟨hz, hname⟩).mono
      intro ip s' hQ
      exact Ends.pure hQ
    · rw [if_neg hname]
      exact hrest ⟨hfit, fun h => hname h.2⟩

/-- The faults of a lookup: not a directory, or an entry cut off by its end. -/
structure LookupFaults (E : Panic → Prop) (x : Dinode) : Prop where
  notDir : x.type ≠ T_DIR → E .dirlookupNotDir
  short : ∀ off ∈ offsets x.size, ¬off + DIRENT ≤ x.size.toNat → E .dirlookupRead

theorem Tolerant.lookupFaults (hE : Tolerant E) (x : Dinode) : LookupFaults E x :=
  ⟨fun _ => hE.allows, fun _ _ _ => hE.allows⟩

theorem dirlookup_rule (hE : LookupFaults E (s.icache dp).din)
    (hsolid : (s.icache dp).din.type = T_DIR → (s.icache dp).din.Solid s.disk)
    (hnone : (s.icache dp).din.type = T_DIR →
      (∀ off ∈ offsets (s.icache dp).din.size, off + DIRENT ≤ (s.icache dp).din.size.toNat ∧
      ¬((s.icache dp).din.entry s.disk off).Matches name) → Q none s)
    (hsome : (s.icache dp).din.type = T_DIR → ∀ off ∈ offsets (s.icache dp).din.size,
      off + DIRENT ≤ (s.icache dp).din.size.toNat →
      ((s.icache dp).din.entry s.disk off).Matches name →
      Ends E (iget (s.icache dp).dev ((s.icache dp).din.entry s.disk off).inum.toNat) s
        fun ip s' => Q (some (ip, off)) s') : Ends E (dirlookup L dp name) s Q := by
  apply Ends.read_bind
  by_cases htype : (s.icache dp).din.type = T_DIR
  · rw [if_neg (not_not.mpr htype)]
    apply lookupLoop_rule _ hE.short (by rw [htype]; decide) (hsolid htype)
      (fun off h => lt_of_mem_offsets h) (hnone htype) (hsome htype)
  · rw [if_pos htype]
    exact Ends.fail (hE.notDir htype)

theorem emptyLoop_rule (last : ℕ) (offs : List ℕ) {Q : ℕ → FsState → Prop}
    (hshort : ∀ off ∈ offs, ¬off + DIRENT ≤ (s.icache dp).din.size.toNat → E .dirlinkRead)
    (htype : (s.icache dp).din.type ≠ T_DEV) (hsolid : (s.icache dp).din.Solid s.disk)
    (hoffs : ∀ off ∈ offs, off < (s.icache dp).din.size.toNat)
    (hlast : (∀ off ∈ offs, off + DIRENT ≤ (s.icache dp).din.size.toNat ∧
      ((s.icache dp).din.entry s.disk off).inum ≠ 0) → Q last s)
    (hslot : ∀ off ∈ offs, off + DIRENT ≤ (s.icache dp).din.size.toNat →
      ((s.icache dp).din.entry s.disk off).inum = 0 → Q off s) :
    Ends E (emptyLoop L dp last offs) s Q := by
  apply Ends.scan (emptyLoop L dp last) fun hall => Ends.pure (hlast hall)
  intro off rest hoff hrest
  apply Ends.seq
  apply readDirent_ends (hshort off hoff) htype hsolid (hoffs off hoff)
  intro hfit
  by_cases hz : ((s.icache dp).din.entry s.disk off).inum = 0
  · rw [if_pos hz]
    exact Ends.pure (hslot off hoff hfit hz)
  · rw [if_neg hz]
    exact hrest ⟨hfit, hz⟩

/-- Where `dirlink` puts a new entry: a free slot or the end of the directory. -/
def Dinode.SlotAt (d : Image) (x : Dinode) (off : ℕ) : Prop :=
  off + DIRENT ≤ x.size.toNat ∧ (x.entry d off).inum = 0 ∨
    off = DIRENT * (offsets x.size).length ∧
      ∀ off' ∈ offsets x.size, off' + DIRENT ≤ x.size.toNat ∧ (x.entry d off').inum ≠ 0

theorem mem_offsets {k : ℕ} (hk : k < (offsets size).length) : DIRENT * k ∈ offsets size := by
  apply List.mem_map_of_mem
  rw [List.mem_range]
  simpa [offsets] using hk

theorem Dinode.SlotAt.le {d : Image} {x : Dinode} (h : x.SlotAt d off) : off ≤ x.size.toNat := by
  rcases h with ⟨hfit, -⟩ | ⟨rfl, hall⟩
  · exact (Nat.le_add_right ..).trans hfit
  · cases hlen : (offsets x.size).length with
    | zero => exact Nat.zero_le _
    | succ n =>
      have hfit := (hall _ (mem_offsets (k := n) (by omega))).1
      rwa [Nat.mul_succ]

theorem dirlink_rule {Q : Bool → FsState → Prop} (hE : LookupFaults E (s.icache dp).din)
    (hshort : ∀ off ∈ offsets (s.icache dp).din.size,
      ¬off + DIRENT ≤ (s.icache dp).din.size.toNat → E .dirlinkRead)
    (hsolid : (s.icache dp).din.type = T_DIR → (s.icache dp).din.Solid s.disk)
    (hfound : (s.icache dp).din.type = T_DIR → ∀ off ∈ offsets (s.icache dp).din.size,
      off + DIRENT ≤ (s.icache dp).din.size.toNat →
      ((s.icache dp).din.entry s.disk off).Matches name →
      Ends E (iget (s.icache dp).dev ((s.icache dp).din.entry s.disk off).inum.toNat) s
        fun ip s' => Ends E (iput L ip) s' fun _ s'' => Q false s'')
    (hnew : (s.icache dp).din.type = T_DIR →
      (∀ off ∈ offsets (s.icache dp).din.size, off + DIRENT ≤ (s.icache dp).din.size.toNat ∧
        ¬((s.icache dp).din.entry s.disk off).Matches name) →
      ∀ off, (s.icache dp).din.SlotAt s.disk off → DIRENT ∣ off →
      Ends E (writei L dp (direntBytes name inum) (BitVec.ofNat 32 off) (BitVec.ofNat 32 DIRENT)) s
        fun r s' => (r = some DIRENT → Q true s') ∧ (r ≠ some DIRENT → E .dirlink)) :
    Ends E (dirlink L dp name inum) s Q := by
  apply Ends.seq
  apply dirlookup_rule hE hsolid
  · intro htype hno
    apply Ends.read_bind
    have hslot : ∀ off, (s.icache dp).din.SlotAt s.disk off → DIRENT ∣ off →
        Ends E (do
          let r ← writei L dp (direntBytes name inum) (BitVec.ofNat 32 off) (BitVec.ofNat 32 DIRENT)
          if r = some DIRENT then pure true else fail Panic.dirlink) s Q := by
      intro off hslot hdvd
      apply Ends.bind (hnew htype hno off hslot hdvd)
      intro r s' hr
      by_cases hfull : r = some DIRENT
      · rw [if_pos hfull]
        exact Ends.pure (hr.1 hfull)
      · rw [if_neg hfull]
        exact Ends.fail (hr.2 hfull)
    apply Ends.seq
    apply emptyLoop_rule _ _ hshort (by rw [htype]; decide) (hsolid htype)
      fun off h => lt_of_mem_offsets h
    · intro hall
      exact hslot _ (.inr ⟨rfl, hall⟩) (Nat.dvd_mul_right ..)
    · intro off hoff hfit hz
      exact hslot off (.inl ⟨hfit, hz⟩) (dvd_of_mem_offsets hoff)
  · intro htype off hoff hfit hmatch
    apply (hfound htype off hoff hfit hmatch).mono
    intro ip s' hiput
    apply Ends.seq
    apply hiput.mono
    intro _ s'' hQ
    exact Ends.pure hQ

/-! ## In a consistent state -/

/-- An entry that nobody used may have been recycled. -/
def Recycled (s s' : FsState) : Prop :=
  s' = s ∨ ∃ jp dev inum, (s.icache jp).ref = 0 ∧
    s' = s.mapIp jp fun x => { x with dev := dev, inum := inum, ref := 0, valid := false }

/-- `iget` and `iput` of what it returned. -/
theorem iget_iput_rule {dev : ℕ} {Q : Unit → FsState → Prop}
    (hfull : (∀ ip, 0 < (s.icache ip).ref → (s.icache ip).dev = dev →
      (s.icache ip).inum ≠ inum) → (∀ ip, (s.icache ip).ref ≠ 0) → E .igetNoInodes)
    (hstuck : ∀ ip, (s.icache ip).locked = true → ((s.icache ip).ref = 0 ∨
      0 < (s.icache ip).ref ∧ (s.icache ip).dev = dev ∧ (s.icache ip).inum = inum) → E .stuck)
    (hQ : ∀ s', Recycled s s' → Q () s') :
    Ends E (iget dev inum) s fun ip s' => Ends E (iput L ip) s' Q := by
  apply iget_rule hfull
  · intro ip href hdev hinum
    apply iput_rule
    · intro hlocked
      rw [mapIp_self] at hlocked
      exact hstuck ip hlocked (.inr ⟨href, hdev, hinum⟩)
    · intro _ _
      apply hQ
      left
      rw [mapIp_mapIp]
      simp [FsState.mapIp]
    · intro _ _ _ hone
      rw [mapIp_self] at hone
      have : (s.icache ip).ref + 1 = 1 := hone
      omega
  · intro _ ip href
    apply iput_rule
    · intro hlocked
      rw [mapIp_self] at hlocked
      exact hstuck ip hlocked (.inl href)
    · intro _ _
      apply hQ
      right
      refine ⟨ip, dev, inum, href, ?_⟩
      rw [mapIp_mapIp]
      rfl
    · intro _ hvalid
      rw [mapIp_self] at hvalid
      cases hvalid

theorem Recycled.disk {s' : FsState} (h : Recycled s s') : s'.disk = s.disk := by
  rcases h with rfl | ⟨jp, dev, inum, -, rfl⟩ <;> rfl

theorem dirlink_file (hE : Tolerant E) {Q : Bool → FsState → Prop} (hc : Consistent L s.disk)
    (hs : Synced L s) (href : 0 < (s.icache dp).ref) (hvalid : (s.icache dp).valid = true)
    (hfound : ∀ s', Recycled s s' → Q false s')
    (hnew : (s.icache dp).din.type = T_DIR →
      (∀ off ∈ offsets (s.icache dp).din.size, off + DIRENT ≤ (s.icache dp).din.size.toNat ∧
        ¬((s.icache dp).din.entry s.disk off).Matches name) →
      ∀ off d', (s.icache dp).din.SlotAt s.disk off →
      FileWritten L s.disk (s.icache dp).inum off DIRENT (direntBytes name inum) d' →
      Consistent L d' → Q true (s.put dp d' (L.inode d' (s.icache dp).inum))) :
    Ends E (dirlink L dp name inum) s Q := by
  have hlt := hs.lt href hvalid
  have hdin := hs.din href hvalid
  have hsolid : (s.icache dp).din.type = T_DIR → (s.icache dp).din.Solid s.disk := by
    intro htype
    rw [hdin] at htype ⊢
    exact hc.solid hlt (by rw [htype]; decide) (by rw [htype]; decide)
  apply dirlink_rule (hE.lookupFaults _) (fun _ _ _ => hE.allows) hsolid
  · intro _ off _ _ _
    apply iget_iput_rule (fun _ _ => hE.allows) fun _ _ _ => hE.allows
    exact hfound
  · intro htype hno off hslot _
    apply writei_ends hE _ _ _ hc hs href hvalid (by rw [htype]; decide)
    · refine ⟨fun hr => ?_, fun _ => hE.allows⟩
      cases hr
    · intro d' hw hcons _
      have hoff' : (BitVec.ofNat 32 off).toNat = off := by
        rw [BitVec.toNat_ofNat, Nat.mod_eq_of_lt (hslot.le.trans_lt (BitVec.isLt _))]
      rw [hoff'] at hw
      exact ⟨fun _ => hnew htype hno off d' hslot hw hcons, fun hr => absurd rfl hr⟩

end

end Xv6Threads.Fs
