/-
# What mkfs packs, the kernel unpacks

The two programs agree on where an inode lies, on how a file's blocks are found and on
the form of a directory entry. So for every list of files that fits, the kernel finds each
of them by its name in the root directory of the image, and reads back its bytes. The
lookup ends at the entry of the file. It does not come to the block that the root
directory may lack.
-/

import Xv6Threads.Fs.Names
import Xv6Threads.Mkfs.WellFormed

namespace Xv6Threads.Mkfs

open Lib Command
open Xv6Threads.Fs

/-! ## The entries of the root directory -/

/-- Names and inode numbers in the root directory. -/
def rootEntries (files : List Input) : List (List Byte × ℕ) :=
  (dot, ROOTINO) :: (dotdot, ROOTINO) :: files.zipIdx.map fun f => (f.1.stored, f.2 + 2)

theorem rootBytes_eq (files : List Input) :
    rootBytes files = (rootEntries files).flatMap fun e => direntList e.1 e.2 := by
  simp [rootBytes, rootEntries, List.flatMap_map]

theorem length_rootEntries (files : List Input) :
    (rootEntries files).length = files.length + 2 := by
  simp [rootEntries]

section

variable {d : Image} {x : Dinode} {files : List Input}

theorem bytes_entry {off : ℕ} (es : List (List Byte × ℕ))
    (h : x.bytes d off (DIRENT * es.length) = es.flatMap fun e => direntList e.1 e.2) {j : ℕ}
    (hj : j < es.length) :
    x.bytes d (off + DIRENT * j) DIRENT = direntList (es.get ⟨j, hj⟩).1 (es.get ⟨j, hj⟩).2 := by
  induction es generalizing off j with
  | nil => exact absurd hj (Nat.not_lt_zero j)
  | cons e es ih =>
    rw [List.length_cons, Nat.mul_succ, Nat.add_comm, bytes_add, List.flatMap_cons] at h
    obtain ⟨hfirst, hrest⟩ := List.append_inj h (by rw [length_bytes, length_direntList])
    cases j with
    | zero => exact hfirst
    | succ j =>
      have hnext := ih hrest (Nat.lt_of_succ_lt_succ hj)
      rw [Nat.mul_succ, Nat.add_comm (DIRENT * j), ← Nat.add_assoc]
      exact hnext

/-- Entry `j` of a directory that holds the root's bytes. -/
theorem entry_root (h : x.bytes d 0 (DIRENT * (files.length + 2)) = rootBytes files) {j : ℕ}
    (hj : j < (rootEntries files).length) : x.entry d (DIRENT * j) =
      Dirent.ofBytes (direntList ((rootEntries files).get ⟨j, hj⟩).1
        ((rootEntries files).get ⟨j, hj⟩).2) := by
  rw [rootBytes_eq, ← length_rootEntries] at h
  have hentry := bytes_entry _ h hj
  rw [Nat.zero_add] at hentry
  rw [Dinode.entry, hentry]

theorem get_rootEntries {k : ℕ} (hk : k < files.length) :
    (rootEntries files).get ⟨k + 2, by rw [length_rootEntries]; omega⟩ =
      ((files.get ⟨k, hk⟩).stored, k + 2) := by
  simp [rootEntries]

end

/-! ## Looking up and reading -/

section

variable {L : Layout} {s : FsState} {dp ip : Ip} {E : Panic → Prop} {name : List Byte}

theorem readDirent_rule {p : Panic} {off : ℕ} {Q : Dirent → FsState → Prop}
    (htype : (s.icache dp).din.type ≠ T_DEV)
    (hfit : off + DIRENT ≤ (s.icache dp).din.size.toNat)
    (hblocks : ∀ o, off ≤ o → o < off + DIRENT → (s.icache dp).din.block s.disk (o / BSIZE) ≠ 0)
    (hQ : Q ((s.icache dp).din.entry s.disk off) s) : Ends E (readDirent L p dp off) s Q := by
  have hlt : off + DIRENT < 2 ^ 32 := hfit.trans_lt (BitVec.isLt _)
  have htoNat : (BitVec.ofNat 32 off).toNat = off := by
    rw [BitVec.toNat_ofNat, Nat.mod_eq_of_lt (by omega)]
  have hcount : (BitVec.ofNat 32 DIRENT).toNat = DIRENT := rfl
  have hread := readi_of_blocks (L := L) (BitVec.ofNat 32 off) (BitVec.ofNat 32 DIRENT) htype
    (by rw [htoNat, hcount]; exact fun o _ => hblocks o)
  have hin : ¬((s.icache dp).din.size < BitVec.ofNat 32 off ∨
      BitVec.ofNat 32 off + BitVec.ofNat 32 DIRENT < BitVec.ofNat 32 off) := by
    simp only [BitVec.lt_def, BitVec.toNat_add, htoNat, hcount, Nat.mod_eq_of_lt hlt]
    omega
  have hmin : min DIRENT ((s.icache dp).din.size.toNat - off) = DIRENT := by omega
  rw [if_neg hin, htoNat, hcount, hmin] at hread
  unfold Ends
  rw [readDirent, bind_ok hread]
  simp only [length_bytes]
  exact hQ

/-- A lookup that passes over `before` and stops at `off`. -/
theorem lookupLoop_found (before : List ℕ) {off : ℕ} (rest : List ℕ)
    {Q : Option (Ip × ℕ) → FsState → Prop} (htype : (s.icache dp).din.type ≠ T_DEV)
    (hfit : ∀ o ∈ before ++ [off], o + DIRENT ≤ (s.icache dp).din.size.toNat)
    (hblocks : ∀ o ∈ before ++ [off], ∀ o', o ≤ o' → o' < o + DIRENT →
      (s.icache dp).din.block s.disk (o' / BSIZE) ≠ 0)
    (hbefore : ∀ o ∈ before, ¬((s.icache dp).din.entry s.disk o).Matches name)
    (hmatch : ((s.icache dp).din.entry s.disk off).Matches name)
    (hget : Ends E (Fs.iget (s.icache dp).dev ((s.icache dp).din.entry s.disk off).inum.toNat) s
      fun ip s' => Q (some (ip, off)) s') :
    Ends E (lookupLoop L dp name (before ++ off :: rest)) s Q := by
  induction before with
  | nil =>
    apply Ends.seq
    apply readDirent_rule htype (hfit off (by simp)) (hblocks off (by simp))
    rw [if_neg hmatch.1, if_pos hmatch.2]
    apply Ends.read_bind
    apply Ends.seq
    apply hget.mono
    intro ip s' hQ
    exact Ends.pure hQ
  | cons o before ih =>
    have hrest : Ends E (lookupLoop L dp name (before ++ off :: rest)) s Q := by
      apply ih
      · exact fun o' h => hfit o' (List.mem_cons_of_mem _ h)
      · exact fun o' h => hblocks o' (List.mem_cons_of_mem _ h)
      · exact fun o' h => hbefore o' (List.mem_cons_of_mem _ h)
    apply Ends.seq
    apply readDirent_rule htype (hfit o List.mem_cons_self) (hblocks o List.mem_cons_self)
    have hno := hbefore o List.mem_cons_self
    by_cases hz : ((s.icache dp).din.entry s.disk o).inum = 0
    · rw [if_pos hz]
      exact hrest
    · rw [if_neg hz, if_neg fun hname => hno ⟨hz, hname⟩]
      exact hrest

/-- The kernel runs on image `d` with the root directory locked in `dp`, and no other
inode is locked. -/
structure Ready (L : Layout) (d : Image) (dp : Ip) (s : FsState) : Prop where
  disk : s.disk = d
  synced : Synced L s
  inum : (s.icache dp).inum = ROOTINO
  ref : 0 < (s.icache dp).ref
  valid : (s.icache dp).valid = true
  unlocked : ∀ ip, ip ≠ dp → (s.icache ip).locked = false

/-- The names differ in what counts of them, also from the first two entries. -/
structure Distinct (files : List Input) : Prop where
  nodup : (files.map fun f => key f.stored).Nodup
  dot : ∀ f ∈ files, key f.stored ≠ dot
  dotdot : ∀ f ∈ files, key f.stored ≠ dotdot

variable {files : List Input} {d : Image} {k : ℕ}

theorem Ready.din (h : Ready L d dp s) : (s.icache dp).din = L.inode d ROOTINO := by
  rw [h.synced.din h.ref h.valid, h.disk, h.inum]

/-- Which of the root's entries match the name of a file. -/
theorem Distinct.entry_matches (hd : Distinct files) {x : Dinode}
    (hroot : x.bytes d 0 (DIRENT * (files.length + 2)) = rootBytes files) (hk : k < files.length)
    (hlen : files.length + 2 ≤ NINODES) {j : ℕ} (hj : j < files.length + 2) :
    (x.entry d (DIRENT * j)).Matches (files.get ⟨k, hk⟩).stored ↔ j = k + 2 := by
  have hmem : files.get ⟨k, hk⟩ ∈ files := List.get_mem files ⟨k, hk⟩
  have hj' : j < (rootEntries files).length := by rwa [length_rootEntries]
  rw [Dirent.Matches, namecmp_iff, entry_root hroot hj', direntList, entry_inum, entry_key]
  rcases j with _ | _ | j
  · refine iff_of_false ?_ (by omega)
    intro h
    exact hd.dot _ hmem h.2
  · refine iff_of_false ?_ (by omega)
    intro h
    exact hd.dotdot _ hmem h.2
  · have hlt : j < files.length := by omega
    rw [get_rootEntries hlt]
    constructor
    · intro h
      have hsame : (files.map fun f => key f.stored).get ⟨j, by simpa using hlt⟩ =
          (files.map fun f => key f.stored).get ⟨k, by simpa using hk⟩ := by
        simpa using h.2.symm
      have := congrArg Fin.val (hd.nodup.injective_get hsame)
      simpa using this
    · intro h
      obtain rfl : j = k := by omega
      refine ⟨?_, rfl⟩
      have hlen' : files.length + 2 ≤ 200 := hlen
      intro hz
      have := congrArg BitVec.toNat hz
      simp at this
      omega

theorem Mounted.dirlookup_ends (h : Mounted sb files d) (hd : Distinct files)
    (hlen : files.length + 2 ≤ NINODES) (hk : k < files.length) (hready : Ready sb d dp s)
    {Q : Option (Ip × ℕ) → FsState → Prop} (hfull : (∀ ip, (s.icache ip).ref ≠ 0) → E .igetNoInodes)
    (hQ : ∀ ip s', s'.disk = d → (s'.icache ip).inum = k + 2 → 1 ≤ (s'.icache ip).ref →
      (s'.icache ip).locked = false →
      ((s'.icache ip).valid = true → (s'.icache ip).din = sb.inode d (k + 2)) →
      Q (some (ip, DIRENT * (k + 2))) s') :
    Ends E (dirlookup sb dp (files.get ⟨k, hk⟩).stored) s Q := by
  have hlen' : files.length + 2 ≤ 200 := hlen
  have hdin := hready.din
  have hsize : (s.icache dp).din.size.toNat = rounded files := by
    rw [hdin]
    exact h.rootSize
  have hround : 16 * (files.length + 2) ≤ rounded files := by
    show 16 * (files.length + 2) ≤ (16 * (files.length + 2) / 512 + 1) * 512
    omega
  have htype : (s.icache dp).din.type = T_DIR := by
    rw [hdin]
    exact h.rootType
  have hmatches : ∀ j, j < files.length + 2 →
      (((s.icache dp).din.entry s.disk (DIRENT * j)).Matches (files.get ⟨k, hk⟩).stored ↔
        j = k + 2) := by
    intro j hj
    rw [hdin, hready.disk]
    exact hd.entry_matches h.root hk hlen hj
  have hinum : ((s.icache dp).din.entry s.disk (DIRENT * (k + 2))).inum.toNat = k + 2 := by
    rw [hdin, hready.disk, entry_root h.root (by rw [length_rootEntries]; omega),
      get_rootEntries hk, direntList, entry_inum, BitVec.toNat_ofNat]
    omega
  have hsplit : offsets (s.icache dp).din.size =
      (List.range (k + 2)).map (DIRENT * ·) ++ DIRENT * (k + 2) ::
        ((List.range ((rounded files + 15) / 16 - (k + 3))).map (k + 3 + ·)).map (DIRENT * ·) := by
    have hcount : ((s.icache dp).din.size.toNat + (DIRENT - 1)) / DIRENT =
        k + 3 + ((rounded files + 15) / 16 - (k + 3)) := by
      rw [hsize]
      show (rounded files + 15) / 16 = _
      omega
    rw [offsets, hcount, List.range_add, List.range_succ]
    simp
  have hbefore : ∀ o ∈ (List.range (k + 2)).map (DIRENT * ·) ++ [DIRENT * (k + 2)],
      ∃ j, j ≤ k + 2 ∧ o = 16 * j := by
    intro o ho
    rcases List.mem_append.mp ho with ho | ho
    · obtain ⟨j, hj, rfl⟩ := List.mem_map.mp ho
      exact ⟨j, (List.mem_range.mp hj).le, rfl⟩
    · exact ⟨k + 2, le_rfl, List.mem_singleton.mp ho⟩
  apply Ends.read_bind
  rw [if_neg (not_not.mpr htype), hsplit]
  apply lookupLoop_found
  · rw [htype]
    decide
  · intro o ho
    obtain ⟨j, hj, rfl⟩ := hbefore o ho
    rw [hsize]
    show 16 * j + 16 ≤ rounded files
    omega
  · intro o ho o' hle hlt
    obtain ⟨j, hj, rfl⟩ := hbefore o ho
    rw [hdin, hready.disk]
    apply (h.rootShape.block _).mpr
    apply lt_blocksFor
    have hlt' : o' < 16 * j + 16 := hlt
    show o' < 16 * (files.length + 2)
    omega
  · intro o ho
    obtain ⟨j, hj, rfl⟩ := List.mem_map.mp ho
    have hj' := List.mem_range.mp hj
    rw [hmatches j (by omega)]
    omega
  · exact (hmatches (k + 2) (by omega)).mpr rfl
  · rw [hinum]
    apply iget_rule fun _ => hfull
    · intro ip href hdev hi
      have hne : ip ≠ dp := by
        rintro rfl
        rw [hready.inum] at hi
        change 1 = k + 2 at hi
        omega
      apply hQ
      · exact hready.disk
      · rw [mapIp_self]
        exact hi
      · rw [mapIp_self]
        exact Int.le_add_one href
      · rw [mapIp_self]
        exact hready.unlocked ip hne
      · rw [mapIp_self]
        intro hvalid
        rw [hready.synced.din href hvalid, hready.disk, hi]
    · intro _ ip href
      have hne : ip ≠ dp := by
        rintro rfl
        exact hready.ref.ne' href
      apply hQ
      · exact hready.disk
      · rw [mapIp_self]
      · rw [mapIp_self]
      · rw [mapIp_self]
        exact hready.unlocked ip hne
      · rw [mapIp_self]
        intro hvalid
        cases hvalid

theorem bytes_eq_drop_take {x : Dinode} {content : List Byte} {off n : ℕ}
    (h : x.bytes d 0 content.length = content) (hend : off + n ≤ content.length) :
    x.bytes d off n = (content.drop off).take n := by
  have hsplit : content.length = off + (n + (content.length - (off + n))) := by omega
  rw [hsplit, bytes_add, bytes_add, Nat.zero_add] at h
  rw [← h, List.drop_left' (length_bytes ..), List.take_left' (length_bytes ..)]

/-- What `readi` returns for a file with these bytes. -/
def readOf (content : List Byte) (off n : BitVec 32) : Option (List Byte) :=
  if content.length < off.toNat ∨ off + n < off then none
  else some ((content.drop off.toNat).take n.toNat)

theorem Mounted.readi_eq (h : Mounted sb files d) (hk : k < files.length) (hdisk : s.disk = d)
    (hdin : (s.icache ip).din = sb.inode d (k + 2)) (off n : BitVec 32) :
    readi sb ip off n s = .ok (readOf (files.get ⟨k, hk⟩).content off n, s) := by
  have hfile := h.file hk
  have hsolid : (s.icache ip).din.Solid s.disk := by
    rw [hdin, hdisk]
    exact (h.fileShape hk).solid
  rw [Fs.readi_eq off n (by rw [hdin, hfile.type]; decide) hsolid, hdin, hdisk, readOf]
  simp only [BitVec.lt_def (x := (sb.inode d (k + 2)).size), hfile.size]
  congr 2
  split_ifs with hrange
  · rfl
  · have hle : off.toNat ≤ (files.get ⟨k, hk⟩).content.length := Nat.not_lt.mp (not_or.mp hrange).1
    rw [bytes_eq_drop_take hfile.content (by omega), Option.some_inj, List.take_eq_take_iff,
      List.length_drop]
    omega

theorem Mounted.ilock_ends (h : Mounted sb files d) (hk : k < files.length) (hdisk : s.disk = d)
    (hinum : (s.icache ip).inum = k + 2) (href : 1 ≤ (s.icache ip).ref)
    (hlocked : (s.icache ip).locked = false)
    (hvalid : (s.icache ip).valid = true → (s.icache ip).din = sb.inode d (k + 2)) :
    Ends E (Fs.ilock sb ip) s fun _ s' =>
      s'.disk = d ∧ (s'.icache ip).din = sb.inode d (k + 2) := by
  apply ilock_rule
  · exact fun hno => absurd href hno
  · intro hl
    rw [hlocked] at hl
    cases hl
  · intro _ _ hv
    rw [mapIp_self]
    exact ⟨hdisk, hvalid hv⟩
  · intro _ _ _ _
    rw [mapIp_self, hinum, hdisk]
    exact ⟨hdisk, rfl⟩
  · intro _ _ _ hz
    rw [hdisk, hinum, (h.file hk).type] at hz
    exact absurd hz (by decide)

/-- What the kernel's `readsb` finds. -/
theorem getWord_super {j : ℕ} (hj : j < 7) :
    Log.getWord (putWords (fun _ => 0) 0 7 sbWords) j = sbWords j := by
  rw [getWord_putWords _ _ (show 4 * j + 3 < 512 by omega), if_pos ⟨Nat.zero_le j, by omega⟩,
    Nat.sub_zero]

/-- If the files fit and their names are distinct, `mkfs` succeeds and writes the layout
into the superblock. Whatever the state of the kernel's inode cache, `dirlookup` finds
each name in the root directory, unless the cache is full; and `readi` of the inode it
returns yields the bytes of the file. -/
theorem kernel_reads_back (hfits : Fits files) (hlen : files.length + 2 ≤ NINODES)
    (hdistinct : Distinct files) : ∃ m, mkfs files {} = .ok ((), m) ∧
      ((Log.getWord (m.img 1) 0).toNat = sb.size ∧ (Log.getWord (m.img 1) 2).toNat = sb.ninodes ∧
        (Log.getWord (m.img 1) 5).toNat = sb.inodestart ∧
        (Log.getWord (m.img 1) 6).toNat = sb.bmapstart) ∧
      ∀ (k : ℕ) (hk : k < files.length) (dp : Ip) (s : FsState), Ready sb m.img dp s →
        Ends (fun e => e = .igetNoInodes ∧ ∀ ip, (s.icache ip).ref ≠ 0)
            (dirlookup sb dp (files.get ⟨k, hk⟩).stored) s fun r s' =>
          ∃ ip off, r = some (ip, off) ∧ Ends (fun _ => False) (Fs.ilock sb ip) s' fun _ s'' =>
            (s''.icache ip).din.size.toNat = (files.get ⟨k, hk⟩).content.length ∧
            ∀ off n, readi sb ip off n s'' =
              .ok (readOf (files.get ⟨k, hk⟩).content off n, s'') := by
  obtain ⟨m, hrun, hmade⟩ := hfits.run (N := NINODES) (by decide) hlen
  have hm : Mounted sb files m.img := hmade.mounted hlen
  refine ⟨m, hrun, ?_, ?_⟩
  · rw [hmade.super, getWord_super (by decide), getWord_super (by decide),
      getWord_super (by decide), getWord_super (by decide)]
    decide
  · intro k hk dp s hready
    apply hm.dirlookup_ends hdistinct hlen hk hready fun hfull => ⟨rfl, hfull⟩
    intro ip s' hdisk hinum href hlocked hvalid
    refine ⟨ip, _, rfl, ?_⟩
    apply (hm.ilock_ends hk hdisk hinum href hlocked hvalid).mono
    rintro _ s'' ⟨hdisk'', hdin⟩
    refine ⟨?_, hm.readi_eq hk hdisk'' hdin⟩
    rw [hdin]
    exact (hm.file hk).size

/-- The file `_a` is found as `a`, right after booting. -/
theorem kernel_reads_back_hello : ∃ m, mkfs [helloFile] {} = .ok ((), m) ∧
    ∃ s, Ready sb m.img 0 s ∧ Ends (fun _ => False) (dirlookup sb 0 [0x61]) s fun r s' =>
      ∃ ip off, r = some (ip, off) ∧ Ends (fun _ => False) (Fs.ilock sb ip) s' fun _ s'' =>
        readi sb ip 1 5 s'' = .ok (some [2, 3], s'') := by
  have hfits : Fits [helloFile] := by constructor <;> decide
  have hdistinct : Distinct [helloFile] := by constructor <;> decide
  obtain ⟨m, hrun, -, hread⟩ := kernel_reads_back hfits (by decide) hdistinct
  have hm : Mounted sb [helloFile] m.img := (made_of_run (N := NINODES) (by decide) hrun).mounted
    (by decide)
  let s : FsState := (FsState.boot m.img []).mapIp 0 fun _ =>
    { dev := ROOTDEV, inum := ROOTINO, ref := 1, valid := true, din := sb.inode m.img ROOTINO }
  have hready : Ready sb m.img 0 s := by
    refine ⟨rfl, (synced_boot m.img []).mapIp ?_ ?_, rfl, Int.one_pos, rfl, ?_⟩
    · intro _
      exact ⟨rfl, fun jp _ hr => absurd hr (lt_irrefl 0)⟩
    · intro _ _
      refine ⟨show 1 < 200 by decide, rfl, ?_⟩
      show (sb.inode m.img ROOTINO).type ≠ 0
      rw [hm.rootType]
      decide
    · intro ip hne
      rw [show (s.icache ip) = _ from mapIp_of_ne hne]
      rfl
  refine ⟨m, hrun, s, hready, ?_⟩
  -- all entries but the first are free
  have hfree : ∀ e, e = Panic.igetNoInodes ∧ (∀ ip, (s.icache ip).ref ≠ 0) → False :=
    fun _ h => h.2 1 rfl
  apply ((hread 0 (by decide) 0 s hready).weaken hfree).mono
  rintro r s' ⟨ip, off, hr, hlock⟩
  refine ⟨ip, off, hr, hlock.mono ?_⟩
  rintro _ s'' ⟨-, hall⟩
  exact hall 1 5

end

end Xv6Threads.Mkfs
