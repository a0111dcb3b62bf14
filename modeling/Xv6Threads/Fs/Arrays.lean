/-
# Files as byte arrays

What a file is for: a sequence of bytes that `writei` overwrites or extends and `readi`
reads parts of. The array of bytes is the specification, and a locked inode without holes
behaves like it under any sequence of calls; the rest of the disk does not change. The only
way out is a disk that has too few free blocks for what is written.
-/

import Xv6Threads.Fs.Calls
import Xv6Threads.Fs.Room

namespace Xv6Threads.Fs

open Lib Command

inductive FileOp
  | writei (off n : BitVec 32) (src : ℕ → Byte)
  | readi (off n : BitVec 32)

/-- What a call returns; `none` stands for -1. -/
inductive Outcome
  | wrote (r : Option ℕ)
  | got (r : Option (List Byte))
  deriving DecidableEq

section

variable (L : Layout) (ip : Ip)

def FileOp.run : FileOp → FsM Outcome
  | .writei off n src => do
      let r ← Fs.writei L ip src off n
      pure (.wrote r)
  | .readi off n => do
      let r ← Fs.readi L ip off n
      pure (.got r)

def runOps : List FileOp → FsM (List Outcome)
  | [] => pure []
  | op :: ops => do
      let o ← op.run L ip
      let os ← runOps ops
      pure (o :: os)

end

/-! ## Arrays -/

/-- The calls that return -1 on an array of this length. -/
def FileOp.Refused (size : ℕ) : FileOp → Prop
  | .writei off n _ => size < off.toNat ∨ 2 ^ 32 ≤ off.toNat + n.toNat ∨
      MAXFILE * BSIZE < off.toNat + n.toNat
  | .readi off n => size < off.toNat ∨ 2 ^ 32 ≤ off.toNat + n.toNat

instance (size : ℕ) : DecidablePred (FileOp.Refused size)
  | .writei _ _ _ => inferInstanceAs (Decidable (_ ∨ _ ∨ _))
  | .readi _ _ => inferInstanceAs (Decidable (_ ∨ _))

/-- The array with `n` bytes from `off` on overwritten, or the array extended by them. -/
def overwrite (a : List Byte) (off n : ℕ) (src : ℕ → Byte) : List Byte :=
  a.take off ++ (List.range n).map src ++ a.drop (off + n)

/-- What a call returns and leaves of the array. -/
def FileOp.apply (a : List Byte) : FileOp → Outcome × List Byte
  | .writei off n src =>
    if FileOp.Refused a.length (.writei off n src) then (.wrote none, a)
    else (.wrote (some n.toNat), overwrite a off.toNat n.toNat src)
  | .readi off n =>
    if FileOp.Refused a.length (.readi off n) then (.got none, a)
    else (.got (some ((a.drop off.toNat).take n.toNat)), a)

def applyOps : List FileOp → List Byte → List Outcome × List Byte
  | [], a => ([], a)
  | op :: ops, a =>
    ((op.apply a).1 :: (applyOps ops (op.apply a).2).1, (applyOps ops (op.apply a).2).2)

/-- The places of the bytes that a call writes. -/
def FileOp.places (size : ℕ) : FileOp → Finset Place
  | .writei off n src =>
    if FileOp.Refused size (.writei off n src) then ∅ else Fs.places off.toNat n.toNat
  | .readi _ _ => ∅

def placesOf : List FileOp → List Byte → Finset Place
  | [], _ => ∅
  | op :: ops, a => op.places a.length ∪ placesOf ops (op.apply a).2

/-! ## Files -/

/-- All bytes of a file. -/
def Dinode.content (d : Image) (x : Dinode) : List Byte := x.bytes d 0 x.size.toNat

/-- Entry `ip` is a file or directory without holes that holds the bytes `a`, its inode is
the one on disk, every block has one owner, and an operation is going on. -/
structure IsFile (L : Layout) (ip : Ip) (s : FsState) (a : List Byte) : Prop where
  owned : L.DiskOwned s.disk (L.inode s.disk) ∅
  lt : (s.icache ip).inum < L.ninodes
  din : (s.icache ip).din = L.inode s.disk (s.icache ip).inum
  type : (s.icache ip).din.type = T_FILE ∨ (s.icache ip).din.type = T_DIR
  solid : (s.icache ip).din.Solid s.disk
  op : 1 ≤ s.outstanding
  content : (s.icache ip).din.content s.disk = a

/-- Only the file of entry `ip` has changed, on disk and in the cache. -/
structure OnlyThis (L : Layout) (ip : Ip) (s s' : FsState) : Prop where
  disk : OnlyFile L (s.icache ip).inum s.disk s'.disk
  entries : ∀ jp, jp ≠ ip → s'.icache jp = s.icache jp
  entry : s'.icache ip = { s.icache ip with din := (s'.icache ip).din }
  rest : s' = { s with disk := s'.disk, icache := s'.icache }

section

variable {L : Layout} {ip : Ip} {s s' s'' : FsState} {a : List Byte} {d d' : Image} {x : Dinode}
variable {off n i : ℕ} {src : ℕ → Byte}

theorem length_content : (x.content d).length = x.size.toNat := length_bytes ..

/-- A part of the content. -/
theorem take_drop_content :
    ((x.content d).drop off).take n = x.bytes d off (min n (x.size.toNat - off)) := by
  apply List.ext_getElem
  · simp [Dinode.content]
  · intro k h₁ h₂
    simp [Dinode.content, Dinode.bytes]

theorem FileWritten.content (hw : FileWritten L d i off n src d')
    (hoff : off ≤ (L.inode d i).size.toNat) :
    (L.inode d' i).content d' = overwrite ((L.inode d i).content d) off n src := by
  have hsize := hw.size
  apply List.ext_getElem
  · simp only [overwrite, List.length_append, List.length_take, List.length_drop,
      List.length_map, List.length_range, length_content, hsize]
    omega
  · intro k h₁ h₂
    rw [length_content, hsize] at h₁
    have hbyte : (L.inode d' i).byte d' k =
        if off ≤ k ∧ k < off + n then src (k - off) else (L.inode d i).byte d k := by
      split
      next hin =>
        have hnew := hw.written (t := k - off) (by omega)
        rwa [Nat.add_sub_cancel' hin.1] at hnew
      next hout => exact hw.left (by omega) hout
    simp only [overwrite, Dinode.content, Dinode.bytes, List.getElem_map, List.getElem_range,
      Nat.zero_add, hbyte, List.getElem_append, List.length_append, List.length_take,
      List.length_map, List.length_range, List.getElem_take, List.getElem_drop]
    split_ifs <;> first | omega | rfl | (congr 1; omega)

theorem OnlyThis.refl : OnlyThis L ip s s := ⟨.refl, fun _ _ => rfl, rfl, rfl⟩

theorem OnlyThis.trans (h : OnlyThis L ip s s') (h' : OnlyThis L ip s' s'') :
    OnlyThis L ip s s'' where
  disk := by
    have hinum : (s'.icache ip).inum = (s.icache ip).inum := by rw [h.entry]
    have hsecond := h'.disk
    rw [hinum] at hsecond
    exact h.disk.trans hsecond
  entries jp hjp := (h'.entries jp hjp).trans (h.entries jp hjp)
  entry := by rw [h'.entry, h.entry]
  rest := by rw [h'.rest, h.rest]

theorem onlyThis_put (h : OnlyFile L (s.icache ip).inum s.disk d') :
    OnlyThis L ip s (s.put ip d' x) where
  disk := h
  entries _ hjp := put_icache_of_ne hjp
  entry := by rw [put_icache_self]
  rest := rfl

theorem IsFile.held (h : IsFile L ip s a) :
    Held L (L.inode s.disk) (s.icache ip).inum s.disk (s.icache ip).din := by
  have htype : (L.inode s.disk (s.icache ip).inum).type ≠ 0 := by
    rw [← h.din]
    rcases h.type with ht | ht <;> rw [ht] <;> decide
  rw [h.din]
  exact Layout.DiskOwned.held h.owned h.lt htype

theorem IsFile.not_dev (h : IsFile L ip s a) : (s.icache ip).din.type ≠ T_DEV := by
  rcases h.type with ht | ht <;> rw [ht] <;> decide

theorem IsFile.length (h : IsFile L ip s a) : a.length = (s.icache ip).din.size.toNat := by
  rw [← h.content, length_content]

theorem IsFile.refused_iff (h : IsFile L ip s a) {off n : BitVec 32} :
    FileOp.Refused a.length (.writei off n src) ↔
      (s.icache ip).din.size < off ∨ off + n < off ∨
        BitVec.ofNat 32 (MAXFILE * BSIZE) < off + n := by
  have hoff := off.isLt
  have hn := n.isLt
  rw [FileOp.Refused, h.length, BitVec.lt_def, BitVec.lt_def, BitVec.lt_def, BitVec.toNat_add]
  show _ ∨ _ ∨ 71680 < _ ↔ _ ∨ _ ∨ 71680 < _
  omega

theorem IsFile.refused_read_iff (h : IsFile L ip s a) {off n : BitVec 32} :
    FileOp.Refused a.length (.readi off n) ↔ (s.icache ip).din.size < off ∨ off + n < off := by
  have hoff := off.isLt
  have hn := n.isLt
  rw [FileOp.Refused, h.length, BitVec.lt_def, BitVec.lt_def, BitVec.toNat_add]
  omega

/-! ## One call -/

/-- The calls that write. -/
def FileOp.Writes (size : ℕ) : FileOp → Prop
  | .writei off n src => ¬FileOp.Refused size (.writei off n src)
  | .readi _ _ => False

theorem IsFile.writei_refused (h : IsFile L ip s a) {off n : BitVec 32} {src : ℕ → Byte}
    (hrefused : FileOp.Refused a.length (.writei off n src)) :
    Fs.writei L ip src off n s = .ok (none, s) := by
  show (if (s.icache ip).din.type = T_DEV then _ else _ : FsM (Option ℕ)) s = _
  rw [if_neg h.not_dev]
  rw [h.refused_iff] at hrefused
  by_cases hrange : (s.icache ip).din.size < off ∨ off + n < off
  · rw [if_pos hrange]
    rfl
  · rw [if_neg hrange, if_pos (by tauto)]
    rfl

/-- A call that does not write leaves everything as it is. -/
theorem IsFile.quiet (h : IsFile L ip s a) {op : FileOp} (hquiet : ¬op.Writes a.length) :
    op.run L ip s = .ok ((op.apply a).1, s) ∧ (op.apply a).2 = a := by
  cases op with
  | writei off n src =>
    have hrefused : FileOp.Refused a.length (.writei off n src) := not_not.mp hquiet
    rw [FileOp.apply, if_pos hrefused]
    refine ⟨?_, rfl⟩
    rw [FileOp.run, bind_ok (h.writei_refused hrefused)]
    rfl
  | readi off n =>
    have hread := readi_eq (L := L) off n h.not_dev h.solid
    rw [FileOp.run, bind_ok hread, FileOp.apply]
    by_cases hrefused : FileOp.Refused a.length (.readi off n)
    · rw [if_pos hrefused, if_pos (h.refused_read_iff.mp hrefused)]
      exact ⟨rfl, rfl⟩
    · rw [if_neg hrefused, if_neg fun hr => hrefused (h.refused_read_iff.mpr hr), ← h.content,
        take_drop_content]
      exact ⟨rfl, rfl⟩

theorem IsFile.put (h : IsFile L ip s a) (hw : FileWritten L s.disk (s.icache ip).inum off n src d')
    (howned : L.DiskOwned d' (L.inode d') ∅) (hoff : off ≤ (s.icache ip).din.size.toNat) :
    IsFile L ip (s.put ip d' (L.inode d' (s.icache ip).inum)) (overwrite a off n src) := by
  have hinum : ((s.put ip d' (L.inode d' (s.icache ip).inum)).icache ip).inum =
      (s.icache ip).inum := by rw [put_icache_self]
  have hsolid := h.solid
  have htype := h.type
  have hcontent := h.content
  rw [h.din] at hoff htype hsolid hcontent
  refine ⟨howned, ?_, ?_, ?_, ?_, h.op, ?_⟩
  · rw [hinum]
    exact h.lt
  · rw [hinum, put_din, put_disk]
  · obtain ⟨size, addrs, hfields⟩ := hw.fields
    rw [put_din, hfields]
    exact htype
  · rw [put_din, put_disk]
    intro o ho
    rw [hw.size] at ho
    apply hw.blocks.mpr
    by_cases hold : o < (L.inode s.disk (s.icache ip).inum).size.toNat
    · exact .inl (hsolid o hold)
    · exact .inr ⟨o, by omega, by omega, rfl⟩
  · rw [put_din, put_disk, hw.content hoff, hcontent]

/-- The faults of a run that writes to the places `T`. -/
def FullFor (L : Layout) (ip : Ip) (s : FsState) (T : Finset Place) (e : Panic) : Prop :=
  e = .ballocOutOfBlocks ∧ L.freeBlocks s.disk < (s.icache ip).din.missing s.disk T

variable {T : Finset Place}

/-- Free blocks and places to fill have gone down together. -/
def SameAccount (L : Layout) (ip : Ip) (T : Finset Place) (s s' : FsState) : Prop :=
  L.freeBlocks s.disk + (s'.icache ip).din.missing s'.disk T =
    L.freeBlocks s'.disk + (s.icache ip).din.missing s.disk T

theorem SameAccount.fullFor (h : SameAccount L ip T s s') {e : Panic}
    (hfull : FullFor L ip s' T e) : FullFor L ip s T e := by
  refine ⟨hfull.1, ?_⟩
  have hless := hfull.2
  rw [SameAccount] at h
  omega

/-- A `writei` that is not refused. -/
theorem IsFile.writei_ends (h : IsFile L ip s a) {off n : BitVec 32} {src : ℕ → Byte}
    (haccepted : ¬FileOp.Refused a.length (.writei off n src))
    (hT : places off.toNat n.toNat ⊆ T) :
    Ends (FullFor L ip s T) (Fs.writei L ip src off n) s fun r s' => r = some n.toNat ∧
      IsFile L ip s' (overwrite a off.toNat n.toNat src) ∧ OnlyThis L ip s s' ∧
      (s'.icache ip).din.type = (s.icache ip).din.type ∧ SameAccount L ip T s s' := by
  have hdone : Ends (fun _ => True) (Fs.writei L ip src off n) s fun r s' =>
      r = some n.toNat ∧ IsFile L ip s' (overwrite a off.toNat n.toNat src) ∧
        OnlyThis L ip s s' ∧ (s'.icache ip).din.type = (s.icache ip).din.type := by
    apply writei_solid (fun _ _ _ => trivial) src off n h.owned h.lt h.din h.held.allocated
      h.not_dev h.solid
    · intro hrefused
      exact absurd (h.refused_iff.mpr hrefused) haccepted
    · intro _ d' hw howned hoff
      refine ⟨rfl, h.put hw howned hoff, onlyThis_put hw.only, ?_⟩
      obtain ⟨size, addrs, hfields⟩ := hw.fields
      rw [put_din, hfields, h.din]
  have hroom : Ends (FullFor L ip s T) (Fs.writei L ip src off n) s fun _ s' =>
      SameAccount L ip T s s' :=
    writei_room h.op h.held.tidy h.lt h.not_dev hT fun hless => ⟨rfl, hless⟩
  apply (hdone.also hroom).mono
  intro r s' hboth
  obtain ⟨⟨hr, hfile, honly, htype⟩, haccount⟩ := hboth
  exact ⟨hr, hfile, honly, htype, haccount⟩

theorem IsFile.step (h : IsFile L ip s a) (op : FileOp) (hT : op.places a.length ⊆ T) :
    Ends (FullFor L ip s T) (op.run L ip) s fun o s' => o = (op.apply a).1 ∧
      IsFile L ip s' (op.apply a).2 ∧ OnlyThis L ip s s' ∧ SameAccount L ip T s s' := by
  by_cases hwrites : op.Writes a.length
  · cases op with
    | readi off n => exact hwrites.elim
    | writei off n src =>
      have haccepted : ¬FileOp.Refused a.length (.writei off n src) := hwrites
      rw [FileOp.places, if_neg haccepted] at hT
      rw [FileOp.apply, if_neg haccepted]
      apply Ends.bind (h.writei_ends haccepted hT)
      intro r s' hdone
      obtain ⟨rfl, hfile, honly, -, haccount⟩ := hdone
      exact Ends.pure ⟨rfl, hfile, honly, haccount⟩
  · obtain ⟨hrun, hsame⟩ := h.quiet hwrites
    apply Ends.of_ok hrun
    rw [hsame]
    exact ⟨rfl, h, .refl, rfl⟩

/-! ## Any sequence of calls -/

theorem IsFile.run (h : IsFile L ip s a) (ops : List FileOp) (hT : placesOf ops a ⊆ T) :
    Ends (FullFor L ip s T) (runOps L ip ops) s fun os s' => os = (applyOps ops a).1 ∧
      IsFile L ip s' (applyOps ops a).2 ∧ OnlyThis L ip s s' := by
  induction ops generalizing s a with
  | nil => exact Ends.pure ⟨rfl, h, .refl⟩
  | cons op ops ih =>
    rw [placesOf, Finset.union_subset_iff] at hT
    apply Ends.bind (h.step op hT.1)
    intro o s₁ hone
    obtain ⟨rfl, hfile, honly, haccount⟩ := hone
    apply Ends.bind ((ih hfile hT.2).weaken fun _ => haccount.fullFor)
    intro os s' hrest
    obtain ⟨rfl, hfile', honly'⟩ := hrest
    exact Ends.pure ⟨rfl, hfile', honly.trans honly'⟩

/-- Every inode that a caller of `fs.c` has locked in an operation is such a file, unless it
is a device. -/
theorem Sound.isFile (h : Sound L s) (hlocked : (s.icache ip).locked = true)
    (htype : (s.icache ip).din.type = T_FILE ∨ (s.icache ip).din.type = T_DIR)
    (hop : 1 ≤ s.outstanding) : IsFile L ip s ((s.icache ip).din.content s.disk) := by
  obtain ⟨href, hvalid⟩ := h.locked hlocked
  have hdin := h.synced.din href hvalid
  refine ⟨h.consistent.owned, h.lt href, hdin, htype, ?_, hop, rfl⟩
  rw [hdin] at htype ⊢
  apply h.consistent.solid (h.lt href)
  · rcases htype with ht | ht <;> rw [ht] <;> decide
  · rcases htype with ht | ht <;> rw [ht] <;> decide

end

end Xv6Threads.Fs
