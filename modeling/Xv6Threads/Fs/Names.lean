/-
# Names in directories

What `namecmp` compares is the part of a string before its first zero, cut to `DIRSIZ`
bytes. An entry that `dirlink` or `mkfs` wrote keeps that part of the name and the inode
number.
-/

import Xv6Threads.Fs.Directory

namespace Xv6Threads.Fs

open Lib

/-- What counts of a name. -/
def key (name : List Byte) : List Byte := (name.takeWhile (· ≠ 0)).take DIRSIZ

theorem takeWhile_head (l : List Byte) : l.takeWhile (· ≠ 0) =
    if l.headD 0 = 0 then [] else l.headD 0 :: l.tail.takeWhile (· ≠ 0) := by
  cases l with
  | nil => rfl
  | cons a l =>
    rw [List.takeWhile_cons, List.headD_cons, List.tail_cons]
    by_cases ha : a = 0
    · rw [if_neg (by simpa using ha), if_pos ha]
    · rw [if_pos (by simpa using ha), if_neg ha]

theorem strncmp_iff (n : ℕ) (p q : List Byte) :
    strncmp n p q = true ↔ (p.takeWhile (· ≠ 0)).take n = (q.takeWhile (· ≠ 0)).take n := by
  induction n generalizing p q with
  | zero => simp [strncmp]
  | succ n ih =>
    rw [strncmp, takeWhile_head p, takeWhile_head q]
    by_cases hp : p.headD 0 = 0
    · rw [if_pos (.inl hp), if_pos hp, decide_eq_true_iff, hp]
      by_cases hq : q.headD 0 = 0
      · rw [if_pos hq, hq]
        exact iff_of_true rfl rfl
      · rw [if_neg hq, List.take_succ_cons, List.take_nil]
        exact iff_of_false (Ne.symm hq) (List.cons_ne_nil _ _).symm
    · rw [if_neg hp]
      by_cases hpq : p.headD 0 = q.headD 0
      · rw [if_neg (not_or.mpr ⟨hp, not_not.mpr hpq⟩), ← hpq, if_neg hp, ih, List.take_succ_cons,
          List.take_succ_cons, List.cons_inj_right]
      · rw [if_pos (.inr hpq), decide_eq_true_iff]
        refine iff_of_false hpq ?_
        split_ifs with hq
        · rw [List.take_succ_cons, List.take_nil]
          exact List.cons_ne_nil _ _
        · intro h
          exact hpq (List.cons_eq_cons.mp h).1

theorem namecmp_iff {s t : List Byte} : namecmp s t = true ↔ key s = key t :=
  strncmp_iff DIRSIZ s t

/-- Padding with zeros. -/
theorem map_getD_range (l : List Byte) (n : ℕ) :
    (List.range n).map (fun k => l.getD k 0) = l.take n ++ List.replicate (n - l.length) 0 := by
  apply List.ext_getElem
  · simp
    omega
  · intro k h₁ h₂
    simp only [List.getElem_map, List.getElem_range, List.getElem_append, List.length_take]
    split_ifs with hk
    · rw [List.getElem_take, List.getD_eq_getElem?_getD, List.getElem?_eq_getElem (by omega),
        Option.getD_some]
    · have hlen : l.length ≤ k := by
        rw [List.length_map, List.length_range] at h₁
        omega
      rw [List.getElem_replicate, List.getD_eq_getElem?_getD, List.getElem?_eq_none hlen,
        Option.getD_none]

theorem key_strncpy (name : List Byte) :
    key ((List.range DIRSIZ).map (strncpy name)) = key name := by
  have hzeros : ∀ b ∈ name.takeWhile (· ≠ 0), decide (b ≠ 0) = true :=
    fun b hb => List.all_eq_true.mp List.all_takeWhile b hb
  show key ((List.range DIRSIZ).map fun k => (name.takeWhile (· ≠ 0)).getD k 0) = _
  rw [map_getD_range, key, List.takeWhile_append_of_pos]
  · simp [key, List.take_take]
  · intro b hb
    exact hzeros b (List.mem_of_mem_take hb)

theorem entry_inum (name : List Byte) (inum : ℕ) :
    (Dirent.ofBytes ((List.range DIRENT).map (direntBytes name inum))).inum =
      BitVec.ofNat 16 inum := by
  show BitVec.ofNat 16 ((BitVec.ofNat 8 inum).toNat + 256 * (BitVec.ofNat 8 (inum / 256)).toNat) = _
  apply BitVec.eq_of_toNat_eq
  simp only [BitVec.toNat_ofNat]
  omega

theorem entry_key (name : List Byte) (inum : ℕ) :
    key (Dirent.ofBytes ((List.range DIRENT).map (direntBytes name inum))).name = key name := by
  have hname : (Dirent.ofBytes ((List.range DIRENT).map (direntBytes name inum))).name =
      (List.range DIRSIZ).map (strncpy name) := rfl
  rw [hname, key_strncpy]

end Xv6Threads.Fs
