/-
# Crash atomicity of the log

Every disk a crash can leave behind during `commit` or during a later recovery
is in one of three situations: the header is still empty and the home blocks
are untouched, the header names the transaction and the log holds its copies,
or the header is empty again and every home block is new. The first and the
last are what a completed recovery ends in; the middle one is where home blocks
may be half installed, and recovery always gets out of it.
-/

import Xv6Threads.Log.Basic

namespace Xv6Threads.Log

open Lib
open Function (update update_of_ne update_self)

variable {b : BlockNo} {i : ℕ} {st : Disk}

/-! ## Reading after writing -/

@[simp]
theorem Machine.bread_bwrite_self (m : Machine) (b : BlockNo) (data : Block) :
    (m.bwrite b data).bread b = data := by
  simp [bread, bwrite]

theorem Machine.bread_bwrite_of_ne (m : Machine) {a : BlockNo} (data : Block) (h : a ≠ b) :
    (m.bwrite b data).bread a = m.bread a := by
  simp [bread, bwrite, h]

@[simp]
theorem Machine.issued_bwrite (m : Machine) (b : BlockNo) (data : Block) :
    (m.bwrite b data).issued = m.issued ++ [⟨b, data⟩] := rfl

@[simp]
theorem Machine.bread_boot (d : Disk) (b : BlockNo) : (Machine.boot d).bread b = d b := rfl

/-! ## Where the log blocks are -/

theorem Region.slot_inj (L : Region) {j : ℕ} (hi : i < LOGSIZE) (hj : j < LOGSIZE)
    (h : L.slot i = L.slot j) : i = j := by
  have hi' : i < 30 := hi
  have hj' : j < 30 := hj
  have hword := congrArg BitVec.toNat (add_left_cancel h)
  rw [BitVec.toNat_ofNat, BitVec.toNat_ofNat, Nat.mod_eq_of_lt (by omega),
    Nat.mod_eq_of_lt (by omega)] at hword
  omega

theorem Region.slot_ne_start (L : Region) (hi : i < LOGSIZE) : L.slot i ≠ L.start := by
  have hi' : i < 30 := hi
  intro h
  have hzero : BitVec.ofNat 32 (i + 1) = 0 := by simpa [slot] using h
  have hword := congrArg BitVec.toNat hzero
  rw [BitVec.toNat_ofNat, Nat.mod_eq_of_lt (by omega)] at hword
  simp at hword

/-! ## A transaction and the writes it issues -/

/-- A transaction ready to commit: its header leaves room for the header block,
as `log_write` checks, and no home block lies inside the log. -/
structure Transaction (L : Region) where
  lh : LogHeader
  room : lh.n + 1 ≤ L.size
  home_outside : ∀ b ∈ lh.block, ¬ L.Contains b

namespace Transaction

variable {L : Region} (T : Transaction L)

include T in
theorem ne_start (hb : ¬ L.Contains b) : b ≠ L.start := by
  rintro rfl
  exact hb ⟨0, by have := T.room; omega, by simp⟩

theorem ne_slot (hb : ¬ L.Contains b) (hi : i < T.lh.block.length) : b ≠ L.slot i := by
  rintro rfl
  exact hb ⟨i + 1, by have := T.room; simp only [LogHeader.n] at this; omega, rfl⟩

theorem lt_logsize (hi : i < T.lh.block.length) : i < LOGSIZE :=
  lt_of_lt_of_le hi T.lh.fits

theorem home_ne_start (hb : b ∈ T.lh.block) : b ≠ L.start :=
  T.ne_start (T.home_outside b hb)

theorem home_ne_slot (hb : b ∈ T.lh.block) (hi : i < T.lh.block.length) : b ≠ L.slot i :=
  T.ne_slot (T.home_outside b hb) hi

end Transaction

/-- The log copies `write_log` writes, from entry `tail` on. -/
def logCopies (L : Region) (new : BlockNo → Block) (tail : ℕ) :
    List BlockNo → List (Write BlockNo Block)
  | [] => []
  | b :: bs => ⟨L.slot tail, new b⟩ :: logCopies L new (tail + 1) bs

/-- The home blocks `install_trans` writes. -/
def homeCopies (new : BlockNo → Block) (bs : List BlockNo) : List (Write BlockNo Block) :=
  bs.map fun b => ⟨b, new b⟩

theorem mem_logCopies {L : Region} {new : BlockNo → Block} {tail : ℕ} {bs : List BlockNo}
    {w : Write BlockNo Block} (hw : w ∈ logCopies L new tail bs) :
    ∃ i, ∃ hi : i < bs.length, w = ⟨L.slot (tail + i), new bs[i]⟩ := by
  induction bs generalizing tail with
  | nil => simp [logCopies] at hw
  | cons b bs ih =>
    rcases List.mem_cons.mp hw with rfl | hw
    · exact ⟨0, by simp, rfl⟩
    · obtain ⟨i, hi, rfl⟩ := ih hw
      exact ⟨i + 1, by simpa using hi, by simp [Nat.add_comm, Nat.add_left_comm]⟩

theorem logCopies_mem (L : Region) (new : BlockNo → Block) (tail : ℕ) {bs : List BlockNo}
    (hi : i < bs.length) :
    (⟨L.slot (tail + i), new bs[i]⟩ : Write BlockNo Block) ∈ logCopies L new tail bs := by
  induction bs generalizing tail i with
  | nil => simp at hi
  | cons b bs ih =>
    cases i with
    | zero => exact List.mem_cons_self
    | succ i =>
      have htail := ih (tail + 1) (i := i) (by simpa using hi)
      rw [show tail + 1 + i = tail + (i + 1) by omega] at htail
      exact List.mem_cons_of_mem _ htail

/-- A block that is no slot to come is none after the next either. -/
theorem ne_slot_tail {L : Region} {tail : ℕ} {a : BlockNo} {bs : List BlockNo}
    (h : ∀ i < (b :: bs).length, a ≠ L.slot (tail + i)) (hi : i < bs.length) :
    a ≠ L.slot (tail + 1 + i) := by
  have hnext := h (i + 1) (by simpa using hi)
  rwa [show tail + (i + 1) = tail + 1 + i by omega] at hnext

/-- The blocks still to be copied read as before the copy of one. -/
theorem bread_copied {L : Region} {new : BlockNo → Block} {tail : ℕ} {bs : List BlockNo}
    {m : Machine} (hread : ∀ c ∈ b :: bs, m.bread c = new c)
    (hsep : ∀ c ∈ b :: bs, ∀ i < (b :: bs).length, c ≠ L.slot (tail + i)) (data : Block)
    (c : BlockNo) (hc : c ∈ bs) : (m.bwrite (L.slot tail) data).bread c = new c := by
  have hne : c ≠ L.slot tail := hsep c (List.mem_cons_of_mem _ hc) 0 (by simp)
  rw [Machine.bread_bwrite_of_ne _ _ hne]
  exact hread c (List.mem_cons_of_mem _ hc)

/-- `write_log` reads home blocks only, and writes log blocks only, so every
copy it writes is what the block read as before the first of them. -/
theorem writeLog_issued (L : Region) (new : BlockNo → Block) (tail : ℕ) (bs : List BlockNo)
    (m : Machine) (hread : ∀ b ∈ bs, m.bread b = new b)
    (hsep : ∀ b ∈ bs, ∀ i < bs.length, b ≠ L.slot (tail + i)) :
    (writeLog L tail bs m).issued = m.issued ++ logCopies L new tail bs := by
  induction bs generalizing tail m with
  | nil => simp [writeLog, logCopies]
  | cons b bs ih =>
    rw [writeLog, ih _ _ (bread_copied hread hsep _)
      fun c hc i => ne_slot_tail (hsep c (List.mem_cons_of_mem _ hc))]
    simp [logCopies, hread b List.mem_cons_self]

/-- Blocks that are no log slot read the same after `write_log`. -/
theorem bread_writeLog_of_ne (L : Region) (tail : ℕ) (bs : List BlockNo) (m : Machine)
    {a : BlockNo} (ha : ∀ i < bs.length, a ≠ L.slot (tail + i)) :
    (writeLog L tail bs m).bread a = m.bread a := by
  induction bs generalizing tail m with
  | nil => rfl
  | cons b bs ih =>
    have hne : a ≠ L.slot tail := ha 0 (by simp)
    rw [writeLog, ih _ _ fun i => ne_slot_tail ha, Machine.bread_bwrite_of_ne _ _ hne]

/-- After `write_log`, slot `i` of the log reads as the new contents of the
`i`-th home block. -/
theorem bread_writeLog_slot (L : Region) (new : BlockNo → Block) (tail : ℕ) (bs : List BlockNo)
    (m : Machine) (hread : ∀ b ∈ bs, m.bread b = new b)
    (hsep : ∀ b ∈ bs, ∀ i < bs.length, b ≠ L.slot (tail + i)) (hroom : tail + bs.length ≤ LOGSIZE)
    (hi : i < bs.length) :
    (writeLog L tail bs m).bread (L.slot (tail + i)) = new bs[i] := by
  induction bs generalizing tail m i with
  | nil => simp at hi
  | cons b bs ih =>
    simp only [List.length_cons] at hroom
    cases i with
    | zero =>
      rw [writeLog, bread_writeLog_of_ne, Nat.add_zero, Machine.bread_bwrite_self]
      · exact hread b List.mem_cons_self
      · intro j hj h
        have := L.slot_inj (by omega) (by omega) h
        omega
    | succ i =>
      rw [writeLog, show tail + (i + 1) = tail + 1 + i by omega]
      exact ih (tail + 1) _ (bread_copied hread hsep _)
        (fun c hc j => ne_slot_tail (hsep c (List.mem_cons_of_mem _ hc))) (by omega) _

/-- `install_trans` copies what the log slots read as; home writes never touch
the slots still to be read. -/
theorem installTrans_issued (L : Region) (new : BlockNo → Block) (tail : ℕ)
    (bs : List BlockNo) (m : Machine)
    (hslot : ∀ i, ∀ hi : i < bs.length, m.bread (L.slot (tail + i)) = new bs[i])
    (hsep : ∀ b ∈ bs, ∀ i < bs.length, b ≠ L.slot (tail + i)) :
    (installTrans L tail bs m).issued = m.issued ++ homeCopies new bs := by
  induction bs generalizing tail m with
  | nil => simp [installTrans, homeCopies]
  | cons b bs ih =>
    have hfirst : m.bread (L.slot tail) = new b := hslot 0 (by simp)
    have hslot' : ∀ i, ∀ hi : i < bs.length,
        (m.bwrite b (new b)).bread (L.slot (tail + 1 + i)) = new bs[i] := by
      intro i hi
      have hidx : tail + 1 + i = tail + (i + 1) := by omega
      rw [hidx, Machine.bread_bwrite_of_ne _ _
        (hsep b List.mem_cons_self (i + 1) (by simpa using hi)).symm]
      exact hslot (i + 1) (by simpa using hi)
    rw [installTrans, hfirst, ih _ _ hslot'
      fun c hc i => ne_slot_tail (hsep c (List.mem_cons_of_mem _ hc))]
    simp [homeCopies]

theorem writeHead_issued (L : Region) (lh : LogHeader) (m : Machine) :
    ∃ hb, (writeHead L lh m).issued = m.issued ++ [⟨L.start, encodeHead hb lh⟩] :=
  ⟨_, rfl⟩

/-! ## The three situations -/

section Situations

variable {L : Region} (T : Transaction L) (d : Disk) (new : BlockNo → Block)

/-- Not committed: the header is empty and nothing outside the log changed. -/
structure Uncommitted (L : Region) (d st : Disk) : Prop where
  head : headN (st L.start) = 0
  rest : ∀ b, ¬ L.Contains b → st b = d b

/-- Committed: the header names the transaction and the log holds its copies.
Home blocks may be half installed. -/
structure Committed (st : Disk) : Prop where
  head : decodeHead (st L.start) = some T.lh
  copies : ∀ i, ∀ hi : i < T.lh.block.length, st (L.slot i) = new T.lh.block[i]
  rest : ∀ b, ¬ L.Contains b → b ∉ T.lh.block → st b = d b

/-- Installed: the header is empty again and every home block is new. -/
structure Installed (st : Disk) : Prop where
  head : headN (st L.start) = 0
  home : ∀ b ∈ T.lh.block, st b = new b
  rest : ∀ b, ¬ L.Contains b → b ∉ T.lh.block → st b = d b

/-- What a crash can leave behind. -/
def CrashState (st : Disk) : Prop :=
  Uncommitted L d st ∨ Committed T d new st ∨ Installed T d new st

/-- Writing a log slot keeps the log uncommitted. -/
theorem Uncommitted.update_slot (h : Uncommitted L d st) (hi : i < T.lh.block.length)
    (data : Block) :
    Uncommitted L d (update st (L.slot i) data) where
  head := by
    rw [update_of_ne (L.slot_ne_start (T.lt_logsize hi)).symm]
    exact h.head
  rest b hb := by
    rw [update_of_ne (T.ne_slot hb hi)]
    exact h.rest b hb

include T in
/-- Clearing the header of an uncommitted log changes nothing. -/
theorem Uncommitted.clear_head (h : Uncommitted L d st) (hb : Block) :
    Uncommitted L d (update st L.start (encodeHead hb LogHeader.empty)) where
  head := by
    rw [update_self, headN_encodeHead]
    rfl
  rest b hout := by
    rw [update_of_ne (T.ne_start hout)]
    exact h.rest b hout

/-- Installing a home block keeps the log committed. -/
theorem Committed.update_home (h : Committed T d new st) (hb : b ∈ T.lh.block) (data : Block) :
    Committed T d new (update st b data) where
  head := by
    rw [update_of_ne (T.home_ne_start hb).symm]
    exact h.head
  copies i hi := by
    rw [update_of_ne (T.home_ne_slot hb hi).symm]
    exact h.copies i hi
  rest c hc hcb := by
    have hne : c ≠ b := fun h => hcb (h ▸ hb)
    rw [update_of_ne hne]
    exact h.rest c hc hcb

/-- Once every home block is new, clearing the header finishes the job. -/
theorem installed_clear_head (hhome : ∀ b ∈ T.lh.block, st b = new b)
    (hrest : ∀ b, ¬ L.Contains b → b ∉ T.lh.block → st b = d b) (hb : Block) :
    Installed T d new (update st L.start (encodeHead hb LogHeader.empty)) where
  head := by
    rw [update_self, headN_encodeHead]
    rfl
  home b hb' := by
    rw [update_of_ne (T.home_ne_start hb')]
    exact hhome b hb'
  rest b hout hb' := by
    rw [update_of_ne (T.ne_start hout)]
    exact hrest b hout hb'

/-- Along the home writes and the final header write, a committed log stays in
one of the three situations and ends installed. Both `commit` and recovery end
with this sequence. -/
theorem Committed.install (h : Committed T d new st) (hb : Block) :
    let ws := homeCopies new T.lh.block ++ [⟨L.start, encodeHead hb LogHeader.empty⟩]
    HoldsAlong (CrashState T d new) st ws ∧ Installed T d new (applyWrites st ws) := by
  have halong : HoldsAlong (Committed T d new) st (homeCopies new T.lh.block) := by
    refine HoldsAlong.of_step h fun st' w hw h' => ?_
    obtain ⟨b, hb', rfl⟩ := List.mem_map.mp hw
    exact h'.update_home T d new hb' _
  have hhome : ∀ b ∈ T.lh.block,
      applyWrites st (homeCopies new T.lh.block) b = new b := by
    intro b hb'
    refine applyWrites_of_mem _ ⟨⟨b, new b⟩, List.mem_map.mpr ⟨b, hb', rfl⟩, rfl⟩ ?_
    intro w hw hwb
    obtain ⟨c, _, rfl⟩ := List.mem_map.mp hw
    exact congrArg new hwb
  have hend := installed_clear_head T d new hhome halong.finish.rest hb
  constructor
  · refine HoldsAlong.append (halong.mono fun _ hc => Or.inr (Or.inl hc)) ?_
    exact HoldsAlong.single (Or.inr (Or.inl halong.finish)) (Or.inr (Or.inr hend))
  · simpa using hend

/-- Recovery of an empty log only rewrites the empty header. -/
theorem recoverFromLog_of_empty (hhead : headN (st L.start) = 0) :
    ∃ hb, recoverFromLog L st = some [⟨L.start, encodeHead hb LogHeader.empty⟩] := by
  refine ⟨st L.start, ?_⟩
  rw [recoverFromLog, Machine.bread_boot, decodeHead_of_headN_eq_zero hhead]
  rfl

/-- Recovery of a committed log installs the home blocks and clears the
header. -/
theorem recoverFromLog_of_committed (h : Committed T d new st) :
    ∃ hb, recoverFromLog L st =
      some (homeCopies new T.lh.block ++ [⟨L.start, encodeHead hb LogHeader.empty⟩]) := by
  obtain ⟨hb, hhead⟩ := writeHead_issued L LogHeader.empty
    (installTrans L 0 T.lh.block (Machine.boot st))
  have hinstall := installTrans_issued L new 0 T.lh.block (Machine.boot st)
    (fun i hi => by rw [Nat.zero_add]; exact h.copies i hi)
    (fun b hb' i hi => by rw [Nat.zero_add]; exact T.home_ne_slot hb' hi)
  refine ⟨hb, ?_⟩
  rw [recoverFromLog, Machine.bread_boot, h.head, Option.map_some, hhead, hinstall]
  rfl

/-- Recovery is defined in every crash state, survives every cut, and ends
either untouched or installed. -/
theorem CrashState.recover (h : CrashState T d new st) :
    ∃ ws, recoverFromLog L st = some ws ∧ HoldsAlong (CrashState T d new) st ws ∧
      (Uncommitted L d (applyWrites st ws) ∨ Installed T d new (applyWrites st ws)) := by
  rcases h with h | h | h
  · obtain ⟨hb, hrun⟩ := recoverFromLog_of_empty h.head
    have hend := h.clear_head T d hb
    exact ⟨_, hrun, HoldsAlong.single (Or.inl h) (Or.inl hend), Or.inl hend⟩
  · obtain ⟨hb, hrun⟩ := recoverFromLog_of_committed T d new h
    obtain ⟨halong, hend⟩ := h.install T d new hb
    exact ⟨_, hrun, halong, Or.inr hend⟩
  · obtain ⟨hb, hrun⟩ := recoverFromLog_of_empty h.head
    have hend := installed_clear_head T d new h.home h.rest hb
    exact ⟨_, hrun, HoldsAlong.single (Or.inr (Or.inr h)) (Or.inr (Or.inr hend)), Or.inr hend⟩

end Situations

/-- The whole write sequence of `commit`, for a transaction that is not empty. -/
theorem commit_issued {L : Region} (T : Transaction L) (d : Disk)
    (cache : BlockNo → Option Block) (hn : 0 < T.lh.n) :
    ∃ hb hb', (commit L T.lh ⟨d, cache, []⟩).issued =
      logCopies L (Machine.mk d cache []).bread 0 T.lh.block ++
        (⟨L.start, encodeHead hb T.lh⟩ ::
          (homeCopies (Machine.mk d cache []).bread T.lh.block ++
            [⟨L.start, encodeHead hb' LogHeader.empty⟩])) := by
  set m : Machine := ⟨d, cache, []⟩ with hm
  have hsep : ∀ b ∈ T.lh.block, ∀ i < T.lh.block.length, b ≠ L.slot (0 + i) := by
    intro b hb i hi
    rw [Nat.zero_add]
    exact T.home_ne_slot hb hi
  have hlog := writeLog_issued L m.bread 0 T.lh.block m (fun _ _ => rfl) hsep
  obtain ⟨hb, hhead⟩ := writeHead_issued L T.lh (writeLog L 0 T.lh.block m)
  have hslot : ∀ i, ∀ hi : i < T.lh.block.length,
      (writeHead L T.lh (writeLog L 0 T.lh.block m)).bread (L.slot (0 + i)) =
        m.bread T.lh.block[i] := by
    intro i hi
    rw [writeHead, Machine.bread_bwrite_of_ne _ _ (by
      rw [Nat.zero_add]; exact L.slot_ne_start (T.lt_logsize hi))]
    exact bread_writeLog_slot L m.bread 0 T.lh.block m (fun _ _ => rfl) hsep
      (by rw [Nat.zero_add]; exact T.lh.fits) hi
  have hinstall := installTrans_issued L m.bread 0 T.lh.block _ hslot hsep
  obtain ⟨hb', hclear⟩ := writeHead_issued L LogHeader.empty
    (installTrans L 0 T.lh.block (writeHead L T.lh (writeLog L 0 T.lh.block m)))
  refine ⟨hb, hb', ?_⟩
  rw [commit, if_pos hn]
  simp only
  rw [hclear, hinstall, hhead, hlog]
  simp [hm]

/-- Every cut of `commit` on a disk with an empty log leaves one of the three
situations. -/
theorem crashState_crashDuringCommit {L : Region} (T : Transaction L) (d : Disk)
    (cache : BlockNo → Option Block) (hclean : headN (d L.start) = 0) (k : ℕ) :
    CrashState T d (Machine.mk d cache []).bread (crashDuringCommit L T.lh d cache k) := by
  set new := (Machine.mk d cache []).bread
  have hstart : Uncommitted L d d := ⟨hclean, fun _ _ => rfl⟩
  by_cases hn : 0 < T.lh.n
  · obtain ⟨hb, hb', hissued⟩ := commit_issued T d cache hn
    have hlog : HoldsAlong (Uncommitted L d) d (logCopies L new 0 T.lh.block) := by
      refine HoldsAlong.of_step hstart fun st w hw h => ?_
      obtain ⟨i, hi, rfl⟩ := mem_logCopies hw
      rw [Nat.zero_add]
      exact h.update_slot T d hi _
    have hcopies : ∀ i, ∀ hi : i < T.lh.block.length,
        applyWrites d (logCopies L new 0 T.lh.block) (L.slot i) = new T.lh.block[i] := by
      intro i hi
      have hmem := logCopies_mem L new 0 hi
      rw [Nat.zero_add] at hmem
      refine applyWrites_of_mem _ ⟨_, hmem, rfl⟩ fun w hw hwi => ?_
      obtain ⟨j, hj, rfl⟩ := mem_logCopies hw
      rw [Nat.zero_add] at hwi
      have hji := L.slot_inj (T.lt_logsize hj) (T.lt_logsize hi) hwi
      subst hji
      rfl
    -- the header write is the commit point: the copies are already in place
    have hcommitted : Committed T d new (update
        (applyWrites d (logCopies L new 0 T.lh.block)) L.start (encodeHead hb T.lh)) := by
      refine ⟨?_, fun i hi => ?_, fun b hout _ => ?_⟩
      · rw [update_self, decodeHead_encodeHead]
      · rw [update_of_ne (L.slot_ne_start (T.lt_logsize hi))]
        exact hcopies i hi
      · rw [update_of_ne (T.ne_start hout)]
        exact hlog.finish.rest b hout
    have hall : HoldsAlong (CrashState T d new) d (commit L T.lh ⟨d, cache, []⟩).issued := by
      rw [hissued]
      refine HoldsAlong.append (hlog.mono fun _ h => Or.inl h) ?_
      rw [← List.singleton_append]
      refine HoldsAlong.append
        (HoldsAlong.single (Or.inl hlog.finish) (Or.inr (Or.inl hcommitted))) ?_
      exact (hcommitted.install T d new hb').1
    exact hall k
  · rw [crashDuringCommit, commit, if_neg hn, List.take_nil, applyWrites_nil]
    exact Or.inl hstart

/-- **Crash atomicity.** On a disk whose log is empty, cut `commit` after any
number of writes and let recovery be cut and rerun any finite number of times
before one run completes. A completed recovery exists, and after every such one
the home blocks are all new or all old, nothing outside the log and the
transaction changed, and the log is empty. -/
theorem commit_crash_atomic {L : Region} (T : Transaction L) (d : Disk)
    (cache : BlockNo → Option Block) (hclean : headN (d L.start) = 0) (k : ℕ) :
    (∃ final, Recovered (recoverFromLog L) (crashDuringCommit L T.lh d cache k) final) ∧
    ∀ final, Recovered (recoverFromLog L) (crashDuringCommit L T.lh d cache k) final →
      ((∀ b ∈ T.lh.block, final b = (cache b).getD (d b)) ∨
        (∀ b ∈ T.lh.block, final b = d b)) ∧
      (∀ b, ¬ L.Contains b → b ∉ T.lh.block → final b = d b) ∧
      headN (final L.start) = 0 := by
  have hcrash := crashState_crashDuringCommit T d cache hclean k
  constructor
  · obtain ⟨ws, hrun, -, -⟩ := hcrash.recover
    exact ⟨_, Recovered.complete hrun⟩
  · intro final hrec
    have hfinal : Uncommitted L d final ∨
        Installed T d (Machine.mk d cache []).bread final := by
      refine Recovered.rule (P := CrashState T d (Machine.mk d cache []).bread)
        (Q := fun st => Uncommitted L d st ∨ Installed T d (Machine.mk d cache []).bread st)
        ?_ ?_ hrec hcrash
      · intro st ws h hrun
        obtain ⟨ws', hrun', halong, -⟩ := h.recover
        rw [hrun] at hrun'
        cases hrun'
        exact halong
      · intro st ws h hrun
        obtain ⟨ws', hrun', -, hend⟩ := h.recover
        rw [hrun] at hrun'
        cases hrun'
        exact hend
    rcases hfinal with h | h
    · exact ⟨Or.inr fun b hb => h.rest b (T.home_outside b hb), fun b hb _ => h.rest b hb, h.head⟩
    · exact ⟨Or.inl fun b hb => h.home b hb, h.rest, h.head⟩

/-- The log region `mkfs` lays out: the header is block 2, with `nlog = 30`. -/
def mkfsRegion : Region := ⟨2, 30⟩

/-- A transaction over home blocks 100 and 101. -/
def twoBlocks : Transaction mkfsRegion where
  lh := ⟨[100, 101], by decide⟩
  room := by decide
  home_outside := by
    rintro b hb ⟨i, hi, rfl⟩
    have hi' : i < 30 := hi
    simp only [mkfsRegion, List.mem_cons, List.not_mem_nil, or_false] at hb
    rcases hb with h | h <;> bv_omega

/-- An all-zero disk, a cache holding sevens, and a crash right after the
header write: the hypotheses are met, and a recovered disk shows sevens in both
home blocks or zeros in both. -/
theorem commit_crash_atomic_twoBlocks :
    headN ((fun _ _ => 0 : Disk) mkfsRegion.start) = 0 ∧
    ∀ final, Recovered (recoverFromLog mkfsRegion)
        (crashDuringCommit mkfsRegion twoBlocks.lh (fun _ _ => 0)
          (fun _ => some fun _ => 7) 3) final →
      ((∀ b ∈ twoBlocks.lh.block, final b = fun _ => 7) ∨
        (∀ b ∈ twoBlocks.lh.block, final b = fun _ => 0)) ∧
      headN (final mkfsRegion.start) = 0 := by
  have hclean : headN ((fun _ _ => 0 : Disk) mkfsRegion.start) = 0 := by decide
  refine ⟨hclean, fun final hrec => ?_⟩
  obtain ⟨hhome, -, hhead⟩ :=
    (commit_crash_atomic twoBlocks (fun _ _ => 0) (fun _ => some fun _ => 7) hclean 3).2 final hrec
  exact ⟨hhome, hhead⟩

end Xv6Threads.Log
