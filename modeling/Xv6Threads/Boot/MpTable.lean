/-
# The scan of the MP configuration table

`mpconfig`'s tests of a table and the entry loop of `mpinit`. A table is the memory from its
first byte on; what lies behind its end is there to be read by a last entry that is cut
short. In the loop, the `break` of an unknown entry type leaves the `switch` and not the
loop, and `p` stays where it is, so that the loop does not end on such an entry.
-/

import Mathlib.Algebra.BigOperators.Group.List.Basic
import Mathlib.Data.BitVec
import Mathlib.Logic.Function.Iterate
import Mathlib.Order.Lattice

namespace Xv6Threads.Mp

@[reducible] def NCPU : ℕ := 8

abbrev Table : Type := ℕ → BitVec 8

/-- `conf->length`. -/
def Table.length (t : Table) : ℕ := (t 4).toNat + 256 * (t 5).toNat

def sum (t : Table) (len : ℕ) : BitVec 8 := ((List.range len).map t).sum

/-- The signature is `PCMP`, the version is 1 or 4, and the bytes add up to 0. -/
def mpconfig (t : Table) : Bool :=
  t 0 == 0x50 && t 1 == 0x43 && t 2 == 0x4d && t 3 == 0x50 && (t 6 == 1 || t 6 == 4) &&
    sum t t.length == 0

/-- The variables of the loop, with `cpus[i].apicid`. -/
structure Scan where
  p : ℕ
  ismp : Bool
  ncpu : ℕ
  cpus : ℕ → BitVec 8
  ioapicid : BitVec 8

@[reducible] def MPPROC : BitVec 8 := 0
@[reducible] def MPBUS : BitVec 8 := 1
@[reducible] def MPIOAPIC : BitVec 8 := 2
@[reducible] def MPIOINTR : BitVec 8 := 3
@[reducible] def MPLINTR : BitVec 8 := 4

/-- The body of the loop. -/
def turn (t : Table) (s : Scan) : Scan :=
  if t s.p = MPPROC then
    if s.ncpu < NCPU then
      { s with
        p := s.p + 20
        ncpu := s.ncpu + 1
        cpus := Function.update s.cpus s.ncpu (t (s.p + 1)) }
    else { s with p := s.p + 20 }
  else if t s.p = MPIOAPIC then { s with p := s.p + 8, ioapicid := t (s.p + 1) }
  else if t s.p = MPBUS ∨ t s.p = MPIOINTR ∨ t s.p = MPLINTR then { s with p := s.p + 8 }
  -- `break` ends the `switch`
  else { s with ismp := false }

/-- The loop. `none` if it has not ended after so many turns. -/
def scanLoop (t : Table) : ℕ → Scan → Option Scan
  | 0, _ => none
  | n + 1, s => if s.p < t.length then scanLoop t n (turn t s) else some s

inductive Panic
  | expectSmp
  | notSuitable

/-- `mpinit` up to its use of `mp->imcrp`, for the table that `mpsearch` leads to. -/
def mpinit (t : Table) (cpus : ℕ → BitVec 8) (ioapicid : BitVec 8) (turns : ℕ) :
    Option (Except Panic Scan) :=
  if mpconfig t then
    (scanLoop t turns ⟨44, true, 0, cpus, ioapicid⟩).map fun s =>
      if s.ismp then .ok s else .error .notSuitable
  else some (.error .expectSmp)

/-- The size of an entry of one of the five types. -/
def entrySize (type : BitVec 8) : Option ℕ :=
  if type = MPPROC then some 20
  else if type = MPIOAPIC ∨ type = MPBUS ∨ type = MPIOINTR ∨ type = MPLINTR then some 8
  else none

/-- The offsets of the entries from `p` on, each found behind the one before. Nothing is found
behind an entry of unknown type. -/
def entriesFrom (t : Table) : ℕ → ℕ → List ℕ
  | 0, _ => []
  | n + 1, p =>
    if p < t.length then
      match entrySize (t p) with
      | some k => p :: entriesFrom t n (p + k)
      | none => [p]
    else []

/-- Entries take 8 bytes or more, so there are fewer than bytes. -/
def Table.entries (t : Table) : List ℕ := entriesFrom t (t.length + 1) 44

def Table.procs (t : Table) : List ℕ := t.entries.filter fun p => t p = MPPROC

def Table.Known (t : Table) : Prop := ∀ p ∈ t.entries, entrySize (t p) ≠ none

section

variable {t : Table} {s : Scan} {n k : ℕ}

theorem turn_ncpu_le (h : s.ncpu ≤ NCPU) : (turn t s).ncpu ≤ NCPU := by
  unfold turn
  split_ifs with htype hroom
  · exact hroom
  all_goals exact h

theorem turn_unknown (h : entrySize (t s.p) = none) : turn t s = { s with ismp := false } := by
  unfold entrySize at h
  unfold turn
  grind

/-- What the scan has recorded once it has passed the processors at `ps`. -/
structure Recorded (t : Table) (s : Scan) (ps : List ℕ) (s' : Scan) : Prop where
  ismp : s'.ismp = s.ismp
  ncpu : s'.ncpu = min NCPU (s.ncpu + ps.length)
  before : ∀ i < s.ncpu, s'.cpus i = s.cpus i
  after : ∀ i, s.ncpu + i < s'.ncpu → some (s'.cpus (s.ncpu + i)) = ps[i]?.map fun p => t (p + 1)

theorem Recorded.nothing {s' : Scan} (hs : s.ncpu ≤ NCPU) (hismp : s'.ismp = s.ismp)
    (hncpu : s'.ncpu = s.ncpu) (hcpus : s'.cpus = s.cpus) : Recorded t s [] s' where
  ismp := hismp
  ncpu := hncpu.trans (min_eq_right hs).symm
  before _ _ := by rw [hcpus]
  after i hi := absurd (hncpu ▸ hi) (Nat.not_lt.mpr (Nat.le_add_right _ _))

theorem turn_known (h : entrySize (t s.p) = some k) : 8 ≤ k ∧ (turn t s).p = s.p + k := by
  unfold entrySize at h
  unfold turn
  grind

/-- A processor is recorded if there is room. -/
theorem turn_recorded (hs : s.ncpu ≤ NCPU) (h : entrySize (t s.p) = some k) :
    Recorded t s ([s.p].filter fun p => t p = MPPROC) (turn t s) := by
  unfold entrySize at h
  unfold turn
  by_cases hproc : t s.p = MPPROC
  · rw [List.filter_cons_of_pos (by simpa using hproc), if_pos hproc]
    by_cases hroom : s.ncpu < NCPU
    · rw [if_pos hroom]
      refine ⟨rfl, by simp; omega, fun i hi => Function.update_of_ne hi.ne _ _, fun i hi => ?_⟩
      have hzero : i = 0 := by
        change s.ncpu + i < s.ncpu + 1 at hi
        omega
      rw [hzero]
      exact congrArg some (Function.update_self ..)
    · rw [if_neg hroom]
      refine ⟨rfl, by simp; omega, fun _ _ => rfl, fun i hi => ?_⟩
      exact absurd hi (Nat.not_lt.mpr (Nat.le_add_right _ _))
  · rw [List.filter_cons_of_neg (by simpa using hproc), if_neg hproc]
    rw [if_neg hproc] at h
    obtain ⟨hfixed, -⟩ := Option.ite_none_right_eq_some.mp h
    by_cases hapic : t s.p = MPIOAPIC
    · rw [if_pos hapic]
      exact .nothing hs rfl rfl rfl
    · rw [if_neg hapic, if_pos (hfixed.resolve_left hapic)]
      exact .nothing hs rfl rfl rfl

theorem Recorded.trans {ps qs : List ℕ} {s₁ s' : Scan} (hs : s.ncpu ≤ NCPU)
    (h : Recorded t s ps s₁) (h' : Recorded t s₁ qs s') : Recorded t s (ps ++ qs) s' := by
  have hle := h.ncpu
  have hle' := h'.ncpu
  refine ⟨h'.ismp.trans h.ismp, ?_, fun i hi => ?_, fun i hi => ?_⟩
  · rw [List.length_append]
    omega
  · exact (h'.before i (by omega)).trans (h.before i hi)
  · by_cases hi₁ : s.ncpu + i < s₁.ncpu
    · rw [h'.before _ hi₁, h.after i hi₁, List.getElem?_append_left (by omega)]
    · -- there was room for all of the first ones
      obtain ⟨j, rfl⟩ : ∃ j, i = ps.length + j := ⟨i - ps.length, by omega⟩
      have hsum : s.ncpu + (ps.length + j) = s₁.ncpu + j := by omega
      rw [hsum] at hi ⊢
      rw [h'.after j hi, List.getElem?_append_right (Nat.le_add_right _ _),
        Nat.add_sub_cancel_left]

/-- The loop never leaves an entry of unknown type. -/
theorem scanLoop_unknown (hp : s.p < t.length) (h : entrySize (t s.p) = none) (turns : ℕ) :
    scanLoop t turns s = none := by
  induction turns generalizing s with
  | zero => rfl
  | succ turns ih =>
    rw [scanLoop, if_pos hp, turn_unknown h]
    exact ih hp h

theorem scanLoop_of_unknown {p : ℕ} (hmem : p ∈ entriesFrom t n s.p)
    (h : entrySize (t p) = none) (turns : ℕ) : scanLoop t turns s = none := by
  induction n generalizing s turns with
  | zero => cases hmem
  | succ n ih =>
    rw [entriesFrom] at hmem
    by_cases hp : s.p < t.length
    · rw [if_pos hp] at hmem
      cases hsize : entrySize (t s.p) with
      | none => exact scanLoop_unknown hp hsize turns
      | some k =>
        rw [hsize] at hmem
        obtain ⟨-, hnext⟩ := turn_known hsize
        rcases List.mem_cons.mp hmem with rfl | hlater
        · rw [h] at hsize
          cases hsize
        · rw [← hnext] at hlater
          cases turns with
          | zero => rfl
          | succ turns =>
            rw [scanLoop, if_pos hp]
            exact ih hlater turns
    · rw [if_neg hp] at hmem
      cases hmem

theorem scanLoop_known (hs : s.ncpu ≤ NCPU) (hn : t.length < s.p + n) (hpos : 0 < n)
    (hknown : ∀ p ∈ entriesFrom t n s.p, entrySize (t p) ≠ none) :
    ∃ s', scanLoop t n s = some s' ∧
      Recorded t s ((entriesFrom t n s.p).filter fun p => t p = MPPROC) s' := by
  induction n generalizing s with
  | zero => exact absurd hpos (lt_irrefl 0)
  | succ n ih =>
    rw [entriesFrom] at hknown ⊢
    rw [scanLoop]
    by_cases hp : s.p < t.length
    · rw [if_pos hp] at hknown ⊢
      rw [if_pos hp]
      cases hsize : entrySize (t s.p) with
      | none =>
        rw [hsize] at hknown
        exact absurd hsize (hknown s.p List.mem_cons_self)
      | some k =>
        obtain ⟨hk, hnext⟩ := turn_known hsize
        simp only [hsize, ← hnext] at hknown ⊢
        obtain ⟨s', hloop, hrec⟩ := ih (turn_ncpu_le hs) (by omega) (by omega)
          fun p hmem => hknown p (List.mem_cons_of_mem _ hmem)
        refine ⟨s', hloop, ?_⟩
        rw [← List.singleton_append, List.filter_append]
        exact (turn_recorded hs hsize).trans hs hrec
    · rw [if_neg hp, if_neg hp]
      exact ⟨s, rfl, .nothing hs rfl rfl rfl⟩

/-- More turns do not change what the loop ends with. -/
theorem scanLoop_mono {turns turns' : ℕ} {s' : Scan} (h : scanLoop t turns s = some s')
    (hle : turns ≤ turns') : scanLoop t turns' s = some s' := by
  induction turns generalizing s turns' with
  | zero => cases h
  | succ turns ih =>
    cases turns' with
    | zero => exact absurd hle (Nat.not_succ_le_zero _)
    | succ turns' =>
      rw [scanLoop] at h ⊢
      by_cases hp : s.p < t.length
      · rw [if_pos hp] at h ⊢
        exact ih h (Nat.le_of_succ_le_succ hle)
      · rwa [if_neg hp] at h ⊢

end

/-- On a table that `mpconfig` accepts, `mpinit` ends exactly when the scan meets no entry of
a sixth type. Then it does not panic, and has an entry of `cpus` for each of the first `NCPU`
processors, in the order of the table. In no turn does `ncpu` exceed `NCPU`. -/
theorem mp_scan_ends (t : Table) (cpus : ℕ → BitVec 8) (ioapicid : BitVec 8)
    (hconf : mpconfig t = true) :
    ((∃ turns, (mpinit t cpus ioapicid turns).isSome = true) ↔ t.Known) ∧
    (∀ turns r, mpinit t cpus ioapicid turns = some r → ∃ s, r = .ok s ∧
      s.ncpu = min NCPU t.procs.length ∧
      ∀ i < s.ncpu, some (s.cpus i) = t.procs[i]?.map fun p => t (p + 1)) ∧
    ∀ turns, ((turn t)^[turns] ⟨44, true, 0, cpus, ioapicid⟩).ncpu ≤ NCPU := by
  have hrun (turns : ℕ) : mpinit t cpus ioapicid turns =
      (scanLoop t turns ⟨44, true, 0, cpus, ioapicid⟩).map fun s =>
        if s.ismp then .ok s else .error .notSuitable := if_pos hconf
  have hknown (turns : ℕ) (h : (mpinit t cpus ioapicid turns).isSome = true) : t.Known := by
    intro p hmem hp
    rw [hrun, scanLoop_of_unknown hmem hp] at h
    cases h
  have hloop (h : t.Known) := scanLoop_known (s := ⟨44, true, 0, cpus, ioapicid⟩) (Nat.zero_le _)
    (show t.length < 44 + (t.length + 1) by omega) (Nat.succ_pos _) h
  refine ⟨⟨fun ⟨turns, h⟩ => hknown turns h, fun h => ?_⟩, fun turns r hr => ?_, fun turns => ?_⟩
  · obtain ⟨s, hs, -⟩ := hloop h
    exact ⟨t.length + 1, by rw [hrun, hs]; rfl⟩
  · obtain ⟨s, hs, hrec⟩ := hloop (hknown turns (by rw [hr]; rfl))
    rw [hrun] at hr
    obtain ⟨s₁, hs₁, hr⟩ := Option.map_eq_some_iff.mp hr
    have hsame : s₁ = s := by
      have h := scanLoop_mono hs₁ (le_max_left turns (t.length + 1))
      rw [scanLoop_mono hs (le_max_right turns (t.length + 1))] at h
      exact (Option.some.inj h).symm
    rw [hsame, if_pos hrec.ismp] at hr
    refine ⟨s, hr.symm, ?_, fun i hi => ?_⟩
    · rw [hrec.ncpu, Nat.zero_add]
      rfl
    · have hafter := hrec.after i
      rw [Nat.zero_add] at hafter
      exact hafter hi
  · induction turns with
    | zero => exact Nat.zero_le _
    | succ turns ih =>
      rw [Function.iterate_succ_apply']
      exact turn_ncpu_le ih

/-- The bytes of a table with one entry. -/
def oneEntry (size type checksum : BitVec 8) : Table := fun i =>
  if i = 0 then 0x50 else if i = 1 then 0x43 else if i = 2 then 0x4d else if i = 3 then 0x50
  else if i = 4 then size else if i = 6 then 1 else if i = 7 then checksum
  else if i = 44 then type else 0

/-- A table with one processor. -/
theorem mp_scan_ends_one : ∃ turns s,
    mpinit (oneEntry 64 0 143) (fun _ => 7) 0 turns = some (.ok s) ∧ s.ncpu = 1 := by
  have h := mp_scan_ends (oneEntry 64 0 143) (fun _ => 7) 0 (by decide +kernel)
  obtain ⟨turns, hturns⟩ := h.1.mpr (by unfold Table.Known; decide +kernel)
  obtain ⟨r, hr⟩ := Option.isSome_iff_exists.mp hturns
  obtain ⟨s, rfl, hncpu, -⟩ := h.2.1 turns r hr
  exact ⟨turns, s, hr, hncpu.trans (by decide +kernel)⟩

/-- A table that is accepted and holds one entry of type 5: `mpinit` never returns. -/
theorem mpinit_unknown_entry : mpconfig (oneEntry 45 5 157) = true ∧
    ∀ turns, mpinit (oneEntry 45 5 157) (fun _ => 0) 0 turns = none := by
  have hconf : mpconfig (oneEntry 45 5 157) = true := by decide +kernel
  refine ⟨hconf, fun turns => ?_⟩
  unfold mpinit
  rw [if_pos hconf, scanLoop_unknown (by decide +kernel) (by decide +kernel)]
  rfl

end Xv6Threads.Mp
