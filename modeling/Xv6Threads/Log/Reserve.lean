/-
# What begin_op reserves

`begin_op` admits an operation when `MAXOPBLOCKS` header entries are left for it
and for every operation under way. Runs are taken here in which no operation
logs more blocks than that. The reservation then keeps the header within its
array, whatever the interleaving; but `log_write` asks for more than the
reservation gives, and refuses at `log.size - 1` entries.
-/

import Mathlib.Algebra.Group.Action.Defs
import Mathlib.Algebra.Order.BigOperators.Group.Finset
import Xv6Threads.Lib.PairedCells
import Xv6Threads.Log.Ops

namespace Xv6Threads.Log

open Lib
open Function (update_of_ne update_self)

/-- Absorption: a block already in the header is not entered again. -/
theorem record_eq (l : List BlockNo) (b : BlockNo) :
    record l b = if b ∈ l then l else l ++ [b] := by
  induction l with
  | nil => rfl
  | cons x xs ih =>
    rw [record, ih]
    by_cases hx : x = b
    · simp [hx]
    · have hne : b ≠ x := fun h => hx h.symm
      simp only [if_neg hx, List.mem_cons, hne, false_or]
      split_ifs
      · rfl
      · rfl

theorem mem_record {l : List BlockNo} {b c : BlockNo} : c ∈ record l b ↔ c = b ∨ c ∈ l := by
  rw [record_eq]
  split_ifs with hb
  · constructor
    · exact .inr
    · rintro (rfl | hc)
      · exact hb
      · exact hc
  · rw [List.mem_append, List.mem_singleton, or_comm]

theorem nodup_record {l : List BlockNo} (h : l.Nodup) (b : BlockNo) : (record l b).Nodup := by
  rw [record_eq]
  split_ifs with hb
  · exact h
  · rw [List.nodup_append_comm, List.singleton_append, List.nodup_cons]
    exact ⟨hb, h⟩

variable {P : Type}

/-- No operation logs more than `MAXOPBLOCKS` blocks. -/
def WithinBudget (s : OpsState P) : OpEvent P → Prop
  | .logWrite p b => b ∈ s.used p ∨ (s.used p).card < MAXOPBLOCKS
  | _ => True

instance (s : OpsState P) : DecidablePred (WithinBudget s)
  | .logWrite _ _ => inferInstanceAs (Decidable (_ ∨ _))
  | .beginOp _ | .kicked _ | .logRecord _ | .endOp _ | .commitClear _ | .commitEnd _ =>
    inferInstanceAs (Decidable True)

theorem wakeup_eq_or_woken (phase : P → Phase) (q : P) :
    wakeup phase q = phase q ∨ wakeup phase q = .woken := by
  rw [wakeup]
  split_ifs
  · exact .inr rfl
  · exact .inl rfl

/-- What is left of the entries reserved for a process. -/
def OpsState.reserve (s : OpsState P) (p : P) : ℕ :=
  if (s.phase p).InOp then MAXOPBLOCKS - (s.used p).card else 0

variable [Fintype P]

theorem sum_reserve_le (s : OpsState P) :
    ∑ p, s.reserve p ≤ s.insiders.card * MAXOPBLOCKS := by
  unfold OpsState.reserve
  rw [← Finset.sum_filter, ← smul_eq_mul]
  exact Finset.sum_le_card_nsmul _ _ _ fun p _ => Nat.sub_le ..

/-- The header holds the blocks logged since the last commit, each once, and
leaves room for what the operations under way may still log. -/
structure ReserveOk (s : OpsState P) : Prop where
  nodup : s.block.Nodup
  mem : ∀ b, b ∈ s.block ↔ b ∈ s.logged
  used : ∀ p, (s.phase p).InOp = true → s.used p ⊆ s.logged
  pending : ∀ p b, s.phase p = .logging b → b ∈ s.used p ∨ (s.used p).card < MAXOPBLOCKS
  room : s.block.length + ∑ p, s.reserve p ≤ LOGSIZE

theorem reserveOk_init : ReserveOk (OpsState.init P) where
  nodup := List.nodup_nil
  mem b := by simp [OpsState.init]
  used p h := by simp [OpsState.init]
  pending p b h := nomatch h
  room := by simp [OpsState.init, OpsState.reserve, Phase.InOp]

theorem ReserveOk.card_logged {s : OpsState P} (hi : ReserveOk s) :
    s.logged.card = s.block.length := by
  have hset : s.logged = s.block.toFinset := by
    ext b
    rw [List.mem_toFinset, hi.mem]
  rw [hset, List.toFinset_card_of_nodup hi.nodup]

/-- Steps that leave the header alone and give up reservations at most. -/
theorem ReserveOk.shrink {s s' : OpsState P} (hi : ReserveOk s) (hblock : s'.block = s.block)
    (hlogged : s'.logged = s.logged) (hused : s'.used = s.used)
    (hinop : ∀ q, (s'.phase q).InOp = true → (s.phase q).InOp = true)
    (hpending : ∀ q b, s'.phase q = .logging b →
      b ∈ s.used q ∨ (s.used q).card < MAXOPBLOCKS) : ReserveOk s' := by
  constructor
  case nodup => exact hblock ▸ hi.nodup
  case mem =>
    intro b
    rw [hblock, hlogged, hi.mem]
  case used =>
    intro q hq
    rw [hused, hlogged]
    exact hi.used q (hinop q hq)
  case pending => exact hused ▸ hpending
  case room =>
    have hle : ∑ q, s'.reserve q ≤ ∑ q, s.reserve q := by
      apply Finset.sum_le_sum
      intro q _
      rw [OpsState.reserve, OpsState.reserve, hused]
      split_ifs with hq' hq
      · exact le_rfl
      · exact absurd (hinop q hq') hq
      · exact Nat.zero_le _
      · exact le_rfl
    have hroom := hi.room
    rw [hblock]
    omega

/-- Leaving an operation, with or without waking the sleepers. -/
theorem ReserveOk.left {s s' : OpsState P} {p : P} (hi : ReserveOk s)
    (hblock : s'.block = s.block) (hlogged : s'.logged = s.logged) (hused : s'.used = s.used)
    (hp : (s'.phase p).InOp = false)
    (hother : ∀ q, q ≠ p → s'.phase q = s.phase q ∨ s'.phase q = .woken) : ReserveOk s' := by
  have hphase : ∀ q, (s'.phase q).InOp = true → s'.phase q = s.phase q := by
    intro q hq
    have hqp : q ≠ p := by
      rintro rfl
      rw [hp] at hq
      cases hq
    rcases hother q hqp with h | h
    · exact h
    · rw [h] at hq
      cases hq
  apply hi.shrink hblock hlogged hused
  · intro q hq
    rw [← hphase q hq]
    exact hq
  · intro q b hq
    apply hi.pending
    rw [← hphase q (by rw [hq]; rfl), hq]

variable [DecidableEq P]
variable {s : OpsState P} {p : P} {size : ℤ}

/-- A process moves from outside an operation to elsewhere outside, or along
inside its own. -/
theorem ReserveOk.setPhase {ph : Phase} (hi : ReserveOk s)
    (hinop : ph.InOp = true → (s.phase p).InOp = true)
    (hpending : ∀ b, ph = .logging b → b ∈ s.used p ∨ (s.used p).card < MAXOPBLOCKS) :
    ReserveOk (s.setPhase p ph) := by
  refine hi.shrink rfl rfl rfl ?_ ?_
  · intro q hq
    by_cases hqp : q = p
    · rw [hqp]
      apply hinop
      simpa [OpsState.setPhase, hqp] using hq
    · simpa [OpsState.setPhase, hqp] using hq
  · intro q b hq
    by_cases hqp : q = p
    · rw [hqp]
      apply hpending
      simpa [OpsState.setPhase, hqp] using hq
    · apply hi.pending
      simpa [OpsState.setPhase, hqp] using hq

/-- The admission test pays for the whole reservation of the new operation. -/
theorem ReserveOk.admitted (hi : ReserveOk s) (hops : OpsOk s)
    (hp : s.phase p = .idle ∨ s.phase p = .woken)
    (hroom : s.block.length + (s.outstanding + 1) * MAXOPBLOCKS ≤ (LOGSIZE : ℤ)) :
    ReserveOk (s.enter p) := by
  constructor
  case nodup => exact hi.nodup
  case mem => exact hi.mem
  case used =>
    intro q hq
    by_cases hqp : q = p
    · simp [OpsState.enter, hqp]
    · simp only [OpsState.enter, update_of_ne hqp] at hq ⊢
      exact hi.used q hq
  case pending =>
    intro q b hq
    by_cases hqp : q = p
    · simp [OpsState.enter, hqp] at hq
    · simp only [OpsState.enter, update_of_ne hqp] at hq ⊢
      exact hi.pending q b hq
  case room =>
    have hsum := sum_change_one (a := p) (f := (s.enter p).reserve) (g := s.reserve)
      fun q hq => by simp [OpsState.reserve, OpsState.enter, hq]
    have hbefore : s.reserve p = 0 := by
      rcases hp with hp | hp <;> simp [OpsState.reserve, hp, Phase.InOp]
    have hafter : (s.enter p).reserve p = MAXOPBLOCKS := by
      simp [OpsState.reserve, OpsState.enter, Phase.InOp]
    have hpaid := sum_reserve_le s
    rw [hops.count, add_one_mul] at hroom
    rw [hbefore, hafter] at hsum
    change s.block.length + _ ≤ _
    omega

/-- A block is entered at the cost of one reserved entry, or absorbed. -/
theorem ReserveOk.recorded {b : BlockNo} (hi : ReserveOk s) (hp : s.phase p = .logging b) :
    ReserveOk (s.store p b) := by
  have hin : (s.phase p).InOp = true := by
    rw [hp]
    rfl
  constructor
  case nodup => exact nodup_record hi.nodup b
  case mem =>
    intro c
    rw [OpsState.store, mem_record, Finset.mem_insert, hi.mem]
  case used =>
    intro q hq
    by_cases hqp : q = p
    · subst hqp
      simp only [OpsState.store, update_self]
      exact Finset.insert_subset_insert b (hi.used q hin)
    · simp only [OpsState.store, update_of_ne hqp] at hq ⊢
      exact (hi.used q hq).trans (Finset.subset_insert b _)
  case pending =>
    intro q c hq
    by_cases hqp : q = p
    · simp [OpsState.store, hqp] at hq
    · simp only [OpsState.store, update_of_ne hqp] at hq ⊢
      exact hi.pending q c hq
  case room =>
    have hsum := sum_change_one (a := p) (f := (s.store p b).reserve) (g := s.reserve)
      fun q hq => by simp [OpsState.reserve, OpsState.store, hq]
    have hbefore : s.reserve p = MAXOPBLOCKS - (s.used p).card := by
      rw [OpsState.reserve, if_pos hin]
    have hafter : (s.store p b).reserve p = MAXOPBLOCKS - (insert b (s.used p)).card := by
      simp [OpsState.reserve, OpsState.store, Phase.InOp]
    have hroom := hi.room
    have hgrow := Finset.card_le_card (Finset.subset_insert b (s.used p))
    rw [hbefore, hafter] at hsum
    change (record s.block b).length + _ ≤ _
    have hlength := congrArg List.length (record_eq s.block b)
    by_cases hmem : b ∈ s.block
    · rw [if_pos hmem] at hlength
      omega
    · -- a block new to the header is new to its operation, which had an entry left
      have hnew : b ∉ s.used p := fun hb => hmem ((hi.mem b).mpr (hi.used p hin hb))
      have hleft : (s.used p).card < MAXOPBLOCKS := (hi.pending p b hp).resolve_left hnew
      rw [Finset.card_insert_of_notMem hnew] at hsum
      rw [if_neg hmem, List.length_append, List.length_singleton] at hlength
      omega

theorem ReserveOk.step {s' : OpsState P} {e : OpEvent P} (hi : ReserveOk s) (hops : OpsOk s)
    (hbudget : WithinBudget s e) (hstep : OpStep size s e s') :
    ReserveOk s' := by
  cases opStep_effect hstep with
  | slept hp hfull | kicked hp => exact hi.setPhase (fun h => by cases h) fun _ h => by cases h
  | admitted hp hfree hroom => exact hi.admitted hops hp hroom
  | checked hp =>
    refine hi.setPhase (fun _ => by rw [hp]; rfl) ?_
    intro c hc
    cases hc
    exact hbudget
  | recorded hp hfits => exact hi.recorded hp
  | last hp hfree hlast =>
    rename_i p
    refine hi.left (p := p) rfl rfl rfl (by simp [Phase.InOp]) ?_
    intro q hq
    simp [hq]
  | ended hp hfree hmore =>
    rename_i p
    refine hi.left (p := p) rfl rfl rfl (by simp [Phase.InOp]) ?_
    intro q hq
    simp only [update_of_ne hq]
    exact wakeup_eq_or_woken s.phase q
  | cleared hp =>
    rename_i p
    have hnobody := hops.alone (hops.commits p (by rw [hp]; rfl))
    have hout : ∀ q, ((commitClear s p).phase q).InOp = false := by
      intro q
      by_cases hq : q = p
      · simp [commitClear, hq, Phase.InOp]
      · simp [commitClear, hq, hnobody q]
    constructor
    case nodup => exact List.nodup_nil
    case mem => simp [commitClear]
    case used =>
      intro q hq
      rw [hout q] at hq
      cases hq
    case pending =>
      intro q b hq
      have := hout q
      rw [hq] at this
      cases this
    case room =>
      have hnone : ∑ q, (commitClear s p).reserve q = 0 := by
        apply Finset.sum_eq_zero
        intro q _
        rw [OpsState.reserve, hout q]
        rfl
      rw [hnone]
      exact Nat.zero_le _
  | finished hp =>
    rename_i p
    refine hi.left (p := p) rfl rfl rfl (by simp [commitEnd, Phase.InOp]) ?_
    intro q hq
    simp only [commitEnd, update_of_ne hq]
    exact wakeup_eq_or_woken s.phase q

theorem reserveOk_of_reachableBy (h : ReachableBy (OpStep size) WithinBudget (OpsState.init P) s) :
    ReserveOk s :=
  h.invariant reserveOk_init fun _ _ _ hreach hi hgood hstep =>
    hi.step (opsOk_of_reachable hreach.reachable) hgood hstep

/-- The header array is large enough for every run that keeps to the budget. -/
theorem logRecord_ne_overflow {b : BlockNo}
    (h : ReachableBy (OpStep size) WithinBudget (OpsState.init P) s) (hp : s.phase p = .logging b) :
    logRecord s p b ≠ .error .overflow := by
  have hroom := ((reserveOk_of_reachableBy h).recorded hp).room
  have hfits : ¬LOGSIZE < (record s.block b).length := by
    change (record s.block b).length + _ ≤ _ at hroom
    omega
  rw [logRecord, if_neg hfits]
  intro h
  cases h

/-- What `log_write` asks of the header, in terms of the blocks logged. -/
theorem logCheck_ok_iff (h : ReachableBy (OpStep size) WithinBudget (OpsState.init P) s)
    (hp : s.phase p = .inside) :
    logCheck size s = .ok () ↔ s.logged.card < LOGSIZE ∧ (s.logged.card : ℤ) < size - 1 := by
  have hops := opsOk_of_reachable h.reachable
  have hinside : ¬s.outstanding < 1 := by
    have hmem : p ∈ s.insiders := mem_insiders.mpr (by rw [hp]; rfl)
    have hpos := Finset.card_pos.mpr ⟨p, hmem⟩
    have hcount := hops.count
    omega
  rw [(reserveOk_of_reachableBy h).card_logged, logCheck, if_neg hinside]
  split_ifs with hbig
  · constructor
    · intro h
      cases h
    · omega
  · simp only [true_iff]
    omega

/-- With the log `mkfs` lays out, `log_write` goes through exactly while fewer
than `LOGSIZE - 1` blocks have been logged since the last commit, and what goes
through has room in the header array. -/
theorem log_write_passes_iff {s : OpsState P}
    (h : ReachableBy (OpStep nlog) WithinBudget (OpsState.init P) s) :
    (∀ p, s.phase p = .inside → (logCheck nlog s = .ok () ↔ s.logged.card < LOGSIZE - 1)) ∧
      ∀ p b, s.phase p = .logging b → logRecord s p b ≠ .error .overflow := by
  refine ⟨?_, fun _ _ hp => logRecord_ne_overflow h hp⟩
  intro p hp
  rw [logCheck_ok_iff h hp, nlog]
  omega

/-- Two operations log one block, the second time by absorption. -/
theorem log_write_passes_iff_absorbed : ∃ s : OpsState (Fin 2),
    ReachableBy (OpStep nlog) WithinBudget (OpsState.init (Fin 2)) s ∧ s.phase 0 = .inside ∧
      s.logged.card < LOGSIZE - 1 ∧ logCheck nlog s = .ok () := by
  have hrun : ∃ s : OpsState (Fin 2),
      ReachableBy (OpStep nlog) WithinBudget (OpsState.init (Fin 2)) s ∧
        s.phase 0 = .inside ∧ s.logged.card < LOGSIZE - 1 :=
    exists_reachableBy
      [.beginOp 0, .beginOp 1, .logWrite 0 7, .logWrite 1 7, .logRecord 1, .logRecord 0]
      (by decide +kernel)
  obtain ⟨s, hreach, hinside, hfew⟩ := hrun
  exact ⟨s, hreach, hinside, hfew, ((log_write_passes_iff hreach).1 0 hinside).mpr hfew⟩

/-- Three operations of ten blocks each are admitted together, and the last
block any of them logs finds the header full. -/
theorem full_reservation_panics : ∃ s : OpsState (Fin 3),
    ReachableBy (OpStep nlog) WithinBudget (OpsState.init (Fin 3)) s ∧
      s.phase 2 = .inside ∧ (s.used 2).card = MAXOPBLOCKS - 1 ∧
      WithinBudget s (.logWrite 2 29) ∧ logCheck nlog s = .error .tooBig :=
  exists_reachableBy
    ([.beginOp 0, .beginOp 1, .beginOp 2] ++ (List.range 29).flatMap fun i =>
      [.logWrite (Fin.ofNat 3 (i / 10)) (BitVec.ofNat 32 i), .logRecord (Fin.ofNat 3 (i / 10))])
    (by decide +kernel)

end Xv6Threads.Log
