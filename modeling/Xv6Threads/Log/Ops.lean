/-
# Operations on the log

`begin_op`, `log_write` and `end_op` by any number of processes, cut where
`log.lock` is released. `begin_op` is a loop whose turns hold the lock;
`log_write` reads `log.lh.n` and `log.outstanding` before it takes the lock, so
its checks and its critical section are two steps; the last `end_op` runs
`commit` between two critical sections, without the lock.

The state keeps two sets that have no counterpart in memory: the blocks each
operation has logged, and the blocks logged since the last commit.
-/

import Mathlib.Data.Fintype.Card
import Xv6Threads.Lib.PairedCells
import Xv6Threads.Lib.Transition
import Xv6Threads.Log.Basic

namespace Xv6Threads.Log

open Lib
open Function (update update_of_ne)

/-- Where a process stands. `asleep` and `woken` are inside the loop of
`begin_op`; `logging` is `log_write` past its checks; `commit` and `cleared` are
the end of the last `end_op`, before and after `commit` sets `log.lh.n` to 0. -/
inductive Phase
  | idle
  | asleep
  | woken
  | inside
  | logging (b : BlockNo)
  | commit
  | cleared
  deriving DecidableEq

/-- Between `begin_op` and `end_op`. -/
def Phase.InOp : Phase → Bool
  | .inside => true
  | .logging _ => true
  | _ => false

/-- Inside `commit`, or on the way out of it. -/
def Phase.InCommit : Phase → Bool
  | .commit => true
  | .cleared => true
  | _ => false

/-- `struct log` without its constant fields, and the processes that use it.
`block` is the in-memory header, its length `log.lh.n`. -/
structure OpsState (P : Type) where
  outstanding : ℤ
  committing : Bool
  block : List BlockNo
  phase : P → Phase
  -- the blocks logged by the operation a process is in
  used : P → Finset BlockNo
  -- the blocks logged since the last commit
  logged : Finset BlockNo

/-- Once `initlog` has returned. -/
def OpsState.init (P : Type) : OpsState P := ⟨0, false, [], fun _ => .idle, fun _ => ∅, ∅⟩

/-- The panics of `log.c` but the one at boot, and the store past the end of
`log.lh.block`, which the code does not guard against. -/
inductive LogPanic
  | tooBig
  | outsideTrans
  | committing
  | overflow
  deriving DecidableEq

/-- The size of the log in blocks as `mkfs` writes it to the superblock. -/
def nlog : ℤ := LOGSIZE

section Functions

variable {P : Type}

/-- `wakeup(&log)`. -/
def wakeup (phase : P → Phase) : P → Phase :=
  fun q => if phase q = .asleep then .woken else phase q

theorem wakeup_ne_asleep (phase : P → Phase) (q : P) : wakeup phase q ≠ .asleep := by
  rw [wakeup]
  split_ifs with h
  · exact Phase.noConfusion
  · exact h

theorem inOp_wakeup (phase : P → Phase) (q : P) : (wakeup phase q).InOp = (phase q).InOp := by
  rw [wakeup]
  split_ifs with h
  · rw [h]
    rfl
  · rfl

theorem inCommit_wakeup (phase : P → Phase) (q : P) :
    (wakeup phase q).InCommit = (phase q).InCommit := by
  rw [wakeup]
  split_ifs with h
  · rw [h]
    rfl
  · rfl

variable [DecidableEq P]

/-- After a wakeup nobody sleeps. -/
theorem not_asleep_of_wakeup {phase : P → Phase} {p q : P} :
    update (wakeup phase) p .idle q ≠ .asleep := by
  by_cases hq : q = p
  · simp [hq]
  · rw [update_of_ne hq]
    exact wakeup_ne_asleep phase q

def OpsState.setPhase (s : OpsState P) (p : P) (ph : Phase) : OpsState P :=
  { s with phase := update s.phase p ph }

/-- `log.outstanding += 1`, and the process is inside a new operation. -/
def OpsState.enter (s : OpsState P) (p : P) : OpsState P :=
  { s with
    phase := update s.phase p .inside
    outstanding := s.outstanding + 1
    used := update s.used p ∅ }

/-- One turn of the loop of `begin_op`. -/
def beginOp (s : OpsState P) (p : P) : OpsState P :=
  if s.committing then s.setPhase p .asleep
  else if s.block.length + (s.outstanding + 1) * MAXOPBLOCKS > LOGSIZE then
    s.setPhase p .asleep
  else s.enter p

/-- The checks of `log_write`. -/
def logCheck (size : ℤ) (s : OpsState P) : Except LogPanic Unit :=
  if s.block.length ≥ LOGSIZE ∨ (s.block.length : ℤ) ≥ size - 1 then .error .tooBig
  else if s.outstanding < 1 then .error .outsideTrans
  else .ok ()

/-- The loop of `log_write`: find the block or the end, and store it there. -/
def record : List BlockNo → BlockNo → List BlockNo
  | [], b => [b]
  | x :: xs, b => if x = b then b :: xs else x :: record xs b

/-- The header with a block stored, and the process back from `log_write`. -/
def OpsState.store (s : OpsState P) (p : P) (b : BlockNo) : OpsState P :=
  { s with
    phase := update s.phase p .inside
    block := record s.block b
    used := update s.used p (insert b (s.used p))
    logged := insert b s.logged }

/-- The critical section of `log_write`. -/
def logRecord (s : OpsState P) (p : P) (b : BlockNo) : Except LogPanic (OpsState P) :=
  if LOGSIZE < (record s.block b).length then .error .overflow
  else .ok (s.store p b)

/-- The first critical section of `end_op`. -/
def endOp (s : OpsState P) (p : P) : Except LogPanic (OpsState P) :=
  let s := { s with outstanding := s.outstanding - 1 }
  if s.committing then .error .committing
  else if s.outstanding = 0 then
    .ok { s with phase := update s.phase p .commit, committing := true }
  else .ok { s with phase := update (wakeup s.phase) p .idle }

/-- `log.lh.n = 0` in `commit`. -/
def commitClear (s : OpsState P) (p : P) : OpsState P :=
  { s with phase := update s.phase p .cleared, block := [], logged := ∅ }

/-- The second critical section of the last `end_op`. -/
def commitEnd (s : OpsState P) (p : P) : OpsState P :=
  { s with committing := false, phase := update (wakeup s.phase) p .idle }

/-- The steps. `kicked` is a sleeper made runnable by `kill`: it looks again, as
if it had been woken. -/
inductive OpEvent (P : Type)
  | beginOp (p : P)
  | kicked (p : P)
  | logWrite (p : P) (b : BlockNo)
  | logRecord (p : P)
  | endOp (p : P)
  | commitClear (p : P)
  | commitEnd (p : P)

/-- The state after a step, if the step can happen and does not panic. `size` is
`log.size`. -/
def opNext (size : ℤ) (s : OpsState P) : OpEvent P → Option (OpsState P)
  | .beginOp p =>
    if s.phase p = .idle ∨ s.phase p = .woken then some (beginOp s p) else none
  | .kicked p => if s.phase p = .asleep then some (s.setPhase p .woken) else none
  | .logWrite p b =>
    if s.phase p = .inside then
      (logCheck size s).toOption.map fun _ => s.setPhase p (.logging b)
    else none
  | .logRecord p =>
    match s.phase p with
    | .logging b => (logRecord s p b).toOption
    | _ => none
  | .endOp p => if s.phase p = .inside then (endOp s p).toOption else none
  | .commitClear p => if s.phase p = .commit then some (commitClear s p) else none
  | .commitEnd p => if s.phase p = .cleared then some (commitEnd s p) else none

def OpStep (size : ℤ) (s : OpsState P) (e : OpEvent P) (s' : OpsState P) : Prop :=
  opNext size s e = some s'

/-- A step of `log_write`. -/
def OpEvent.isLogWrite : OpEvent P → Bool
  | .logWrite _ _ => true
  | .logRecord _ => true
  | _ => false

/-! ## What a step does -/

/-- The effects of a step. -/
inductive OpEffect (s : OpsState P) : OpEvent P → OpsState P → Prop
  | slept {p : P} (hp : s.phase p = .idle ∨ s.phase p = .woken)
      (hfull : s.committing = true ∨
        (LOGSIZE : ℤ) < s.block.length + (s.outstanding + 1) * MAXOPBLOCKS) :
      OpEffect s (.beginOp p) (s.setPhase p .asleep)
  | admitted {p : P} (hp : s.phase p = .idle ∨ s.phase p = .woken)
      (hfree : s.committing = false)
      (hroom : s.block.length + (s.outstanding + 1) * MAXOPBLOCKS ≤ (LOGSIZE : ℤ)) :
      OpEffect s (.beginOp p) (s.enter p)
  | kicked {p : P} (hp : s.phase p = .asleep) : OpEffect s (.kicked p) (s.setPhase p .woken)
  | checked {p : P} {b : BlockNo} (hp : s.phase p = .inside) :
      OpEffect s (.logWrite p b) (s.setPhase p (.logging b))
  | recorded {p : P} {b : BlockNo} (hp : s.phase p = .logging b)
      (hfits : (record s.block b).length ≤ LOGSIZE) :
      OpEffect s (.logRecord p) (s.store p b)
  | last {p : P} (hp : s.phase p = .inside) (hfree : s.committing = false)
      (hlast : s.outstanding - 1 = 0) :
      OpEffect s (.endOp p)
        { s with
          phase := update s.phase p .commit
          outstanding := s.outstanding - 1
          committing := true }
  | ended {p : P} (hp : s.phase p = .inside) (hfree : s.committing = false)
      (hmore : s.outstanding - 1 ≠ 0) :
      OpEffect s (.endOp p)
        { s with
          phase := update (wakeup s.phase) p .idle
          outstanding := s.outstanding - 1 }
  | cleared {p : P} (hp : s.phase p = .commit) : OpEffect s (.commitClear p) (commitClear s p)
  | finished {p : P} (hp : s.phase p = .cleared) : OpEffect s (.commitEnd p) (commitEnd s p)

theorem opStep_effect {size : ℤ} {s s' : OpsState P} {e : OpEvent P} (h : OpStep size s e s') :
    OpEffect s e s' := by
  cases e with
  | beginOp p =>
    rw [OpStep, opNext] at h
    split_ifs at h with hp
    rw [← Option.some.inj h, beginOp]
    split_ifs with hbusy hfull
    · exact .slept hp (.inl hbusy)
    · exact .slept hp (.inr hfull)
    · exact .admitted hp (by simpa using hbusy) (by simpa using hfull)
  | kicked p =>
    rw [OpStep, opNext] at h
    split_ifs at h with hp
    rw [← Option.some.inj h]
    exact .kicked hp
  | logWrite p b =>
    rw [OpStep, opNext] at h
    split_ifs at h with hp
    obtain ⟨_, -, rfl⟩ := Option.map_eq_some_iff.mp h
    exact .checked hp
  | logRecord p =>
    rw [OpStep, opNext] at h
    split at h
    · rename_i b hp
      rw [logRecord] at h
      split_ifs at h with hfits
      · cases h
      · rw [← Option.some.inj h]
        exact .recorded hp (Nat.le_of_not_lt hfits)
    · cases h
  | endOp p =>
    rw [OpStep, opNext] at h
    split_ifs at h with hp
    rw [endOp] at h
    dsimp only at h
    split_ifs at h with hbusy hlast
    · cases h
    · rw [← Option.some.inj h]
      exact .last hp (by simpa using hbusy) hlast
    · rw [← Option.some.inj h]
      exact .ended hp (by simpa using hbusy) hlast
  | commitClear p =>
    rw [OpStep, opNext] at h
    split_ifs at h with hp
    rw [← Option.some.inj h]
    exact .cleared hp
  | commitEnd p =>
    rw [OpStep, opNext] at h
    split_ifs at h with hp
    rw [← Option.some.inj h]
    exact .finished hp

end Functions

/-! ## Operations and commits do not mix -/

section Safety

variable {P : Type} [Fintype P]
variable {s : OpsState P} {p : P}

/-- The processes inside an operation. -/
def OpsState.insiders (s : OpsState P) : Finset P := Finset.univ.filter fun p => (s.phase p).InOp

/-- Why a process may sleep in `begin_op`. -/
def OpsState.Full (s : OpsState P) : Prop :=
  s.committing = true ∨ (LOGSIZE : ℤ) < s.block.length + (s.outstanding + 1) * MAXOPBLOCKS

/-- The counters match the processes, and whoever sleeps has a reason to. -/
structure OpsOk (s : OpsState P) : Prop where
  count : s.outstanding = s.insiders.card
  alone : s.committing = true → ∀ p, (s.phase p).InOp = false
  commits : ∀ p, (s.phase p).InCommit = true → s.committing = true
  one : ∀ p q, (s.phase p).InCommit = true → (s.phase q).InCommit = true → p = q
  asleep : ∀ p, s.phase p = .asleep → s.Full

theorem opsOk_init : OpsOk (OpsState.init P) := by
  constructor
  case count => simp [OpsState.init, OpsState.insiders, Phase.InOp]
  all_goals simp [OpsState.init, Phase.InCommit]

theorem mem_insiders : p ∈ s.insiders ↔ (s.phase p).InOp = true := by
  simp [OpsState.insiders]

theorem insiders_congr {s' : OpsState P} (h : ∀ q, (s'.phase q).InOp = (s.phase q).InOp) :
    s'.insiders = s.insiders := by
  ext q
  rw [mem_insiders, mem_insiders, h]

/-- A process enters. -/
theorem card_insiders_enter {t : OpsState P} (hp : (s.phase p).InOp = false)
    (hp' : (t.phase p).InOp = true) (hother : ∀ q, q ≠ p → (t.phase q).InOp = (s.phase q).InOp) :
    (t.insiders.card : ℤ) = s.insiders.card + 1 := by
  classical
  have hcount := card_filter_change_one (a := p) (p := fun q => (t.phase q).InOp = true)
    (q := fun q => (s.phase q).InOp = true) fun q hq => by rw [hother q hq]
  rw [if_pos hp', if_neg (by simp [hp]), add_zero] at hcount
  exact_mod_cast hcount

/-- While the flag is down, nobody is in `commit`. -/
theorem OpsOk.not_inCommit (hi : OpsOk s) (hfree : s.committing = false) (q : P) :
    (s.phase q).InCommit = false := by
  by_contra hq
  rw [Bool.not_eq_false] at hq
  rw [hi.commits q hq] at hfree
  cases hfree

/-- A state nobody commits in is in order as soon as the count and the sleepers are. -/
theorem opsOk_of_free (hcount : s.outstanding = s.insiders.card) (hfree : s.committing = false)
    (hnone : ∀ q, (s.phase q).InCommit = false) (hasleep : ∀ q, s.phase q = .asleep → s.Full) :
    OpsOk s where
  count := hcount
  alone h := by
    rw [hfree] at h
    cases h
  commits q hq := by
    rw [hnone q] at hq
    cases hq
  one q r hq := by
    rw [hnone q] at hq
    cases hq
  asleep := hasleep

/-- A step of one process that neither enters nor leaves and touches no flag. -/
theorem OpsOk.moved {s' : OpsState P} (hi : OpsOk s)
    (hother : ∀ q, q ≠ p → s'.phase q = s.phase q) (hinop : (s'.phase p).InOp = (s.phase p).InOp)
    (hincommit : (s'.phase p).InCommit = (s.phase p).InCommit)
    (hasleep : s'.phase p = .asleep → s.Full) (hout : s'.outstanding = s.outstanding)
    (hcommitting : s'.committing = s.committing) (hfull : s.Full → s'.Full) : OpsOk s' := by
  have hin : ∀ q, (s'.phase q).InOp = (s.phase q).InOp := by
    intro q
    by_cases hq : q = p
    · rw [hq, hinop]
    · rw [hother q hq]
  have hcommit : ∀ q, (s'.phase q).InCommit = (s.phase q).InCommit := by
    intro q
    by_cases hq : q = p
    · rw [hq, hincommit]
    · rw [hother q hq]
  constructor
  case count => rw [hout, hi.count, insiders_congr hin]
  case alone =>
    intro hbusy q
    rw [hin]
    exact hi.alone (hcommitting ▸ hbusy) q
  case commits =>
    intro q hq
    rw [hcommitting]
    exact hi.commits q (hcommit q ▸ hq)
  case one =>
    intro q r hq hr
    exact hi.one q r (hcommit q ▸ hq) (hcommit r ▸ hr)
  case asleep =>
    intro q hq
    apply hfull
    by_cases hqp : q = p
    · exact hasleep (hqp ▸ hq)
    · exact hi.asleep q (hother q hqp ▸ hq)

theorem length_le_record (l : List BlockNo) (b : BlockNo) : l.length ≤ (record l b).length := by
  induction l with
  | nil => exact Nat.zero_le _
  | cons x xs ih =>
    rw [record]
    split_ifs
    · exact le_rfl
    · simpa using ih

variable [DecidableEq P]
variable {s : OpsState P} {p : P}

theorem OpsOk.admitted (hi : OpsOk s) (hp : s.phase p = .idle ∨ s.phase p = .woken)
    (hfree : s.committing = false) :
    OpsOk (s.enter p) := by
  apply opsOk_of_free
  case hfree => exact hfree
  case hcount =>
    rw [card_insiders_enter (s := s) (p := p), ← hi.count]
    · rfl
    · rcases hp with hp | hp <;> rw [hp] <;> rfl
    · simp [OpsState.enter, Phase.InOp]
    · intro q hq
      simp [OpsState.enter, hq]
  case hnone =>
    intro q
    by_cases hq : q = p
    · simp [OpsState.enter, hq, Phase.InCommit]
    · simp [OpsState.enter, hq, hi.not_inCommit hfree q]
  case hasleep =>
    intro q hq
    have hqp : q ≠ p := by
      rintro rfl
      simp [OpsState.enter] at hq
    have hold : s.Full := by
      apply hi.asleep q
      simpa [OpsState.enter, hqp] using hq
    -- a sleeper that lacked room lacks even more of it now
    refine hold.imp_right fun hfull => ?_
    have hmore : (s.outstanding + 1 + 1) * (MAXOPBLOCKS : ℤ) =
        (s.outstanding + 1) * MAXOPBLOCKS + MAXOPBLOCKS := add_one_mul ..
    dsimp only [OpsState.enter]
    omega

/-- The last operation ends: the flag goes up with nobody left inside. -/
theorem OpsOk.last (hi : OpsOk s) (hp : s.phase p = .inside) (hfree : s.committing = false)
    (hlast : s.outstanding - 1 = 0) :
    OpsOk { s with
      phase := update s.phase p .commit
      outstanding := s.outstanding - 1
      committing := true } := by
  have hcard : s.insiders.card = 1 := by
    have := hi.count
    omega
  have honly : s.insiders = {p} := by
    obtain ⟨q, hq⟩ := Finset.card_eq_one.mp hcard
    have hmem : p ∈ s.insiders := mem_insiders.mpr (by rw [hp]; rfl)
    rw [hq, Finset.mem_singleton] at hmem
    rw [hq, hmem]
  have hout : ∀ q, (update s.phase p .commit q).InOp = false := by
    intro q
    by_cases hq : q = p
    · simp [hq, Phase.InOp]
    · rw [update_of_ne hq, ← Bool.not_eq_true, ← mem_insiders, honly]
      simpa using hq
  have hcommit : ∀ q, (update s.phase p .commit q).InCommit = true → q = p := by
    intro q hq
    by_contra hqp
    rw [update_of_ne hqp, hi.not_inCommit hfree q] at hq
    cases hq
  constructor
  case count =>
    have hempty : OpsState.insiders { s with
        phase := update s.phase p .commit
        outstanding := s.outstanding - 1
        committing := true } = ∅ := by
      ext q
      simp [mem_insiders, hout q]
    rw [hempty]
    exact hlast
  case alone => exact fun _ => hout
  case commits => exact fun _ _ => rfl
  case one =>
    intro q r hq hr
    rw [hcommit q hq, hcommit r hr]
  case asleep => exact fun _ _ => .inl rfl

/-- Another operation is still running. -/
theorem OpsOk.ended (hi : OpsOk s) (hp : s.phase p = .inside) (hfree : s.committing = false) :
    OpsOk { s with
      phase := update (wakeup s.phase) p .idle
      outstanding := s.outstanding - 1 } := by
  apply opsOk_of_free
  case hfree => exact hfree
  case hcount =>
    -- read backwards, the process enters
    have henter := card_insiders_enter (s := { s with
      phase := update (wakeup s.phase) p .idle
      outstanding := s.outstanding - 1 }) (t := s) (p := p) (by simp [Phase.InOp])
      (by rw [hp]; rfl) fun q hq => by simp [hq, inOp_wakeup]
    have hcount := hi.count
    dsimp only
    omega
  case hnone =>
    intro q
    by_cases hq : q = p
    · simp [hq, Phase.InCommit]
    · simp [hq, inCommit_wakeup, hi.not_inCommit hfree q]
  case hasleep => exact fun q hq => absurd hq not_asleep_of_wakeup

/-- The commit is over. -/
theorem OpsOk.finished (hi : OpsOk s) (hp : s.phase p = .cleared) : OpsOk (commitEnd s p) := by
  have hpcommit : (s.phase p).InCommit = true := by
    rw [hp]
    rfl
  apply opsOk_of_free
  case hfree => rfl
  case hcount =>
    rw [insiders_congr (s := s)]
    · exact hi.count
    · intro q
      by_cases hq : q = p
      · simp [hq, hp, commitEnd, Phase.InOp]
      · simp [hq, commitEnd, inOp_wakeup]
  case hnone =>
    intro q
    by_cases hq : q = p
    · simp [hq, commitEnd, Phase.InCommit]
    · simp only [commitEnd, update_of_ne hq, inCommit_wakeup, ← Bool.not_eq_true]
      exact fun hcommit => hq (hi.one q p hcommit hpcommit)
  case hasleep => exact fun q hq => absurd hq not_asleep_of_wakeup

theorem OpsOk.step {size : ℤ} {s' : OpsState P} {e : OpEvent P} (hi : OpsOk s)
    (hstep : OpStep size s e s') : OpsOk s' := by
  cases opStep_effect hstep with
  | slept hp hfull =>
    refine hi.moved (fun q hq => update_of_ne hq ..) ?_ ?_ (fun _ => hfull) rfl rfl id
    · rcases hp with hp | hp <;> simp [OpsState.setPhase, hp, Phase.InOp]
    · rcases hp with hp | hp <;> simp [OpsState.setPhase, hp, Phase.InCommit]
  | admitted hp hfree hroom => exact hi.admitted hp hfree
  | kicked hp | checked hp =>
    refine hi.moved (fun q hq => update_of_ne hq ..) ?_ ?_ ?_ rfl rfl id
    · simp [OpsState.setPhase, hp, Phase.InOp]
    · simp [OpsState.setPhase, hp, Phase.InCommit]
    · simp [OpsState.setPhase]
  | recorded hp hfits =>
    rename_i p b
    refine hi.moved (p := p) (fun q hq => update_of_ne hq ..) ?_ ?_ ?_ rfl rfl ?_
    · simp [OpsState.store, hp, Phase.InOp]
    · simp [OpsState.store, hp, Phase.InCommit]
    · simp [OpsState.store]
    · -- the header only grows
      refine fun hfull => hfull.imp_right fun hfull => ?_
      have := length_le_record s.block b
      dsimp only [OpsState.store]
      omega
  | last hp hfree hlast => exact hi.last hp hfree hlast
  | ended hp hfree hmore => exact hi.ended hp hfree
  | cleared hp =>
    rename_i p
    have hbusy := hi.commits p (by rw [hp]; rfl)
    refine hi.moved (p := p) (fun q hq => update_of_ne hq ..) ?_ ?_
      (fun _ => .inl hbusy) rfl rfl fun _ => .inl hbusy
    · simp [commitClear, hp, Phase.InOp]
    · simp [commitClear, hp, Phase.InCommit]
  | finished hp => exact hi.finished hp

theorem opsOk_of_reachable {size : ℤ} (h : Reachable (OpStep size) (OpsState.init P) s) : OpsOk s :=
  h.invariant opsOk_init fun _ _ _ _ hi _ hstep => hi.step hstep

/-- `outstanding` counts the processes inside an operation. A commit has nobody
inside: an operation that ends never finds one under way, no two processes
commit, no step of `log_write` happens meanwhile. A process asleep in `begin_op`
is one that would be sent to sleep again. -/
theorem log_ops_ordered {size : ℤ} {s : OpsState P}
    (h : Reachable (OpStep size) (OpsState.init P) s) :
    s.outstanding = s.insiders.card ∧
      (s.committing = true → s.outstanding = 0) ∧
      (∀ p, s.phase p = .inside → endOp s p ≠ .error .committing) ∧
      (∀ p q, (s.phase p).InCommit = true → (s.phase q).InCommit = true → p = q) ∧
      (∀ p, (s.phase p).InCommit = true →
        ∀ e s', OpStep size s e s' → e.isLogWrite = false) ∧
      ∀ p, s.phase p = .asleep → s.committing = true ∨
        (LOGSIZE : ℤ) < s.block.length + (s.outstanding + 1) * MAXOPBLOCKS := by
  have hi := opsOk_of_reachable h
  refine ⟨hi.count, ?_, ?_, hi.one, ?_, hi.asleep⟩
  · intro hbusy
    rw [hi.count]
    have hnobody : s.insiders = ∅ := by
      ext p
      simp [mem_insiders, hi.alone hbusy p]
    simp [hnobody]
  · intro p hp
    have hfree : s.committing = false := by
      by_contra hbusy
      have hout := hi.alone (by simpa using hbusy) p
      rw [hp] at hout
      cases hout
    simp only [endOp, hfree, Bool.false_eq_true, if_false]
    split_ifs
    · intro h
      cases h
    · intro h
      cases h
  · intro p hp e s' hstep
    have hnobody := hi.alone (hi.commits p hp)
    cases opStep_effect hstep with
    | checked hq | recorded hq hfits =>
      rename_i q b
      have hout := hnobody q
      rw [hq] at hout
      cases hout
    | _ => rfl

/-- Three operations fill the reservation and a fourth process sleeps. -/
theorem log_ops_ordered_fourth : ∃ s : OpsState (Fin 4),
    Reachable (OpStep nlog) (OpsState.init (Fin 4)) s ∧ s.phase 3 = .asleep ∧
      (s.committing = true ∨
        (LOGSIZE : ℤ) < s.block.length + (s.outstanding + 1) * MAXOPBLOCKS) := by
  have hrun : ∃ s : OpsState (Fin 4),
      Reachable (OpStep nlog) (OpsState.init (Fin 4)) s ∧ s.phase 3 = .asleep :=
    exists_reachableBy
      [.beginOp 0, .beginOp 1, .logWrite 0 7, .beginOp 2, .beginOp 3] (by decide +kernel)
  obtain ⟨s, hreach, hasleep⟩ := hrun
  obtain ⟨-, -, -, -, -, hfull⟩ := log_ops_ordered hreach
  exact ⟨s, hreach, hasleep, hfull 3 hasleep⟩

end Safety

end Xv6Threads.Log
