/-
# Nobody sleeps on a pipe that is ready

A reader sleeps only while the pipe is empty and some write end is open, a writer
only while it is full and some read end is open. Whoever changes that holds the
lock, and owes the sleepers a `wakeup` before it lets go of it.

One way out of `pipewrite` does not pay: a writer that has filled the pipe returns
at once when it was killed or no read end is left, without the `wakeup` it makes on
its other ways out. The result is about the runs in which this way out is not taken
while a reader sleeps.
-/

import Mathlib.Data.Fintype.Basic
import Xv6Threads.Pipe.Fifo

namespace Xv6Threads.Pipe

open Lib
open Function (update update_of_ne update_self)

variable {ph old : Phase}

/-- In the loop of `pipewrite`, with the pipe full. -/
def Phase.Full : Phase → Bool
  | .full _ => true
  | _ => false

/-- A `wakeup(&p->nread)` is still to come. -/
def Phase.OwesReaders : Phase → Bool
  | .writing _ => true
  | .full _ => true
  | .waking _ => true
  | .written => true
  | .closed true => true
  | _ => false

/-- A `wakeup(&p->nwrite)` is still to come. -/
def Phase.OwesWriters : Phase → Bool
  | .copying _ => true
  | .copied => true
  | .closed false => true
  | _ => false

/-- The two kinds of sleepers. -/
inductive Side
  | reader
  | writer

def Side.other : Side → Side
  | .reader => .writer
  | .writer => .reader

def Phase.Asleep (ph : Phase) : Side → Bool
  | .reader => ph.AsleepReader
  | .writer => ph.AsleepWriter

def Phase.Owes (ph : Phase) : Side → Bool
  | .reader => ph.OwesReaders
  | .writer => ph.OwesWriters

section

variable {P : Type} {s s' : PipeState P} {p q : P} {w w' : Side} {phase : P → Phase}

/-- A reader has reason to sleep. -/
def PipeState.Drained (s : PipeState P) : Prop := s.nread = s.nwrite ∧ s.writeopen = true

/-- A writer has reason to sleep. -/
def PipeState.Blocked (s : PipeState P) : Prop :=
  s.nwrite = s.nread + BitVec.ofNat 32 PIPESIZE ∧ s.readopen = true

def PipeState.Reason (s : PipeState P) : Side → Prop
  | .reader => s.Drained
  | .writer => s.Blocked

/-- `wakeup` on one of the two channels. -/
def wakeSide (w : Side) (phase : P → Phase) : P → Phase :=
  fun q => if (phase q).Asleep w then (phase q).wake else phase q

/-- What a process that holds the lock has seen since it took it. -/
def Phase.Knows (s : PipeState P) : Phase → Prop
  | .full _ => s.nwrite = s.nread + BitVec.ofNat 32 PIPESIZE
  | .waking _ => s.Blocked
  | .resting _ => s.Blocked
  | .empty _ => s.Drained
  | .pausing _ => s.Drained
  | _ => True

theorem Phase.knows_of_not_holds (h : ph.Holds = false) : ph.Knows s := by
  cases ph <;> first | exact trivial | cases h

theorem Phase.holds_wake (ph : Phase) : ph.wake.Holds = ph.Holds := by
  cases ph <;> rfl

theorem Phase.wake_of_holds (h : ph.Holds = true) : ph.wake = ph := by
  cases ph <;> first | rfl | cases h

theorem Phase.asleep_wake (ph : Phase) (w : Side) : ph.wake.Asleep w = false := by
  cases ph <;> cases w <;> rfl

theorem Phase.asleep_of_holds (h : ph.Holds = true) (w : Side) : ph.Asleep w = false := by
  cases ph <;> first | (cases w <;> rfl) | cases h

/-- The condition: no writer gives up on a full pipe while a reader sleeps. -/
def GivesUpUnwatched (s : PipeState P) : PipeEvent P → Prop
  | .turn p => (s.phase p).Full = true → s.readopen = false ∨ s.killed p = true →
      ∀ q, (s.phase q).AsleepReader = false
  | _ => True

instance [Fintype P] (s : PipeState P) : DecidablePred (GivesUpUnwatched s)
  | .turn _ => inferInstanceAs (Decidable (_ → _ → ∀ _, _))
  | .pipewrite _ _ | .piperead _ _ | .pipeclose _ _ | .kill _ => inferInstanceAs (Decidable True)

/-- Sleepers have reason to sleep, or whoever holds the lock will wake them. -/
structure AwakeOk (s : PipeState P) : Prop where
  holder : ∀ p, (s.phase p).Holds = true ↔ s.lock = some p
  knows : ∀ p, (s.phase p).Knows s
  sleepers : ∀ w q, (s.phase q).Asleep w = true →
    s.Reason w ∨ ∃ p, s.lock = some p ∧ (s.phase p).Owes w = true

theorem AwakeOk.lock_of_holds (hi : AwakeOk s) (hp : s.phase p = ph) (hholds : ph.Holds = true) :
    s.lock = some p :=
  (hi.holder p).mp (hp ▸ hholds)

/-- Those to whom the holder owes nothing have reason to sleep. -/
theorem AwakeOk.reason (hi : AwakeOk s) (hp : s.phase p = ph) (hholds : ph.Holds = true)
    (howes : ph.Owes w = false) (hq : (s.phase q).Asleep w = true) : s.Reason w := by
  refine (hi.sleepers w q hq).resolve_right ?_
  rintro ⟨r, hr, howes'⟩
  rw [hi.lock_of_holds hp hholds] at hr
  cases hr
  rw [hp, howes] at howes'
  cases howes'

theorem AwakeOk.settled (hi : AwakeOk s) (hp : s.phase p = old) (hholds : old.Holds = true)
    (howes : ∀ w, old.Owes w = false) (w : Side) (q : P) (hq : (s.phase q).Asleep w = true) :
    s.Reason w :=
  hi.reason hp hholds (howes w) hq

theorem AwakeOk.reason_of_free (hi : AwakeOk s) (hfree : s.lock = none)
    (hq : (s.phase q).Asleep w = true) : s.Reason w := by
  refine (hi.sleepers w q hq).resolve_right ?_
  rintro ⟨r, hr, -⟩
  rw [hfree] at hr
  cases hr

theorem wakeSide_or (w : Side) (phase : P → Phase) (q : P) :
    wakeSide w phase q = phase q ∨ wakeSide w phase q = (phase q).wake := by
  rw [wakeSide]
  split_ifs
  · exact .inr rfl
  · exact .inl rfl

/-- After a `wakeup` only the others sleep. -/
theorem asleep_wakeSide (h : (wakeSide w phase q).Asleep w' = true) :
    w' = w.other ∧ (phase q).Asleep w' = true := by
  rw [wakeSide] at h
  split_ifs at h with hw
  · rw [Phase.asleep_wake] at h
    cases h
  · refine ⟨?_, h⟩
    cases w <;> cases w' <;> first | rfl | exact absurd h hw

theorem Phase.Knows.congr (h : ph.Knows s) (hread : s'.nread = s.nread)
    (hwrite : s'.nwrite = s.nwrite) (hreadopen : s'.readopen = s.readopen)
    (hwriteopen : s'.writeopen = s.writeopen) : ph.Knows s' := by
  have hdrained : s'.Drained ↔ s.Drained := by
    rw [PipeState.Drained, hread, hwrite, hwriteopen]
    rfl
  have hblocked : s'.Blocked ↔ s.Blocked := by
    rw [PipeState.Blocked, hread, hwrite, hreadopen]
    rfl
  cases ph <;>
    first
    | exact trivial
    | exact hdrained.mpr h
    | exact hblocked.mpr h
    | exact hwrite.trans (h.trans (hread ▸ rfl))

theorem AwakeOk.of_start {init : PipeState P} (hstart : Start init) : AwakeOk init := by
  constructor
  case holder =>
    intro p
    rw [hstart.idle, hstart.unlocked]
    constructor
    · intro h
      cases h
    · intro h
      cases h
  case knows =>
    intro p
    rw [hstart.idle]
    trivial
  case sleepers =>
    intro w q hq
    rw [hstart.idle] at hq
    cases w <;> cases hq

variable [DecidableEq P]

theorem asleep_update (hph : ph.Asleep w = false) (hq : (update phase p ph q).Asleep w = true) :
    (phase q).Asleep w = true := by
  by_cases hqp : q = p
  · rw [hqp, update_self, hph] at hq
    cases hq
  · rwa [update_of_ne hqp] at hq

/-- The holder of the lock takes a step. It may wake others and let go of the lock. -/
theorem AwakeOk.moved (hi : AwakeOk s) (hp : s.phase p = old)
    (hholds : old.Holds = true) (hphase : s'.phase = update phase p ph)
    (hothers : ∀ q, phase q = s.phase q ∨ phase q = (s.phase q).wake)
    (hlock : s'.lock = if ph.Holds then some p else none) (hknows : ph.Knows s')
    (hsleepers : ∀ w q, (update phase p ph q).Asleep w = true →
      s'.Reason w ∨ ph.Owes w = true ∧ ph.Holds = true) : AwakeOk s' := by
  have hlocked := hi.lock_of_holds hp hholds
  have hother : ∀ q, q ≠ p → (phase q).Holds = false := by
    intro q hq
    have hsame : (phase q).Holds = (s.phase q).Holds := by
      rcases hothers q with h | h
      · rw [h]
      · rw [h, Phase.holds_wake]
    rw [hsame, Bool.eq_false_iff, Ne, hi.holder, hlocked]
    exact fun h => hq (Option.some.inj h).symm
  constructor
  case holder =>
    intro q
    rw [hphase, hlock]
    by_cases hq : q = p
    · rw [hq, update_self]
      cases ph.Holds <;> simp
    · rw [update_of_ne hq, hother q hq]
      cases ph.Holds <;> simp [Ne.symm hq]
  case knows =>
    intro q
    rw [hphase]
    by_cases hq : q = p
    · rw [hq, update_self]
      exact hknows
    · rw [update_of_ne hq]
      exact Phase.knows_of_not_holds (hother q hq)
  case sleepers =>
    intro w q hq
    rw [hphase] at hq
    refine (hsleepers w q hq).imp_right fun h => ⟨p, ?_, ?_⟩
    · rw [hlock, if_pos h.2]
    · rw [hphase, update_self]
      exact h.1

/-- A process takes the lock. -/
theorem AwakeOk.entered (hi : AwakeOk s) (hfree : s.lock = none)
    (hphase : s'.phase = update s.phase p ph) (hlock : s'.lock = some p)
    (hholds : ph.Holds = true) (hknows : ph.Knows s')
    (hreason : ∀ w, s.Reason w → s'.Reason w) : AwakeOk s' := by
  have hother : ∀ q, (s.phase q).Holds = false := by
    intro q
    rw [Bool.eq_false_iff, Ne, hi.holder, hfree]
    exact fun h => by cases h
  have hasleep : ∀ q, q = p ∨ s'.phase q = s.phase q := by
    intro q
    rw [hphase]
    by_cases hq : q = p
    · exact .inl hq
    · exact .inr (update_of_ne hq ..)
  have hself : s'.phase p = ph := by rw [hphase, update_self]
  constructor
  case holder =>
    intro q
    rcases hasleep q with rfl | hq
    · rw [hself, hlock, hholds]
      simp
    · by_cases hqp : q = p
      · rw [hqp, hself, hlock, hholds]
        simp
      · rw [hq, hother q, hlock]
        simp [Ne.symm hqp]
  case knows =>
    intro q
    rcases hasleep q with rfl | hq
    · rw [hself]
      exact hknows
    · rw [hq]
      exact Phase.knows_of_not_holds (hother q)
  case sleepers =>
    intro w q hq
    rw [hphase] at hq
    have hold := asleep_update (ph.asleep_of_holds hholds w) hq
    exact .inl (hreason w (hi.reason_of_free hfree hold))

theorem AwakeOk.killed (hi : AwakeOk s) (p : P) : AwakeOk (s.kill p) := by
  have hphase : ∀ q, (s.kill p).phase q = s.phase q ∨ (s.kill p).phase q = (s.phase q).wake := by
    intro q
    by_cases hq : q = p
    · rw [hq]
      exact .inr (update_self ..)
    · exact .inl (update_of_ne hq ..)
  have hholds : ∀ q, (s.phase q).Holds = true → (s.kill p).phase q = s.phase q := by
    intro q hq
    rcases hphase q with h | h
    · exact h
    · rw [h]
      exact Phase.wake_of_holds hq
  constructor
  case holder =>
    intro q
    rcases hphase q with h | h
    · rw [h]
      exact hi.holder q
    · rw [h, Phase.holds_wake]
      exact hi.holder q
  case knows =>
    intro q
    cases hq : (s.phase q).Holds with
    | true =>
      rw [hholds q hq]
      exact (hi.knows q).congr rfl rfl rfl rfl
    | false =>
      apply Phase.knows_of_not_holds
      rcases hphase q with h | h
      · rw [h, hq]
      · rw [h, Phase.holds_wake, hq]
  case sleepers =>
    intro w q hq
    have hsame : (s.kill p).phase q = s.phase q := by
      refine (hphase q).resolve_right fun h => ?_
      rw [h, Phase.asleep_wake] at hq
      cases hq
    rw [hsame] at hq
    refine (hi.sleepers w q hq).imp_right ?_
    rintro ⟨r, hr, howes⟩
    exact ⟨r, hr, by rwa [hholds r ((hi.holder r).mpr hr)]⟩

/-- The holder of the lock goes on and changes nothing else. -/
theorem AwakeOk.advanced (hi : AwakeOk s) (hp : s.phase p = old) (hholds : old.Holds = true)
    (hholds' : ph.Holds = true) (hknows : ph.Knows s)
    (howes : ∀ w, old.Owes w = true → ph.Owes w = true) : AwakeOk (s.setPhase p ph) := by
  have hlock := hi.lock_of_holds hp hholds
  apply hi.moved hp hholds rfl fun _ => .inl rfl
  · rw [if_pos hholds']
    exact hlock
  · exact hknows.congr rfl rfl rfl rfl
  · intro w q hq
    refine (hi.sleepers w q (asleep_update (ph.asleep_of_holds hholds' w) hq)).imp_right ?_
    rintro ⟨r, hr, howed⟩
    obtain rfl : r = p := Option.some.inj (hr.symm.trans hlock)
    exact ⟨howes w (hp ▸ howed), hholds'⟩

/-- The holder lets go of the lock with nothing owed. -/
theorem AwakeOk.released (hi : AwakeOk s) (hp : s.phase p = old) (hholds : old.Holds = true)
    (hholds' : ph.Holds = false) (hreason : ∀ w q, (s.phase q).Asleep w = true → s.Reason w)
    (hself : ∀ w, ph.Asleep w = true → s.Reason w) : AwakeOk (s.release p ph) := by
  apply hi.moved hp hholds rfl fun _ => .inl rfl
  · rw [hholds']
    rfl
  · exact Phase.knows_of_not_holds hholds'
  · intro w q hq
    refine .inl ?_
    by_cases hqp : q = p
    · rw [hqp, update_self] at hq
      exact hself w hq
    · rw [update_of_ne hqp] at hq
      exact hreason w q hq

/-- The end of a call. -/
theorem AwakeOk.departed (hi : AwakeOk s) (hp : s.phase p = old) (hholds : old.Holds = true)
    (howes : ∀ w, old.Owes w = false) : AwakeOk (s.release p .idle) :=
  hi.released hp hholds rfl (hi.settled hp hholds howes) fun w h => by cases w <;> cases h

/-- A `wakeup` by the holder of the lock, which owes the others nothing. -/
theorem AwakeOk.woke (hi : AwakeOk s) (w : Side) (hp : s.phase p = old) (hholds : old.Holds = true)
    (howes : old.Owes w.other = false) (hphase : s'.phase = update (wakeSide w s.phase) p ph)
    (hlock : s'.lock = s.lock) (hholds' : ph.Holds = true) (hknows : ph.Knows s')
    (hreason : ∀ w, s.Reason w → s'.Reason w) : AwakeOk s' := by
  apply hi.moved hp hholds hphase (wakeSide_or w s.phase)
  · rw [if_pos hholds', hlock]
    exact hi.lock_of_holds hp hholds
  · exact hknows
  · intro w' q hq
    obtain ⟨rfl, hasleep⟩ := asleep_wakeSide (asleep_update (ph.asleep_of_holds hholds' w') hq)
    exact .inl (hreason _ (hi.reason hp hholds howes hasleep))

/-- A byte is stored: the pipe was not full, so no writer sleeps. -/
theorem AwakeOk.stored (hi : AwakeOk s) {b : Byte} {bs : List Byte}
    (hp : s.phase p = .writing (b :: bs))
    (hroom : s.nwrite ≠ s.nread + BitVec.ofNat 32 PIPESIZE) : AwakeOk (s.store p b bs) := by
  apply hi.moved hp rfl rfl fun _ => .inl rfl
  · exact hi.lock_of_holds hp rfl
  · trivial
  · intro w q hq
    cases w with
    | reader => exact .inr ⟨rfl, rfl⟩
    | writer => exact absurd (hi.reason hp rfl rfl (asleep_update rfl hq)).1 hroom

/-- A byte is delivered: the pipe was not empty, so no reader sleeps. -/
theorem AwakeOk.delivered (hi : AwakeOk s) {n : ℕ} (hp : s.phase p = .copying (n + 1))
    (hsome : s.nread ≠ s.nwrite) : AwakeOk (s.deliver p n) := by
  apply hi.moved hp rfl rfl fun _ => .inl rfl
  · exact hi.lock_of_holds hp rfl
  · trivial
  · intro w q hq
    cases w with
    | reader => exact absurd (hi.reason hp rfl rfl (asleep_update rfl hq)).1 hsome
    | writer => exact .inr ⟨rfl, rfl⟩

/-- One end is closed. The sleepers on the other end are owed a `wakeup`. -/
theorem AwakeOk.shut (hi : AwakeOk s) {writable : Bool} (hp : s.phase p = .closing writable) :
    AwakeOk (s.shut p writable) := by
  apply hi.moved hp rfl rfl fun _ => .inl rfl
  · exact hi.lock_of_holds hp rfl
  · trivial
  · intro w q hq
    cases writable <;> cases w
    case false.writer | true.reader => exact .inr ⟨rfl, rfl⟩
    case false.reader | true.writer =>
      have hreason := hi.reason hp rfl rfl (asleep_update rfl hq)
      exact .inl ⟨hreason.1, by simp [PipeState.shut, hreason.2]⟩

theorem AwakeOk.step (hi : AwakeOk s) {e : PipeEvent P} (hgood : GivesUpUnwatched s e)
    (hstep : PipeStep s e s') : AwakeOk s' := by
  cases pipeStep_effect hstep with
  | beginWrite hp hfree | beginRead hp hfree | beginClose hp hfree
  | writerBack hp hfree | readerBack hp hfree =>
    exact hi.entered hfree rfl rfl rfl trivial fun _ => id
  | killed => exact hi.killed _
  | stored hp hroom => exact hi.stored hp hroom
  | foundFull hp hfull => exact hi.advanced hp rfl rfl hfull fun _ => id
  | gaveUp hp hgone =>
    -- the writer may owe readers a `wakeup`, but none sleeps
    have hnone := hgood (hp ▸ rfl) hgone
    refine hi.released hp rfl rfl ?_ fun w h => by cases w <;> cases h
    intro w q hq
    cases w with
    | reader =>
      have hasleep : (s.phase q).AsleepReader = true := hq
      rw [hnone q] at hasleep
      cases hasleep
    | writer => exact hi.reason hp rfl rfl hq
  | stays hp hopen =>
    have hfull : Phase.Knows s (.full _) := hp ▸ hi.knows _
    exact hi.advanced hp rfl rfl ⟨hfull, hopen⟩ fun _ => id
  | wokeReaders hp =>
    have hblocked : Phase.Knows s (.waking _) := hp ▸ hi.knows _
    exact hi.woke .reader hp rfl rfl rfl rfl rfl hblocked fun _ => id
  | writerSlept hp =>
    have hblocked : Phase.Knows s (.resting _) := hp ▸ hi.knows _
    refine hi.released hp rfl rfl (hi.settled hp rfl fun w => by cases w <;> rfl) fun w h => ?_
    cases w with
    | reader => cases h
    | writer => exact hblocked
  | wroteAll hp => exact hi.advanced hp rfl rfl trivial fun _ => id
  | finished hp | shutReaders hp =>
    exact hi.woke .reader hp rfl rfl rfl rfl rfl trivial fun _ => id
  | foundEmpty hp hempty hopen => exact hi.advanced hp rfl rfl ⟨hempty, hopen⟩ fun _ => id
  | foundSome hp => exact hi.advanced hp rfl rfl trivial fun w h => by cases w <;> cases h
  | readerStays hp =>
    have hdrained : Phase.Knows s (.empty _) := hp ▸ hi.knows _
    exact hi.advanced hp rfl rfl hdrained fun _ => id
  | readerKilled hp => exact hi.departed hp rfl (fun w => by cases w <;> rfl)
  | readerSlept hp =>
    have hdrained : Phase.Knows s (.pausing _) := hp ▸ hi.knows _
    refine hi.released hp rfl rfl (hi.settled hp rfl fun w => by cases w <;> rfl) fun w h => ?_
    cases w with
    | reader => exact hdrained
    | writer => cases h
  | delivered hp hsome => exact hi.delivered hp hsome
  | tookAll hp => exact hi.advanced hp rfl rfl trivial fun _ => id
  | wokeWriters hp | shutWriters hp =>
    exact hi.woke .writer hp rfl rfl rfl rfl rfl trivial fun _ => id
  | shut hp => exact hi.shut hp
  | freed hp =>
    have hleft := hi.departed hp rfl fun w => by cases w <;> rfl
    exact ⟨hleft.holder, fun q => (hleft.knows q).congr rfl rfl rfl rfl, hleft.sleepers⟩
  | left hp =>
    rcases hp with hp | hp <;> exact hi.departed hp rfl fun w => by cases w <;> rfl

/-- Where the lock is free, sleeping readers wait on an empty pipe with an open write
end, and sleeping writers on a full one with an open read end. -/
theorem sleepers_have_reason {init : PipeState P} (hstart : Start init)
    (hreach : ReachableBy PipeStep GivesUpUnwatched init s) (hlock : s.lock = none) (p : P) :
    ((s.phase p).AsleepReader = true → s.nread = s.nwrite ∧ s.writeopen = true) ∧
      ((s.phase p).AsleepWriter = true →
        s.nwrite = s.nread + BitVec.ofNat 32 PIPESIZE ∧ s.readopen = true) := by
  have hi : AwakeOk s := by
    refine hreach.invariant (.of_start hstart) ?_
    intro s e s' _ hi hgood hstep
    exact hi.step hgood hstep
  exact ⟨hi.reason_of_free (w := .reader) hlock, hi.reason_of_free (w := .writer) hlock⟩

end

/-- A reader that waits on an empty pipe, and a writer that waits on a full one. -/
theorem sleepers_have_reason_runs :
    (∃ s : PipeState Bool, ReachableBy PipeStep GivesUpUnwatched nearWrap s ∧
      (s.lock = none ∧ (s.phase false).AsleepReader = true) ∧
      s.nread = s.nwrite ∧ s.writeopen = true) ∧
    ∃ s : PipeState Bool, ReachableBy PipeStep GivesUpUnwatched nearWrap s ∧
      (s.lock = none ∧ (s.phase true).AsleepWriter = true) ∧
      s.nwrite = s.nread + BitVec.ofNat 32 PIPESIZE ∧ s.readopen = true := by
  have hreader : ∃ s : PipeState Bool, ReachableBy PipeStep GivesUpUnwatched nearWrap s ∧
      s.lock = none ∧ (s.phase false).AsleepReader = true :=
    exists_reachableBy [.piperead false 1, .turn false, .turn false, .turn false]
      (by decide +kernel)
  have hwriter : ∃ s : PipeState Bool, ReachableBy PipeStep GivesUpUnwatched nearWrap s ∧
      s.lock = none ∧ (s.phase true).AsleepWriter = true :=
    exists_reachableBy
      (.pipewrite true (List.replicate 513 0) :: List.replicate 516 (.turn true))
      (by decide +kernel)
  obtain ⟨s, hs, hlock, hasleep⟩ := hreader
  obtain ⟨t, ht, hlock', hasleep'⟩ := hwriter
  exact ⟨⟨s, hs, ⟨hlock, hasleep⟩,
      (sleepers_have_reason start_nearWrap hs hlock false).1 hasleep⟩,
    t, ht, ⟨hlock', hasleep'⟩, (sleepers_have_reason start_nearWrap ht hlock' true).2 hasleep'⟩

/-- A writer stores 512 bytes for a sleeping reader, is killed, finds the pipe full
and returns. The reader sleeps on. -/
theorem reader_left_asleep : ∃ s : PipeState Bool, Reachable PipeStep nearWrap s ∧
    s.lock = none ∧ (s.phase false).AsleepReader = true ∧ s.nread ≠ s.nwrite :=
  exists_reachableBy
    ([.piperead false 1, .turn false, .turn false, .turn false,
      .pipewrite true (List.replicate 513 0), .kill true] ++ List.replicate 514 (.turn true))
    (by decide +kernel)

end Xv6Threads.Pipe
