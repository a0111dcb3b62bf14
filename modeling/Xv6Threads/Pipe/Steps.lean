/-
# Pipes

`pipe.c` for one pipe and any number of processes. The machine is finer than
`p->lock`: each test, each byte copied and each `wakeup` is a step of the process
that holds the lock, because `kill` takes only `ptable.lock` and can land between
any two of them. `sleep` is one step, since it holds `ptable.lock` from before it
releases `p->lock` until the process is asleep, and nobody is woken or killed
meanwhile.

The state also keeps three records no function reads: the bytes stored with their
writers, the bytes delivered, and the arguments of every `pipewrite`.
-/

import Mathlib.Data.List.Basic
import Xv6Threads.Lib.RingBuffer
import Xv6Threads.Lib.Transition

namespace Xv6Threads.Pipe

open Lib
open Function (update)

@[reducible] def PIPESIZE : ℕ := 512

instance : NeZero PIPESIZE := ⟨by decide⟩

abbrev Byte : Type := BitVec 8

/-- Where a process is. The bytes are those of its `pipewrite` that are still to be
stored, the number is how many bytes its `piperead` still takes. The phases up to
`written` are `pipewrite`, those up to `copied` are `piperead`, and the argument of
`closing` and `closed` is that of `pipeclose`. -/
inductive Phase
  | idle
  -- at the tests of the two loops
  | writing (bs : List Byte)
  -- the pipe was full
  | full (bs : List Byte)
  -- before `wakeup(&p->nread)` in the loop
  | waking (bs : List Byte)
  -- before `sleep`
  | resting (bs : List Byte)
  | asleepWriter (bs : List Byte)
  | wokenWriter (bs : List Byte)
  -- before the last `wakeup`
  | written
  -- at the test of the first loop
  | reading (n : ℕ)
  -- the pipe was empty and open
  | empty (n : ℕ)
  -- before `sleep`
  | pausing (n : ℕ)
  | asleepReader (n : ℕ)
  | wokenReader (n : ℕ)
  -- at the tests of the second loop
  | copying (n : ℕ)
  | copied
  -- before the flag is cleared
  | closing (writable : Bool)
  -- before the `wakeup`
  | closed (writable : Bool)
  -- at the last test
  | checking
  -- before `release`
  | leaving
  deriving DecidableEq

/-- Between `acquire(&p->lock)` and `release(&p->lock)`. -/
def Phase.Holds : Phase → Bool
  | .idle => false
  | .asleepWriter _ => false
  | .wokenWriter _ => false
  | .asleepReader _ => false
  | .wokenReader _ => false
  | _ => true

def Phase.AsleepReader : Phase → Bool
  | .asleepReader _ => true
  | _ => false

def Phase.AsleepWriter : Phase → Bool
  | .asleepWriter _ => true
  | _ => false

/-- An argument of `pipewrite`, and whether all of it was stored. -/
structure WriteCall where
  bytes : List Byte
  complete : Bool

/-- `struct pipe` and the processes that use it. `freed` is set by the `kfree` of
`pipeclose`. -/
structure PipeState (P : Type) where
  data : Fin PIPESIZE → Byte
  nread : BitVec 32
  nwrite : BitVec 32
  readopen : Bool
  writeopen : Bool
  lock : Option P
  freed : Bool
  phase : P → Phase
  killed : P → Bool
  -- in order of storing
  stored : List (P × Byte)
  -- in order of delivery
  delivered : List Byte
  -- the latest first
  calls : P → List WriteCall

section Functions

variable {P : Type} [DecidableEq P]

def PipeState.setPhase (s : PipeState P) (p : P) (ph : Phase) : PipeState P :=
  { s with phase := update s.phase p ph }

/-- `acquire(&p->lock)`. -/
def PipeState.acquire (s : PipeState P) (p : P) (ph : Phase) : Option (PipeState P) :=
  if s.lock = none then some { s with lock := some p, phase := update s.phase p ph }
  else none

/-- `release(&p->lock)`. -/
def PipeState.release (s : PipeState P) (p : P) (ph : Phase) : PipeState P :=
  { s with lock := none, phase := update s.phase p ph }

/-- A sleeper made runnable. -/
def Phase.wake : Phase → Phase
  | .asleepWriter bs => .wokenWriter bs
  | .asleepReader n => .wokenReader n
  | ph => ph

/-- `wakeup(&p->nread)`. -/
def wakeReaders (phase : P → Phase) : P → Phase :=
  fun q => if (phase q).AsleepReader then (phase q).wake else phase q

/-- `wakeup(&p->nwrite)`. -/
def wakeWriters (phase : P → Phase) : P → Phase :=
  fun q => if (phase q).AsleepWriter then (phase q).wake else phase q

/-- `p->data[p->nwrite++ % PIPESIZE] = addr[i]`. -/
def PipeState.store (s : PipeState P) (p : P) (b : Byte) (bs : List Byte) : PipeState P :=
  { s with
    data := update s.data (ringSlot s.nwrite) b
    nwrite := s.nwrite + 1
    phase := update s.phase p (.writing bs)
    stored := s.stored ++ [(p, b)] }

/-- `addr[i] = p->data[p->nread++ % PIPESIZE]`. -/
def PipeState.deliver (s : PipeState P) (p : P) (n : ℕ) : PipeState P :=
  { s with
    nread := s.nread + 1
    phase := update s.phase p (.copying n)
    delivered := s.delivered ++ [s.data (ringSlot s.nread)] }

/-- `wakeup(&p->nread)` at the end of `pipewrite`. -/
def PipeState.finish (s : PipeState P) (p : P) : PipeState P :=
  { s with
    phase := update (wakeReaders s.phase) p .leaving
    calls := update s.calls p <|
      match s.calls p with
      | [] => []
      | c :: cs => { c with complete := true } :: cs }

/-- `p->writeopen = 0` or `p->readopen = 0`. -/
def PipeState.shut (s : PipeState P) (p : P) (writable : Bool) : PipeState P :=
  { s with
    readopen := s.readopen && writable
    writeopen := s.writeopen && !writable
    phase := update s.phase p (.closed writable) }

section

variable (s : PipeState P) (p : P)

@[simp] theorem store_phase (b : Byte) (bs : List Byte) :
    (s.store p b bs).phase = update s.phase p (.writing bs) := rfl
@[simp] theorem deliver_phase (n : ℕ) :
    (s.deliver p n).phase = update s.phase p (.copying n) := rfl
@[simp] theorem finish_phase :
    (s.finish p).phase = update (wakeReaders s.phase) p .leaving := rfl

end

variable {s s' : PipeState P}

/-- What a process does next inside `pipewrite`, `piperead` or `pipeclose`. -/
def turn (s : PipeState P) (p : P) : Option (PipeState P) :=
  match s.phase p with
  | .idle => none
  | .writing [] => some (s.setPhase p .written)
  | .writing (b :: bs) =>
    if s.nwrite = s.nread + BitVec.ofNat 32 PIPESIZE then some (s.setPhase p (.full (b :: bs)))
    else some (s.store p b bs)
  | .full bs =>
    if s.readopen = false ∨ s.killed p = true then some (s.release p .idle)
    else some (s.setPhase p (.waking bs))
  | .waking bs =>
    some { s with phase := update (wakeReaders s.phase) p (.resting bs) }
  | .resting bs => some (s.release p (.asleepWriter bs))
  | .asleepWriter _ => none
  | .wokenWriter bs => s.acquire p (.writing bs)
  | .written => some (s.finish p)
  | .reading n =>
    if s.nread = s.nwrite ∧ s.writeopen = true then some (s.setPhase p (.empty n))
    else some (s.setPhase p (.copying n))
  | .empty n =>
    if s.killed p = true then some (s.release p .idle) else some (s.setPhase p (.pausing n))
  | .pausing n => some (s.release p (.asleepReader n))
  | .asleepReader _ => none
  | .wokenReader n => s.acquire p (.reading n)
  | .copying 0 => some (s.setPhase p .copied)
  | .copying (n + 1) =>
    if s.nread = s.nwrite then some (s.setPhase p .copied) else some (s.deliver p n)
  | .copied => some { s with phase := update (wakeWriters s.phase) p .leaving }
  | .closing writable => some (s.shut p writable)
  | .closed true => some { s with phase := update (wakeReaders s.phase) p .checking }
  | .closed false => some { s with phase := update (wakeWriters s.phase) p .checking }
  | .checking =>
    if s.readopen = false ∧ s.writeopen = false then
      some { s.release p .idle with freed := true }
    else some (s.release p .idle)
  | .leaving => some (s.release p .idle)

/-- A process calls `pipewrite`, `piperead` or `pipeclose`, goes on in it, or is the
target of `kill`. -/
inductive PipeEvent (P : Type)
  | pipewrite (p : P) (bs : List Byte)
  | piperead (p : P) (n : ℕ)
  | pipeclose (p : P) (writable : Bool)
  | turn (p : P)
  | kill (p : P)

/-- `kill` from the point of view of the process it finds. -/
def PipeState.kill (s : PipeState P) (p : P) : PipeState P :=
  { s with
    killed := update s.killed p true
    phase := update s.phase p (s.phase p).wake }

/-- The state after a step, if it can happen. There are no steps on a pipe that was
freed. -/
def pipeNext (s : PipeState P) (e : PipeEvent P) : Option (PipeState P) :=
  if s.freed = true then none
  else
    match e with
    | .pipewrite p bs =>
      if s.phase p = .idle then
        { s with calls := update s.calls p (⟨bs, false⟩ :: s.calls p) }.acquire p
          (.writing bs)
      else none
    | .piperead p n => if s.phase p = .idle then s.acquire p (.reading n) else none
    | .pipeclose p writable =>
      if s.phase p = .idle then s.acquire p (.closing writable) else none
    | .turn p => turn s p
    | .kill p => some (s.kill p)

def PipeStep (s : PipeState P) (e : PipeEvent P) (s' : PipeState P) : Prop :=
  pipeNext s e = some s'

/-! ## What a step does -/

/-- The effects of a step on a pipe that was not freed. -/
inductive PipeEffect (s : PipeState P) : PipeEvent P → PipeState P → Prop
  | beginWrite {p : P} {bs : List Byte} (hp : s.phase p = .idle) (hfree : s.lock = none) :
      PipeEffect s (.pipewrite p bs)
        { s with
          lock := some p
          phase := update s.phase p (.writing bs)
          calls := update s.calls p (⟨bs, false⟩ :: s.calls p) }
  | beginRead {p : P} {n : ℕ} (hp : s.phase p = .idle) (hfree : s.lock = none) :
      PipeEffect s (.piperead p n)
        { s with lock := some p, phase := update s.phase p (.reading n) }
  | beginClose {p : P} {w : Bool} (hp : s.phase p = .idle) (hfree : s.lock = none) :
      PipeEffect s (.pipeclose p w)
        { s with lock := some p, phase := update s.phase p (.closing w) }
  | killed {p : P} : PipeEffect s (.kill p) (s.kill p)
  | stored {p : P} {b : Byte} {bs : List Byte} (hp : s.phase p = .writing (b :: bs))
      (hroom : s.nwrite ≠ s.nread + BitVec.ofNat 32 PIPESIZE) :
      PipeEffect s (.turn p) (s.store p b bs)
  | foundFull {p : P} {bs : List Byte} (hp : s.phase p = .writing bs)
      (hfull : s.nwrite = s.nread + BitVec.ofNat 32 PIPESIZE) :
      PipeEffect s (.turn p) (s.setPhase p (.full bs))
  | gaveUp {p : P} {bs : List Byte} (hp : s.phase p = .full bs)
      (hgone : s.readopen = false ∨ s.killed p = true) :
      PipeEffect s (.turn p) (s.release p .idle)
  | stays {p : P} {bs : List Byte} (hp : s.phase p = .full bs) (hopen : s.readopen = true) :
      PipeEffect s (.turn p) (s.setPhase p (.waking bs))
  | wokeReaders {p : P} {bs : List Byte} (hp : s.phase p = .waking bs) :
      PipeEffect s (.turn p)
        { s with phase := update (wakeReaders s.phase) p (.resting bs) }
  | writerSlept {p : P} {bs : List Byte} (hp : s.phase p = .resting bs) :
      PipeEffect s (.turn p) (s.release p (.asleepWriter bs))
  | writerBack {p : P} {bs : List Byte} (hp : s.phase p = .wokenWriter bs)
      (hfree : s.lock = none) :
      PipeEffect s (.turn p)
        { s with lock := some p, phase := update s.phase p (.writing bs) }
  | wroteAll {p : P} (hp : s.phase p = .writing []) :
      PipeEffect s (.turn p) (s.setPhase p .written)
  | finished {p : P} (hp : s.phase p = .written) : PipeEffect s (.turn p) (s.finish p)
  | foundEmpty {p : P} {n : ℕ} (hp : s.phase p = .reading n) (hempty : s.nread = s.nwrite)
      (hopen : s.writeopen = true) : PipeEffect s (.turn p) (s.setPhase p (.empty n))
  | foundSome {p : P} {n : ℕ} (hp : s.phase p = .reading n) :
      PipeEffect s (.turn p) (s.setPhase p (.copying n))
  | readerKilled {p : P} {n : ℕ} (hp : s.phase p = .empty n) :
      PipeEffect s (.turn p) (s.release p .idle)
  | readerStays {p : P} {n : ℕ} (hp : s.phase p = .empty n) :
      PipeEffect s (.turn p) (s.setPhase p (.pausing n))
  | readerSlept {p : P} {n : ℕ} (hp : s.phase p = .pausing n) :
      PipeEffect s (.turn p) (s.release p (.asleepReader n))
  | readerBack {p : P} {n : ℕ} (hp : s.phase p = .wokenReader n) (hfree : s.lock = none) :
      PipeEffect s (.turn p)
        { s with lock := some p, phase := update s.phase p (.reading n) }
  | delivered {p : P} {n : ℕ} (hp : s.phase p = .copying (n + 1))
      (hsome : s.nread ≠ s.nwrite) : PipeEffect s (.turn p) (s.deliver p n)
  | tookAll {p : P} {n : ℕ} (hp : s.phase p = .copying n) :
      PipeEffect s (.turn p) (s.setPhase p .copied)
  | wokeWriters {p : P} (hp : s.phase p = .copied) :
      PipeEffect s (.turn p) { s with phase := update (wakeWriters s.phase) p .leaving }
  | shut {p : P} {w : Bool} (hp : s.phase p = .closing w) : PipeEffect s (.turn p) (s.shut p w)
  | shutReaders {p : P} (hp : s.phase p = .closed true) :
      PipeEffect s (.turn p) { s with phase := update (wakeReaders s.phase) p .checking }
  | shutWriters {p : P} (hp : s.phase p = .closed false) :
      PipeEffect s (.turn p) { s with phase := update (wakeWriters s.phase) p .checking }
  | freed {p : P} (hp : s.phase p = .checking) :
      PipeEffect s (.turn p) { s.release p .idle with freed := true }
  | left {p : P} (hp : s.phase p = .checking ∨ s.phase p = .leaving) :
      PipeEffect s (.turn p) (s.release p .idle)

theorem acquire_some {p : P} {ph : Phase} (h : s.acquire p ph = some s') :
    s.lock = none ∧ s' = { s with lock := some p, phase := update s.phase p ph } := by
  rw [PipeState.acquire] at h
  split_ifs at h with hfree
  exact ⟨hfree, (Option.some.inj h).symm⟩

theorem turn_effect {p : P} (h : turn s p = some s') : PipeEffect s (.turn p) s' := by
  rw [turn] at h
  split at h
  case h_1 => cases h
  case h_2 hp =>
    cases h
    exact .wroteAll hp
  case h_3 hp =>
    split_ifs at h with hfull
    · cases h
      exact .foundFull hp hfull
    · cases h
      exact .stored hp hfull
  case h_4 hp =>
    split_ifs at h with hgone
    · cases h
      exact .gaveUp hp hgone
    · cases h
      rw [not_or, Bool.not_eq_false] at hgone
      exact .stays hp hgone.1
  case h_5 hp =>
    cases h
    exact .wokeReaders hp
  case h_6 hp =>
    cases h
    exact .writerSlept hp
  case h_7 => cases h
  case h_8 hp =>
    obtain ⟨hfree, rfl⟩ := acquire_some h
    exact .writerBack hp hfree
  case h_9 hp =>
    cases h
    exact .finished hp
  case h_10 hp =>
    split_ifs at h with hempty
    · cases h
      exact .foundEmpty hp hempty.1 hempty.2
    · cases h
      exact .foundSome hp
  case h_11 hp =>
    split_ifs at h with hkilled
    · cases h
      exact .readerKilled hp
    · cases h
      exact .readerStays hp
  case h_12 hp =>
    cases h
    exact .readerSlept hp
  case h_13 => cases h
  case h_14 hp =>
    obtain ⟨hfree, rfl⟩ := acquire_some h
    exact .readerBack hp hfree
  case h_15 hp =>
    cases h
    exact .tookAll hp
  case h_16 hp =>
    split_ifs at h with hempty
    · cases h
      exact .tookAll hp
    · cases h
      exact .delivered hp hempty
  case h_17 hp =>
    cases h
    exact .wokeWriters hp
  case h_18 hp =>
    cases h
    exact .shut hp
  case h_19 hp =>
    cases h
    exact .shutReaders hp
  case h_20 hp =>
    cases h
    exact .shutWriters hp
  case h_21 hp =>
    split_ifs at h
    · cases h
      exact .freed hp
    · cases h
      exact .left (.inl hp)
  case h_22 hp =>
    cases h
    exact .left (.inr hp)

theorem pipeStep_effect {e : PipeEvent P} (h : PipeStep s e s') : PipeEffect s e s' := by
  unfold PipeStep pipeNext at h
  split_ifs at h
  cases e with
  | pipewrite p bs =>
    dsimp only at h
    split_ifs at h with hp
    obtain ⟨hfree, rfl⟩ := acquire_some h
    exact .beginWrite hp hfree
  | piperead p n =>
    dsimp only at h
    split_ifs at h with hp
    obtain ⟨hfree, rfl⟩ := acquire_some h
    exact .beginRead hp hfree
  | pipeclose p w =>
    dsimp only at h
    split_ifs at h with hp
    obtain ⟨hfree, rfl⟩ := acquire_some h
    exact .beginClose hp hfree
  | turn p => exact turn_effect h
  | kill p =>
    cases h
    exact .killed

end Functions

end Xv6Threads.Pipe
