/-
# Console input

`consoleintr` and `consoleread` of `console.c` for one keyboard and any number of reading
processes. The machine is finer than `cons.lock`: each character that the interrupt handler
gets and each turn of the loop in `consoleread` is a step of the holder of the lock, because
`kill` takes only `ptable.lock`. `sleep` is one step. What is printed does not matter here.

The state also keeps records that no function reads: the characters committed, those taken
out with their readers, and the calls of `consoleread` that have returned.
-/

import Mathlib.Data.List.Basic
import Xv6Threads.Lib.RingBuffer
import Xv6Threads.Lib.Transition

namespace Xv6Threads.Console

open Lib
open Function (update)

@[reducible] def INPUT_BUF : ℕ := 128

theorem inputBuf_ne_zero : INPUT_BUF ≠ 0 := by decide

instance : NeZero INPUT_BUF := ⟨inputBuf_ne_zero⟩

abbrev Byte : Type := BitVec 8

/-- `C(x)`, control-x. -/
def ctrl (x : Byte) : Byte := x - 0x40

def ctrlP : Byte := ctrl 0x50
def ctrlU : Byte := ctrl 0x55
def ctrlH : Byte := ctrl 0x48
def ctrlD : Byte := ctrl 0x44
def newline : Byte := 0x0a
def carriageReturn : Byte := 0x0d
def delete : Byte := 0x7f

structure Input where
  buf : Fin INPUT_BUF → Byte
  r : BitVec 32
  w : BitVec 32
  e : BitVec 32

/-! ## `consoleintr` -/

/-- The loop for control-U. It ends at the latest when `e` is back at `w`. -/
def Input.killLine : ℕ → Input → Input
  | 0, x => x
  | fuel + 1, x =>
    if x.e ≠ x.w ∧ x.buf (ringSlot (x.e - 1)) ≠ newline then
      killLine fuel { x with e := x.e - 1 }
    else x

/-- Store a character, and whether the line is committed and readers are woken. -/
def Input.store (c : Byte) (x : Input) : Input × Bool :=
  let x := { x with buf := update x.buf (ringSlot x.e) c, e := x.e + 1 }
  if c = newline ∨ c = ctrlD ∨ x.e = x.r + BitVec.ofNat 32 INPUT_BUF then
    ({ x with w := x.e }, true)
  else (x, false)

/-- One turn of the loop of `consoleintr`. -/
def consoleintr (c : Byte) (x : Input) : Input × Bool :=
  if c = ctrlP then (x, false)
  else if c = ctrlU then (x.killLine (x.e - x.w).toNat, false)
  else if c = ctrlH ∨ c = delete then
    (if x.e ≠ x.w then { x with e := x.e - 1 } else x, false)
  else if c ≠ 0 ∧ x.e - x.r < BitVec.ofNat 32 INPUT_BUF then
    x.store (if c = carriageReturn then newline else c)
  else (x, false)

/-! ## Readers -/

/-- Where a process is. `target` is the argument of `consoleread`, `n` what is left of it and
`got` what was copied. A negative argument behaves like 0. -/
inductive Phase
  | idle
  -- holds the lock, at the test of the loop
  | reading (target n : ℕ) (got : List Byte)
  | asleep (target n : ℕ) (got : List Byte)
  | woken (target n : ℕ) (got : List Byte)

def Phase.got : Phase → List Byte
  | .idle => []
  | .reading _ _ got => got
  | .asleep _ _ got => got
  | .woken _ _ got => got

def Phase.Asleep : Phase → Prop
  | .asleep _ _ _ => True
  | _ => False

def Phase.wake : Phase → Phase
  | .asleep target n got => .woken target n got
  | ph => ph

/-- Why a call returned. -/
inductive Stop
  | full
  | newline
  | eof
  -- -1
  | killed
  deriving DecidableEq

/-- A call that has returned. -/
structure ReadCall where
  target : ℕ
  bytes : List Byte
  stop : Stop
  deriving DecidableEq

inductive Holder (P : Type)
  | intr
  | proc (p : P)
  deriving DecidableEq

structure ConsState (P : Type) where
  input : Input
  -- `cons.lock`
  lock : Option (Holder P)
  phase : P → Phase
  killed : P → Bool
  -- in order
  committed : List Byte
  taken : List (P × Byte)
  -- the latest first
  calls : P → List ReadCall

inductive Event (P : Type)
  -- `consoleintr` begins, gets a character, ends
  | enter
  | key (c : Byte)
  | leave
  | consoleread (p : P) (n : ℕ)
  | turn (p : P)
  -- back from `sleep`
  | resume (p : P)
  | kill (p : P)

section

variable {P : Type} [DecidableEq P]

def ConsState.boot (buf : Fin INPUT_BUF → Byte) (i : BitVec 32) : ConsState P where
  input := ⟨buf, i, i, i⟩
  lock := none
  phase := fun _ => .idle
  killed := fun _ => false
  committed := []
  taken := []
  calls := fun _ => []

def ConsState.setPhase (s : ConsState P) (p : P) (ph : Phase) : ConsState P :=
  { s with phase := update s.phase p ph }

/-- The handler gets a character. -/
def ConsState.key (s : ConsState P) (c : Byte) : ConsState P :=
  let x := consoleintr c s.input
  if x.2 then
    { s with
      input := x.1
      phase := fun p => (s.phase p).wake
      committed := s.committed ++ ringBetween x.1.buf s.input.w x.1.w }
  else { s with input := x.1 }

/-- `release` and return. -/
def ConsState.finish (s : ConsState P) (p : P) (c : ReadCall) : ConsState P :=
  { s with
    lock := none
    phase := update s.phase p .idle
    calls := update s.calls p (c :: s.calls p) }

/-- `c = input.buf[input.r++ % INPUT_BUF]`. -/
def ConsState.take (s : ConsState P) (p : P) : ConsState P :=
  { s with
    input := { s.input with r := s.input.r + 1 }
    taken := s.taken ++ [(p, s.input.buf (ringSlot s.input.r))] }

/-- `input.r--`. -/
def ConsState.putBack (s : ConsState P) : ConsState P :=
  { s with
    input := { s.input with r := s.input.r - 1 }
    taken := s.taken.dropLast }

/-- One turn of the loop of `consoleread`. -/
def ConsState.turn (s : ConsState P) (p : P) (target n : ℕ) (got : List Byte) : ConsState P :=
  if n = 0 then s.finish p ⟨target, got, .full⟩
  else if s.input.r = s.input.w then
    if s.killed p then s.finish p ⟨target, got, .killed⟩
    else { s.setPhase p (.asleep target n got) with lock := none }
  else
    let c := s.input.buf (ringSlot s.input.r)
    if c = ctrlD then
      if n < target then (s.take p).putBack.finish p ⟨target, got, .eof⟩
      else (s.take p).finish p ⟨target, got, .eof⟩
    else if c = newline then (s.take p).finish p ⟨target, got ++ [c], .newline⟩
    else (s.take p).setPhase p (.reading target (n - 1) (got ++ [c]))

def consNext (s : ConsState P) : Event P → Option (ConsState P)
  | .enter => if s.lock = none then some { s with lock := some .intr } else none
  | .key c => if s.lock = some .intr then some (s.key c) else none
  | .leave => if s.lock = some .intr then some { s with lock := none } else none
  | .consoleread p n =>
    match s.phase p with
    | .idle =>
      if s.lock = none then
        some { s.setPhase p (.reading n n []) with lock := some (.proc p) }
      else none
    | _ => none
  | .turn p =>
    match s.phase p with
    | .reading target n got =>
      if s.lock = some (.proc p) then some (s.turn p target n got) else none
    | _ => none
  | .resume p =>
    match s.phase p with
    | .woken target n got =>
      if s.lock = none then
        some { s.setPhase p (.reading target n got) with lock := some (.proc p) }
      else none
    | _ => none
  | .kill p => some { s with
      killed := update s.killed p true
      -- `kill` also wakes a process that sleeps
      phase := update s.phase p (s.phase p).wake }

abbrev ConsStep (s : ConsState P) (e : Event P) (s' : ConsState P) : Prop := consNext s e = some s'

/-- Nobody is killed in this step. -/
def Event.Spares : Event P → Prop
  | .kill _ => False
  | _ => True

instance : DecidablePred (Event.Spares (P := P))
  | .kill _ => inferInstanceAs (Decidable False)
  | .enter | .key _ | .leave | .consoleread _ _ | .turn _ | .resume _ =>
    inferInstanceAs (Decidable True)

end

end Xv6Threads.Console
