/-
# The disk driver

`ide.c` with its device, for any number of processes and buffers. Steps are taken by the
holder of `idelock`, by the device, and by processes that use buffers they have locked.
`sleep` is one step, and so is the part of `ideintr` up to `wakeup`; `kill` can take a process
out of its sleep at any time.

The device does one command at a time and raises one interrupt when it has finished it. A
command that it is given while it has another replaces that one. Errors do not occur, so
`idewait` only waits. A block is one sector, and numbers below `FSSIZE` fit the four
registers of the sector number.

The state also keeps records that no function reads: the buffers in the order in which they
were queued and in which their commands were started, and what was on the disk when the
transfer of a buffer ended, which is nothing from the time it is queued up to then.
-/

import Mathlib.Data.Fintype.Card
import Xv6Threads.Lib.LinkedQueue
import Xv6Threads.Lib.Transition

namespace Xv6Threads.Ide

open Lib
open Function (update)

@[reducible] def FSSIZE : ℕ := 1000

/-- `struct buf`, as far as the driver reads it. The flags are `B_VALID` and `B_DIRTY`. -/
structure Buf (B D : Type) where
  valid : Bool
  dirty : Bool
  dev : ℕ
  blockno : ℕ
  data : D
  qnext : Option B

/-- `(b->flags & (B_VALID|B_DIRTY)) == B_VALID`. -/
def Buf.Finished {B D : Type} (b : Buf B D) : Prop := b.valid = true ∧ b.dirty = false

instance {B D : Type} (b : Buf B D) : Decidable b.Finished :=
  inferInstanceAs (Decidable (b.valid = true ∧ b.dirty = false))

/-- A command with the number of the drive and of the block, and the data of a write. -/
structure Command (D : Type) where
  drive : ℕ
  block : ℕ
  write : Option D

structure Device (D : Type) where
  disk : ℕ → ℕ → D
  cmd : Option (Command D)
  -- the command is finished
  done : Bool
  -- an interrupt is pending
  irq : Bool

inductive Holder (P : Type)
  | intr
  | proc (p : P)
  deriving DecidableEq

/-- Where `ideintr` is: before or after it has taken a buffer from the queue. -/
inductive Handler
  | idle
  | entered
  | served
  deriving DecidableEq

/-- Where a process is in `iderw`. -/
inductive Phase (B : Type)
  | idle
  -- holds `idelock`, before the append
  | entered (b : B)
  -- holds `idelock`, at the test of the loop
  | waiting (b : B)
  | asleep (b : B)
  | woken (b : B)
  deriving DecidableEq

inductive Panic
  | bufNotLocked
  | nothingToDo
  | noDisk1
  | incorrectBlockno
  deriving DecidableEq

structure IdeState (P B D : Type) where
  bufs : B → Buf B D
  -- who holds `b->lock`
  owner : B → Option P
  idequeue : Option B
  idelock : Option (Holder P)
  phase : P → Phase B
  handler : Handler
  device : Device D
  havedisk1 : Bool
  arrived : List B
  started : List B
  result : B → Option D

inductive Event (P B D : Type)
  -- `acquiresleep(&b->lock)`, `releasesleep(&b->lock)` and any use of a locked buffer
  | lockBuf (p : P) (b : B)
  | unlockBuf (p : P) (b : B)
  | modify (p : P) (b : B) (valid dirty : Bool) (dev blockno : ℕ) (data : D)
  -- `iderw` up to `acquire`
  | iderw (p : P) (b : B)
  | enqueue (p : P)
  | test (p : P)
  | kill (p : P)
  -- back from `sleep`
  | resume (p : P)
  | finish
  -- `ideintr` up to `acquire`, up to `wakeup`, and the rest
  | ideintr
  | serve
  | startNext

section

variable {P B D : Type}

def Phase.wake : Phase B → Phase B
  | .asleep b => .woken b
  | ph => ph

/-- `wakeup(b)`. -/
def wakeup [DecidableEq B] (b : B) (ph : Phase B) : Phase B :=
  if ph = .asleep b then .woken b else ph

def Buf.command (b : Buf B D) : Command D where
  drive := b.dev % 2
  block := b.blockno
  write := if b.dirty then some b.data else none

def Device.start (d : Device D) (c : Command D) : Device D :=
  { d with cmd := some c, done := false }

/-- The device finishes its command. -/
def Device.finish (d : Device D) (c : Command D) : Device D where
  disk := fun drive block =>
    if drive = c.drive ∧ block = c.block then c.write.getD (d.disk drive block)
    else d.disk drive block
  cmd := some c
  done := true
  irq := true

def IdeState.boot (bufs : B → Buf B D) (disk : ℕ → ℕ → D) (havedisk1 : Bool) : IdeState P B D where
  bufs := bufs
  owner := fun _ => none
  idequeue := none
  idelock := none
  phase := fun _ => .idle
  handler := .idle
  device := ⟨disk, none, false, false⟩
  havedisk1 := havedisk1
  arrived := []
  started := []
  result := fun _ => none

def IdeState.idestart (s : IdeState P B D) (b : B) : Except Panic (IdeState P B D) :=
  if FSSIZE ≤ (s.bufs b).blockno then .error .incorrectBlockno
  else .ok { s with device := s.device.start (s.bufs b).command, started := s.started ++ [b] }

section

variable [DecidableEq P]

def IdeState.setPhase (s : IdeState P B D) (p : P) (ph : Phase B) : IdeState P B D :=
  { s with phase := update s.phase p ph }

/-- The step of a process in its loop. -/
def IdeState.test (s : IdeState P B D) (p : P) (b : B) : IdeState P B D :=
  if (s.bufs b).Finished then { s.setPhase p .idle with idelock := none }
  else { s.setPhase p (.asleep b) with idelock := none }

end

section

variable [DecidableEq B]

/-- Start disk if necessary. -/
def IdeState.startFirst (s : IdeState P B D) (b : B) : Except Panic (IdeState P B D) :=
  if s.idequeue = some b then s.idestart b else .ok s

def IdeState.setBuf (s : IdeState P B D) (b : B) (x : Buf B D) : IdeState P B D :=
  { s with bufs := update s.bufs b x }

def IdeState.setNext (s : IdeState P B D) (b : B) (next : Option B) : IdeState P B D :=
  s.setBuf b { s.bufs b with qnext := next }

/-- `ideintr` takes the buffer at the head of the queue. -/
def IdeState.serve (s : IdeState P B D) (b : B) : IdeState P B D :=
  let x := s.bufs b
  -- what `insl` reads is what the device has read
  let data := if x.dirty then x.data
    else (s.device.cmd.map fun c => s.device.disk c.drive c.block).getD x.data
  { s with
    idequeue := x.qnext
    bufs := update s.bufs b { x with valid := true, dirty := false, data := data }
    phase := fun p => wakeup b (s.phase p)
    handler := .served
    device := { s.device with cmd := none, done := false }
    result := update s.result b (some (s.device.disk (x.dev % 2) x.blockno)) }

variable [Fintype B]

/-- `b->qnext = 0` and the loop to the end of the queue. `none` if that does not end. -/
def IdeState.append (s : IdeState P B D) (b : B) : Option (IdeState P B D) :=
  let s := s.setNext b none
  match s.idequeue with
  | none => some { s with idequeue := some b }
  | some first =>
    (chainEnd (fun c => (s.bufs c).qnext) (Fintype.card B) first).map fun last =>
      s.setNext last (some b)

end

variable [DecidableEq P] [DecidableEq B] [Fintype B]

/-- `iderw` from the append up to the loop. -/
def IdeState.enqueue (s : IdeState P B D) (p : P) (b : B) :
    Option (Except Panic (IdeState P B D)) :=
  (s.append b).map fun s =>
    { s.setPhase p (.waiting b) with
      arrived := s.arrived ++ [b]
      result := update s.result b none }.startFirst b

/-- `none` if a step cannot be taken. -/
def ideNext (s : IdeState P B D) : Event P B D → Option (Except Panic (IdeState P B D))
  | .lockBuf p b =>
    if s.phase p = .idle ∧ s.owner b = none then
      some (.ok { s with owner := update s.owner b (some p) })
    else none
  | .unlockBuf p b =>
    if s.phase p = .idle ∧ s.owner b = some p then
      some (.ok { s with owner := update s.owner b none })
    else none
  | .modify p b valid dirty dev blockno data =>
    if s.phase p = .idle ∧ s.owner b = some p then
      some (.ok (s.setBuf b ⟨valid, dirty, dev, blockno, data, (s.bufs b).qnext⟩))
    else none
  | .iderw p b =>
    if s.phase p = .idle ∧ s.idelock = none then
      if s.owner b ≠ some p then some (.error .bufNotLocked)
      else if (s.bufs b).Finished then some (.error .nothingToDo)
      else if (s.bufs b).dev ≠ 0 ∧ s.havedisk1 = false then some (.error .noDisk1)
      else some (.ok { s.setPhase p (.entered b) with idelock := some (.proc p) })
    else none
  | .enqueue p =>
    match s.phase p with
    | .entered b => s.enqueue p b
    | _ => none
  | .test p =>
    match s.phase p with
    | .waiting b => some (.ok (s.test p b))
    | _ => none
  | .kill p => some (.ok (s.setPhase p (s.phase p).wake))
  | .resume p =>
    match s.phase p with
    | .woken b =>
      if s.idelock = none then
        some (.ok { s.setPhase p (.waiting b) with idelock := some (.proc p) })
      else none
    | _ => none
  | .finish =>
    match s.device.cmd with
    | some c =>
      if s.device.done = false then some (.ok { s with device := s.device.finish c }) else none
    | none => none
  | .ideintr =>
    if s.device.irq = true ∧ s.idelock = none then
      some (.ok { s with
        idelock := some .intr, handler := .entered, device := { s.device with irq := false } })
    else none
  | .serve =>
    if s.handler = .entered then
      match s.idequeue with
      | none => some (.ok { s with idelock := none, handler := .idle })
      | some b => some (.ok (s.serve b))
    else none
  | .startNext =>
    if s.handler = .served then
      match s.idequeue with
      | none => some (.ok { s with idelock := none, handler := .idle })
      | some b => some ((s.idestart b).map fun s =>
        { s with idelock := none, handler := .idle })
    else none

/-- A step that does not end in a panic. -/
def ideOk (s : IdeState P B D) (e : Event P B D) : Option (IdeState P B D) :=
  match ideNext s e with
  | some (.ok s') => some s'
  | _ => none

abbrev IdeStep (s : IdeState P B D) (e : Event P B D) (s' : IdeState P B D) : Prop :=
  ideOk s e = some s'

theorem ideNext_of_step {s s' : IdeState P B D} {e : Event P B D} (h : IdeStep s e s') :
    ideNext s e = some (.ok s') := by
  unfold IdeStep ideOk at h
  split at h
  · cases h
    assumption
  · cases h

end

end Xv6Threads.Ide
