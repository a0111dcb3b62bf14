/-
# The thread library

`create_thread` and `join_threads` of `threadlib.c`, called by programs that run on the
system-call machine. Each THREAD value is passed to `join_threads` at most once, and by the
thread that got it from `create_thread`. The spinlock `create_thread` takes is a local
variable, so nothing ever waits for it and it is left out; which blocks `malloc` returns is
part of the step's label.
-/

import Xv6Threads.Kernel.Syscall

namespace Xv6Threads

/-- `THREAD`. -/
structure Thread where
  pid : ℤ
  stack : BitVec 32
  deriving DecidableEq

/-- What `create_thread` is called with and what it runs into: the blocks its two calls of
`malloc` return, and whether `sys_clone` accepts the arguments. -/
structure CreateArgs where
  flags : BitVec 32
  first : BitVec 32
  second : BitVec 32
  argok : Bool
  env : SpawnEnv

/-- The stack is the first block if that is aligned, and the second otherwise. -/
def CreateArgs.stack (a : CreateArgs) : BitVec 32 :=
  if a.first % 4096 ≠ 0 then a.second else a.first

/-- `create_thread`. -/
def createThread (s : Kernel) (c : Slot) (a : CreateArgs) : Except Fault (Kernel × Thread) :=
  if a.argok then
    match clone s c a.flags a.env with
    | .error f => .error f
    | .ok (s, ret) => .ok (s, ⟨ret, a.stack⟩)
  else .ok (s, ⟨-1, a.stack⟩)

/-- A THREAD value, with the flags it was created with and whether its creator is a thread
itself. -/
structure Created where
  thread : Thread
  flags : BitVec 32
  nested : Bool
  deriving DecidableEq

/-- How far a process is in `join_threads`: outside of it, in the call of `join`, or past
that with the value it is going to return. -/
inductive Joining
  | idle
  | joining (v : Created)
  | freeing (v : Created) (ret : ℤ)

/-- The kernel and, for each pid, the THREAD values that process has not passed to
`join_threads` yet. -/
structure Program where
  kernel : Kernel
  held : ℤ → List Created
  phase : ℤ → Joining

/-- The phase of the process in slot `c`. -/
def Program.phaseOf (x : Program) (c : Slot) : Joining := x.phase (x.kernel.procs c).pid

/-- `join_threads` after a turn of `join`. Both outcomes lead to `free`, unless `trap` finds
the caller killed: that one does not get back to the library. -/
def afterJoin (v : Created) (killed : Bool) : Option ℤ → Joining
  | none => .joining v
  | some ret =>
    if killed then .idle
    else if ret ≠ v.thread.pid then .freeing v (-1)
    else .freeing v v.thread.pid

/-- A turn of the `join` in `join_threads(v)`. -/
def joinThreads (x : Program) (c : Slot) (v : Created) (call : Call) : Option Program :=
  match syscall x.kernel c call with
  | .error _ => none
  | .ok (s, r) =>
    some { x with
      kernel := s
      phase := Function.update x.phase (x.kernel.procs c).pid
        (afterJoin v (s.procs c).killed r) }

/-- One step of a program: something outside of the library, a whole `create_thread`, the
start of `join_threads`, a turn of its `join`, or its call of `free`. -/
inductive UserEvent
  | other (e : Event)
  | create (c : Slot) (a : CreateArgs)
  | join (c : Slot) (v : Created)
  | resume (c : Slot)
  | free (c : Slot)

/-- Whether the event may happen while its process is in this phase. A killed process may
leave at any time. -/
def outside (x : Program) : Event → Bool
  | .call c call =>
    match x.phaseOf c, call with
    | .idle, _ => true
    | .freeing _ _, .exit => (x.kernel.procs c).killed
    | _, _ => false
  | _ => true

def nextUser (x : Program) : UserEvent → Option Program
  | .other e =>
    if outside x e then (next x.kernel e).map fun s => { x with kernel := s } else none
  | .create c a =>
    match x.phaseOf c with
    | .idle =>
      if Enabled x.kernel c (.clone a.flags a.env) then
        match createThread x.kernel c a with
        | .error _ => none
        | .ok (s, t) =>
          let k := (x.kernel.procs c).pid
          let v : Created := ⟨t, a.flags, (x.kernel.procs c).isThread⟩
          some { x with kernel := s, held := Function.update x.held k (v :: x.held k) }
      else none
    | _ => none
  | .join c v =>
    let k := (x.kernel.procs c).pid
    match x.phaseOf c with
    | .idle =>
      if v ∈ x.held k ∧ Enabled x.kernel c (.join v.thread.pid) then
        joinThreads { x with held := Function.update x.held k ((x.held k).erase v) } c v
          (.join v.thread.pid)
      else none
    | _ => none
  | .resume c =>
    match x.phaseOf c with
    | .joining v => if Enabled x.kernel c .resume then joinThreads x c v .resume else none
    | _ => none
  | .free c =>
    match x.phaseOf c with
    | .freeing _ _ =>
      if (x.kernel.procs c).state = .running then
        some { x with phase := Function.update x.phase (x.kernel.procs c).pid .idle }
      else none
    | _ => none

/-- The step relation of programs. -/
def UserStep (x : Program) (e : UserEvent) (y : Program) : Prop := nextUser x e = some y

/-- No THREAD values yet. -/
def Program.boot : Program := ⟨Xv6Threads.boot, fun _ => [], fun _ => .idle⟩

/-- The THREAD value whose stack the event passes to `free`. -/
def UserEvent.frees (x : Program) : UserEvent → Option Created
  | .free c =>
    match x.phaseOf c with
    | .freeing v _ => some v
    | _ => none
  | _ => none

end Xv6Threads
