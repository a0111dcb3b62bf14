/-
# Sleep-locks

`sleeplock.c` for one lock and any number of processes, with the `sleep` and
`wakeup` of `proc.c` it calls. A process stops at every `acquire` and after every
`release`, and at the places inside `sleep` where `ptable.lock` changes hands: a
process that goes to sleep leaves it to the scheduler, which gives it to the process
it resumes. Other code of the kernel takes `ptable.lock` too, and may wake a sleeper
by `kill` while it has it.

Processes are named by their pids, which `lk->pid` and `holdingsleep` compare.
-/

import Mathlib.Logic.Function.Basic
import Mathlib.Algebra.GroupWithZero.Nat
import Xv6Threads.Lib.Transition

namespace Xv6Threads.Sleeplock

open Lib

abbrev Pid : Type := ℤ

/-- Where a process is. Those up to `taken` are `acquiresleep`, up to `resumed` the
`sleep` it calls, up to `leaving` `releasesleep`, the others `holdingsleep`. -/
inductive Phase
  | outside
  -- at `acquire(&lk->lk)`, the first one or that at the end of `sleep`
  | entering
  -- at the test of the loop
  | testing
  -- before `release(&lk->lk)`
  | taken
  -- at `acquire(&ptable.lock)`
  | dozing
  -- before `release(lk)`
  | handing
  -- before `p->state = SLEEPING`
  | settling
  -- in `sched`, SLEEPING, and the scheduler has not released `ptable.lock` yet
  | switching
  -- SLEEPING on the lock
  | asleep
  -- RUNNABLE again
  | runnable
  -- back from `sched`, with `ptable.lock`
  | resumed
  -- at `acquire(&lk->lk)`
  | returning
  -- before `lk->locked = 0`
  | releasing
  -- at the `acquire(&ptable.lock)` of `wakeup`
  | waking
  -- before `wakeup1`
  | sweeping
  -- before `release(&ptable.lock)`
  | swept
  -- before `release(&lk->lk)`
  | leaving
  -- at `acquire(&lk->lk)`
  | querying
  -- before `r` is computed
  | asking
  -- before `release(&lk->lk)` and `return r`
  | answered (r : Bool)
  deriving DecidableEq

/-- The state is SLEEPING and the channel is the lock. -/
def Phase.Sleeping : Phase → Bool
  | .switching => true
  | .asleep => true
  | _ => false

/-- `struct sleeplock`, the two spin-locks and the processes. `table` is `some none`
while other code holds `ptable.lock`. `between p` is set from the time an
`acquiresleep` of `p` returns until `p` calls `releasesleep`; no function reads it. -/
structure LockState where
  locked : Bool
  pid : Pid
  inner : Option Pid
  table : Option (Option Pid)
  phase : Pid → Phase
  between : Pid → Bool

/-- `initsleeplock`. -/
def initsleeplock : LockState where
  locked := false
  pid := 0
  inner := none
  table := none
  phase _ := .outside
  between _ := false

namespace LockState

def setPhase (s : LockState) (p : Pid) (ph : Phase) : LockState :=
  { s with phase := Function.update s.phase p ph }

/-- `acquire(&lk->lk)`. -/
def acquire (s : LockState) (p : Pid) (ph : Phase) : Option LockState :=
  if s.inner = none then some { s.setPhase p ph with inner := some p } else none

/-- `release(&lk->lk)`. -/
def release (s : LockState) (p : Pid) (ph : Phase) : LockState :=
  { s.setPhase p ph with inner := none }

/-- `acquire(&ptable.lock)`. -/
def acquireTable (s : LockState) (p : Pid) (ph : Phase) : Option LockState :=
  if s.table = none then some { s.setPhase p ph with table := some (some p) } else none

/-- `release(&ptable.lock)`. -/
def releaseTable (s : LockState) (p : Pid) (ph : Phase) : LockState :=
  { s.setPhase p ph with table := none }

/-- `wakeup1(lk)`. A process that is still in `sched` has `ptable.lock`, so the
caller cannot meet it. -/
def wakeup1 (s : LockState) : LockState :=
  { s with phase := fun q => if s.phase q = .asleep then .runnable else s.phase q }

/-- The next step of a process inside one of the functions. -/
def turn (s : LockState) (p : Pid) : Option LockState :=
  match s.phase p with
  | .outside => none
  | .entering => s.acquire p .testing
  | .testing =>
    if s.locked then some (s.setPhase p .dozing)
    else some { s.setPhase p .taken with locked := true, pid := p }
  | .taken => some { s.release p .outside with between := Function.update s.between p true }
  | .dozing => s.acquireTable p .handing
  | .handing => some (s.release p .settling)
  | .settling => some (s.setPhase p .switching)
  | .switching => some (s.releaseTable p .asleep)
  | .asleep => none
  | .runnable => s.acquireTable p .resumed
  | .resumed => some (s.releaseTable p .entering)
  | .returning => s.acquire p .releasing
  | .releasing => some { s.setPhase p .waking with locked := false, pid := 0 }
  | .waking => s.acquireTable p .sweeping
  | .sweeping => some (s.wakeup1.setPhase p .swept)
  | .swept => some (s.releaseTable p .leaving)
  | .leaving => some (s.release p .outside)
  | .querying => s.acquire p .asking
  | .asking => some (s.setPhase p (.answered (s.locked && decide (s.pid = p))))
  | .answered _ => some (s.release p .outside)

end LockState

inductive Event
  | acquiresleep (p : Pid)
  | releasesleep (p : Pid)
  | holdingsleep (p : Pid)
  | turn (p : Pid)
  -- other code takes `ptable.lock`, kills a process, lets go of it
  | lockTable
  | kill (p : Pid)
  | unlockTable

/-- A process calls a function only when it is in none of them, and `releasesleep`
only between an `acquiresleep` and its `releasesleep`. -/
def next (s : LockState) : Event → Option LockState
  | .acquiresleep p => if s.phase p = .outside then some (s.setPhase p .entering) else none
  | .releasesleep p =>
    if s.phase p = .outside ∧ s.between p = true then
      some { s.setPhase p .returning with between := Function.update s.between p false }
    else none
  | .holdingsleep p => if s.phase p = .outside then some (s.setPhase p .querying) else none
  | .turn p => s.turn p
  | .lockTable => if s.table = none then some { s with table := some none } else none
  | .kill p =>
    if s.table = some none then
      some (if s.phase p = .asleep then s.setPhase p .runnable else s)
    else none
  | .unlockTable => if s.table = some none then some { s with table := none } else none

abbrev Step (s : LockState) (e : Event) (s' : LockState) : Prop := next s e = some s'

end Xv6Threads.Sleeplock
