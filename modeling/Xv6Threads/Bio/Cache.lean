/-
# The buffer cache

`bio.c` over its ring of buffers, pointer by pointer. A use of a buffer goes
through `bget`, `acquiresleep`, the rest of `bread`, any number of changes each
followed by `log_write` or `bwrite`, `releasesleep` and the rest of `brelse`; uses
interleave at these steps, which are the sections of code under `bcache.lock` and
the places where a process waits for a buffer's sleep lock. A process may be in
several uses at once, as `log.c` is while it copies blocks.

The disk is the driver's: `iderw` reads or writes one block and sets the flags as
the interrupt handler leaves them, and a block is named by its device and number.
The state also keeps, for each block, the contents last given to it by `log_write`
or `bwrite`; no function reads them.
-/

import Mathlib.Data.List.FinRange
import Xv6Threads.Lib.Ring
import Xv6Threads.Lib.Transition
import Xv6Threads.Log.Basic

namespace Xv6Threads.Bio

open Xv6Threads.Lib Xv6Threads.Log

/-- A block of a device. -/
structure BlockAddr where
  dev : BitVec 32
  blockno : BlockNo
  deriving DecidableEq

/-- `struct buf` but its list pointers. `B_VALID` and `B_DIRTY` are two booleans,
and the sleep lock is the use that holds it. -/
structure Buf (U : Type) where
  valid : Bool
  dirty : Bool
  addr : BlockAddr
  lock : Option U
  refcnt : ℕ
  data : Block

/-- A node of the ring: a buffer, or `bcache.head`. -/
abbrev Node : Type := Option (Fin NBUF)

/-- How far a use of a block has come. `holding` says whether the data was
changed and not yet given to `log_write` or `bwrite`; `leaving` is `brelse` after
`releasesleep`. -/
inductive Phase
  | idle
  | waiting (a : BlockAddr) (b : Fin NBUF)
  | locked (a : BlockAddr) (b : Fin NBUF)
  | holding (a : BlockAddr) (b : Fin NBUF) (changed : Bool)
  | leaving (b : Fin NBUF)
  deriving DecidableEq

/-- The buffer a use is at, between `bget` and the end of `brelse`. -/
def Phase.buf : Phase → Option (Fin NBUF)
  | .idle => none
  | .waiting _ b => some b
  | .locked _ b => some b
  | .holding _ b _ => some b
  | .leaving b => some b

/-- The buffer whose sleep lock a use has. -/
def Phase.lock : Phase → Option (Fin NBUF)
  | .locked _ b => some b
  | .holding _ b _ => some b
  | _ => none

/-- The block a use asked for. -/
def Phase.addr : Phase → Option BlockAddr
  | .waiting a _ => some a
  | .locked a _ => some a
  | .holding a _ _ => some a
  | _ => none

structure Cache (U : Type) where
  buf : Fin NBUF → Buf U
  links : Links Node
  disk : BlockAddr → Block
  phase : U → Phase
  given : BlockAddr → Option Block

/-- `noBuffers`, `bwrite`, `brelse`, `notLocked` and `nothingToDo` are panics of the
code; `endless` is a walk around the ring that does not come back to its head. -/
inductive Fault
  | noBuffers
  | bwrite
  | brelse
  | notLocked
  | nothingToDo
  | endless
  deriving DecidableEq

/-- `binit`. -/
def binit : Links Node :=
  (List.finRange NBUF).foldl (fun r b => r.pushFront none (some b))
    (Links.alone ⟨fun _ => none, fun _ => none⟩ none)

variable {U : Type} [DecidableEq U]

/-- After `binit`, on a disk. The buffers are the zeros of static data. -/
def Cache.init (U : Type) (disk : BlockAddr → Block) : Cache U where
  buf _ := ⟨false, false, ⟨0, 0⟩, none, 0, fun _ => 0⟩
  links := binit
  disk := disk
  phase _ := .idle
  given _ := none

def Cache.setBuf (s : Cache U) (b : Fin NBUF) (x : Buf U) : Cache U :=
  { s with buf := Function.update s.buf b x }

def Cache.setPhase (s : Cache U) (u : U) (ph : Phase) : Cache U :=
  { s with phase := Function.update s.phase u ph }

/-- What the first loop of `bget` looks for. -/
def Cache.carries (s : Cache U) (a : BlockAddr) : Node → Bool
  | some b => (s.buf b).addr = a
  | none => false

/-- What the second loop of `bget` looks for. -/
def Cache.unused (s : Cache U) : Node → Bool
  | some b => (s.buf b).refcnt = 0 ∧ (s.buf b).dirty = false
  | none => false

/-- `bget` up to `acquiresleep`. -/
def bget (s : Cache U) (a : BlockAddr) : Except Fault (Fin NBUF × Cache U) :=
  match Links.scan s.links.next none (s.carries a) (NBUF + 1) (s.links.next none) with
  | none => .error .endless
  | some (some b) => .ok (b, s.setBuf b { s.buf b with refcnt := (s.buf b).refcnt + 1 })
  | some none =>
    match Links.scan s.links.prev none s.unused (NBUF + 1) (s.links.prev none) with
    | none => .error .endless
    | some (some b) =>
      .ok (b, s.setBuf b
        { s.buf b with addr := a, valid := false, dirty := false, refcnt := 1 })
    | some none => .error .noBuffers

/-- Sync a buffer with the disk: write it if it is dirty, else read it. -/
def iderw (s : Cache U) (u : U) (b : Fin NBUF) : Except Fault (Cache U) :=
  if (s.buf b).lock ≠ some u then .error .notLocked
  else if (s.buf b).valid ∧ ¬(s.buf b).dirty then .error .nothingToDo
  else if (s.buf b).dirty then
    .ok { s.setBuf b { s.buf b with valid := true, dirty := false } with
      disk := Function.update s.disk (s.buf b).addr (s.buf b).data }
  else .ok (s.setBuf b { s.buf b with valid := true, data := s.disk (s.buf b).addr })

/-- `bread` after `bget`. -/
def bread (s : Cache U) (u : U) (b : Fin NBUF) : Except Fault (Cache U) :=
  if (s.buf b).valid then .ok s else iderw s u b

/-- The contents of a buffer become the latest of its block. -/
def Cache.give (s : Cache U) (b : Fin NBUF) : Cache U :=
  { s with given := Function.update s.given (s.buf b).addr (some (s.buf b).data) }

def bwrite (s : Cache U) (u : U) (b : Fin NBUF) : Except Fault (Cache U) :=
  if (s.buf b).lock ≠ some u then .error .bwrite
  else iderw ((s.give b).setBuf b { s.buf b with dirty := true }) u b

/-- What `log_write` does to the buffer. -/
def logWrite (s : Cache U) (b : Fin NBUF) : Cache U :=
  (s.give b).setBuf b { s.buf b with dirty := true }

/-- `brelse` up to `releasesleep`. -/
def brelseLock (s : Cache U) (u : U) (b : Fin NBUF) : Except Fault (Cache U) :=
  if (s.buf b).lock ≠ some u then .error .brelse
  else .ok (s.setBuf b { s.buf b with lock := none })

/-- The critical section of `brelse`. -/
def brelse (s : Cache U) (b : Fin NBUF) : Cache U :=
  let s := s.setBuf b { s.buf b with refcnt := (s.buf b).refcnt - 1 }
  if (s.buf b).refcnt = 0 then
    { s with links := (s.links.unlink (some b)).pushFront none (some b) }
  else s

inductive CacheEvent (U : Type)
  | bget (u : U) (a : BlockAddr)
  | acquiresleep (u : U)
  | bread (u : U)
  | change (u : U) (data : Block)
  | logWrite (u : U)
  | bwrite (u : U)
  | releasesleep (u : U)
  | brelse (u : U)

/-- The state after a step, if the step can happen and does not panic. -/
def cacheNext (s : Cache U) : CacheEvent U → Option (Cache U)
  | .bget u a =>
    if s.phase u = .idle then
      (bget s a).toOption.map fun r => r.2.setPhase u (.waiting a r.1)
    else none
  | .acquiresleep u =>
    match s.phase u with
    | .waiting a b =>
      if (s.buf b).lock = none then
        some ((s.setBuf b { s.buf b with lock := some u }).setPhase u (.locked a b))
      else none
    | _ => none
  | .bread u =>
    match s.phase u with
    | .locked a b => (bread s u b).toOption.map fun s => s.setPhase u (.holding a b false)
    | _ => none
  | .change u data =>
    match s.phase u with
    | .holding a b _ =>
      some ((s.setBuf b { s.buf b with data := data }).setPhase u (.holding a b true))
    | _ => none
  | .logWrite u =>
    match s.phase u with
    | .holding a b _ => some ((logWrite s b).setPhase u (.holding a b false))
    | _ => none
  | .bwrite u =>
    match s.phase u with
    | .holding a b _ => (bwrite s u b).toOption.map fun s => s.setPhase u (.holding a b false)
    | _ => none
  | .releasesleep u =>
    match s.phase u with
    | .holding _ b false => (brelseLock s u b).toOption.map fun s => s.setPhase u (.leaving b)
    | _ => none
  | .brelse u =>
    match s.phase u with
    | .leaving b => some ((brelse s b).setPhase u .idle)
    | _ => none

def CacheStep (s : Cache U) (e : CacheEvent U) (s' : Cache U) : Prop := cacheNext s e = some s'

end Xv6Threads.Bio
