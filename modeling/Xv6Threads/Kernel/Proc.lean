/-
# Processes and threads

`proc.c`. Functions that hold `ptable.lock` throughout are single definitions.
`fork`, `clone` and `exit` release it in the middle, so each is given in the
pieces the lock cuts it into, and as a whole by composing the pieces.

A blocking call returns `none` when it went to sleep; its loop body is a
definition of its own, run again when the process is woken.
-/

import Mathlib.Data.List.FinRange
import Xv6Threads.Kernel.Files
import Xv6Threads.Kernel.Vm
import Xv6Threads.Lib.PeerLists

namespace Xv6Threads

open Lib

/-! ## Creating processes -/

/-- What memory allocation does during `fork` or `clone`: whether a kernel stack
is found, which page `setupkvm` gets for a new directory if any, and how many
user pages can still be copied. -/
structure SpawnEnv where
  kstack : Bool
  pgdir : Option PageAddr
  budget : ℕ

/-- The critical section of `allocproc`. It resets `isThread` and nothing else
of what the slot's last user left behind. -/
def allocproc (s : Kernel) : Except Fault (Option (Kernel × Slot)) :=
  match (List.finRange NPROC).find? fun q => decide ((s.procs q).state = .unused) with
  | none => .ok none
  | some np =>
    if s.nextpid = INT_MAX then .error .pidOverflow
    else
      .ok (some ({ s.setProc np
        { s.procs np with isThread := false, state := .embryo, pid := s.nextpid } with
          nextpid := s.nextpid + 1 }, np))

/-- Give a slot back after a failed allocation. Its pid stays. -/
def releaseSlot (s : Kernel) (np : Slot) : Kernel :=
  s.setProc np { s.procs np with kstack := false, state := .unused }

/-- Copy the caller's user memory into a new directory for `np`. The flag says
whether memory sufficed; if not, `np->pgdir` was set to 0 and the slot given
back. -/
def copyMemory (s : Kernel) (p np : Slot) (env : SpawnEnv) : Except Fault (Kernel × Bool) :=
  let fail := releaseSlot (s.setProc np { s.procs np with pgdir := none }) np
  match env.pgdir with
  | none => .ok (fail, false)
  | some d =>
    match s.addrSpace (s.procs p).pgdir with
    | .error f => .error f
    | .ok (_, mem) =>
      match copyuvm env.budget mem (s.procs p).sz with
      | .error f => .error f
      | .ok none => .ok (fail, false)
      | .ok (some mem') =>
        .ok ((s.setMem d mem').setProc np { s.procs np with pgdir := some d }, true)

/-- A child's descriptor table: the caller's open entries over what the slot
held. -/
def inheritOfile (caller child : Fd → Option FileIdx) : Fd → Option FileIdx :=
  fun fd => (caller fd).or (child fd)

/-- Copy the caller's descriptors, taking a reference for each. -/
def dupOfiles (s : Kernel) (p np : Slot) : Except Fault Kernel :=
  match dupFiles (s.procs p).ofile (List.finRange NOFILE) s.ftable with
  | .error f => .error f
  | .ok ft =>
    .ok { s.setProc np
      { s.procs np with ofile := inheritOfile (s.procs p).ofile (s.procs np).ofile } with
        ftable := ft }

/-- `np->cwd = idup(curproc->cwd)`. -/
def dupCwd (s : Kernel) (p np : Slot) : Except Fault Kernel :=
  match (s.procs p).cwd with
  | none => .error .nullDeref
  | some ip =>
    .ok { s.setProc np { s.procs np with cwd := some ip, cwdGen := (s.icache ip).gen } with
      icache := idup s.icache ip }

/-- `fork` between `allocproc`'s critical section and its own. The flag says
whether a child was made. -/
def forkBody (s : Kernel) (p np : Slot) (env : SpawnEnv) : Except Fault (Kernel × Bool) :=
  if env.kstack then
    match copyMemory (s.setProc np { s.procs np with kstack := true }) p np env with
    | .error f => .error f
    | .ok (s, false) => .ok (s, false)
    | .ok (s, true) =>
      let s := s.setProc np
        { s.procs np with
          tgid := (s.procs np).pid, isThread := false, sz := (s.procs p).sz, parent := some p }
      match dupOfiles s p np with
      | .error f => .error f
      | .ok s =>
        match dupCwd s p np with
        | .error f => .error f
        | .ok s => .ok (s, true)
  else .ok (releaseSlot s np, false)

/-- The flag bits of `fcntl.h`. -/
def flagVm (flags : BitVec 32) : Bool := flags.getLsbD 0

def flagFs (flags : BitVec 32) : Bool := flags.getLsbD 1

def flagFiles (flags : BitVec 32) : Bool := flags.getLsbD 2

def flagParent (flags : BitVec 32) : Bool := flags.getLsbD 3

def flagThread (flags : BitVec 32) : Bool := flags.getLsbD 4

/-- The `CLONE_FS` part of `clone`. -/
def cloneFsPart (s : Kernel) (p np : Slot) (flags : BitVec 32) : Except Fault Kernel :=
  if flagFs flags then
    let s := s.setProc np
      { s.procs np with cwdClone := fillEmpty (s.procs np).cwdClone p }
    let s := s.setProc p { s.procs p with cwdClone := fillEmpty (s.procs p).cwdClone np }
    .ok (s.setProc np
      { s.procs np with
        cwd := (s.procs p).cwd
        cwdGen := (s.procs p).cwd.elim 0 fun ip => (s.icache ip).gen })
  else dupCwd s p np

/-- The `CLONE_FILES` part of `clone`. -/
def cloneFilesPart (s : Kernel) (p np : Slot) (flags : BitVec 32) : Except Fault Kernel :=
  if flagFiles flags then
    let s := s.setProc np
      { s.procs np with ofileClone := fillEmpty (s.procs np).ofileClone p }
    let s := s.setProc p { s.procs p with ofileClone := fillEmpty (s.procs p).ofileClone np }
    .ok (s.setProc np
      { s.procs np with ofile := inheritOfile (s.procs p).ofile (s.procs np).ofile })
  else dupOfiles s p np

/-- The parent `clone` gives the new thread. The load through a null parent ends the run in
the fault; the kernel goes on with the word at user address `0x14`. -/
def cloneParentOf (s : Kernel) (p : Slot) (flags : BitVec 32) : Except Fault (Option Slot) :=
  if (s.procs p).isThread then
    if flagParent flags then
      match (s.procs p).parent with
      | none => .error .nullDeref
      | some q => .ok (s.procs q).parent
    else .ok (s.procs p).parent
  else if flagParent flags then .ok (s.procs p).parent
  else .ok (some p)

/-- `clone` between `allocproc`'s critical section and its own. -/
def cloneBody (s : Kernel) (p np : Slot) (flags : BitVec 32) (env : SpawnEnv) :
    Except Fault (Kernel × Bool) :=
  if env.kstack then
    let s := s.setProc np
      { s.procs np with
        kstack := true
        cloneVm := flagVm flags
        cloneFs := flagFs flags
        cloneFiles := flagFiles flags
        cloneParent := flagParent flags
        cloneThread := flagThread flags }
    let memory : Except Fault (Kernel × Bool) :=
      if flagVm flags then
        .ok (s.setProc np { s.procs np with pgdir := (s.procs p).pgdir }, true)
      else copyMemory s p np env
    match memory with
    | .error f => .error f
    | .ok (s, false) => .ok (s, false)
    | .ok (s, true) =>
      match cloneFsPart s p np flags with
      | .error f => .error f
      | .ok s =>
        match cloneFilesPart s p np flags with
        | .error f => .error f
        | .ok s =>
          match cloneParentOf s p flags with
          | .error f => .error f
          | .ok parent =>
            let s := s.setProc np
              { s.procs np with
                parent := parent
                tgid := if flagThread flags then (s.procs p).tgid else (s.procs p).pid
                pthread := some p
                isThread := true
                sz := (s.procs p).sz }
            .ok ({ s with clones :=
              ⟨(s.procs p).pid, (s.procs np).pid, flags⟩ :: s.clones }, true)
  else .ok (releaseSlot s np, false)

/-- The last critical section of `fork` and `clone`. -/
def publish (s : Kernel) (np : Slot) : Kernel :=
  s.setProc np { s.procs np with state := .runnable }

/-- Allocate a slot, fill it with `body`, and make it runnable. -/
def spawn (s : Kernel) (body : Kernel → Slot → Except Fault (Kernel × Bool)) :
    Except Fault (Kernel × ℤ) :=
  match allocproc s with
  | .error f => .error f
  | .ok none => .ok (s, -1)
  | .ok (some (s, np)) =>
    match body s np with
    | .error f => .error f
    | .ok (s, false) => .ok (s, -1)
    | .ok (s, true) => .ok (publish s np, (s.procs np).pid)

def fork (s : Kernel) (p : Slot) (env : SpawnEnv) : Except Fault (Kernel × ℤ) :=
  spawn s fun s np => forkBody s p np env

def clone (s : Kernel) (p : Slot) (flags : BitVec 32) (env : SpawnEnv) :
    Except Fault (Kernel × ℤ) :=
  spawn s fun s np => cloneBody s p np flags env

/-! ## Leaving -/

/-- `wakeup1`. -/
def wakeup1 (procs : Slot → Proc) (chan : Option Slot) : Slot → Proc :=
  fun q =>
    if (procs q).state = .sleeping ∧ (procs q).chan = chan then
      { procs q with state := .runnable }
    else procs q

/-- `exit` up to its critical section: the peer arrays, the open files and the
current directory are given up. A `CLONE_FILES` or `CLONE_FS` process drops
nothing. -/
def exitRelease (s : Kernel) (p : Slot) : Except Fault Kernel :=
  if p = s.initproc then .error .initExiting
  else
    let ofileClone := unlink s.ofilePeers p
    let cwdClone := unlink s.cwdPeers p
    let s := { s with procs := fun q =>
      { s.procs q with ofileClone := ofileClone q, cwdClone := cwdClone q } }
    let closed : Except Fault (Ftable × Icache) :=
      if (s.procs p).cloneFiles then .ok (s.ftable, s.icache)
      else closeFiles (s.procs p).ofile (List.finRange NOFILE) s.ftable s.icache
    match closed with
    | .error f => .error f
    | .ok (ft, ic) =>
      let s := { s.setProc p { s.procs p with ofile := fun _ => none } with
        ftable := ft, icache := ic }
      if (s.procs p).cloneFs then
        .ok (s.setProc p { s.procs p with cwd := none })
      else
        match (s.procs p).cwd with
        | none => .error .nullDeref
        | some ip =>
          .ok { s.setProc p { s.procs p with cwd := none } with icache := iput s.icache ip }

/-- Pass one abandoned child to init. -/
def passToInit (initproc p : Slot) (procs : Slot → Proc) (q : Slot) : Slot → Proc :=
  if (procs q).parent = some p then
    let procs := Function.update procs q { procs q with parent := some initproc }
    if (procs q).state = .zombie then wakeup1 procs (some initproc) else procs
  else procs

/-- The critical section of `exit`. A thread wakes the process that cloned it,
any other process wakes its parent. -/
def exitZombie (s : Kernel) (p : Slot) : Kernel :=
  let woken := wakeup1 s.procs
    (if (s.procs p).isThread then (s.procs p).pthread else (s.procs p).parent)
  let procs := (List.finRange NPROC).foldl (passToInit s.initproc p) woken
  { s with procs := Function.update procs p { procs p with state := .zombie } }

def exit (s : Kernel) (p : Slot) : Except Fault Kernel :=
  match exitRelease s p with
  | .error f => .error f
  | .ok s => .ok (exitZombie s p)

/-! ## Reaping -/

/-- The result of a table scan: a process to reap, or whether anything eligible
was seen. -/
inductive ScanResult
  | found (z : Slot)
  | kids (havekids : Bool)
  deriving DecidableEq

/-- The scan of `wait`. -/
def waitScan (procs : Slot → Proc) (q : Slot) : Bool → List Slot → ScanResult
  | havekids, [] => .kids havekids
  | havekids, p :: rest =>
    if (procs p).parent ≠ some q then waitScan procs q havekids rest
    else if (procs p).isThread then waitScan procs q havekids rest
    else if (procs q).isThread ∧
        (procs p).parent.map (fun r => (procs r).tgid) ≠ some (procs q).tgid then
      waitScan procs q havekids rest
    else if (procs p).state = .zombie then .found p
    else waitScan procs q true rest

/-- The scan of `join`. `none` is the early return of -1. -/
def joinScan (procs : Slot → Proc) (q : Slot) (pid : ℤ) : Bool → List Slot → Option ScanResult
  | havekids, [] => some (.kids havekids)
  | havekids, p :: rest =>
    if (procs p).pid = pid then
      if (procs p).parent ≠ some q ∨ (procs p).isThread = false ∨
          (procs p).tgid ≠ (procs q).tgid then none
      else if (procs p).state = .zombie then some (.found p)
      else joinScan procs q pid true rest
    else joinScan procs q pid havekids rest

/-- `sleep(q, &ptable.lock)` by `q` itself, inside the loop `c`. -/
def sleepOnSelf (s : Kernel) (q : Slot) (c : Ctl) : Kernel :=
  (s.setProc q { s.procs q with chan := some q, state := .sleeping }).setCtl q c

/-- Free a zombie found by `wait`. -/
def reapWait (s : Kernel) (z : Slot) : Except Fault Kernel :=
  match freevm s.pgdirs (s.procs z).pgdir with
  | .error f => .error f
  | .ok pgdirs =>
    .ok { s.setProc z
      { s.procs z with
        kstack := false, pid := 0, parent := none, tgid := 0, killed := false,
        state := .unused } with
        pgdirs := pgdirs }

/-- Free a zombie found by `join`. The page directory is not freed. -/
def reapJoin (s : Kernel) (z : Slot) : Kernel :=
  s.setProc z
    { s.procs z with
      kstack := false, pid := 0, tgid := 0, parent := none, killed := false, pthread := none,
      state := .unused }

/-- One turn of the loop of `wait`. -/
def waitIter (s : Kernel) (q : Slot) : Except Fault (Kernel × Option ℤ) :=
  match waitScan s.procs q false (List.finRange NPROC) with
  | .found z =>
    match reapWait s z with
    | .error f => .error f
    | .ok s' => .ok (s'.setCtl q .user, some (s.procs z).pid)
  | .kids havekids =>
    if havekids = false ∨ (s.procs q).killed then .ok (s.setCtl q .user, some (-1))
    else .ok (sleepOnSelf s q .waiting, none)

/-- One turn of the loop of `join`. -/
def joinIter (s : Kernel) (q : Slot) (pid : ℤ) : Kernel × Option ℤ :=
  match joinScan s.procs q pid false (List.finRange NPROC) with
  | none => (s.setCtl q .user, some (-1))
  | some (.found z) => ((reapJoin s z).setCtl q .user, some (s.procs z).pid)
  | some (.kids havekids) =>
    if havekids = false ∨ (s.procs q).killed then (s.setCtl q .user, some (-1))
    else (sleepOnSelf s q (.joining pid), none)

/-- What `sleep` does once it is running again, and then the next turn of the
loop it was called from. -/
def resume (s : Kernel) (q : Slot) : Except Fault (Kernel × Option ℤ) :=
  let awake := s.setProc q { s.procs q with chan := none }
  match s.ctl q with
  | .waiting => waitIter awake q
  | .joining pid => .ok (joinIter awake q pid)
  | _ => .ok (s, none)

/-! ## Killing -/

/-- Mark a process killed and wake it if it sleeps. -/
def markKilled (s : Kernel) (q : Slot) : Kernel :=
  s.setProc q
    { s.procs q with
      killed := true
      state := if (s.procs q).state = .sleeping then .runnable else (s.procs q).state }

def kill (s : Kernel) (pid : ℤ) : Kernel × ℤ :=
  match (List.finRange NPROC).find? fun q => decide ((s.procs q).pid = pid) with
  | none => (s, -1)
  | some q => (markKilled s q, 0)

def threadkill (s : Kernel) (pid : ℤ) : Kernel × ℤ :=
  match (List.finRange NPROC).find? fun q =>
      decide ((s.procs q).pid = pid) && (s.procs q).isThread with
  | none => (s, -1)
  | some q => (markKilled s q, 0)

/-! ## Asking for the parent -/

/-- `sys_getppid`. -/
def sysGetppid (s : Kernel) (p : Slot) : Except Fault ℤ :=
  match (s.procs p).parent with
  | none => .error .nullDeref
  | some q => .ok (s.procs q).pid

end Xv6Threads
