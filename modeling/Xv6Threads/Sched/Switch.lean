/-
# CPUs and context switches

The part of `proc.c` that runs under `ptable.lock`, for any number of CPUs. A CPU
executes either its scheduler or a kernel thread, which is a kernel stack and a
place in the code; `swtch` exchanges the two, with the lock held. What `swtch`
saves in `p->context` is the stack and what the thread does when it is resumed.

Which process a thread belongs to is only ever known through `c->proc`. A function
that keeps `myproc()` in a local variable is modelled as reading `c->proc` again,
also after it slept: the thread is saved in the slot `c->proc` points to, and a
scheduler that loads it from there has set its own `c->proc` to the same slot.

Interrupts are on outside the lock, so `yield` and `wakeup` can be called in the
middle of `fork`, and `wakeup` by a CPU that runs no process.
-/

import Xv6Threads.Kernel.Proc
import Xv6Threads.Lib.Transition

namespace Xv6Threads.Sched

open Function (update)

/-- A sleep channel: the address of a process, or any other. -/
inductive Chan
  | proc (q : Slot)
  | other (n : ℕ)
  deriving DecidableEq

/-- How far a process is with `fork` or `clone`, both of which leave the lock
between `allocproc` and the change to `RUNNABLE`. -/
inductive Making
  | nothing
  -- after the critical section of `allocproc`
  | slot (np : Slot)
  -- with a kernel stack
  | child (np : Slot)
  deriving DecidableEq

/-- What a thread does when `swtch` returns in it. -/
inductive Next
  -- in `yield` or `forkret`
  | release
  -- in `sleep`, called with another lock
  | slept
  -- in `sleep`, called from the loop of `wait` or `join`
  | wait
  | join (pid : ℤ)
  -- in `exit`
  | never
  deriving DecidableEq

/-- Where a thread is. Everywhere but in `out` its CPU holds `ptable.lock`. -/
inductive Place
  | out
  -- before the change of state
  | yielding
  | sleeping (ch : Chan) (next : Next)
  | exiting
  | waking (ch : Chan)
  | killing (pid : ℤ)
  -- at the head of the loop
  | waiting
  | joining (pid : ℤ)
  | allocating
  | publishing
  -- before `swtch` in `sched`
  | switching (next : Next)
  -- after it
  | back (next : Next)
  deriving DecidableEq

/-- Where a scheduler is. The list holds the slots its loop has still to visit. -/
inductive SchedPlace
  | idle
  -- in an interrupt handler
  | waking (ch : Chan)
  | scan (ps : List Slot)
  -- `c->proc` is set
  | picked (ps : List Slot)
  -- and `p->state`
  | chosen (ps : List Slot)
  -- saved in `c->scheduler`
  | away (ps : List Slot)
  | back (ps : List Slot)
  deriving DecidableEq

variable {C K : Type}

/-- The fields of `struct proc` that are read or written under the lock. -/
structure Task (K : Type) where
  state : ProcState := .unused
  pid : ℤ := 0
  parent : Option Slot := none
  chan : Option Chan := none
  killed : Bool := false
  isThread : Bool := false
  pthread : Option Slot := none
  tgid : ℤ := 0
  kstack : Option K := none
  context : Option (K × Next) := none
  making : Making := .nothing

def Task.toProc (t : Task K) : Proc where
  state := t.state
  pid := t.pid
  parent := t.parent
  killed := t.killed
  isThread := t.isThread
  pthread := t.pthread
  tgid := t.tgid

/-- `struct cpu`, and what the CPU executes: its scheduler, or a thread on a kernel
stack. -/
structure Cpu (K : Type) where
  proc : Option Slot := none
  scheduler : SchedPlace := .idle
  thread : Option (K × Place) := none

/-- The kernel stack a CPU executes on. -/
def Cpu.stack (x : Cpu K) : Option K := x.thread.map Prod.fst

structure SchedState (C K : Type) where
  lock : Option C
  cpu : C → Cpu K
  task : Slot → Task K
  initproc : Slot
  nextpid : ℤ

/-! ## Functions that hold the lock -/

def wakeup1 (task : Slot → Task K) (ch : Option Chan) : Slot → Task K :=
  fun q =>
    if (task q).state = .sleeping ∧ (task q).chan = ch then { task q with state := .runnable }
    else task q

/-- The loop body of `kill` for the process it finds. -/
def markKilled (t : Task K) : Task K :=
  { t with killed := true, state := if t.state = .sleeping then .runnable else t.state }

def kill (task : Slot → Task K) (pid : ℤ) : Slot → Task K :=
  match (List.finRange NPROC).find? fun q => decide ((task q).pid = pid) with
  | none => task
  | some q => update task q (markKilled (task q))

/-- Pass one abandoned child to init. -/
def passToInit (initproc p : Slot) (task : Slot → Task K) (q : Slot) : Slot → Task K :=
  if (task q).parent = some p then
    let task := update task q { task q with parent := some initproc }
    if (task q).state = .zombie then wakeup1 task (some (.proc initproc)) else task
  else task

/-- The critical section of `exit` up to the change of state. -/
def leaveFamily (initproc : Slot) (task : Slot → Task K) (p : Slot) : Slot → Task K :=
  let woken := wakeup1 task <|
    (if (task p).isThread then (task p).pthread else (task p).parent).map .proc
  (List.finRange NPROC).foldl (passToInit initproc p) woken

/-- What `wait` and `join` do to a zombie, and `join` alone to `pthread`. -/
def reap (t : Task K) (joined : Bool) : Task K :=
  { t with
    kstack := none, pid := 0, parent := none, tgid := 0, killed := false, state := .unused
    pthread := if joined then none else t.pthread }

/-! ## Steps -/

section Functions

variable [DecidableEq C]

def SchedState.setCpu (s : SchedState C K) (c : C) (x : Cpu K) : SchedState C K :=
  { s with cpu := update s.cpu c x }

def SchedState.setTask (s : SchedState C K) (p : Slot) (t : Task K) : SchedState C K :=
  { s with task := update s.task p t }

/-- The thread of a CPU goes on to another place. -/
def SchedState.goto (s : SchedState C K) (c : C) (k : K) (pl : Place) : SchedState C K :=
  s.setCpu c { s.cpu c with thread := some (k, pl) }

/-- The scheduler of a CPU goes on to another place. -/
def SchedState.sched (s : SchedState C K) (c : C) (pl : SchedPlace) : SchedState C K :=
  s.setCpu c { s.cpu c with scheduler := pl }

/-- `release(&ptable.lock)` by a thread. -/
def SchedState.release (s : SchedState C K) (c : C) (k : K) : SchedState C K :=
  { s.goto c k .out with lock := none }

/-- `sched` saves the running thread in `myproc()` and loads `c->scheduler`. -/
def SchedState.swtchOut (s : SchedState C K) (c : C) (k : K) (p : Slot) (next : Next)
    (ps : List Slot) : SchedState C K :=
  (s.setTask p { s.task p with context := some (k, next) }).setCpu c
    { s.cpu c with scheduler := .back ps, thread := none }

/-- A thread of `p` in `fork` or `clone` changes the slot it is making. -/
def SchedState.make (s : SchedState C K) (p : Slot) (m : Making) (np : Slot) (t : Task K) :
    SchedState C K :=
  { s with
    task := update (update s.task p { s.task p with making := m }) np t }

omit [DecidableEq C] in
theorem make_task (s : SchedState C K) (p : Slot) (m : Making) (np : Slot) (t : Task K) :
    (s.make p m np t).task =
      update (update s.task p { s.task p with making := m }) np t := rfl

/-- The next step of a CPU in its scheduler. -/
def schedulerTurn (s : SchedState C K) (c : C) : Option (SchedState C K) :=
  match (s.cpu c).scheduler, (s.cpu c).proc with
  | .idle, _ =>
    if s.lock = none then
      some { s.sched c (.scan (List.finRange NPROC)) with lock := some c }
    else none
  | .waking ch, _ =>
    some { s.sched c .idle with lock := none, task := wakeup1 s.task (some ch) }
  | .scan [], _ => some { s.sched c .idle with lock := none }
  | .scan (p :: ps), _ =>
    if (s.task p).state = .runnable then
      some (s.setCpu c { s.cpu c with proc := some p, scheduler := .picked ps })
    else some (s.sched c (.scan ps))
  | .picked ps, some p =>
    some ((s.setTask p { s.task p with state := .running }).sched c (.chosen ps))
  | .chosen ps, some p =>
    match (s.task p).context with
    | none => none
    | some (k, next) =>
      some (s.setCpu c
        { s.cpu c with scheduler := .away ps, thread := some (k, .back next) })
  | .back ps, _ => some (s.setCpu c { s.cpu c with proc := none, scheduler := .scan ps })
  | _, _ => none

/-- One turn of the loops of `wait` and `join`, given what the scan found. -/
def reapTurn (s : SchedState C K) (c : C) (k : K) (p : Slot) (next : Next) :
    ScanResult → SchedState C K
  | .found z => (s.setTask z (reap (s.task z) (next ≠ .wait))).release c k
  | .kids havekids =>
    if havekids = false ∨ (s.task p).killed then s.release c k
    else s.goto c k (.sleeping (.proc p) next)

/-- The next step of a CPU in a thread on stack `k`, where `p` is `myproc()`. In
`out` there is none: what a thread does there is up to it. -/
def threadTurn (s : SchedState C K) (c : C) (k : K) (p : Slot) :
    Place → Option (SchedState C K)
  | .out => none
  | .yielding =>
    some ((s.setTask p { s.task p with state := .runnable }).goto c k (.switching .release))
  | .sleeping ch next =>
    some ((s.setTask p { s.task p with chan := some ch, state := .sleeping }).goto c k
      (.switching next))
  | .exiting =>
    let task := leaveFamily s.initproc s.task p
    some ({ s with task := update task p { task p with state := .zombie } }.goto c k
      (.switching .never))
  | .waking ch => some { s.release c k with task := wakeup1 s.task (some ch) }
  | .killing pid => some { s.release c k with task := kill s.task pid }
  | .waiting =>
    some (reapTurn s c k p .wait
      (waitScan (fun q => (s.task q).toProc) p false (List.finRange NPROC)))
  | .joining pid =>
    match joinScan (fun q => (s.task q).toProc) p pid false (List.finRange NPROC) with
    | none => some (s.release c k)
    | some found => some (reapTurn s c k p (.join pid) found)
  | .allocating =>
    match (List.finRange NPROC).find? fun q => decide ((s.task q).state = .unused) with
    | none => some (s.release c k)
    | some np =>
      if s.nextpid = INT_MAX then none
      else
        some { (s.make p (.slot np) np
          { s.task np with isThread := false, state := .embryo, pid := s.nextpid }).release
            c k with nextpid := s.nextpid + 1 }
  | .publishing =>
    match (s.task p).making with
    | .child np =>
      some ((s.make p .nothing np { s.task np with state := .runnable }).release c k)
    | _ => none
  | .switching next =>
    match (s.cpu c).scheduler with
    | .away ps => if (s.task p).state = .running then none else some (s.swtchOut c k p next ps)
    | _ => none
  | .back .release => some (s.release c k)
  | .back .slept => some ((s.setTask p { s.task p with chan := none }).release c k)
  | .back .wait => some ((s.setTask p { s.task p with chan := none }).goto c k .waiting)
  | .back (.join pid) =>
    some ((s.setTask p { s.task p with chan := none }).goto c k (.joining pid))
  | .back .never => none

/-- The functions a thread can call. `publish` is the last critical section of `fork`
and `clone`. -/
inductive Op
  | yield
  | wakeup (ch : Chan)
  | sleep (ch : Chan)
  | kill (pid : ℤ)
  | exit
  | wait
  | join (pid : ℤ)
  | fork
  | publish
  deriving DecidableEq

/-- Where a call gets to by taking the lock. -/
def Op.place : Op → Making → Option Place
  | .yield, _ => some .yielding
  | .wakeup ch, _ => some (.waking ch)
  | .sleep ch, .nothing => some (.sleeping ch .slept)
  | .kill pid, .nothing => some (.killing pid)
  | .exit, .nothing => some .exiting
  | .wait, .nothing => some .waiting
  | .join pid, .nothing => some (.joining pid)
  | .fork, .nothing => some .allocating
  | .publish, .child _ => some .publishing
  | _, _ => none

/-- The fields `fork` and `clone` fill in. -/
structure Lineage where
  parent : Option Slot
  tgid : ℤ
  isThread : Bool
  pthread : Option Slot

/-- A CPU goes on; its thread calls a function; an interrupt handler of a CPU that
runs no process calls `wakeup`; and between the two critical sections of `fork` or
`clone`, `kalloc` returns, the child is filled in, or it is given up. -/
inductive SchedEvent (C K : Type)
  | turn (c : C)
  | call (c : C) (op : Op)
  | interrupt (c : C) (ch : Chan)
  | kalloc (c : C) (k : Option K)
  | fill (c : C) (l : Lineage)
  | fail (c : C)

/-- A page that is no process's kernel stack. -/
def SchedState.Unowned (s : SchedState C K) (page : K) : Prop :=
  ∀ q, (s.task q).kstack ≠ some page

instance [DecidableEq K] (s : SchedState C K) : DecidablePred s.Unowned :=
  fun page => inferInstanceAs (Decidable (∀ q, (s.task q).kstack ≠ some page))

/-- `acquire(&ptable.lock)` in a function called by the thread of `p`. -/
def call (s : SchedState C K) (c : C) (k : K) (p : Slot) (op : Op) : Option (SchedState C K) :=
  if s.lock = none ∧ (op = .exit → p ≠ s.initproc) then
    (op.place (s.task p).making).map fun pl => { s.goto c k pl with lock := some c }
  else none

/-- The rest of `allocproc`, once `kalloc` has returned. -/
def allocStack [DecidableEq K] (s : SchedState C K) (p : Slot) (page : Option K) :
    Option (SchedState C K) :=
  match (s.task p).making with
  | .slot np =>
    match page with
    | none => some (s.make p .nothing np { s.task np with kstack := none, state := .unused })
    | some page =>
      if s.Unowned page then
        some (s.make p (.child np) np
          { s.task np with kstack := some page, context := some (page, .release) })
      else none
  | _ => none

def fillChild (s : SchedState C K) (p : Slot) (l : Lineage) : Option (SchedState C K) :=
  match (s.task p).making with
  | .child np =>
    some (s.setTask np
      { s.task np with
        parent := l.parent, tgid := l.tgid, isThread := l.isThread, pthread := l.pthread })
  | _ => none

/-- `fork` and `clone` when `copyuvm` fails. -/
def giveUpChild (s : SchedState C K) (p : Slot) : Option (SchedState C K) :=
  match (s.task p).making with
  | .child np => some (s.make p .nothing np { s.task np with kstack := none, state := .unused })
  | _ => none

def SchedEvent.cpu : SchedEvent C K → C
  | .turn c | .call c _ | .interrupt c _ | .kalloc c _ | .fill c _ | .fail c => c

def schedNext [DecidableEq K] (s : SchedState C K) (e : SchedEvent C K) :
    Option (SchedState C K) :=
  let x := s.cpu e.cpu
  match e, x.thread, x.proc with
  | .turn c, none, _ => schedulerTurn s c
  | .turn c, some (k, pl), some p => threadTurn s c k p pl
  | .interrupt c ch, none, _ =>
    if x.scheduler = .idle ∧ s.lock = none then
      some { s.sched c (.waking ch) with lock := some c }
    else none
  | .call c op, some (k, .out), some p => call s c k p op
  | .kalloc _ page, some (_, .out), some p => allocStack s p page
  | .fill _ l, some (_, .out), some p => fillChild s p l
  | .fail _, some (_, .out), some p => giveUpChild s p
  | _, _, _ => none

def SchedStep [DecidableEq K] (s : SchedState C K) (e : SchedEvent C K) (s' : SchedState C K) :
    Prop :=
  schedNext s e = some s'

end Functions

end Xv6Threads.Sched
