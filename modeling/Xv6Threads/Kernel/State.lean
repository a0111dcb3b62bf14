/-
# Kernel state

The tables the thread extension works on: the process table of `proc.h`, the
open-file table of `file.c`, the inode cache of `fs.c`, and the page
directories handed out by `setupkvm`. Pointers into a table are indices of it,
and null pointers are `none`.

Three components have no counterpart in memory. `ctl` says where a process
stands inside the kernel, which the machine keeps on its kernel stack. `clones`
records every clone that succeeded. The generation of an inode-cache entry
counts how often it was recycled, and a process remembers the generation its
current directory had when it became the current directory.
-/

import Mathlib.Data.BitVec
import Mathlib.Logic.Function.Basic
import Xv6Threads.Params

namespace Xv6Threads

/-- A `struct proc *` into `ptable.proc`. -/
abbrev Slot : Type := Fin NPROC

/-- A `struct file *` into `ftable.file`. -/
abbrev FileIdx : Type := Fin NFILE

/-- A `struct inode *` into `icache.inode`. -/
abbrev InodeIdx : Type := Fin NINODE

abbrev Fd : Type := Fin NOFILE

abbrev PageAddr : Type := ℕ

/-- The user half of an address space: which pages, by page number, have a
present entry. -/
abbrev AddrSpace : Type := ℕ → Bool

/-- `ofile_clone` or `cwd_clone` of one process. -/
abbrev PeerList : Type := Fin NPROC → Option Slot

abbrev FdTables : Type := Slot → Fd → Option FileIdx

/-- `enum procstate`. -/
inductive ProcState
  | unused
  | embryo
  | sleeping
  | runnable
  | running
  | zombie
  deriving DecidableEq

/-- `struct proc`, less the trap frame, the saved context, the name and the
user stack pointer. The kernel stack is present or not; a sleep channel is the
process whose address is slept on. -/
structure Proc where
  sz : ℕ := 0
  pgdir : Option PageAddr := none
  kstack : Bool := false
  state : ProcState := .unused
  pid : ℤ := 0
  parent : Option Slot := none
  chan : Option Slot := none
  killed : Bool := false
  ofile : Fd → Option FileIdx := fun _ => none
  cwd : Option InodeIdx := none
  -- the generation `cwd` had when it became the current directory
  cwdGen : ℕ := 0
  isThread : Bool := false
  pthread : Option Slot := none
  tgid : ℤ := 0
  cloneVm : Bool := false
  cloneFiles : Bool := false
  cloneFs : Bool := false
  cloneParent : Bool := false
  cloneThread : Bool := false
  ofileClone : PeerList := fun _ => none
  cwdClone : PeerList := fun _ => none

/-- Neither `UNUSED` nor `ZOMBIE`. -/
def Proc.Live (p : Proc) : Prop := p.state ≠ .unused ∧ p.state ≠ .zombie

instance (p : Proc) : Decidable p.Live := inferInstanceAs (Decidable (_ ∧ _))

/-- What an open file refers to. `f->ip` is only ever read under `FD_INODE`,
and is set together with it. -/
inductive FileKind
  | none
  | pipe
  | inode (ip : InodeIdx)
  deriving DecidableEq

/-- `struct file`, less the pipe pointer, the access mode and the offset. -/
structure File where
  kind : FileKind := .none
  ref : ℕ := 0

/-- The bookkeeping fields of `struct inode`. `iput` does not check the count,
so it can become negative. -/
structure Inode where
  dev : ℕ := 0
  inum : ℕ := 0
  ref : ℤ := 0
  -- how often the entry was recycled
  gen : ℕ := 0

/-- Where a process stands inside the kernel. Between `allocproc` and the
change to `RUNNABLE`, `fork` and `clone` hold a slot that is not published yet;
`exiting` is `exit` before its last critical section; `waiting` and `joining`
are the loops of `wait` and `join`, asleep or not. -/
inductive Ctl
  | user
  | forking (np : Slot)
  | cloning (np : Slot) (flags : BitVec 32)
  | publishing (np : Slot)
  | exiting
  | waiting
  | joining (pid : ℤ)
  deriving DecidableEq

/-- One successful `clone`: the caller's pid, the pid returned, the flags. -/
structure CloneEvent where
  creator : ℤ
  child : ℤ
  flags : BitVec 32

/-- The kernel. `pgdirs` holds the page directories that exist, those created
and not yet passed to `freevm`. -/
structure Kernel where
  procs : Slot → Proc
  initproc : Slot
  nextpid : ℤ
  ftable : FileIdx → File
  icache : InodeIdx → Inode
  pgdirs : PageAddr → Option AddrSpace
  ctl : Slot → Ctl
  clones : List CloneEvent

/-- Ways a kernel function can end without returning. The first eight are calls
of `panic`, named after their message; `copyuvm` stands for both panics of that
function. The others are undefined behaviour the code does not guard against:
using or freeing a page directory that `freevm` already got, following a null
pointer, overflowing `nextpid`, and a propagation that recurses deeper than
there are processes. -/
inductive Fault
  | initExiting
  | filedup
  | fileclose
  | igetNoInodes
  | ilock
  | remap
  | copyuvm
  | freevmNoPgdir
  | danglingPgdir
  | nullDeref
  | pidOverflow
  | recursionDepth
  deriving DecidableEq

namespace Kernel

/-- Replace one process. -/
def setProc (s : Kernel) (q : Slot) (p : Proc) : Kernel :=
  { s with procs := Function.update s.procs q p }

/-- Move one process to another control state. -/
def setCtl (s : Kernel) (q : Slot) (c : Ctl) : Kernel :=
  { s with ctl := Function.update s.ctl q c }

/-- Replace every descriptor table. -/
def setOfiles (s : Kernel) (tables : FdTables) : Kernel :=
  { s with procs := fun q => { s.procs q with ofile := tables q } }

def ofiles (s : Kernel) : FdTables := fun q => (s.procs q).ofile

def ofilePeers (s : Kernel) : Slot → PeerList := fun q => (s.procs q).ofileClone

def cwdPeers (s : Kernel) : Slot → PeerList := fun q => (s.procs q).cwdClone

end Kernel

/-- The kernel once `userinit` has returned: one runnable process with a
one-page image and the root directory as its current directory. -/
def boot : Kernel where
  procs := Function.update (fun _ => {}) 0
    { sz := PGSIZE, pgdir := some 0, kstack := true, state := .runnable, pid := 1, tgid := 1,
      cwd := some 0, cwdGen := 1 }
  initproc := 0
  nextpid := 2
  ftable := fun _ => {}
  icache := Function.update (fun _ => {}) 0 { dev := ROOTDEV, inum := ROOTINO, ref := 1, gen := 1 }
  pgdirs := Function.update (fun _ => none) 0 (some fun pg => pg == 0)
  ctl := fun _ => .user
  clones := []

end Xv6Threads
