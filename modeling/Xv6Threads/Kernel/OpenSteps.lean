/-
# sys_open step by step

`sys_open` from `filealloc` on, cut at every point where another process can run:
the entry of the open-file table is taken, the descriptor is published to the
caller and its `CLONE_FILES` peers, the inode is unlocked, the transaction ends,
and only then are the five fields of the file assigned, one after the other. Between
these steps other processes make whole calls of `read`, `write`, `fstat`, `dup` and
`close`; descriptor tables are those of the kernel model, with its propagation.

The state also keeps what the maker of each file gave it. No function reads that.
-/

import Xv6Threads.Kernel.Sysfile
import Xv6Threads.Lib.Transition

namespace Xv6Threads.Opening

open Lib

inductive FileType
  | none
  | pipe
  | inode
  deriving DecidableEq

/-- `struct file`. The pipe is named by its page. -/
structure OpenFile where
  type : FileType := .none
  ref : ℕ := 0
  readable : Bool := false
  writable : Bool := false
  pipe : PageAddr := 0
  ip : Option InodeIdx := none
  off : ℕ := 0

/-- `!(omode & O_WRONLY)`. -/
def readableOf (omode : BitVec 32) : Bool := !omode.getLsbD 0

/-- `(omode & O_WRONLY) || (omode & O_RDWR)`. -/
def writableOf (omode : BitVec 32) : Bool := omode.getLsbD 0 || omode.getLsbD 1

/-- What `open` or `pipe` assigned to a file, with the offset moved by the calls
made since. -/
inductive Maker
  | opened (ip : InodeIdx) (omode : BitVec 32) (off : ℕ)
  | piped (pipe : PageAddr) (readable writable : Bool)

/-- The file has the fields its maker assigned. -/
def Maker.Gave (x : OpenFile) : Maker → Prop
  | .opened ip omode off => x.type = .inode ∧ x.ip = some ip ∧ x.off = off ∧
      x.readable = readableOf omode ∧ x.writable = writableOf omode
  | .piped pipe r w => x.type = .pipe ∧ x.pipe = pipe ∧ x.readable = r ∧ x.writable = w

def Maker.move (k : ℕ) : Maker → Maker
  | .opened ip omode off => .opened ip omode (off + k)
  | .piped pipe r w => .piped pipe r w

/-- How far `sys_open` is past `fdalloc`, named after what was done last. -/
inductive Stage
  | published
  | unlocked
  | ended
  | typed
  | pointed
  | rewound
  | readable
  deriving DecidableEq

/-- Where a process is in `sys_open`. -/
inductive Phase
  | idle
  | allocated (f : FileIdx) (ip : InodeIdx) (omode : BitVec 32)
  | opening (f : FileIdx) (ip : InodeIdx) (omode : BitVec 32) (st : Stage)
  deriving DecidableEq

/-- The file a process has allocated and not published. -/
def Phase.allocates : Phase → Option FileIdx
  | .allocated f _ _ => some f
  | _ => none

/-- The file a process has published and not finished. -/
def Phase.opens : Phase → Option FileIdx
  | .opening f _ _ _ => some f
  | _ => none

structure OpenState where
  tables : FdTables
  files : FileIdx → OpenFile
  phase : Slot → Phase
  maker : FileIdx → Option Maker

/-- `fileread` and `filewrite` are the final panics of these functions; the others
are those of the kernel model. -/
inductive Panic
  | fileread
  | filewrite
  | fault (f : Fault)
  deriving DecidableEq

def OpenState.setFile (s : OpenState) (f : FileIdx) (x : OpenFile) : OpenState :=
  { s with files := Function.update s.files f x }

def OpenState.setPhase (s : OpenState) (p : Slot) (ph : Phase) : OpenState :=
  { s with phase := Function.update s.phase p ph }

def OpenState.setMaker (s : OpenState) (f : FileIdx) (m : Option Maker) : OpenState :=
  { s with maker := Function.update s.maker f m }

/-! ## file.c -/

def filealloc (files : FileIdx → OpenFile) : Option FileIdx :=
  (List.finRange NFILE).find? fun f => decide ((files f).ref = 0)

def filedup (x : OpenFile) : Except Panic OpenFile :=
  if x.ref < 1 then .error (.fault .filedup) else .ok { x with ref := x.ref + 1 }

/-- `fileclose`, as far as the entry of the table goes. The last reference clears
the type and nothing else. -/
def fileclose (x : OpenFile) : Except Panic OpenFile :=
  if x.ref < 1 then .error (.fault .fileclose)
  else if 0 < x.ref - 1 then .ok { x with ref := x.ref - 1 }
  else .ok { x with ref := 0, type := .none }

/-- `fileread`. `r` is what `piperead` or `readi` returns. -/
def fileread (x : OpenFile) (r : ℤ) : Except Panic (OpenFile × ℤ) :=
  if x.readable = false then .ok (x, -1)
  else
    match x.type with
    | .pipe => .ok (x, r)
    | .inode => .ok ({ x with off := x.off + r.toNat }, r)
    | .none => .error .fileread

/-- `filewrite` of `n` bytes. `r` is what `pipewrite` returns, `i` how many bytes the
loop writes before `writei` fails. -/
def filewrite (x : OpenFile) (n i : ℕ) (r : ℤ) : Except Panic (OpenFile × ℤ) :=
  if x.writable = false then .ok (x, -1)
  else
    match x.type with
    | .pipe => .ok (x, r)
    | .inode => .ok ({ x with off := x.off + i }, if i = n then n else -1)
    | .none => .error .filewrite

def filestat (x : OpenFile) : ℤ := if x.type = .inode then 0 else -1

/-! ## Steps -/

inductive FileCall
  | read (r : ℤ)
  | write (n i : ℕ) (r : ℤ)
  | fstat
  | dup
  | close

/-- A file with its fields changed by a call, and its maker's record with it. -/
def OpenState.moved (s : OpenState) (f : FileIdx) (x : OpenFile) : OpenState :=
  (s.setFile f x).setMaker f ((s.maker f).map (Maker.move (x.off - (s.files f).off)))

/-- A whole call on a descriptor. -/
def call (peers : Slot → PeerList) (s : OpenState) (p : Slot) (fd : ℤ) (c : FileCall) :
    Except Panic (OpenState × ℤ) :=
  match argfd s.tables p fd with
  | none => .ok (s, -1)
  | some (fd, f) =>
    match c with
    | .read r => (fileread (s.files f) r).map fun y => (s.moved f y.1, y.2)
    | .write n i r => (filewrite (s.files f) n i r).map fun y => (s.moved f y.1, y.2)
    | .fstat => .ok (s, filestat (s.files f))
    | .dup =>
      match fdalloc peers s.tables p f with
      | .error e => .error (.fault e)
      | .ok none => .ok (s, -1)
      | .ok (some (tables, fd')) =>
        (filedup (s.files f)).map fun x => ({ s.setFile f x with tables := tables }, fd'.val)
    | .close =>
      match fileclose (s.files f) with
      | .error e => .error e
      | .ok x =>
        match closeOfileClone peers (setFd s.tables p fd none) p fd with
        | .error e => .error (.fault e)
        | .ok tables => .ok ({ s.setFile f x with tables := tables }, 0)

/-- What follows `fdalloc` in `sys_open`: `iunlock`, `end_op` and the assignments. -/
def advance (s : OpenState) (p : Slot) (f : FileIdx) (ip : InodeIdx) (omode : BitVec 32) :
    Stage → OpenState
  | .published => s.setPhase p (.opening f ip omode .unlocked)
  | .unlocked => s.setPhase p (.opening f ip omode .ended)
  | .ended =>
    (s.setFile f { s.files f with type := .inode }).setPhase p (.opening f ip omode .typed)
  | .typed =>
    (s.setFile f { s.files f with ip := some ip }).setPhase p (.opening f ip omode .pointed)
  | .pointed => (s.setFile f { s.files f with off := 0 }).setPhase p (.opening f ip omode .rewound)
  | .rewound =>
    (s.setFile f { s.files f with readable := readableOf omode }).setPhase p
      (.opening f ip omode .readable)
  | .readable => (s.setFile f { s.files f with writable := writableOf omode }).setPhase p .idle

inductive OpenEvent
  | filealloc (p : Slot) (ip : InodeIdx) (omode : BitVec 32)
  | fdalloc (p : Slot)
  | advance (p : Slot)
  | call (p : Slot) (fd : ℤ) (c : FileCall)

/-- The state after a step, if the step can happen and does not panic. A process
inside `sys_open` makes no calls. -/
def openNext (peers : Slot → PeerList) (s : OpenState) : OpenEvent → Option OpenState
  | .filealloc p ip omode =>
    if s.phase p = .idle then
      match filealloc s.files with
      | none => some s
      | some f =>
        some (((s.setFile f { s.files f with ref := 1 }).setMaker f
          (some (.opened ip omode 0))).setPhase p (.allocated f ip omode))
    else none
  | .fdalloc p =>
    match s.phase p with
    | .allocated f ip omode =>
      match fdalloc peers s.tables p f with
      | .error _ => none
      | .ok none =>
        (fileclose (s.files f)).toOption.map fun x => (s.setFile f x).setPhase p .idle
      | .ok (some (tables, _)) =>
        some ({ s with tables := tables }.setPhase p (.opening f ip omode .published))
    | _ => none
  | .advance p =>
    match s.phase p with
    | .opening f ip omode st => some (advance s p f ip omode st)
    | _ => none
  | .call p fd c => if s.phase p = .idle then (call peers s p fd c).toOption.map Prod.fst else none

def OpenStep (peers : Slot → PeerList) (s : OpenState) (e : OpenEvent) (s' : OpenState) : Prop :=
  openNext peers s e = some s'

/-- Some process has published the file and not finished with its fields. -/
def OpenState.BeingOpened (s : OpenState) (f : FileIdx) : Prop :=
  ∃ q, (s.phase q).opens = some f

instance (s : OpenState) (f : FileIdx) : Decidable (s.BeingOpened f) :=
  inferInstanceAs (Decidable (∃ _, _ = _))

/-- A call does not go through the descriptor of a file that is still being opened. -/
def UsesOpened (s : OpenState) : OpenEvent → Prop
  | .call p fd _ => ∀ y ∈ argfd s.tables p fd, ¬s.BeingOpened y.2
  | _ => True

instance (s : OpenState) : DecidablePred (UsesOpened s)
  | .call _ _ _ => inferInstanceAs (Decidable (∀ y ∈ _, _))
  | .filealloc _ _ _ | .fdalloc _ | .advance _ => inferInstanceAs (Decidable True)

end Xv6Threads.Opening
