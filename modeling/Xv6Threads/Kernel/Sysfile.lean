/-
# File system calls

The descriptor and directory calls of `sysfile.c`, with the propagation to
`CLONE_FILES` and `CLONE_FS` peers, and `exec` as far as processes and page
directories see it.
-/

import Xv6Threads.Kernel.Files
import Xv6Threads.Kernel.Vm
import Xv6Threads.Lib.Flood

namespace Xv6Threads

open Lib
open Function (update)

/-! ## Propagation to peers -/

/-- The entries a propagation walks at each process, in array order. -/
def peerNbr (peers : Slot → PeerList) (q : Slot) : List (Option Slot) :=
  (List.finRange NPROC).map (peers q)

/-- The body the three propagations share: flood `v` from `p` through one cell
per process. No call can nest deeper than one level per process and the call
itself. -/
def propagate {β : Type} [DecidableEq β] (peers : Slot → PeerList) (v : β) (p : Slot)
    (cells : Slot → β) : Except Fault (Slot → β) :=
  match flood (peerNbr peers) v (NPROC + 1) p cells with
  | none => .error .recursionDepth
  | some cells' => .ok cells'

/-- Replace the column of one descriptor. -/
def setColumn (tables : FdTables) (fd : Fd) (column : Slot → Option FileIdx) : FdTables :=
  fun q => update (tables q) fd (column q)

/-- `open_ofile_clone`. -/
def openOfileClone (peers : Slot → PeerList) (tables : FdTables) (p : Slot) (f : FileIdx)
    (fd : Fd) : Except Fault FdTables :=
  match propagate peers (some f) p (fun q => tables q fd) with
  | .error e => .error e
  | .ok column => .ok (setColumn tables fd column)

/-- `close_ofile_clone`. -/
def closeOfileClone (peers : Slot → PeerList) (tables : FdTables) (p : Slot) (fd : Fd) :
    Except Fault FdTables :=
  match propagate peers (none : Option FileIdx) p (fun q => tables q fd) with
  | .error e => .error e
  | .ok column => .ok (setColumn tables fd column)

/-- `pwd_clone`. -/
def pwdClone (peers : Slot → PeerList) (cwds : Slot → Option InodeIdx) (p : Slot)
    (ip : InodeIdx) : Except Fault (Slot → Option InodeIdx) :=
  propagate peers (some ip) p cwds

/-! ## Descriptors -/

/-- Set one entry of one table. -/
def setFd (tables : FdTables) (p : Slot) (fd : Fd) (f : Option FileIdx) : FdTables :=
  update tables p (update (tables p) fd f)

/-- `argfd`: the descriptor and its file, if it is open. -/
def argfd (tables : FdTables) (p : Slot) (fd : ℤ) : Option (Fd × FileIdx) :=
  if h : 0 ≤ fd ∧ fd.toNat < NOFILE then
    (tables p ⟨fd.toNat, h.2⟩).map fun f => (⟨fd.toNat, h.2⟩, f)
  else none

/-- The first free descriptor. -/
def freeFd (ofile : Fd → Option FileIdx) : Option Fd :=
  (List.finRange NOFILE).find? fun fd => (ofile fd).isNone

/-- `fdalloc`: `none` if the table is full. -/
def fdalloc (peers : Slot → PeerList) (tables : FdTables) (p : Slot) (f : FileIdx) :
    Except Fault (Option (FdTables × Fd)) :=
  match freeFd (tables p) with
  | none => .ok none
  | some fd =>
    match openOfileClone peers (setFd tables p fd (some f)) p f fd with
    | .error e => .error e
    | .ok tables' => .ok (some (tables', fd))

/-- `sys_dup`. -/
def sysDup (s : Kernel) (p : Slot) (fd : ℤ) : Except Fault (Kernel × ℤ) :=
  match argfd s.ofiles p fd with
  | none => .ok (s, -1)
  | some (_, f) =>
    match fdalloc s.ofilePeers s.ofiles p f with
    | .error e => .error e
    | .ok none => .ok (s, -1)
    | .ok (some (tables, fd')) =>
      match filedup s.ftable f with
      | .error e => .error e
      | .ok ft => .ok ({ s.setOfiles tables with ftable := ft }, fd'.val)

/-- `sys_close`. -/
def sysClose (s : Kernel) (p : Slot) (fd : ℤ) : Except Fault (Kernel × ℤ) :=
  match argfd s.ofiles p fd with
  | none => .ok (s, -1)
  | some (fd, f) =>
    match fileclose s.ftable s.icache f with
    | .error e => .error e
    | .ok (ft, ic) =>
      match closeOfileClone s.ofilePeers (setFd s.ofiles p fd none) p fd with
      | .error e => .error e
      | .ok tables => .ok ({ s.setOfiles tables with ftable := ft, icache := ic }, 0)

/-- `sys_open`. The lookup covers both ways to reach the inode: `namei`, and
`create`, which walks to the parent, gets the file's inode and puts the parent.
`accept` is whether the inode's type allows the open. -/
def sysOpen (s : Kernel) (p : Slot) (w : Walk) (accept : Bool) : Except Fault (Kernel × ℤ) :=
  match namei s.icache (s.procs p).cwd w with
  | .error e => .error e
  | .ok (ic, none) => .ok ({ s with icache := ic }, -1)
  | .ok (ic, some ip) =>
    match ilock ic ip with
    | .error e => .error e
    | .ok () =>
      if accept then
        match filealloc s.ftable with
        | none => .ok ({ s with icache := iput ic ip }, -1)
        | some (ft, f) =>
          match fdalloc s.ofilePeers s.ofiles p f with
          | .error e => .error e
          | .ok none =>
            match fileclose ft ic f with
            | .error e => .error e
            | .ok (ft, ic) => .ok ({ s with ftable := ft, icache := iput ic ip }, -1)
          | .ok (some (tables, fd)) =>
            .ok ({ s.setOfiles tables with
              ftable := update ft f { ft f with kind := .inode ip }
              icache := ic }, fd.val)
      else .ok ({ s with icache := iput ic ip }, -1)

/-- `pipealloc`: two files, or `none` with whatever was taken given back.
`page` is whether `kalloc` finds a page for the pipe. -/
def pipealloc (ft : Ftable) (ic : Icache) (page : Bool) :
    Except Fault (Ftable × Icache × Option (FileIdx × FileIdx)) :=
  match filealloc ft with
  | none => .ok (ft, ic, none)
  | some (ft, f0) =>
    match filealloc ft with
    | none =>
      match fileclose ft ic f0 with
      | .error e => .error e
      | .ok (ft, ic) => .ok (ft, ic, none)
    | some (ft, f1) =>
      if page then
        .ok (update (update ft f0 { ft f0 with kind := .pipe }) f1
          { ft f1 with kind := .pipe }, ic, some (f0, f1))
      else
        match fileclose ft ic f0 with
        | .error e => .error e
        | .ok (ft, ic) =>
          match fileclose ft ic f1 with
          | .error e => .error e
          | .ok (ft, ic) => .ok (ft, ic, none)

/-- The error path of `sys_pipe`: the first descriptor, if it was taken, is
cleared in the caller's own table only, and both files are closed. -/
def pipeUndo (s : Kernel) (tables : FdTables) (ft : Ftable) (ic : Icache) (rf wf : FileIdx) :
    Except Fault (Kernel × ℤ) :=
  match fileclose ft ic rf with
  | .error e => .error e
  | .ok (ft, ic) =>
    match fileclose ft ic wf with
    | .error e => .error e
    | .ok (ft, ic) => .ok ({ s.setOfiles tables with ftable := ft, icache := ic }, -1)

/-- `sys_pipe`. `argok` is whether the user's array passes `argptr`. -/
def sysPipe (s : Kernel) (p : Slot) (argok page : Bool) : Except Fault (Kernel × ℤ) :=
  if argok then
    match pipealloc s.ftable s.icache page with
    | .error e => .error e
    | .ok (ft, ic, none) => .ok ({ s with ftable := ft, icache := ic }, -1)
    | .ok (ft, ic, some (rf, wf)) =>
      match fdalloc s.ofilePeers s.ofiles p rf with
      | .error e => .error e
      | .ok none => pipeUndo s s.ofiles ft ic rf wf
      | .ok (some (tables, fd0)) =>
        match fdalloc s.ofilePeers tables p wf with
        | .error e => .error e
        | .ok none => pipeUndo s (setFd tables p fd0 none) ft ic rf wf
        | .ok (some (tables, _)) =>
          .ok ({ s.setOfiles tables with ftable := ft, icache := ic }, 0)
  else .ok (s, -1)

/-! ## The current directory -/

/-- Give every process the current directory `cwds` says. A process whose entry
changes remembers the generation of the new one. -/
def Kernel.setCwds (s : Kernel) (cwds : Slot → Option InodeIdx) (gen : ℕ) : Kernel :=
  { s with procs := fun q =>
    { s.procs q with
      cwd := cwds q
      cwdGen := if cwds q = (s.procs q).cwd then (s.procs q).cwdGen else gen } }

/-- `sys_chdir`. `isDir` is whether the path leads to a directory. -/
def sysChdir (s : Kernel) (p : Slot) (w : Walk) (isDir : Bool) : Except Fault (Kernel × ℤ) :=
  match namei s.icache (s.procs p).cwd w with
  | .error e => .error e
  | .ok (ic, none) => .ok ({ s with icache := ic }, -1)
  | .ok (ic, some ip) =>
    match ilock ic ip with
    | .error e => .error e
    | .ok () =>
      if isDir then
        match (s.procs p).cwd with
        | none => .error .nullDeref
        | some old =>
          let s := { s with icache := iput ic old }
          let gen := (s.icache ip).gen
          let propagated : Except Fault Kernel :=
            if old = ip then .ok s
            else
              match pwdClone s.cwdPeers (fun q => (s.procs q).cwd) p ip with
              | .error e => .error e
              | .ok cwds => .ok (s.setCwds cwds gen)
          match propagated with
          | .error e => .error e
          | .ok s => .ok (s.setProc p { s.procs p with cwd := some ip, cwdGen := gen }, 0)
      else .ok ({ s with icache := iput ic ip }, -1)

/-! ## exec -/

/-- One loadable program header: the end of the segment, whether it passes the
checks and loads, and how many pages memory has left for it. -/
structure Segment where
  top : ℕ
  ok : Bool
  budget : ℕ

/-- What `exec` finds: the path, whether the ELF header is good, the page
`setupkvm` gets, the program headers, the pages left for the stack, and whether
the arguments fit. -/
structure ExecEnv where
  walk : Walk
  elf : Bool
  pgdir : Option PageAddr
  segs : List Segment
  budget : ℕ
  args : Bool

/-- The load loop of `exec`. `none` is `goto bad`. -/
def loadSegs (mem : AddrSpace) (sz : ℕ) : List Segment → Except Fault (Option (AddrSpace × ℕ))
  | [] => .ok (some (mem, sz))
  | seg :: rest =>
    if seg.ok then
      match allocuvm seg.budget mem sz (seg.top % 2 ^ 32) with
      | .error e => .error e
      | .ok (mem', sz') => if sz' = 0 then .ok none else loadSegs mem' sz' rest
    else .ok none

/-- The image `exec` builds: the segments, then two pages for the stack. -/
def loadImage (env : ExecEnv) : Except Fault (Option (AddrSpace × ℕ)) :=
  match loadSegs (fun _ => false) 0 env.segs with
  | .error e => .error e
  | .ok none => .ok none
  | .ok (some (mem, sz)) =>
    match allocuvm env.budget mem (pgroundup sz) ((pgroundup sz + 2 * PGSIZE) % 2 ^ 32) with
    | .error e => .error e
    | .ok (mem', sz') => .ok (if sz' = 0 ∨ env.args = false then none else some (mem', sz'))

/-- The commit point of `exec`: install the new image and free the old one. -/
def commitImage (s : Kernel) (p : Slot) (d : PageAddr) (mem : AddrSpace) (sz : ℕ) :
    Except Fault Kernel :=
  let old := (s.procs p).pgdir
  let s := (s.setMem d mem).setProc p { s.procs p with pgdir := some d, sz := sz }
  match freevm s.pgdirs old with
  | .error e => .error e
  | .ok pgdirs => .ok { s with pgdirs := pgdirs }

/-- `exec`. On every failure the new directory is freed again and the inode put
back. -/
def exec (s : Kernel) (p : Slot) (env : ExecEnv) : Except Fault (Kernel × ℤ) :=
  match namei s.icache (s.procs p).cwd env.walk with
  | .error e => .error e
  | .ok (ic, none) => .ok ({ s with icache := ic }, -1)
  | .ok (ic, some ip) =>
    match ilock ic ip with
    | .error e => .error e
    | .ok () =>
      let s := { s with icache := iput ic ip }
      match env.elf, env.pgdir with
      | true, some d =>
        match loadImage env with
        | .error e => .error e
        | .ok none => .ok (s, -1)
        | .ok (some (mem, sz)) =>
          match commitImage s p d mem sz with
          | .error e => .error e
          | .ok s => .ok (s, 0)
      | _, _ => .ok (s, -1)

end Xv6Threads
