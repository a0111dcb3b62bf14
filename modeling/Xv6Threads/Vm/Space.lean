/-
# User memory of whole processes

What `growproc`, `exec`, `fork` and `wait` do to user memory, and the machine of
processes that use them. No two processes share a directory here: threads with
`CLONE_VM` do, and are not part of this machine.

The program `exec` reads is given by its loadable headers; what `readi` delivers for a
segment is given page by page. A header or a page that cannot be read in full is `none`.
-/

import Xv6Threads.Vm.Paging

namespace Xv6Threads.Vm

open Lib Lib.Command

@[reducible] def MAXARG : ℕ := 32

/-- `pgdir` and `sz` of a process. -/
structure Space where
  pgdir : ℕ
  sz : Word
  deriving DecidableEq

/-- A program header of type `ELF_PROG_LOAD`. -/
structure Segment where
  vaddr : Word
  memsz : Word
  filesz : Word
  load : ℕ → Option (List (BitVec 8))

section

variable (L : Layout)

/-- The process as `growproc` leaves it, and what it returns. -/
def growproc (p : Space) (n : Word) : VmM (Space × ℤ) :=
  if 0 < n.toInt then do
    let sz ← allocuvm L p.pgdir p.sz (p.sz + n)
    if sz = 0 then return (p, -1) else return ({ p with sz := sz }, 0)
  else if n.toInt < 0 then do
    let sz ← deallocuvm L p.pgdir p.sz (p.sz + n)
    if sz = 0 then return (p, -1) else return ({ p with sz := sz }, 0)
  else return (p, 0)

/-! ## `exec` -/

/-- The loop of `loaduvm`, at page `i` of the segment. -/
def loadLoop (pgdir : ℕ) (addr sz : Word) (load : ℕ → Option (List (BitVec 8))) :
    ℕ → ℕ → VmM Bool
  | 0, _ => return true
  | fuel + 1, i =>
    if i * PGSIZE < sz.toNat then do
      match ← walkpgdir pgdir (addr + BitVec.ofNat 32 (i * PGSIZE)) false with
      | none => fail .loaduvm
      | some (pgtab, j) => do
          let pte ← getEntry pgtab j
          let pa := frameOf (pteAddr pte)
          let n := min PGSIZE (sz.toNat - i * PGSIZE)
          match load i with
          | none => return false
          | some bytes => do
              let page ← read fun s => s.mem pa
              setPage pa (pageWith page 0 (bytes.take n))
              loadLoop pgdir addr sz load fuel (i + 1)
    else return true

def loaduvm (pgdir : ℕ) (addr : Word) (load : ℕ → Option (List (BitVec 8))) (sz : Word) :
    VmM Bool := do
  check (fun _ => addr.toNat % PGSIZE = 0) .loaduvm
  loadLoop pgdir addr sz load (sz.toNat / PGSIZE + 1) 0

/-- The loop over the program headers: the size reached, or `none` for `goto bad`. -/
def loadProgram (pgdir : ℕ) : List (Option Segment) → Word → VmM (Option Word)
  | [], sz => return some sz
  | none :: _, _ => return none
  | some ph :: rest, sz =>
    if ph.memsz < ph.filesz then return none
    else if ph.vaddr + ph.memsz < ph.vaddr then return none
    else do
      let sz ← allocuvm L pgdir sz (ph.vaddr + ph.memsz)
      if sz = 0 then return none
      else if ph.vaddr.toNat % PGSIZE ≠ 0 then return none
      else if ← loaduvm pgdir ph.vaddr ph.load ph.filesz then loadProgram pgdir rest sz
      else return none

/-- The loop over the argument strings, given without their final NUL: the stack pointer
and the addresses of the strings. -/
def pushArgs (pgdir : ℕ) : List (List (BitVec 8)) → ℕ → Word → List Word →
    VmM (Option (Word × List Word))
  | [], _, sp, ustack => return some (sp, ustack)
  | arg :: rest, argc, sp, ustack =>
    if MAXARG ≤ argc then return none
    else do
      let sp := (sp - BitVec.ofNat 32 (arg.length + 1)) &&& ~~~3#32
      if ← copyout pgdir sp (arg ++ [0]) then
        pushArgs pgdir rest (argc + 1) sp (ustack ++ [sp])
      else return none

/-- The bytes of a list of words. -/
def bytesOf (ws : List Word) : List (BitVec 8) :=
  ws.flatMap fun w => [byteOf w 0, byteOf w 1, byteOf w 2, byteOf w 3]

/-- `exec` up to the stack pages: the new directory and, unless it has to be given up, the
size of the memory in it. -/
def loadImage (prog : List (Option Segment)) : VmM (Option (ℕ × Option Word)) := do
  match ← setupkvm L with
  | none => return none
  | some pgdir => do
      match ← loadProgram L pgdir prog 0 with
      | none => return some (pgdir, none)
      | some sz => do
          let sz := pgroundup sz
          let sz ← allocuvm L pgdir sz (sz + BitVec.ofNat 32 (2 * PGSIZE))
          if sz = 0 then return some (pgdir, none)
          else do
            clearpteu pgdir (sz - BitVec.ofNat 32 (2 * PGSIZE))
            return some (pgdir, some sz)

/-- `exec` from the argument strings on. -/
def setupStack (pgdir : ℕ) (argv : List (List (BitVec 8))) (sz : Word) :
    VmM (Option (Space × Word)) := do
  match ← pushArgs pgdir argv 0 sz [] with
  | none => return none
  | some (sp, ustack) => do
      let argc := argv.length
      let words := [0xffffffff#32, BitVec.ofNat 32 argc,
        sp - BitVec.ofNat 32 ((argc + 1) * 4)] ++ ustack ++ [0]
      let sp := sp - BitVec.ofNat 32 ((3 + argc + 1) * 4)
      if ← copyout pgdir sp (bytesOf words) then return some (⟨pgdir, sz⟩, sp)
      else return none

/-- The new user memory and stack pointer, or `none` if `exec` returns -1. -/
def exec (prog : List (Option Segment)) (argv : List (List (BitVec 8))) :
    VmM (Option (Space × Word)) := do
  match ← loadImage L prog with
  | none => return none
  | some (pgdir, none) => do
      freevm L pgdir
      return none
  | some (pgdir, some sz) => do
      match ← setupStack pgdir argv sz with
      | none => do
          freevm L pgdir
          return none
      | some new => return some new

/-! ## The first process -/

/-- `inituvm`. Neither `kalloc` nor `mappages` is asked whether it succeeded. -/
def inituvm (pgdir : ℕ) (init : List (BitVec 8)) : VmM Unit := do
  check (fun _ => init.length < PGSIZE) .userinit
  match ← kalloc with
  | none => fail .nullDeref
  | some mem => do
      setPage mem fun _ => 0
      let _ ← mappages pgdir 0 (BitVec.ofNat 32 PGSIZE) (addrOf mem) (PTE_W ||| PTE_U)
      let page ← read fun s => s.mem mem
      setPage mem (pageWith page 0 init)

def userinit (init : List (BitVec 8)) : VmM Space := do
  match ← setupkvm L with
  | none => fail .userinit
  | some pgdir => do
      inituvm pgdir init
      return ⟨pgdir, BitVec.ofNat 32 PGSIZE⟩

/-! ## The machine -/

/-- Physical memory, the pages other parts of the kernel hold (stacks, pipes), and the
user memory of every process that has one. -/
structure VmState where
  mem : PMem
  held : List ℕ
  procs : ℕ → Option Space

inductive VmEvent
  | exec (p : ℕ) (prog : List (Option Segment)) (argv : List (List (BitVec 8)))
  -- `c` is a process without user memory
  | fork (p c : ℕ)
  | growproc (p : ℕ) (n : Word)
  -- the parent of a zombie frees its memory
  | wait (p : ℕ)
  -- a page is taken or given back elsewhere in the kernel
  | kalloc
  | kfree (f : ℕ)

/-- `exec` up to the point where the old memory is gone. -/
def execSpace (old : Space) (prog : List (Option Segment)) (argv : List (List (BitVec 8))) :
    VmM Space := do
  match ← exec L prog argv with
  | none => return old
  | some (new, _) => do
      freevm L old.pgdir
      return new

/-- The child's user memory, if there is enough for it. -/
def forkSpace (p : Space) : VmM (Option Space) := do
  match ← copyuvm L p.pgdir p.sz with
  | none => return none
  | some d => return some ⟨d, p.sz⟩

/-- The pages held and the processes after an event. -/
def VmEvent.run (held : List ℕ) (procs : ℕ → Option Space) :
    VmEvent → VmM (List ℕ × (ℕ → Option Space))
  | .exec p prog argv =>
    match procs p with
    | none => return (held, procs)
    | some sp => do
        let sp ← execSpace L sp prog argv
        return (held, Function.update procs p (some sp))
  | .fork p c =>
    match procs p, procs c with
    | some sp, none => do
        let child ← forkSpace L sp
        return (held, Function.update procs c child)
    | _, _ => return (held, procs)
  | .growproc p n =>
    match procs p with
    | none => return (held, procs)
    | some sp => do
        let (sp, _) ← Vm.growproc L sp n
        return (held, Function.update procs p (some sp))
  | .wait p =>
    match procs p with
    | none => return (held, procs)
    | some sp => do
        freevm L sp.pgdir
        return (held, Function.update procs p none)
  | .kalloc => do
      match ← Vm.kalloc with
      | none => return (held, procs)
      | some f => return (f :: held, procs)
  | .kfree f =>
    if f ∈ held then do
      Vm.kfree L f
      return (held.erase f, procs)
    else return (held, procs)

/-- A step: an event, with what `kalloc` is made to fail at during it. -/
def VmState.next (s : VmState) (e : VmEvent × List Bool) : Except VmFault VmState :=
  match VmEvent.run L s.held s.procs e.1 { s.mem with fails := e.2 } with
  | .error f => .error f
  | .ok ((held, procs), mem) => .ok ⟨mem, held, procs⟩

abbrev VmStep (s : VmState) (e : VmEvent × List Bool) (s' : VmState) : Prop :=
  s.next L e = .ok s'

end

end Xv6Threads.Vm
