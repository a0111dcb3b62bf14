/-
# User memory of a process

`vm.c` as the process code sees it: which user pages of a page directory are
present. Physical pages are left out; what can go wrong with them, that none is
left, is a budget the caller of each function supplies. `Vm.Levels` relates this
level to the page tables.

Sizes are C `uint`s held as naturals. Sums that can leave 32 bits wrap
explicitly.
-/

import Mathlib.Data.List.Range
import Xv6Threads.Kernel.State

namespace Xv6Threads

def pgroundup (a : ℕ) : ℕ := (a + (PGSIZE - 1)) % 2 ^ 32 / PGSIZE * PGSIZE

/-- The pages visited by `for(a = lo; a < hi; a += PGSIZE)`, for aligned `lo`. -/
def pagesBetween (lo hi : ℕ) : List ℕ :=
  List.range' (lo / PGSIZE) ((hi - lo + (PGSIZE - 1)) / PGSIZE)

/-- The page loop of `allocuvm`. The flag says whether memory lasted. -/
def mapPages (budget : ℕ) (mem : AddrSpace) : List ℕ → Except Fault (AddrSpace × Bool)
  | [] => .ok (mem, true)
  | pg :: rest =>
    match budget with
    | 0 => .ok (mem, false)
    | budget + 1 =>
      if mem pg then .error .remap
      else mapPages budget (Function.update mem pg true) rest

def deallocuvm (mem : AddrSpace) (oldsz newsz : ℕ) : AddrSpace × ℕ :=
  if oldsz ≤ newsz then (mem, oldsz)
  else
    (fun pg => if pgroundup newsz ≤ pg * PGSIZE ∧ pg * PGSIZE < oldsz then false else mem pg,
      newsz)

/-- `allocuvm`: the new size, or 0 on error. -/
def allocuvm (budget : ℕ) (mem : AddrSpace) (oldsz newsz : ℕ) : Except Fault (AddrSpace × ℕ) :=
  if KERNBASE ≤ newsz then .ok (mem, 0)
  else if newsz < oldsz then .ok (mem, oldsz)
  else
    match mapPages budget mem (pagesBetween (pgroundup oldsz) newsz) with
    | .error f => .error f
    | .ok (mem', true) => .ok (mem', newsz)
    | .ok (mem', false) => .ok ((deallocuvm mem' newsz oldsz).1, 0)

/-- The page loop of `copyuvm`. -/
def copyPages (src : AddrSpace) (budget : ℕ) (dst : AddrSpace) :
    List ℕ → Except Fault (Option AddrSpace)
  | [] => .ok (some dst)
  | pg :: rest =>
    if src pg then
      match budget with
      | 0 => .ok none
      | budget + 1 =>
        if dst pg then .error .remap
        else copyPages src budget (Function.update dst pg true) rest
    else .error .copyuvm

/-- `copyuvm`, once `setupkvm` has produced an empty directory. -/
def copyuvm (budget : ℕ) (src : AddrSpace) (sz : ℕ) : Except Fault (Option AddrSpace) :=
  copyPages src budget (fun _ => false) (pagesBetween 0 sz)

/-- `freevm`: the directory stops existing. Freeing one that does not exist
any more is undefined. -/
def freevm (pgdirs : PageAddr → Option AddrSpace) (d : Option PageAddr) :
    Except Fault (PageAddr → Option AddrSpace) :=
  match d with
  | none => .error .freevmNoPgdir
  | some d =>
    match pgdirs d with
    | none => .error .danglingPgdir
    | some _ => .ok (Function.update pgdirs d none)

/-- The address space behind a page directory pointer. -/
def Kernel.addrSpace (s : Kernel) (d : Option PageAddr) : Except Fault (PageAddr × AddrSpace) :=
  match d with
  | none => .error .nullDeref
  | some d =>
    match s.pgdirs d with
    | none => .error .danglingPgdir
    | some mem => .ok (d, mem)

def Kernel.setMem (s : Kernel) (d : PageAddr) (mem : AddrSpace) : Kernel :=
  { s with pgdirs := Function.update s.pgdirs d (some mem) }

/-- `growproc`. Shrinking to size 0 frees the pages and then reports an error
without changing `sz`. -/
def growproc (s : Kernel) (p : Slot) (n : BitVec 32) (budget : ℕ) :
    Except Fault (Kernel × ℤ) :=
  match s.addrSpace (s.procs p).pgdir with
  | .error f => .error f
  | .ok (d, mem) =>
    let sz := (s.procs p).sz
    if 0 < n.toInt then
      match allocuvm budget mem sz ((sz + n.toNat) % 2 ^ 32) with
      | .error f => .error f
      | .ok (mem', sz') =>
        if sz' = 0 then .ok (s.setMem d mem', -1)
        else .ok ((s.setMem d mem').setProc p { s.procs p with sz := sz' }, 0)
    else if n.toInt < 0 then
      let (mem', sz') := deallocuvm mem sz ((sz + n.toNat) % 2 ^ 32)
      if sz' = 0 then .ok (s.setMem d mem', -1)
      else .ok ((s.setMem d mem').setProc p { s.procs p with sz := sz' }, 0)
    else .ok (s, 0)

/-- `sys_sbrk`: the old size on success. -/
def sysSbrk (s : Kernel) (p : Slot) (n : BitVec 32) (budget : ℕ) : Except Fault (Kernel × ℤ) :=
  match growproc s p n budget with
  | .error f => .error f
  | .ok (s', r) => .ok (s', if r < 0 then -1 else (s.procs p).sz)

end Xv6Threads
