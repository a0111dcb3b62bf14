/-
# Physical memory and page tables

`kalloc.c` and `vm.c` over byte memory. A page of physical memory is named by its frame
number, which stands for both its physical address and the kernel's address for it;
page directories and page tables are pages like any other, and their entries are words
read from them.

`kalloc` fails when no page is free, and also whenever `fails` says so, which stands for
what other processors take from the list meanwhile. The links of the free list are a
list here and not kept in the free pages.
-/

import Xv6Threads.Lib.Command
import Xv6Threads.Lib.Words
import Xv6Threads.Params

namespace Xv6Threads.Vm

open Lib Lib.Command

abbrev Word : Type := BitVec 32

/-- The contents of a page, by offset. -/
abbrev Page : Type := ℕ → BitVec 8

@[reducible] def NPDENTRIES : ℕ := 1024

@[reducible] def EXTMEM : ℕ := 0x100000

@[reducible] def PHYSTOP : ℕ := 0xE000000

@[reducible] def DEVSPACE : ℕ := 0xFE000000

@[reducible] def KERNLINK : ℕ := KERNBASE + EXTMEM

/-- What the linker script fixes: the frame `V2P(data)` starts, and the first frame above
`V2P(end)`. -/
structure Layout where
  data : ℕ
  kend : ℕ
  text : EXTMEM / PGSIZE < data
  order : data < kend
  room : kend ≤ PHYSTOP / PGSIZE

structure PMem where
  mem : ℕ → Page
  -- `kmem.freelist`
  free : List ℕ
  fails : List Bool

inductive VmFault
  -- the panics of `kfree` and `deallocuvm`
  | kfree
  | remap
  -- "copyuvm: pte should exist"
  | copyuvmNoPte
  -- "copyuvm: page not present"
  | copyuvmAbsent
  | clearpteu
  | loaduvm
  -- a null pointer is dereferenced
  | nullDeref
  -- the kernel stores through a user address that is not mapped
  | pageFault
  | userinit
  deriving DecidableEq

abbrev VmM (α : Type) : Type := Command PMem VmFault α

/-! ## Entries -/

@[reducible] def PTE_P : Word := 1

@[reducible] def PTE_W : Word := 2

@[reducible] def PTE_U : Word := 4

def present (pte : Word) : Bool := pte &&& PTE_P != 0

def user (pte : Word) : Bool := pte &&& PTE_U != 0

def pteAddr (pte : Word) : Word := pte &&& ~~~0xFFF#32

def pteFlags (pte : Word) : Word := pte &&& 0xFFF#32

/-- The physical address of a frame. -/
def addrOf (f : ℕ) : Word := BitVec.ofNat 32 (f * PGSIZE)

def frameOf (pa : Word) : ℕ := pa.toNat / PGSIZE

def PDX (va : Word) : ℕ := va.toNat / 2 ^ 22

def PTX (va : Word) : ℕ := va.toNat / 2 ^ 12 % 2 ^ 10

/-- `PGADDR(d, 0, 0)`. -/
def pgaddr (d : ℕ) : Word := BitVec.ofNat 32 (d * 2 ^ 22)

def pgroundup (sz : Word) : Word := (sz + BitVec.ofNat 32 PGSIZE - 1) &&& ~~~0xFFF#32

def pgrounddown (a : Word) : Word := a &&& ~~~0xFFF#32

/-- The memory with a page replaced. -/
def PMem.fill (s : PMem) (f : ℕ) (p : Page) : PMem :=
  { s with mem := Function.update s.mem f p }

/-- The memory with word `i` of a page replaced. -/
def PMem.put (s : PMem) (f i : ℕ) (w : Word) : PMem :=
  s.fill f (putWord (s.mem f) (4 * i) w)

def setPage (f : ℕ) (p : Page) : VmM Unit := modify fun s => s.fill f p

def getEntry (f i : ℕ) : VmM Word := read fun s => wordAt (s.mem f) (4 * i)

def setEntry (f i : ℕ) (w : Word) : VmM Unit := modify fun s => s.put f i w

/-! ## The allocator -/

section

variable (L : Layout)

def kfree (f : ℕ) : VmM Unit := do
  check (fun _ => L.kend ≤ f ∧ f < PHYSTOP / PGSIZE) .kfree
  setPage f fun _ => 1
  modify fun s => { s with free := f :: s.free }

def kalloc : VmM (Option ℕ) := do
  let failed ← read fun s => s.fails.headD false
  modify fun s => { s with fails := s.fails.tail }
  let free ← read PMem.free
  match failed, free with
  | false, f :: rest => do
      modify fun s => { s with free := rest }
      return some f
  | _, _ => return none

/-! ## Walking and mapping -/

/-- The page and index of the entry for `va`, if there is a page table for it. -/
def walkpgdir (pgdir : ℕ) (va : Word) (alloc : Bool) : VmM (Option (ℕ × ℕ)) := do
  let pde ← getEntry pgdir (PDX va)
  if present pde then return some (frameOf (pteAddr pde), PTX va)
  else if alloc then
    match ← kalloc with
    | none => return none
    | some pgtab => do
        setPage pgtab fun _ => 0
        setEntry pgdir (PDX va) (addrOf pgtab ||| PTE_P ||| PTE_W ||| PTE_U)
        return some (pgtab, PTX va)
  else return none

/-- The body of the loop of `mappages`. -/
def mapPage (pgdir : ℕ) (a pa perm : Word) : VmM Bool := do
  match ← walkpgdir pgdir a true with
  | none => return false
  | some (pgtab, i) => do
      let pte ← getEntry pgtab i
      check (fun _ => present pte = false) .remap
      setEntry pgtab i (pa ||| perm ||| PTE_P)
      return true

/-- The loop of `mappages` with `n` pages to go after this one. -/
def mapLoop (pgdir : ℕ) (perm : Word) : ℕ → Word → Word → VmM Bool
  | 0, a, pa => mapPage pgdir a pa perm
  | n + 1, a, pa => do
      if ← mapPage pgdir a pa perm then
        mapLoop pgdir perm n (a + BitVec.ofNat 32 PGSIZE) (pa + BitVec.ofNat 32 PGSIZE)
      else return false

/-- Whether all pages were mapped. The loop stops at `last`, which it meets because both
ends are page addresses. -/
def mappages (pgdir : ℕ) (va size pa perm : Word) : VmM Bool :=
  let a := pgrounddown va
  let last := pgrounddown (va + size - 1)
  mapLoop pgdir perm ((last - a).toNat / PGSIZE) a pa

/-! ## User memory -/

/-- The loop of `deallocuvm`. A missing page table is skipped whole. -/
def deallocLoop (pgdir : ℕ) (oldsz : Word) : ℕ → Word → VmM Unit
  | 0, _ => return ()
  | fuel + 1, a =>
    if a < oldsz then do
      match ← walkpgdir pgdir a false with
      | none =>
        let a := pgaddr (PDX a + 1) - BitVec.ofNat 32 PGSIZE
        deallocLoop pgdir oldsz fuel (a + BitVec.ofNat 32 PGSIZE)
      | some (pgtab, i) => do
          let pte ← getEntry pgtab i
          if present pte then
            check (fun _ => pteAddr pte ≠ 0) .kfree
            kfree L (frameOf (pteAddr pte))
            setEntry pgtab i 0
            deallocLoop pgdir oldsz fuel (a + BitVec.ofNat 32 PGSIZE)
          else deallocLoop pgdir oldsz fuel (a + BitVec.ofNat 32 PGSIZE)
    else return ()

/-- Every turn of the loop goes up by a page at least. -/
def deallocuvm (pgdir : ℕ) (oldsz newsz : Word) : VmM Word :=
  if oldsz ≤ newsz then return oldsz
  else do
    deallocLoop L pgdir oldsz (oldsz.toNat / PGSIZE + 1) (pgroundup newsz)
    return newsz

/-- The loop of `allocuvm`: the new size, or 0. -/
def allocLoop (pgdir : ℕ) (oldsz newsz : Word) : ℕ → Word → VmM Word
  | 0, _ => return newsz
  | fuel + 1, a =>
    if a < newsz then do
      match ← kalloc with
      | none => do
          let _ ← deallocuvm L pgdir newsz oldsz
          return 0
      | some mem => do
          setPage mem fun _ => 0
          if ← mappages pgdir a (BitVec.ofNat 32 PGSIZE) (addrOf mem) (PTE_W ||| PTE_U) then
            allocLoop pgdir oldsz newsz fuel (a + BitVec.ofNat 32 PGSIZE)
          else do
            let _ ← deallocuvm L pgdir newsz oldsz
            kfree L mem
            return 0
    else return newsz

def allocuvm (pgdir : ℕ) (oldsz newsz : Word) : VmM Word :=
  if BitVec.ofNat 32 KERNBASE ≤ newsz then return 0
  else if newsz < oldsz then return oldsz
  else allocLoop L pgdir oldsz newsz (newsz.toNat / PGSIZE + 1) (pgroundup oldsz)

/-- The loop of `freevm` over the directory's entries. -/
def freeTables (pgdir : ℕ) : List ℕ → VmM Unit
  | [] => return ()
  | i :: rest => do
      let pde ← getEntry pgdir i
      if present pde then
        kfree L (frameOf (pteAddr pde))
        freeTables pgdir rest
      else freeTables pgdir rest

def freevm (pgdir : ℕ) : VmM Unit := do
  let _ ← deallocuvm L pgdir (BitVec.ofNat 32 KERNBASE) 0
  freeTables L pgdir (List.range NPDENTRIES)
  kfree L pgdir

/-- A row of `kmap`. -/
structure Kmap where
  virt : ℕ
  physStart : ℕ
  physEnd : ℕ
  perm : Word

/-- The table of the kernel's mappings. `DEVSPACE` ends at `2 ^ 32`, which is 0 in the
source. -/
def kmap : List Kmap :=
  [ -- I/O space
    ⟨KERNBASE, 0, EXTMEM, PTE_W⟩,
    -- kernel text and read-only data
    ⟨KERNLINK, EXTMEM, L.data * PGSIZE, 0⟩,
    -- kernel data and memory
    ⟨KERNBASE + L.data * PGSIZE, L.data * PGSIZE, PHYSTOP, PTE_W⟩,
    -- more devices
    ⟨DEVSPACE, DEVSPACE, 2 ^ 32, PTE_W⟩ ]

def mapKernel (pgdir : ℕ) : List Kmap → VmM Bool
  | [] => return true
  | k :: rest => do
      if ← mappages pgdir (BitVec.ofNat 32 k.virt) (BitVec.ofNat 32 (k.physEnd - k.physStart))
          (BitVec.ofNat 32 k.physStart) k.perm then
        mapKernel pgdir rest
      else return false

/-- `P2V(PHYSTOP)` is below `DEVSPACE`, so the panic of the source is left out. -/
def setupkvm : VmM (Option ℕ) := do
  match ← kalloc with
  | none => return none
  | some pgdir => do
      setPage pgdir fun _ => 0
      if ← mapKernel pgdir (kmap L) then return some pgdir
      else do
        freevm L pgdir
        return none

def clearpteu (pgdir : ℕ) (uva : Word) : VmM Unit := do
  match ← walkpgdir pgdir uva false with
  | none => fail .clearpteu
  | some (pgtab, i) => do
      let pte ← getEntry pgtab i
      setEntry pgtab i (pte &&& ~~~PTE_U)

/-- The loop of `copyuvm`. -/
def copyLoop (pgdir d : ℕ) (sz : Word) : ℕ → Word → VmM Bool
  | 0, _ => return true
  | fuel + 1, i =>
    if i < sz then do
      match ← walkpgdir pgdir i false with
      | none => fail .copyuvmNoPte
      | some (pgtab, j) => do
          let pte ← getEntry pgtab j
          check (fun _ => present pte = true) .copyuvmAbsent
          match ← kalloc with
          | none => return false
          | some mem => do
              let page ← read fun s => s.mem (frameOf (pteAddr pte))
              setPage mem page
              if ← mappages d i (BitVec.ofNat 32 PGSIZE) (addrOf mem) (pteFlags pte) then
                copyLoop pgdir d sz fuel (i + BitVec.ofNat 32 PGSIZE)
              else do
                kfree L mem
                return false
    else return true

def copyuvm (pgdir : ℕ) (sz : Word) : VmM (Option ℕ) := do
  match ← setupkvm L with
  | none => return none
  | some d => do
      if ← copyLoop L pgdir d sz (sz.toNat / PGSIZE + 1) 0 then return some d
      else do
        freevm L d
        return none

end

/-! ## Copying to user memory -/

/-- `none` is the null pointer. The entry is read whether or not there is one. -/
def uva2ka (pgdir : ℕ) (uva : Word) : VmM (Option ℕ) := do
  match ← walkpgdir pgdir uva false with
  | none => fail .nullDeref
  | some (pgtab, i) => do
      let pte ← getEntry pgtab i
      if present pte = false then return none
      else if user pte = false then return none
      else return some (frameOf (pteAddr pte))

/-- `memmove` of a list of bytes into a page. -/
def pageWith (p : Page) (off : ℕ) (bytes : List (BitVec 8)) : Page :=
  fun o => if off ≤ o ∧ o < off + bytes.length then bytes.getD (o - off) 0 else p o

/-- The loop of `copyout`; every turn takes a byte at least. -/
def copyoutLoop (pgdir : ℕ) : ℕ → Word → List (BitVec 8) → VmM Bool
  | 0, _, _ => return true
  | fuel + 1, va, buf =>
    if buf.length = 0 then return true
    else do
      let va0 := pgrounddown va
      match ← uva2ka pgdir va0 with
      | none => return false
      | some pa0 => do
          let off := (va - va0).toNat
          let n := min (PGSIZE - off) buf.length
          let page ← read fun s => s.mem pa0
          setPage pa0 (pageWith page off (buf.take n))
          copyoutLoop pgdir fuel (va0 + BitVec.ofNat 32 PGSIZE) (buf.drop n)

/-- `copyout`: whether it returned 0. -/
def copyout (pgdir : ℕ) (va : Word) (buf : List (BitVec 8)) : VmM Bool :=
  copyoutLoop pgdir buf.length va buf

end Xv6Threads.Vm
