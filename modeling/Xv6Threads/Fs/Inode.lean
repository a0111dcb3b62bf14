/-
# Blocks and inodes

`fs.c` up to `writei`, as commands over the disk and the inode cache. One call runs at
a time, so a spin lock has nothing to do and a sleep lock that is already held is held
by the same call: acquiring it again never returns, which is the fault `stuck`. All
other faults are panics, named after their messages.

The disk is what `bread` returns, whether from the buffer cache or not. Of the log only
the number of outstanding operations is left, which `log_write` checks. The console is
the list of what its reads will return.

The functions on the way from `writei` to `log_write` are written for any monad in which
the rest of the file and `log_write` can run; the kernel's are those for `FsM`.
-/

import Mathlib.Data.List.FinRange
import Xv6Threads.Fs.Disk
import Xv6Threads.Lib.Command

namespace Xv6Threads.Fs

open Lib
open Xv6Threads.Log (Block byteAt getWord setWord)

@[reducible] def CONSOLE : ℕ := 1

/-- A `struct inode *` into `icache.inode`. -/
abbrev Ip : Type := Fin NINODE

inductive Panic
  | ballocOutOfBlocks
  | freeingFreeBlock
  | iallocNoInodes
  | igetNoInodes
  | ilock
  | ilockNoType
  | iunlock
  | bmapOutOfRange
  | logWriteOutsideOfTrans
  | dirlookupNotDir
  | dirlookupRead
  | dirlinkRead
  | dirlink
  | isdiremptyReadi
  | unlinkNlink
  | unlinkWritei
  | createDots
  | createDirlink
  | filedup
  | fileclose
  | initExiting
  -- never returns
  | stuck
  deriving DecidableEq

/-- `struct inode`. The fields of the disk inode are one record. -/
structure Inode where
  dev : ℕ := 0
  inum : ℕ := 0
  ref : ℤ := 0
  locked : Bool := false
  valid : Bool := false
  din : Dinode := {}

structure FsState where
  disk : Image
  icache : Ip → Inode
  -- `log.outstanding`
  outstanding : ℕ
  console : List (Option (List Byte)) := []

abbrev FsM : Type → Type := Command FsState Panic

open Command

def bread (b : ℕ) : FsM Block := read fun s => s.disk b

/-- Change a buffer and `log_write` it. -/
def logWrite (b : ℕ) (data : Block) : FsM Unit := do
  check (fun s => 1 ≤ s.outstanding) .logWriteOutsideOfTrans
  modify fun s => { s with disk := Function.update s.disk b data }

def setIp (ip : Ip) (f : Inode → Inode) : FsM Unit :=
  modify fun s => { s with icache := Function.update s.icache ip (f (s.icache ip)) }

def readIp (ip : Ip) : FsM Inode := read fun s => s.icache ip

/-- The in-memory copy of the disk inode. -/
def readDin (ip : Ip) : FsM Dinode := read fun s => (s.icache ip).din

def setDin (ip : Ip) (f : Dinode → Dinode) : FsM Unit :=
  setIp ip fun x => { x with din := f x.din }

/-- What the functions that call `log_write` need of the monad they run in. -/
structure LogCommands (m : Type → Type) where
  lift : {α : Type} → FsM α → m α
  logWrite : ℕ → Block → m Unit

/-- The kernel's own. -/
def plain : LogCommands FsM := ⟨fun m => m, logWrite⟩

section

variable {m : Type → Type} [Monad m] (c : LogCommands m) (L : Layout)

/-! ## Blocks -/

def bzeroWith (b : ℕ) : m Unit := c.logWrite b fun _ => 0

/-- The two loops of `balloc` visit the blocks in order. -/
def ballocWith : m ℕ := do
  let d ← c.lift (read fun s => s.disk)
  match (List.range L.size).find? fun b => !L.marked d b with
  | none => c.lift (fail .ballocOutOfBlocks)
  | some b => do
      c.logWrite (L.bblock b) (setBit (d (L.bblock b)) (b % BPB))
      bzeroWith c b
      pure b

def balloc : FsM ℕ := ballocWith plain L

def bfree (b : ℕ) : FsM Unit := do
  let bp ← bread (L.bblock b)
  if getBit bp (b % BPB) = false then fail .freeingFreeBlock
  else logWrite (L.bblock b) (clearBit bp (b % BPB))

/-! ## Inodes -/

def iupdateWith (ip : Ip) : m Unit := do
  let x ← c.lift (readIp ip)
  let d ← c.lift (read fun s => s.disk)
  c.logWrite (L.iblock x.inum) (L.putInode d x.inum x.din)

def iupdate (ip : Ip) : FsM Unit := iupdateWith plain L ip

/-- A hit is preferred to an empty slot, whichever comes first. -/
def iget (dev inum : ℕ) : FsM Ip := do
  let icache ← read fun s => s.icache
  match (List.finRange NINODE).find? fun ip =>
      decide (0 < (icache ip).ref ∧ (icache ip).dev = dev ∧ (icache ip).inum = inum) with
  | some ip => do
      setIp ip fun x => { x with ref := x.ref + 1 }
      pure ip
  | none =>
    match (List.finRange NINODE).find? fun ip => decide ((icache ip).ref = 0) with
    | none => fail .igetNoInodes
    | some ip => do
        setIp ip fun x => { x with dev := dev, inum := inum, ref := 1, valid := false }
        pure ip

def ialloc (dev : ℕ) (type : BitVec 16) : FsM Ip := do
  let d ← read fun s => s.disk
  match ((List.range L.ninodes).drop 1).find? fun i => decide ((L.inode d i).type = 0) with
  | none => fail .iallocNoInodes
  | some i => do
      logWrite (L.iblock i) (L.putInode d i { type := type })
      iget dev i

def idup (ip : Ip) : FsM Unit := setIp ip fun x => { x with ref := x.ref + 1 }

/-- `acquiresleep(&ip->lock)`. -/
def acquiresleep (ip : Ip) : FsM Unit := do
  check (fun s => (s.icache ip).locked = false) .stuck
  setIp ip fun x => { x with locked := true }

def releasesleep (ip : Ip) : FsM Unit := setIp ip fun x => { x with locked := false }

def ilock (ip : Ip) : FsM Unit := do
  check (fun s => 1 ≤ (s.icache ip).ref) .ilock
  acquiresleep ip
  let x ← readIp ip
  if x.valid then pure ()
  else do
    let d ← read fun s => s.disk
    setIp ip fun x => { x with din := L.inode d x.inum, valid := true }
    if (L.inode d x.inum).type = 0 then fail .ilockNoType else pure ()

def iunlock (ip : Ip) : FsM Unit := do
  check (fun s => (s.icache ip).locked = true ∧ 1 ≤ (s.icache ip).ref) .iunlock
  releasesleep ip

/-! ## Inode content -/

/-- `if((addr = ip->addrs[k]) == 0) ip->addrs[k] = addr = balloc(ip->dev)`. -/
def addrOrAllocWith (ip : Ip) (k : Fin (NDIRECT + 1)) : m ℕ := do
  let x ← c.lift (readDin ip)
  if x.addrs k = 0 then do
    let b ← ballocWith c L
    c.lift (setDin ip fun x => { x with addrs := Function.update x.addrs k (BitVec.ofNat 32 b) })
    pure b
  else pure (x.addrs k).toNat

def addrOrAlloc (ip : Ip) (k : Fin (NDIRECT + 1)) : FsM ℕ := addrOrAllocWith plain L ip k

/-- The same for entry `j` of the indirect block `ind`. -/
def entryOrAllocWith (ind j : ℕ) : m ℕ := do
  let a ← c.lift (bread ind)
  if getWord a j = 0 then do
    let b ← ballocWith c L
    c.logWrite ind (setWord a j (BitVec.ofNat 32 b))
    pure b
  else pure (getWord a j).toNat

def entryOrAlloc (ind j : ℕ) : FsM ℕ := entryOrAllocWith plain L ind j

def bmapWith (ip : Ip) (bn : ℕ) : m ℕ :=
  if h : bn < NDIRECT then addrOrAllocWith c L ip ⟨bn, lt_of_direct h⟩
  else if bn - NDIRECT < NINDIRECT then do
    let ind ← addrOrAllocWith c L ip (Fin.last NDIRECT)
    entryOrAllocWith c L ind (bn - NDIRECT)
  else c.lift (fail .bmapOutOfRange)

def bmap (ip : Ip) (bn : ℕ) : FsM ℕ := bmapWith plain L ip bn

/-- `for(i = 0; i < NDIRECT; i++) if(ip->addrs[i]) ...`. -/
def freeAddrs (ip : Ip) : List (Fin (NDIRECT + 1)) → FsM Unit
  | [] => pure ()
  | k :: ks => do
      let x ← readDin ip
      if x.addrs k = 0 then freeAddrs ip ks
      else do
        bfree L (x.addrs k).toNat
        setDin ip fun x => { x with addrs := Function.update x.addrs k 0 }
        freeAddrs ip ks

/-- `for(j = 0; j < NINDIRECT; j++) if(a[j]) bfree(ip->dev, a[j])`. -/
def freeEntries (a : Block) : List ℕ → FsM Unit
  | [] => pure ()
  | j :: js =>
    if getWord a j = 0 then freeEntries a js
    else do
      bfree L (getWord a j).toNat
      freeEntries a js

/-- The indirect block and what it lists. -/
def freeIndirect (ip : Ip) : FsM Unit := do
  let x ← readDin ip
  if x.addrs (Fin.last NDIRECT) = 0 then pure ()
  else do
    let a ← bread (x.addrs (Fin.last NDIRECT)).toNat
    freeEntries L a (List.range NINDIRECT)
    bfree L (x.addrs (Fin.last NDIRECT)).toNat
    setDin ip fun x => { x with addrs := Function.update x.addrs (Fin.last NDIRECT) 0 }

def itrunc (ip : Ip) : FsM Unit := do
  freeAddrs L ip ((List.finRange NDIRECT).map Fin.castSucc)
  freeIndirect L ip
  setDin ip fun x => { x with size := 0 }
  iupdate L ip

/-- The part of `iput` that frees an inode nobody else has. -/
def ifree (ip : Ip) : FsM Unit := do
  itrunc L ip
  setDin ip fun x => { x with type := 0 }
  iupdate L ip
  setIp ip fun x => { x with valid := false }

def iput (ip : Ip) : FsM Unit := do
  acquiresleep ip
  let x ← readIp ip
  (if x.valid = true ∧ x.din.nlink = 0 ∧ x.ref = 1 then ifree L ip else pure ())
  releasesleep ip
  setIp ip fun x => { x with ref := x.ref - 1 }

def iunlockput (ip : Ip) : FsM Unit := do
  iunlock ip
  iput L ip

/-- The bytes of a loop of `readi` that has `n` bytes to go, from `off` on. Each turn
reads at least one byte, so `fuel` is large enough if it is `n`. -/
def readLoop (ip : Ip) : ℕ → ℕ → ℕ → FsM (List Byte)
  | 0, _, _ => pure []
  | fuel + 1, off, n =>
    if n = 0 then pure []
    else do
      let b ← bmap L ip (off / BSIZE)
      let bp ← bread b
      let m := min n (BSIZE - off % BSIZE)
      let rest ← readLoop ip fuel (off + m) (n - m)
      pure ((List.range m).map (fun t => byteAt bp (off % BSIZE + t)) ++ rest)

/-- `devsw[major].read`, if there is one. The console lets go of the inode while it
waits. -/
def readDev (ip : Ip) (major : ℤ) (n : ℕ) : FsM (Option (List Byte)) :=
  if major = CONSOLE then do
    iunlock ip
    let reads ← read fun s => s.console
    match reads with
    | [] => fail .stuck
    | r :: rs => do
        modify fun s => { s with console := rs }
        ilock L ip
        pure (r.map (List.take n))
  else pure none

/-- The bytes read, or `none` for -1. -/
def readi (ip : Ip) (off n : BitVec 32) : FsM (Option (List Byte)) := do
  let x ← readDin ip
  if x.type = T_DEV then readDev L ip x.major.toInt n.toNat
  else if x.size < off ∨ off + n < off then pure none
  else do
    let n := if x.size < off + n then x.size - off else n
    let bytes ← readLoop L ip n.toNat off.toNat n.toNat
    pure (some bytes)

/-- `memmove(bp->data + pos, src, len)`. -/
def splice (b : Block) (pos len : ℕ) (src : ℕ → Byte) : Block :=
  fun t => if pos ≤ t.val ∧ t.val < pos + len then src (t.val - pos) else b t

/-- The loop of `writei` with `tot` bytes written and `n` to go. -/
def writeLoopWith (ip : Ip) (src : ℕ → Byte) : ℕ → ℕ → ℕ → ℕ → m Unit
  | 0, _, _, _ => pure ()
  | fuel + 1, off, tot, n =>
    if n = 0 then pure ()
    else do
      let b ← bmapWith c L ip (off / BSIZE)
      let bp ← c.lift (bread b)
      let len := min n (BSIZE - off % BSIZE)
      c.logWrite b (splice bp (off % BSIZE) len fun t => src (tot + t))
      writeLoopWith ip src fuel (off + len) (tot + len) (n - len)

def writeLoop (ip : Ip) (src : ℕ → Byte) (fuel off tot n : ℕ) : FsM Unit :=
  writeLoopWith plain L ip src fuel off tot n

def writeDev (ip : Ip) (major : ℤ) (n : ℕ) : FsM (Option ℕ) :=
  if major = CONSOLE then do
    iunlock ip
    ilock L ip
    pure (some n)
  else pure none

/-- The number of bytes written, or `none` for -1. -/
def writeiWith (ip : Ip) (src : ℕ → Byte) (off n : BitVec 32) : m (Option ℕ) := do
  let x ← c.lift (readDin ip)
  if x.type = T_DEV then c.lift (writeDev L ip x.major.toInt n.toNat)
  else if x.size < off ∨ off + n < off then pure none
  else if BitVec.ofNat 32 (MAXFILE * BSIZE) < off + n then pure none
  else do
    writeLoopWith c L ip src n.toNat off.toNat 0 n.toNat
    if 0 < n ∧ x.size < off + n then do
      c.lift (setDin ip fun x => { x with size := off + n })
      iupdateWith c L ip
      pure (some n.toNat)
    else pure (some n.toNat)

def writei (ip : Ip) (src : ℕ → Byte) (off n : BitVec 32) : FsM (Option ℕ) :=
  writeiWith plain L ip src off n

end

end Xv6Threads.Fs
