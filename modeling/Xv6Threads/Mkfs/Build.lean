/-
# Making an image

`mkfs.c` as commands over the image file and its two counters. The image file is the
sectors written so far; a read of a sector beyond its end fails, a write makes it longer.
All that can make `mkfs` exit with another status than 0 is a fault.

`xshort` and `xint` turn a number into one whose bytes in memory are in the order of the
disk, so between memory and disk they cancel: inodes are plain records here, and
`Dinode.words` says how they lie on the disk, for both `mkfs` and the kernel.
-/

import Xv6Threads.Fs.Directory

namespace Xv6Threads.Mkfs

open Lib Command
open Xv6Threads.Fs
open Xv6Threads.Log (Block getWord setWord)

@[reducible] def NINODES : ℕ := 200

@[reducible] def FSSIZE : ℕ := 1000

@[reducible] def nbitmap : ℕ := FSSIZE / (BSIZE * 8) + 1

@[reducible] def ninodeblocks : ℕ := NINODES / IPB + 1

@[reducible] def nlog : ℕ := LOGSIZE

/-- The number of meta blocks. -/
@[reducible] def nmeta : ℕ := 2 + nlog + ninodeblocks + nbitmap

/-- The superblock, with any number of inodes that its inode blocks have room for;
`mkfs` writes `NINODES`. -/
def sbOf (ninodes : ℕ) (h : ninodes ≤ ninodeblocks * IPB) : Layout where
  size := FSSIZE
  ninodes := ninodes
  inodestart := 2 + nlog
  bmapstart := 2 + nlog + ninodeblocks
  datastart := nmeta
  inodes_pos := by decide
  inodes_fit := by
    intro i hi
    have hi' : i < 208 := hi.trans_le h
    show i / 8 + 32 < 58
    omega
  map_fits := by
    intro b hb
    have hb' : b < 1000 := hb
    show b / 4096 + 58 < 59
    omega
  data_le := by decide
  size_lt := by decide
  ninodes_lt := h.trans_lt (by decide)

def sb : Layout := sbOf NINODES (by decide)

/-- What `read` returned, unless it was the end of the file. -/
structure Chunk where
  bytes : List Byte
  pos : 0 < bytes.length
  le : bytes.length ≤ BSIZE

/-- An argument of `mkfs`. -/
structure Input where
  name : List Byte
  -- what the calls of `read` return, or `none` if the file cannot be opened
  reads : Option (List Chunk)

inductive Exit
  | rsect
  | rootino
  | slash
  | openInput
  | fbn
  | used
  deriving DecidableEq

structure State where
  img : Image := fun _ _ => 0
  -- the length of the image file
  nsect : ℕ := 0
  freeinode : ℕ := 1
  freeblock : ℕ := nmeta

abbrev MkfsM : Type → Type := Command State Exit

def wsect (sec : ℕ) (buf : Block) : MkfsM Unit :=
  modify fun m =>
    { m with img := Function.update m.img sec buf, nsect := max m.nsect (sec + 1) }

def rsect (sec : ℕ) : MkfsM Block := do
  check (fun m => sec < m.nsect) .rsect
  read fun m => m.img sec

def rinode (inum : ℕ) : MkfsM Dinode := do
  let buf ← rsect (sb.iblock inum)
  pure (sb.inode (fun _ => buf) inum)

def winode (inum : ℕ) (din : Dinode) : MkfsM Unit := do
  let buf ← rsect (sb.iblock inum)
  wsect (sb.iblock inum) (sb.putInode (fun _ => buf) inum din)

def ialloc (type : BitVec 16) : MkfsM ℕ := do
  let inum ← read fun m => m.freeinode
  modify fun m => { m with freeinode := m.freeinode + 1 }
  winode inum { type := type, nlink := 1 }
  pure inum

/-- `freeblock++`. -/
def nextBlock : MkfsM ℕ := do
  let b ← read fun m => m.freeblock
  modify fun m => { m with freeblock := m.freeblock + 1 }
  pure b

/-- `if(xint(din.addrs[k]) == 0) din.addrs[k] = xint(freeblock++)`. -/
def addrOrNext (din : Dinode) (k : Fin (NDIRECT + 1)) : MkfsM Dinode :=
  if din.addrs k = 0 then do
    let b ← nextBlock
    pure { din with addrs := Function.update din.addrs k (BitVec.ofNat 32 b) }
  else pure din

/-- The inode and the block number `x` for block `fbn` of the file. -/
def blockFor (din : Dinode) (fbn : ℕ) : MkfsM (Dinode × ℕ) :=
  if h : fbn < NDIRECT then do
    let din ← addrOrNext din ⟨fbn, lt_of_direct h⟩
    pure (din, (din.addrs ⟨fbn, lt_of_direct h⟩).toNat)
  else do
    let din ← addrOrNext din (Fin.last NDIRECT)
    let indirect ← rsect (din.addrs (Fin.last NDIRECT)).toNat
    if getWord indirect (fbn - NDIRECT) = 0 then do
      let b ← nextBlock
      wsect (din.addrs (Fin.last NDIRECT)).toNat
        (setWord indirect (fbn - NDIRECT) (BitVec.ofNat 32 b))
      pure (din, (BitVec.ofNat 32 b).toNat)
    else pure (din, (getWord indirect (fbn - NDIRECT)).toNat)

/-- The loop of `iappend` with `tot` bytes written and `n` to go. Each turn writes at
least one byte, so `fuel` is large enough if it is `n`. -/
def appendLoop (p : ℕ → Byte) : ℕ → Dinode → ℕ → ℕ → ℕ → MkfsM Dinode
  | 0, din, off, _, _ => pure { din with size := BitVec.ofNat 32 off }
  | fuel + 1, din, off, tot, n =>
    if n = 0 then pure { din with size := BitVec.ofNat 32 off }
    else do
      let fbn := off / BSIZE
      check (fun _ => fbn < MAXFILE) .fbn
      let (din, x) ← blockFor din fbn
      let n1 := min n ((fbn + 1) * BSIZE - off)
      let buf ← rsect x
      wsect x (splice buf (off - fbn * BSIZE) n1 fun t => p (tot + t))
      appendLoop p fuel din (off + n1) (tot + n1) (n - n1)

def iappend (inum : ℕ) (p : ℕ → Byte) (n : ℕ) : MkfsM Unit := do
  let din ← rinode inum
  let din ← appendLoop p n din din.size.toNat 0 n
  winode inum din

/-- The bitmap with the first `used` bits set. -/
def mapBlock (used : ℕ) : Block := (List.range used).foldl setBit fun _ => 0

def balloc (used : ℕ) : MkfsM Unit := do
  check (fun _ => used < BSIZE * 8) .used
  wsect sb.bmapstart (mapBlock used)

def underscore : Byte := 0x5f

/-- `if(argv[i][0] == '_') ++argv[i]`. -/
def Input.stored (f : Input) : List Byte :=
  if f.name.head? = some underscore then f.name.tail else f.name

def zeroLoop : List ℕ → MkfsM Unit
  | [] => pure ()
  | i :: is => do
      wsect i fun _ => 0
      zeroLoop is

def chunkLoop (inum : ℕ) : List Chunk → MkfsM Unit
  | [] => pure ()
  | c :: cs => do
      iappend inum (fun t => c.bytes.getD t 0) c.bytes.length
      chunkLoop inum cs

/-- `bzero(&de, sizeof(de))`, the fields, and `iappend(rootino, &de, sizeof(de))`. -/
def addEntry (rootino : ℕ) (name : List Byte) (inum : ℕ) : MkfsM Unit :=
  iappend rootino (direntBytes name inum) DIRENT

def addFile (rootino : ℕ) (f : Input) : MkfsM Unit := do
  check (fun _ => slash ∉ f.name.takeWhile (· ≠ 0)) .slash
  match f.reads with
  | none => fail .openInput
  | some chunks => do
      let inum ← ialloc T_FILE
      addEntry rootino f.stored inum
      chunkLoop inum chunks

def fileLoop (rootino : ℕ) : List Input → MkfsM Unit
  | [] => pure ()
  | f :: fs => do
      addFile rootino f
      fileLoop rootino fs

def dot : List Byte := [0x2e]

def dotdot : List Byte := [0x2e, 0x2e]

/-- `struct superblock`. -/
def sbWords (j : ℕ) : BitVec 32 :=
  BitVec.ofNat 32
    ([FSSIZE, FSSIZE - nmeta, NINODES, nlog, 2, sb.inodestart, sb.bmapstart].getD j 0)

/-- `fix size of root inode dir`. -/
def fixRoot (rootino : ℕ) : MkfsM Unit := do
  let din ← rinode rootino
  winode rootino { din with size := BitVec.ofNat 32 ((din.size.toNat / BSIZE + 1) * BSIZE) }

/-- The first part of `main`, from the first `wsect` on: zeroes and the superblock. -/
def initImage : MkfsM Unit := do
  zeroLoop (List.range FSSIZE)
  wsect 1 (putWords (fun _ => 0) 0 7 sbWords)

/-- The rest of `main`. -/
def populate (files : List Input) : MkfsM Unit := do
  let rootino ← ialloc T_DIR
  check (fun _ => rootino = ROOTINO) .rootino
  addEntry rootino dot rootino
  addEntry rootino dotdot rootino
  fileLoop rootino files
  fixRoot rootino
  let used ← read fun m => m.freeblock
  balloc used

def mkfs (files : List Input) : MkfsM Unit := do
  initImage
  populate files

end Xv6Threads.Mkfs
