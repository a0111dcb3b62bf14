/-
# Directories and paths

The second half of `fs.c`. A directory is a file of sixteen-byte entries; names are C
strings in fields of `DIRSIZ` bytes, which need not end in a zero. Strings are lists of
bytes here, and what lies beyond the end of one reads as zero.
-/

import Xv6Threads.Fs.Inode

namespace Xv6Threads.Fs

open Lib
open Command

@[reducible] def DIRSIZ : ℕ := 14

/-- `struct dirent`. -/
structure Dirent where
  inum : BitVec 16
  name : List Byte
  deriving DecidableEq

/-- `sizeof(struct dirent)`. -/
@[reducible] def DIRENT : ℕ := 2 + DIRSIZ

def Dirent.ofBytes (bytes : List Byte) : Dirent where
  inum := BitVec.ofNat 16 ((bytes.getD 0 0).toNat + 256 * (bytes.getD 1 0).toNat)
  name := bytes.drop 2

/-- Whether `strncmp(p, q, n)` returns 0. -/
def strncmp : ℕ → List Byte → List Byte → Bool
  | 0, _, _ => true
  | n + 1, p, q =>
    if p.headD 0 = 0 ∨ p.headD 0 ≠ q.headD 0 then decide (p.headD 0 = q.headD 0)
    else strncmp n p.tail q.tail

/-- Whether `namecmp` returns 0. -/
def namecmp (s t : List Byte) : Bool := strncmp DIRSIZ s t

/-- What `strncpy(de.name, name, DIRSIZ)` stores. -/
def strncpy (name : List Byte) (k : ℕ) : Byte := (name.takeWhile (· ≠ 0)).getD k 0

/-- The bytes of an entry, as `dirlink` fills it in. -/
def direntBytes (name : List Byte) (inum : ℕ) (k : ℕ) : Byte :=
  if k = 0 then BitVec.ofNat 8 inum
  else if k = 1 then BitVec.ofNat 8 (inum / 256)
  else strncpy name (k - 2)

/-- The values of `off` in a loop over the entries of a directory. -/
def offsets (size : BitVec 32) : List ℕ :=
  (List.range ((size.toNat + (DIRENT - 1)) / DIRENT)).map (DIRENT * ·)

section

variable (L : Layout)

/-- `readi(dp, (char*)&de, off, sizeof(de))`, with a panic for a short read. -/
def readDirent (p : Panic) (dp : Ip) (off : ℕ) : FsM Dirent := do
  let r ← readi L dp (BitVec.ofNat 32 off) (BitVec.ofNat 32 DIRENT)
  match r with
  | none => fail p
  | some bytes => if bytes.length = DIRENT then pure (Dirent.ofBytes bytes) else fail p

def lookupLoop (dp : Ip) (name : List Byte) : List ℕ → FsM (Option (Ip × ℕ))
  | [] => pure none
  | off :: offs => do
      let de ← readDirent L .dirlookupRead dp off
      if de.inum = 0 then lookupLoop dp name offs
      else if namecmp name de.name then do
        let x ← readIp dp
        let ip ← iget x.dev de.inum.toNat
        pure (some (ip, off))
      else lookupLoop dp name offs

/-- The inode found and the offset of its entry. -/
def dirlookup (dp : Ip) (name : List Byte) : FsM (Option (Ip × ℕ)) := do
  let x ← readDin dp
  if x.type ≠ T_DIR then fail .dirlookupNotDir else lookupLoop L dp name (offsets x.size)

/-- Look for an empty entry; without one, `off` is where the loop ended. -/
def emptyLoop (dp : Ip) (last : ℕ) : List ℕ → FsM ℕ
  | [] => pure last
  | off :: offs => do
      let de ← readDirent L .dirlinkRead dp off
      if de.inum = 0 then pure off else emptyLoop dp last offs

/-- `false` stands for -1. -/
def dirlink (dp : Ip) (name : List Byte) (inum : ℕ) : FsM Bool := do
  let found ← dirlookup L dp name
  match found with
  | some (ip, _) => do
      iput L ip
      pure false
  | none => do
      let x ← readDin dp
      let off ← emptyLoop L dp (DIRENT * (offsets x.size).length) (offsets x.size)
      let r ← writei L dp (direntBytes name inum) (BitVec.ofNat 32 off) (BitVec.ofNat 32 DIRENT)
      if r = some DIRENT then pure true else fail .dirlink

/-! ## Paths -/

def slash : Byte := 0x2f

/-- The next path element, cut to `DIRSIZ` bytes, and the path after it. -/
def skipelem (path : List Byte) : Option (List Byte × List Byte) :=
  match path.dropWhile (· = slash) with
  | [] => none
  | c :: s =>
    some (((c :: s).takeWhile (· ≠ slash)).take DIRSIZ,
      ((c :: s).dropWhile (· ≠ slash)).dropWhile (· = slash))

/-- The loop of `namex`. Every element is at least one byte of the path, so `fuel` is
large enough if it exceeds the length of the path. -/
def namexLoop (parent : Bool) : ℕ → List Byte → List Byte → Ip → FsM (Option (Ip × List Byte))
  | 0, _, _, _ => fail .stuck
  | fuel + 1, path, name, ip =>
    match skipelem path with
    | none =>
      if parent then do
        iput L ip
        pure none
      else pure (some (ip, name))
    | some (name, rest) => do
        ilock L ip
        let x ← readDin ip
        if x.type ≠ T_DIR then do
          iunlockput L ip
          pure none
        else if parent = true ∧ rest = [] then do
          iunlock ip
          pure (some (ip, name))
        else do
          let next ← dirlookup L ip name
          match next with
          | none => do
              iunlockput L ip
              pure none
          | some (next, _) => do
              iunlockput L ip
              namexLoop parent fuel rest name next

/-- Where a path starts. -/
def namexStart (cwd : Ip) (path : List Byte) : FsM Ip :=
  if path.head? = some slash then iget ROOTDEV ROOTINO
  else do
    idup cwd
    pure cwd

def namex (cwd : Ip) (parent : Bool) (path : List Byte) : FsM (Option (Ip × List Byte)) := do
  let ip ← namexStart cwd path
  namexLoop L parent (path.length + 1) path [] ip

def namei (cwd : Ip) (path : List Byte) : FsM (Option Ip) := do
  let r ← namex L cwd false path
  pure (r.map Prod.fst)

def nameiparent (cwd : Ip) (path : List Byte) : FsM (Option (Ip × List Byte)) :=
  namex L cwd true path

end

end Xv6Threads.Fs
