/-
# Open files and cached inodes

Reference counting in `file.c` and `fs.c`. Path lookup is modelled by the
inodes it visits: which entry a component resolves to is up to the disk, what
the walk does to the inode cache is up to the code.
-/

import Mathlib.Data.List.FinRange
import Xv6Threads.Kernel.State

namespace Xv6Threads

open Function (update)

abbrev Ftable : Type := FileIdx → File

abbrev Icache : Type := InodeIdx → Inode

/-! ## The inode cache -/

def idup (ic : Icache) (ip : InodeIdx) : Icache :=
  update ic ip { ic ip with ref := (ic ip).ref + 1 }

/-- `iput`, as far as the count goes. -/
def iput (ic : Icache) (ip : InodeIdx) : Icache :=
  update ic ip { ic ip with ref := (ic ip).ref - 1 }

/-- The entry `iget` uses: the one caching the inode, else the first free one. -/
def igetSlot (ic : Icache) (dev inum : ℕ) : Option InodeIdx :=
  match (List.finRange NINODE).find? fun i =>
      decide (0 < (ic i).ref ∧ (ic i).dev = dev ∧ (ic i).inum = inum) with
  | some i => some i
  | none => (List.finRange NINODE).find? fun i => decide ((ic i).ref = 0)

def iget (ic : Icache) (dev inum : ℕ) : Except Fault (Icache × InodeIdx) :=
  match igetSlot ic dev inum with
  | none => .error .igetNoInodes
  | some i =>
    if 0 < (ic i).ref then .ok (idup ic i, i)
    else
      .ok (update ic i { dev := dev, inum := inum, ref := 1, gen := (ic i).gen + 1 }, i)

/-- The check `ilock` makes before it sleeps for the lock. -/
def ilock (ic : Icache) (ip : InodeIdx) : Except Fault Unit :=
  if (ic ip).ref < 1 then .error .ilock else .ok ()

/-- A path as `namex` walks it: where it starts, and for each component the
inode number `dirlookup` finds. `none` is a component that is missing or looked
up in something that is not a directory. -/
structure Walk where
  absolute : Bool
  comps : List (Option ℕ)

/-- The component loop of `namex`. -/
def namexLoop (ic : Icache) (ip : InodeIdx) :
    List (Option ℕ) → Except Fault (Icache × Option InodeIdx)
  | [] => .ok (ic, some ip)
  | comp :: rest =>
    match ilock ic ip with
    | .error f => .error f
    | .ok () =>
      match comp with
      | none => .ok (iput ic ip, none)
      | some inum =>
        match iget ic (ic ip).dev inum with
        | .error f => .error f
        | .ok (ic', next) => namexLoop (iput ic' ip) next rest

def namei (ic : Icache) (cwd : Option InodeIdx) (w : Walk) :
    Except Fault (Icache × Option InodeIdx) :=
  if w.absolute then
    match iget ic ROOTDEV ROOTINO with
    | .error f => .error f
    | .ok (ic', ip) => namexLoop ic' ip w.comps
  else
    match cwd with
    | none => .error .nullDeref
    | some ip => namexLoop (idup ic ip) ip w.comps

/-! ## The open-file table -/

/-- `filealloc`: the first entry with no references. -/
def filealloc (ft : Ftable) : Option (Ftable × FileIdx) :=
  match (List.finRange NFILE).find? fun f => decide ((ft f).ref = 0) with
  | none => none
  | some f => some (update ft f { ft f with ref := 1 }, f)

def filedup (ft : Ftable) (f : FileIdx) : Except Fault Ftable :=
  if (ft f).ref < 1 then .error .filedup
  else .ok (update ft f { ft f with ref := (ft f).ref + 1 })

/-- `fileclose`. The last reference gives the inode back. -/
def fileclose (ft : Ftable) (ic : Icache) (f : FileIdx) : Except Fault (Ftable × Icache) :=
  if (ft f).ref < 1 then .error .fileclose
  else if 0 < (ft f).ref - 1 then
    .ok (update ft f { ft f with ref := (ft f).ref - 1 }, ic)
  else
    .ok (update ft f { kind := .none, ref := 0 },
      match (ft f).kind with
      | .inode ip => iput ic ip
      | _ => ic)

/-- Take a reference for every open descriptor, as `fork` does. -/
def dupFiles (ofile : Fd → Option FileIdx) : List Fd → Ftable → Except Fault Ftable
  | [], ft => .ok ft
  | fd :: rest, ft =>
    match ofile fd with
    | none => dupFiles ofile rest ft
    | some f =>
      match filedup ft f with
      | .error e => .error e
      | .ok ft' => dupFiles ofile rest ft'

/-- Close every open descriptor, as `exit` does. -/
def closeFiles (ofile : Fd → Option FileIdx) :
    List Fd → Ftable → Icache → Except Fault (Ftable × Icache)
  | [], ft, ic => .ok (ft, ic)
  | fd :: rest, ft, ic =>
    match ofile fd with
    | none => closeFiles ofile rest ft ic
    | some f =>
      match fileclose ft ic f with
      | .error e => .error e
      | .ok (ft', ic') => closeFiles ofile rest ft' ic'

end Xv6Threads
