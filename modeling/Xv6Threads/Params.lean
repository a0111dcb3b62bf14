/-
# Kernel parameters

The constants of `param.h`, `fs.h`, `mmu.h` and `memlayout.h` that the model
reads, under the names the headers give them. `INT_MAX` is the largest C `int`.
-/

import Mathlib.Algebra.GroupWithZero.Nat
import Mathlib.Data.Fin.Basic

namespace Xv6Threads

@[reducible] def NPROC : ℕ := 64

instance : NeZero NPROC := ⟨by decide⟩

@[reducible] def NOFILE : ℕ := 16

@[reducible] def NFILE : ℕ := 100

@[reducible] def NINODE : ℕ := 50

@[reducible] def ROOTDEV : ℕ := 1

@[reducible] def ROOTINO : ℕ := 1

@[reducible] def MAXOPBLOCKS : ℕ := 10

@[reducible] def LOGSIZE : ℕ := MAXOPBLOCKS * 3

@[reducible] def NBUF : ℕ := MAXOPBLOCKS * 3

@[reducible] def BSIZE : ℕ := 512

@[reducible] def PGSIZE : ℕ := 4096

@[reducible] def KERNBASE : ℕ := 0x80000000

@[reducible] def INT_MAX : ℤ := 2147483647

end Xv6Threads
