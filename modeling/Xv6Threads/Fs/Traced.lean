/-
# What a write passes to `log_write`

The functions of `fs.c` that `writei` calls on a regular file, with the list of the block
numbers they pass to `log_write` as a ghost. Without the ghost they are the kernel's.
-/

import Xv6Threads.Fs.Inode
import Xv6Threads.Lib.Ghost

namespace Xv6Threads.Fs.Traced

open Lib Command
open Xv6Threads.Log (Block)

/-- Commands with the block numbers passed to `log_write`, the latest first. -/
abbrev TraceM : Type → Type := Command (FsState × List ℕ) Panic

def logWrite (b : ℕ) (data : Block) : TraceM Unit := do
  beside (Fs.logWrite b data)
  note (b :: ·)

def traced : LogCommands TraceM := ⟨beside, logWrite⟩

section

variable (L : Layout)

def balloc : TraceM ℕ := ballocWith traced L

def addrOrAlloc (ip : Ip) (k : Fin (NDIRECT + 1)) : TraceM ℕ := addrOrAllocWith traced L ip k

def entryOrAlloc (ind j : ℕ) : TraceM ℕ := entryOrAllocWith traced L ind j

def bmap (ip : Ip) (bn : ℕ) : TraceM ℕ := bmapWith traced L ip bn

def writeLoop (ip : Ip) (src : ℕ → Byte) (fuel off tot n : ℕ) : TraceM Unit :=
  writeLoopWith traced L ip src fuel off tot n

def writei (ip : Ip) (src : ℕ → Byte) (off n : BitVec 32) : TraceM (Option ℕ) :=
  writeiWith traced L ip src off n

end

/-! ## Without the ghost -/

variable {L : Layout}

theorem lift_erases {α : Type} (m : FsM α) : Erases (traced.lift m) (plain.lift m) :=
  Erases.beside m

theorem lift_bind_ends {α β : Type} {E : Panic → Prop} {m : FsM α} {f : α → TraceM β}
    {t : FsState × List ℕ} {Q : β → FsState × List ℕ → Prop}
    (h : Ends E m t.1 fun a s => Ends E (f a) (s, t.2) Q) : Ends E (traced.lift m >>= f) t Q :=
  Ends.beside_bind h

theorem logWrite_erases (b : ℕ) (data : Block) :
    Erases (traced.logWrite b data) (plain.logWrite b data) :=
  Erases.note (Erases.beside _) _

theorem balloc_erases : Erases (balloc L) (Fs.balloc L) := by
  apply Erases.bind (lift_erases _)
  intro d
  cases (List.range L.size).find? fun b => !L.marked d b with
  | none => exact lift_erases _
  | some b =>
    apply Erases.bind (logWrite_erases ..)
    intro _
    apply Erases.bind (logWrite_erases ..)
    intro _
    exact Erases.pure _

theorem addrOrAlloc_erases (ip : Ip) (k : Fin (NDIRECT + 1)) :
    Erases (addrOrAlloc L ip k) (Fs.addrOrAlloc L ip k) := by
  apply Erases.bind (lift_erases _)
  intro x
  apply Erases.ite
  · intro _
    apply Erases.bind balloc_erases
    intro b
    apply Erases.bind (lift_erases _)
    intro _
    exact Erases.pure _
  · intro _
    exact Erases.pure _

theorem entryOrAlloc_erases (ind j : ℕ) :
    Erases (entryOrAlloc L ind j) (Fs.entryOrAlloc L ind j) := by
  apply Erases.bind (lift_erases _)
  intro a
  apply Erases.ite
  · intro _
    apply Erases.bind balloc_erases
    intro b
    apply Erases.bind (logWrite_erases ..)
    intro _
    exact Erases.pure _
  · intro _
    exact Erases.pure _

theorem bmap_erases (ip : Ip) (bn : ℕ) : Erases (bmap L ip bn) (Fs.bmap L ip bn) := by
  unfold bmap Fs.bmap bmapWith
  by_cases hdirect : bn < NDIRECT
  · rw [dif_pos hdirect, dif_pos hdirect]
    exact addrOrAlloc_erases ..
  · rw [dif_neg hdirect, dif_neg hdirect]
    apply Erases.ite
    · intro _
      apply Erases.bind (addrOrAlloc_erases ..)
      intro ind
      exact entryOrAlloc_erases ..
    · intro _
      exact lift_erases _

theorem writeLoop_erases (ip : Ip) (src : ℕ → Byte) (fuel off tot n : ℕ) :
    Erases (writeLoop L ip src fuel off tot n) (Fs.writeLoop L ip src fuel off tot n) := by
  induction fuel generalizing off tot n with
  | zero => exact Erases.pure _
  | succ fuel ih =>
    unfold writeLoop Fs.writeLoop writeLoopWith
    apply Erases.ite
    · intro _
      exact Erases.pure _
    · intro _
      apply Erases.bind (bmap_erases ..)
      intro b
      apply Erases.bind (lift_erases _)
      intro bp
      apply Erases.bind (logWrite_erases ..)
      intro _
      exact ih ..

/-- The annotated `writei` does what `writei` does. -/
theorem writei_erases (ip : Ip) (src : ℕ → Byte) (off n : BitVec 32) :
    Erases (writei L ip src off n) (Fs.writei L ip src off n) := by
  apply Erases.bind (lift_erases _)
  intro x
  apply Erases.ite
  · intro _
    exact lift_erases _
  intro _
  apply Erases.ite
  · intro _
    exact Erases.pure _
  intro _
  apply Erases.ite
  · intro _
    exact Erases.pure _
  intro _
  apply Erases.bind (writeLoop_erases ..)
  intro _
  apply Erases.ite
  · intro _
    apply Erases.bind (lift_erases _)
    intro _
    apply Erases.bind
    · apply Erases.bind (lift_erases _)
      intro y
      apply Erases.bind (lift_erases _)
      intro d
      exact logWrite_erases ..
    · intro _
      exact Erases.pure _
  · intro _
    exact Erases.pure _

end Xv6Threads.Fs.Traced
