/-
# Atomic writes cut by crashes

A store is a total map from addresses to cells, and a program that updates it
is observed only through the sequence of cell writes it issues. Each write is
atomic, so a crash leaves the store at some prefix of that sequence. Recovery
is itself such a program: it reads the store it finds, issues writes, and may
be cut again. This module holds the rules for reasoning about every cut point
at once, and nothing about any particular log format.
-/

import Mathlib.Data.List.Basic
import Mathlib.Logic.Function.Basic

namespace Xv6Threads.Lib

open Function (update update_of_ne update_self)

universe u v

/-- One atomic write of a whole cell. -/
structure Write (α : Type u) (β : Type v) where
  addr : α
  value : β

variable {α : Type u} {β : Type v} [DecidableEq α]

/-- The store after a sequence of writes, in program order. -/
def applyWrites (store : α → β) : List (Write α β) → α → β
  | [] => store
  | w :: ws => applyWrites (update store w.addr w.value) ws

@[simp]
theorem applyWrites_nil (store : α → β) : applyWrites store [] = store := rfl

@[simp]
theorem applyWrites_cons (store : α → β) (w : Write α β) (ws : List (Write α β)) :
    applyWrites store (w :: ws) =
      applyWrites (update store w.addr w.value) ws := rfl

@[simp]
theorem applyWrites_append (store : α → β) (first second : List (Write α β)) :
    applyWrites store (first ++ second) = applyWrites (applyWrites store first) second := by
  induction first generalizing store with
  | nil => rfl
  | cons w ws ih => exact ih _

/-- A cell nobody writes keeps its contents. -/
theorem applyWrites_of_forall_ne (store : α → β) {ws : List (Write α β)} {a : α}
    (hne : ∀ w ∈ ws, w.addr ≠ a) : applyWrites store ws a = store a := by
  induction ws generalizing store with
  | nil => rfl
  | cons w ws ih =>
    rw [applyWrites_cons, ih _ fun w' hw' => hne w' (List.mem_cons_of_mem _ hw')]
    exact update_of_ne (hne w List.mem_cons_self).symm _ _

/-- A cell that is written, and only ever with one value, ends with that value. -/
theorem applyWrites_of_mem (store : α → β) {ws : List (Write α β)} {a : α} {b : β}
    (hmem : ∃ w ∈ ws, w.addr = a) (hval : ∀ w ∈ ws, w.addr = a → w.value = b) :
    applyWrites store ws a = b := by
  induction ws generalizing store with
  | nil => simp at hmem
  | cons w ws ih =>
    have hrest : ∀ w' ∈ ws, w'.addr = a → w'.value = b :=
      fun w' hw' => hval w' (List.mem_cons_of_mem _ hw')
    by_cases hlater : ∃ w' ∈ ws, w'.addr = a
    · exact ih _ hlater hrest
    · have hw : w.addr = a := by
        obtain ⟨w', hw', ha⟩ := hmem
        rcases List.mem_cons.mp hw' with rfl | htail
        · exact ha
        · exact absurd ⟨w', htail, ha⟩ hlater
      rw [applyWrites_cons, applyWrites_of_forall_ne _ fun w' hw' ha => hlater ⟨w', hw', ha⟩,
        ← hw, update_self]
      exact hval w List.mem_cons_self hw

/-- The store satisfies `P` at every cut point of the sequence, the uncut end
included. -/
def HoldsAlong (P : (α → β) → Prop) (store : α → β) (ws : List (Write α β)) : Prop :=
  ∀ k, P (applyWrites store (ws.take k))

variable {P Q : (α → β) → Prop} {store : α → β} {ws : List (Write α β)}

theorem HoldsAlong.finish (h : HoldsAlong P store ws) : P (applyWrites store ws) := by
  simpa using h ws.length

theorem HoldsAlong.mono (h : HoldsAlong P store ws) (himp : ∀ st, P st → Q st) :
    HoldsAlong Q store ws :=
  fun k => himp _ (h k)

/-- Cut points of a concatenation are cut points of its halves. -/
theorem HoldsAlong.append {first second : List (Write α β)} (hfirst : HoldsAlong P store first)
    (hsecond : HoldsAlong P (applyWrites store first) second) :
    HoldsAlong P store (first ++ second) := by
  intro k
  rw [List.take_append]
  by_cases hk : k ≤ first.length
  · have hzero : k - first.length = 0 := by omega
    simpa [hzero] using hfirst k
  · have htake : first.take k = first := List.take_of_length_le (by omega)
    simpa [htake] using hsecond (k - first.length)

/-- A single write has two cut points: before it and after it. -/
theorem HoldsAlong.single {w : Write α β} (hbefore : P store)
    (hafter : P (update store w.addr w.value)) :
    HoldsAlong P store [w] := by
  intro k
  cases k with
  | zero => simpa using hbefore
  | succ k => simpa using hafter

/-- A property every write of the sequence preserves holds at every cut. -/
theorem HoldsAlong.of_step (hstart : P store)
    (hstep : ∀ st, ∀ w ∈ ws, P st → P (update st w.addr w.value)) :
    HoldsAlong P store ws := by
  induction ws generalizing store with
  | nil => intro k; simpa using hstart
  | cons w ws ih =>
    have htail : HoldsAlong P (update store w.addr w.value) ws :=
      ih (hstep store w List.mem_cons_self hstart)
        fun st w' hw' => hstep st w' (List.mem_cons_of_mem _ hw')
    intro k
    cases k with
    | zero => simpa using hstart
    | succ k => simpa using htail k

/-- What a finite number of cut recovery runs followed by one complete run can
leave behind. `recover` reads the store and either issues writes or, where the
code has no defined behaviour, nothing at all. -/
inductive Recovered (recover : (α → β) → Option (List (Write α β))) :
    (α → β) → (α → β) → Prop
  | complete {store : α → β} {ws : List (Write α β)} (hrun : recover store = some ws) :
      Recovered recover store (applyWrites store ws)
  | crash {store final : α → β} {ws : List (Write α β)} (k : ℕ)
      (hrun : recover store = some ws)
      (rest : Recovered recover (applyWrites store (ws.take k)) final) :
      Recovered recover store final

/-- **The recovery rule.** If `P` survives every cut of a recovery run, and a
complete run from `P` ends in `Q`, then any finite nesting of crashes from `P`
ends in `Q`. -/
theorem Recovered.rule {recover : (α → β) → Option (List (Write α β))}
    (hcut : ∀ store ws, P store → recover store = some ws → HoldsAlong P store ws)
    (hdone : ∀ store ws, P store → recover store = some ws → Q (applyWrites store ws))
    {final : α → β} (hrec : Recovered recover store final) (hP : P store) : Q final := by
  induction hrec with
  | complete hrun => exact hdone _ _ hP hrun
  | crash k hrun _ ih => exact ih (hcut _ _ hP hrun k)

end Xv6Threads.Lib
