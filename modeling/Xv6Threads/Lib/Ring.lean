/-
# Doubly linked rings

A ring is a pair of pointer maps around a sentinel node. It stands for the list
of the nodes met on the way from the sentinel back to it. The operations are the
pointer assignments programs make, one after the other; each is shown to be the
list operation it is meant to be. A walk along the pointers is a loop with a
bound on its turns, which a walk around a ring does not exhaust.
-/

import Mathlib.Data.List.Nodup
import Mathlib.Logic.Function.Basic

namespace Xv6Threads.Lib

open Function (update update_apply update_self)

universe u

structure Links (N : Type u) where
  next : N → N
  prev : N → N

namespace Links

variable {N : Type u}

/-- From `x` through the nodes of the list to `y`, and back. -/
def Segment (r : Links N) : N → List N → N → Prop
  | x, [], y => r.next x = y ∧ r.prev y = x
  | x, a :: l, y => r.next x = a ∧ r.prev a = x ∧ r.Segment a l y

/-- The ring through `head` holds the nodes of `l`, in this order. -/
structure Represents (r : Links N) (head : N) (l : List N) : Prop where
  segment : r.Segment head l head
  nodup : (head :: l).Nodup

variable {r r' : Links N} {x a b y head : N} {l l₁ l₂ : List N}

theorem segment_append : r.Segment x (l₁ ++ a :: l₂) y ↔ r.Segment x l₁ a ∧ r.Segment a l₂ y := by
  induction l₁ generalizing x with
  | nil => exact and_assoc.symm
  | cons b l ih => simp only [List.cons_append, Segment, ih, and_assoc]

/-- A segment only depends on the pointers along it. -/
theorem Segment.congr (h : r.Segment x l y) (hnext : ∀ z ∈ x :: l, r'.next z = r.next z)
    (hprev : ∀ z ∈ y :: l, r'.prev z = r.prev z) :
    r'.Segment x l y := by
  induction l generalizing x with
  | nil => exact ⟨(hnext x (by simp)).trans h.1, (hprev y (by simp)).trans h.2⟩
  | cons a l ih =>
    refine ⟨(hnext x (by simp)).trans h.1, (hprev a (by simp)).trans h.2.1, ih h.2.2 ?_ ?_⟩
    · exact fun z hz => hnext z (List.mem_cons_of_mem x hz)
    · intro z hz
      apply hprev z
      rcases List.mem_cons.mp hz with rfl | hz
      · exact List.mem_cons_self
      · exact List.mem_cons_of_mem _ (List.mem_cons_of_mem a hz)

theorem Segment.next_mem (h : r.Segment x l y) : r.next x ∈ y :: l := by
  cases l with
  | nil =>
    rw [h.1]
    exact List.mem_cons_self
  | cons a l =>
    rw [h.1]
    exact List.mem_cons_of_mem y List.mem_cons_self

theorem Segment.prev_mem (h : r.Segment x l y) : r.prev y ∈ x :: l := by
  induction l generalizing x with
  | nil =>
    rw [h.2]
    exact List.mem_cons_self
  | cons a l ih => exact List.mem_cons_of_mem x (ih h.2.2)

/-- The ring read the other way round. -/
def flip (r : Links N) : Links N := ⟨r.prev, r.next⟩

theorem Segment.flip (h : r.Segment x l y) : r.flip.Segment y l.reverse x := by
  induction l generalizing x with
  | nil => exact ⟨h.2, h.1⟩
  | cons a l ih =>
    rw [List.reverse_cons]
    exact segment_append.mpr ⟨ih h.2.2, h.2.1, h.1⟩

section Operations

variable [DecidableEq N]

def setNext (r : Links N) (x y : N) : Links N := { r with next := update r.next x y }

def setPrev (r : Links N) (x y : N) : Links N := { r with prev := update r.prev x y }

/-- A ring of one node. -/
def alone (r : Links N) (head : N) : Links N := (r.setPrev head head).setNext head head

/-- `b->next->prev = b->prev; b->prev->next = b->next`. -/
def unlink (r : Links N) (b : N) : Links N :=
  let r := r.setPrev (r.next b) (r.prev b)
  r.setNext (r.prev b) (r.next b)

/-- `b->next = head.next; b->prev = &head; head.next->prev = b; head.next = b`. -/
def pushFront (r : Links N) (head b : N) : Links N :=
  let r := r.setNext b (r.next head)
  let r := r.setPrev b head
  let r := r.setPrev (r.next head) b
  r.setNext head b

theorem represents_alone (r : Links N) (head : N) : (r.alone head).Represents head [] where
  segment := ⟨update_self .., update_self ..⟩
  nodup := List.nodup_singleton head

theorem Represents.pushFront (h : r.Represents head l) (hb : b ∉ head :: l) :
    (r.pushFront head b).Represents head (b :: l) := by
  have hhead : head ≠ b := fun heq => hb (heq ▸ List.mem_cons_self)
  have hfirst : r.next head ≠ b := fun heq => hb (heq ▸ h.segment.next_mem)
  have hnext : ∀ z, (r.pushFront head b).next z =
      if z = head then b else if z = b then r.next head else r.next z := by
    intro z
    simp [Links.pushFront, setNext, setPrev, update_apply]
  have hprev : ∀ z, (r.pushFront head b).prev z =
      if z = r.next head then b else if z = b then head else r.prev z := by
    intro z
    simp [Links.pushFront, setNext, setPrev, update_apply, hhead]
  have hnodup := List.nodup_cons.mp h.nodup
  constructor
  case segment =>
    refine ⟨by rw [hnext, if_pos rfl], by rw [hprev, if_neg hfirst.symm, if_pos rfl], ?_⟩
    cases l with
    | nil =>
      have hself : r.next head = head := h.segment.1
      constructor
      · rw [hnext, if_neg hhead.symm, if_pos rfl, hself]
      · rw [hprev, hself, if_pos rfl]
    | cons a l =>
      have ha : r.next head = a := h.segment.1
      refine ⟨by rw [hnext, if_neg hhead.symm, if_pos rfl, ha], by rw [hprev, ha, if_pos rfl], ?_⟩
      apply h.segment.2.2.congr
      · intro z hz
        rw [hnext, if_neg, if_neg]
        · rintro rfl
          exact hb (List.mem_cons_of_mem head hz)
        · rintro rfl
          exact hnodup.1 hz
      · intro z hz
        rw [hprev, ha, if_neg, if_neg]
        · rintro rfl
          rcases List.mem_cons.mp hz with heq | hz
          · exact hhead heq.symm
          · exact hb (List.mem_cons_of_mem head (List.mem_cons_of_mem a hz))
        · rintro rfl
          rcases List.mem_cons.mp hz with heq | hz
          · exact hnodup.1 (heq ▸ List.mem_cons_self)
          · exact (List.nodup_cons.mp hnodup.2).1 hz
  case nodup =>
    rw [List.nodup_cons, List.nodup_cons, List.mem_cons, not_or]
    exact ⟨⟨hhead, hnodup.1⟩, fun hmem => hb (List.mem_cons_of_mem head hmem), hnodup.2⟩

/-- Taking a node out joins the segments on its two sides. -/
theorem Segment.unlink (h₁ : r.Segment x l₁ b) (h₂ : r.Segment b l₂ y)
    (hnodup : (x :: (l₁ ++ b :: l₂)).Nodup) (hy : y ∉ l₁ ++ b :: l₂) :
    (r.unlink b).Segment x (l₁ ++ l₂) y := by
  have hprevb : r.prev b ≠ b := by
    intro heq
    have hmem := heq ▸ h₁.prev_mem
    rw [← List.cons_append] at hnodup
    exact List.disjoint_of_nodup_append hnodup hmem List.mem_cons_self
  have hnextb : r.next b ≠ b := by
    intro heq
    have hmem := heq ▸ h₂.next_mem
    rcases List.mem_cons.mp hmem with rfl | hmem
    · exact hy (List.mem_append_right l₁ List.mem_cons_self)
    · exact (List.nodup_cons.mp (hnodup.of_cons.of_append_right)).1 hmem
  have hnext : ∀ z, (r.unlink b).next z = if z = r.prev b then r.next b else r.next z := by
    intro z
    simp [Links.unlink, setNext, setPrev, update_apply, hnextb.symm]
  have hprev : ∀ z, (r.unlink b).prev z = if z = r.next b then r.prev b else r.prev z := by
    intro z
    simp [Links.unlink, setNext, setPrev, update_apply]
  induction l₁ generalizing x with
  | nil =>
    have hx : r.prev b = x := h₁.2
    have hxl : x ∉ l₂ := fun hmem =>
      (List.nodup_cons.mp hnodup).1 (List.mem_cons_of_mem b hmem)
    cases l₂ with
    | nil =>
      have hyb : r.next b = y := h₂.1
      exact ⟨by rw [hnext, hx, if_pos rfl, hyb], by rw [hprev, hyb, if_pos rfl, hx]⟩
    | cons a l =>
      have ha : r.next b = a := h₂.1
      refine ⟨by rw [hnext, hx, if_pos rfl, ha], by rw [hprev, ha, if_pos rfl, hx], ?_⟩
      apply h₂.2.2.congr
      · intro z hz
        rw [hnext, hx, if_neg]
        rintro rfl
        exact hxl hz
      · intro z hz
        rw [hprev, ha, if_neg]
        rintro rfl
        rcases List.mem_cons.mp hz with rfl | hz
        · exact hy (List.mem_cons_of_mem b List.mem_cons_self)
        · exact (List.nodup_cons.mp hnodup.of_cons.of_cons).1 hz
  | cons a l ih =>
    have hxmem := (List.nodup_cons.mp hnodup).1
    refine ⟨?_, ?_, ih h₁.2.2 hnodup.of_cons fun hmem => hy (List.mem_cons_of_mem a hmem)⟩
    · rw [hnext, if_neg, h₁.1]
      rintro rfl
      exact hxmem (List.mem_append_left _ h₁.2.2.prev_mem)
    · rw [hprev, if_neg, h₁.2.1]
      rintro rfl
      rcases List.mem_cons.mp h₂.next_mem with heq | hmem
      · exact hy (heq ▸ List.mem_cons_self)
      · exact (List.nodup_cons.mp hnodup.of_cons).1
          (List.mem_append_right l (List.mem_cons_of_mem b hmem))

theorem Represents.unlink (h : r.Represents head (l₁ ++ b :: l₂)) :
    (r.unlink b).Represents head (l₁ ++ l₂) := by
  obtain ⟨h₁, h₂⟩ := segment_append.mp h.segment
  have hsub : (head :: (l₁ ++ l₂)).Sublist (head :: (l₁ ++ b :: l₂)) :=
    ((List.sublist_cons_self b l₂).append_left l₁).cons_cons head
  exact ⟨h₁.unlink h₂ h.nodup (List.nodup_cons.mp h.nodup).1, h.nodup.sublist hsub⟩

/-! ## Walks -/

/-- `for(b = start; b != stop; b = step(b)) if(p(b)) break;`, for so many turns
at most: where the loop ends, if it does. -/
def scan (step : N → N) (stop : N) (p : N → Bool) : ℕ → N → Option N
  | 0, _ => none
  | k + 1, b => if b = stop then some stop else if p b then some b else scan step stop p k (step b)

theorem Segment.scan_next (h : r.Segment x l y) (hy : y ∉ l) (p : N → Bool) {k : ℕ}
    (hk : l.length < k) :
    scan r.next y p k (r.next x) = some ((l.find? p).getD y) := by
  induction l generalizing x k with
  | nil =>
    cases k with
    | zero => exact absurd hk (Nat.not_lt_zero _)
    | succ k => rw [h.1, scan, if_pos rfl, List.find?_nil, Option.getD_none]
  | cons a l ih =>
    cases k with
    | zero => exact absurd hk (Nat.not_lt_zero _)
    | succ k =>
      have ha : a ≠ y := fun heq => hy (heq ▸ List.mem_cons_self)
      rw [h.1, scan, if_neg ha]
      cases hp : p a with
      | true => simp [hp]
      | false =>
        have hrest := ih h.2.2 (fun hmem => hy (List.mem_cons_of_mem a hmem))
          (Nat.lt_of_succ_lt_succ hk)
        simpa [hp] using hrest

theorem Represents.scan_next (h : r.Represents head l) (p : N → Bool) {k : ℕ} (hk : l.length < k) :
    scan r.next head p k (r.next head) = some ((l.find? p).getD head) :=
  h.segment.scan_next (List.nodup_cons.mp h.nodup).1 p hk

theorem Represents.scan_prev (h : r.Represents head l) (p : N → Bool) {k : ℕ} (hk : l.length < k) :
    scan r.prev head p k (r.prev head) = some ((l.reverse.find? p).getD head) := by
  apply h.segment.flip.scan_next
  · rw [List.mem_reverse]
    exact (List.nodup_cons.mp h.nodup).1
  · rwa [List.length_reverse]

end Operations

end Links

end Xv6Threads.Lib
