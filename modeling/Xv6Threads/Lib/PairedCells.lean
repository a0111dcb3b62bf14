/-
# Cells shared in pairs

Nodes own one cell each, and some nodes come in pairs whose cells are kept
equal. Such a pair stands for one cell with two owners: writing to it writes
both copies, a node that joins takes a copy, a node that leaves drops its own.

The weight of the cells counts each pair once. It is kept as twice that number:
a lone node counts two, and each half of a pair counts one, so that no half has
to be singled out.
-/

import Mathlib.Algebra.BigOperators.Group.Finset.Basic
import Mathlib.Algebra.BigOperators.Group.Finset.Piecewise
import Mathlib.Algebra.Order.BigOperators.Group.Finset
import Xv6Threads.Lib.PeerLists

namespace Xv6Threads.Lib

universe u v

open Function (update update_of_ne update_self)

variable {N : Type u} {β : Type v} [DecidableEq N]
variable {partner : N → Option N} {cells : N → β} {cur np p : N}

/-- Partners hold the same. -/
def Agree (partner : N → Option N) (cells : N → β) : Prop :=
  ∀ q r, partner q = some r → cells q = cells r

/-- Write to `p` and to its partner. -/
def setPair (partner : N → Option N) (p : N) (x : β) (cells : N → β) : N → β :=
  fun q => if q = p ∨ partner p = some q then x else cells q

theorem setPair_self (x : β) : setPair partner p x cells p = x := if_pos (.inl rfl)

theorem setPair_of_none (h : partner p = none) (x : β) :
    setPair partner p x cells = update cells p x := by
  funext q
  by_cases hq : q = p
  · rw [hq, setPair_self, update_self]
  · rw [setPair, if_neg (by simp [hq, h]), update_of_ne hq]

theorem Agree.setPair (h : Agree partner cells) (hmutual : Mutual partner) (x : β) :
    Agree partner (setPair partner p x cells) := by
  intro q r hqr
  have hgroup : (q = p ∨ partner p = some q) ↔ (r = p ∨ partner p = some r) := by
    have hrq := hmutual q r hqr
    constructor
    · rintro (rfl | hq)
      · exact .inr hqr
      · exact .inl (Option.some.inj (hqr.symm.trans (hmutual p q hq)))
    · rintro (rfl | hr)
      · exact .inr hrq
      · exact .inl (Option.some.inj (hrq.symm.trans (hmutual p r hr)))
  rw [Lib.setPair, Lib.setPair, h q r hqr]
  simp only [hgroup]

theorem Agree.link (h : Agree partner cells) (hmutual : Mutual partner) (hcur : partner cur = none)
    (hnp : partner np = none) :
    Agree (linkPartner partner cur np) (update cells np (cells cur)) := by
  intro q r hqr
  rcases linkPartner_eq_some hqr with ⟨rfl, rfl⟩ | ⟨rfl, -, rfl⟩ | ⟨hq, hold⟩
  · rw [update_self]
    by_cases hrq : r = q
    · rw [hrq, update_self]
    · rw [update_of_ne hrq]
  · rw [update_self]
    by_cases hrq : q = r
    · rw [hrq, update_self]
    · rw [update_of_ne hrq]
  · have hr : r ≠ np := by
      rintro rfl
      rw [hmutual q r hold] at hnp
      cases hnp
    rw [update_of_ne hq, update_of_ne hr]
    exact h q r hold

theorem Agree.unlink (h : Agree partner cells) (hmutual : Mutual partner) (x : β) :
    Agree (unlinkPartner partner cur) (update cells cur x) := by
  intro q r hqr
  obtain ⟨hq, hold, -⟩ := unlinkPartner_eq_some.mp hqr
  obtain ⟨hr, -⟩ := unlinkPartner_eq_some.mp (hmutual.unlink cur q r hqr)
  rw [update_of_ne hq, update_of_ne hr]
  exact h q r hold

/-! ## Weight -/

section Weight

variable [Fintype N]

/-- How much of its cell a node accounts for, in halves. -/
def share (partner : N → Option N) (q : N) : ℕ := if partner q = none then 2 else 1

omit [DecidableEq N] [Fintype N] in
theorem share_of_none {q : N} (h : partner q = none) : share partner q = 2 := if_pos h

omit [DecidableEq N] [Fintype N] in
theorem share_of_some {q r : N} (h : partner q = some r) : share partner q = 1 :=
  if_neg (by simp [h])

/-- Twice the weight of the cells, a pair counted once. -/
def pairWeight (partner : N → Option N) (w : β → ℕ) (cells : N → β) : ℕ :=
  ∑ q, share partner q * w (cells q)

theorem sum_change_one {f g : N → ℕ} {a : N} (h : ∀ q, q ≠ a → f q = g q) :
    ∑ q, f q + g a = ∑ q, g q + f a := by
  have hf := Finset.add_sum_erase Finset.univ f (Finset.mem_univ a)
  have hg := Finset.add_sum_erase Finset.univ g (Finset.mem_univ a)
  have hrest : ∑ q ∈ Finset.univ.erase a, f q = ∑ q ∈ Finset.univ.erase a, g q :=
    Finset.sum_congr rfl fun q hq => h q (Finset.ne_of_mem_erase hq)
  omega

theorem card_filter_change_one {p q : N → Prop} [DecidablePred p] [DecidablePred q] {a : N}
    (h : ∀ x, x ≠ a → (p x ↔ q x)) :
    (Finset.univ.filter p).card + (if q a then 1 else 0) =
      (Finset.univ.filter q).card + (if p a then 1 else 0) := by
  rw [Finset.card_filter, Finset.card_filter]
  exact sum_change_one (f := fun x => if p x then 1 else 0) (g := fun x => if q x then 1 else 0)
    fun x hx => by simp only [h x hx]

theorem sum_change_two {f g : N → ℕ} {a b : N} (hab : a ≠ b)
    (h : ∀ q, q ≠ a → q ≠ b → f q = g q) :
    ∑ q, f q + (g a + g b) = ∑ q, g q + (f a + f b) := by
  have hfirst : ∑ q, f q + update f a (g a) a =
      ∑ q, update f a (g a) q + f a :=
    sum_change_one fun q hq => (update_of_ne hq ..).symm
  have hsecond : ∑ q, update f a (g a) q + g b =
      ∑ q, g q + update f a (g a) b := by
    apply sum_change_one
    intro q hq
    by_cases hqa : q = a
    · rw [hqa, update_self]
    · rw [update_of_ne hqa, h q hqa hq]
  rw [update_self] at hfirst
  rw [update_of_ne hab.symm] at hsecond
  omega

variable {w : β → ℕ}

theorem pairWeight_setPair (hmutual : Mutual partner) (hself : partner p ≠ some p)
    (hagree : Agree partner cells) (x : β) :
    pairWeight partner w (setPair partner p x cells) + 2 * w (cells p) =
      pairWeight partner w cells + 2 * w x := by
  cases hp : partner p with
  | none =>
    have hsum := sum_change_one (a := p)
      (f := fun q => share partner q * w (setPair partner p x cells q))
      (g := fun q => share partner q * w (cells q)) (by
        intro q hq
        simp [setPair, hq, hp])
    simp only [share_of_none hp, setPair_self] at hsum
    exact hsum
  | some r =>
    have hne : p ≠ r := fun hpr => hself (by rw [hp, hpr])
    have hr := hmutual p r hp
    have hsum := sum_change_two hne
      (f := fun q => share partner q * w (setPair partner p x cells q))
      (g := fun q => share partner q * w (cells q)) (by
        intro q hq hqr
        simp [setPair, hq, hp, hqr.symm])
    have hcell : setPair partner p x cells r = x := if_pos (.inr hp)
    simp only [share_of_some hp, share_of_some hr, setPair_self, hcell, ← hagree p r hp] at hsum
    rw [pairWeight, pairWeight]
    omega

variable (cells) in
/-- A node that joins weighs nothing: its copy is the one its partner has. -/
theorem pairWeight_link (hne : cur ≠ np) (hcur : partner cur = none) (hnp : partner np = none)
    (hempty : w (cells np) = 0) :
    pairWeight (linkPartner partner cur np) w (update cells np (cells cur)) =
      pairWeight partner w cells := by
  have hlinked : linkPartner partner cur np cur = some np := by
    rw [linkPartner, update_of_ne hne, update_self, hcur, Option.none_or]
  have hsum := sum_change_two hne
    (f := fun q => share (linkPartner partner cur np) q *
      w (update cells np (cells cur) q))
    (g := fun q => share partner q * w (cells q)) (by
      intro q hq hqn
      simp [share, linkPartner_of_ne hqn hq, update_of_ne hqn])
  have hnew : linkPartner partner cur np np = some cur := update_self ..
  simp only [share_of_some hlinked, share_of_some hnew, share_of_none hcur, share_of_none hnp,
    hempty, update_self, update_of_ne hne] at hsum
  rw [pairWeight, pairWeight]
  omega

/-- A half that leaves takes nothing with it. -/
theorem pairWeight_unlink_of_some (hmutual : Mutual partner) (hself : partner cur ≠ some cur)
    (hagree : Agree partner cells) {r : N} (hcur : partner cur = some r) {x : β} (hx : w x = 0) :
    pairWeight (unlinkPartner partner cur) w (update cells cur x) =
      pairWeight partner w cells := by
  have hne : cur ≠ r := fun h => hself (by rw [hcur, h])
  have hr := hmutual cur r hcur
  have hsum := sum_change_two hne
    (f := fun q => share (unlinkPartner partner cur) q *
      w (update cells cur x q))
    (g := fun q => share partner q * w (cells q)) (by
      intro q hq hqr
      have hkeep : unlinkPartner partner cur q = partner q := by
        rw [unlinkPartner, if_neg hq, if_neg]
        rintro ⟨-, hcq⟩
        exact hqr (Option.some.inj (hcq.symm.trans hcur))
      simp [share, hkeep, update_of_ne hq])
  have hcur' : unlinkPartner partner cur cur = none := if_pos rfl
  have hr' : unlinkPartner partner cur r = none := by
    rw [unlinkPartner, if_neg hne.symm, if_pos ⟨hr, hcur⟩]
  simp only [share_of_none hcur', share_of_none hr', share_of_some hcur, share_of_some hr, hx,
    update_self, update_of_ne hne.symm, hagree cur r hcur] at hsum
  rw [pairWeight, pairWeight]
  omega

variable (cells) in
/-- A lone node that leaves takes its whole cell with it. -/
theorem pairWeight_unlink_of_none (hcur : partner cur = none) {x : β} (hx : w x = 0) :
    pairWeight (unlinkPartner partner cur) w (update cells cur x) + 2 * w (cells cur) =
      pairWeight partner w cells := by
  have hkeep : unlinkPartner partner cur = partner := by
    funext q
    by_cases hq : q = cur
    · rw [unlinkPartner, if_pos hq, hq, hcur]
    · rw [unlinkPartner, if_neg hq, if_neg (by simp [hcur])]
  rw [hkeep]
  have hsum := sum_change_one (a := cur)
    (f := fun q => share partner q * w (update cells cur x q))
    (g := fun q => share partner q * w (cells q)) (by
      intro q hq
      simp [update_of_ne hq])
  simp only [share_of_none hcur, hx, update_self] at hsum
  rw [pairWeight, pairWeight]
  omega

/-- Every cell is paid for in full, by its node or by the pair. -/
theorem two_mul_le_pairWeight (hmutual : Mutual partner) (hself : partner p ≠ some p)
    (hagree : Agree partner cells) : 2 * w (cells p) ≤ pairWeight partner w cells := by
  cases hp : partner p with
  | none =>
    have hle := Finset.single_le_sum
      (f := fun q => share partner q * w (cells q))
      (fun _ _ => Nat.zero_le _) (Finset.mem_univ p)
    rw [share_of_none hp] at hle
    exact hle
  | some r =>
    have hne : r ≠ p := fun hrp => hself (by rw [hp, hrp])
    have hr := hmutual p r hp
    have hsplit := Finset.add_sum_erase Finset.univ
      (fun q => share partner q * w (cells q)) (Finset.mem_univ p)
    have hle := Finset.single_le_sum
      (f := fun q => share partner q * w (cells q))
      (fun _ _ => Nat.zero_le _) (Finset.mem_erase.mpr ⟨hne, Finset.mem_univ r⟩)
    simp only [share_of_some hp, share_of_some hr, ← hagree p r hp] at hsplit hle
    rw [pairWeight]
    omega

end Weight

end Xv6Threads.Lib
