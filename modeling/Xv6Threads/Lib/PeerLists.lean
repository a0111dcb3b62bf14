/-
# Fixed-size neighbour arrays

Each node owns an array of `n` entries, each empty or naming a node. Linking
two nodes writes the other's name into every empty entry of both arrays.
Unlinking a node walks its own array and, for every entry, empties the first
entry that names it in the array found there.

Arrays built only by these two operations are uniform: all entries of one array
agree, so an array amounts to at most one partner. This module proves that and
says what the operations do to partners, and that partnership stays mutual if
only nodes without a partner are linked.
-/

import Mathlib.Data.List.FinRange
import Mathlib.Logic.Function.Basic

namespace Xv6Threads.Lib

universe u

open Function (update update_eq_self update_idem update_of_ne update_self)

variable {N : Type u} [DecidableEq N] {n : ℕ}

/-- Write `x` into every empty entry. -/
def fillEmpty (l : Fin n → Option N) (x : N) : Fin n → Option N :=
  fun i => match l i with
    | none => some x
    | some y => some y

/-- Empty the first entry that names `x`. -/
def eraseFirst (l : Fin n → Option N) (x : N) : Fin n → Option N :=
  match (List.finRange n).find? fun j => decide (l j = some x) with
  | none => l
  | some j => update l j none

/-- Unlink `cur`, over the indices still to be visited. -/
def unlinkLoop (cur : N) : List (Fin n) → (N → Fin n → Option N) → N → Fin n → Option N
  | [], ls => ls
  | i :: rest, ls =>
    match ls cur i with
    | none => unlinkLoop cur rest ls
    | some p =>
      let ls' := update ls p (eraseFirst (ls p) cur)
      unlinkLoop cur rest (update ls' cur (update (ls' cur) i none))

/-- Unlink `cur`. -/
def unlink (ls : N → Fin n → Option N) (cur : N) : N → Fin n → Option N :=
  unlinkLoop cur (List.finRange n) ls

/-- All entries of each array agree. -/
def UniformLists (ls : N → Fin n → Option N) (partner : N → Option N) : Prop :=
  ∀ q i, ls q i = partner q

/-- The partners after `cur` and `np` have been linked, if `np` had none. -/
def linkPartner (partner : N → Option N) (cur np : N) : N → Option N :=
  update
    (update partner cur ((partner cur).or (some np))) np (some cur)

/-- The partners after `cur` has been unlinked: a partner lets go only if it was
`cur`'s own. -/
def unlinkPartner (partner : N → Option N) (cur : N) : N → Option N :=
  fun q =>
    if q = cur then none
    else if partner q = some cur ∧ partner cur = some q then none
    else partner q

variable {l : Fin n → Option N} {ls ls' : N → Fin n → Option N} {partner : N → Option N}
variable {cur np p q r x : N} {before todo : List (Fin n)}

omit [DecidableEq N] in
theorem fillEmpty_of_forall {y : Option N} (h : ∀ i, l i = y) (x : N) (i : Fin n) :
    fillEmpty l x i = y.or (some x) := by
  rw [fillEmpty, h i]
  cases y <;> rfl

theorem eraseFirst_of_forall_ne (h : ∀ j, l j ≠ some x) : eraseFirst l x = l := by
  have hnone : (List.finRange n).find? (fun j => decide (l j = some x)) = none := by
    simpa [List.find?_eq_none] using h
  rw [eraseFirst, hnone]

/-- With the entries before `i` empty and entry `i` naming `x`, entry `i` is the
one emptied. -/
theorem eraseFirst_of_split {rest : List (Fin n)} {i : Fin n}
    (hsplit : before ++ i :: rest = List.finRange n) (hbefore : ∀ j ∈ before, l j = none)
    (hi : l i = some x) :
    eraseFirst l x = update l i none := by
  have hfind : (List.finRange n).find? (fun j => decide (l j = some x)) = some i := by
    rw [← hsplit, List.find?_append, List.find?_eq_none.mpr, Option.none_or,
      List.find?_cons_of_pos (by simpa using hi)]
    intro j hj
    simp [hbefore j hj]
  rw [eraseFirst, hfind]

theorem unlinkLoop_of_forall_none (h : ∀ i, ls cur i = none) (todo : List (Fin n)) :
    unlinkLoop cur todo ls = ls := by
  induction todo with
  | nil => rfl
  | cons i rest ih => rw [unlinkLoop, h i, ih]

/-- One-sided: `p` never names `cur`, so only `cur`'s own array is emptied. -/
theorem unlinkLoop_oneSided (hne : p ≠ cur) (hsplit : before ++ todo = List.finRange n)
    (hbefore : ∀ j ∈ before, ls cur j = none) (htodo : ∀ j ∈ todo, ls cur j = some p)
    (hp : ∀ j, ls p j ≠ some cur) :
    unlinkLoop cur todo ls = update ls cur fun _ => none := by
  induction todo generalizing before ls with
  | nil =>
    rw [List.append_nil] at hsplit
    funext q j
    by_cases hq : q = cur
    · subst hq
      rw [update_self, unlinkLoop]
      exact hbefore j (hsplit ▸ List.mem_finRange j)
    · rw [update_of_ne hq, unlinkLoop]
  | cons i rest ih =>
    have hsplit' : (before ++ [i]) ++ rest = List.finRange n := by simpa using hsplit
    have hnodup : (before ++ i :: rest).Nodup := hsplit ▸ List.nodup_finRange n
    have hi : i ∉ rest := (List.nodup_cons.mp (List.nodup_append.mp hnodup).2.1).1
    rw [unlinkLoop, htodo i List.mem_cons_self]
    simp only [eraseFirst_of_forall_ne hp, update_eq_self]
    rw [ih hsplit']
    · rw [update_idem]
    · intro j hj
      rw [update_self]
      rcases List.mem_append.mp hj with hj | hj
      · by_cases hji : j = i
        · rw [hji, update_self]
        · rw [update_of_ne hji, hbefore j hj]
      · rw [List.mem_singleton.mp hj, update_self]
    · intro j hj
      have hji : j ≠ i := fun h => hi (h ▸ hj)
      rw [update_self, update_of_ne hji]
      exact htodo j (List.mem_cons_of_mem _ hj)
    · intro j
      rw [update_of_ne hne]
      exact hp j

/-- Mutual: `p` and `cur` name each other in every entry. Each step of the walk
empties the same index on both sides, so both arrays end empty. -/
theorem unlinkLoop_mutual (hne : p ≠ cur) (hsplit : before ++ todo = List.finRange n)
    (hbefore : ∀ j ∈ before, ls cur j = none ∧ ls p j = none)
    (htodo : ∀ j ∈ todo, ls cur j = some p ∧ ls p j = some cur) :
    unlinkLoop cur todo ls =
      update (update ls p fun _ => none) cur fun _ => none := by
  induction todo generalizing before ls with
  | nil =>
    rw [List.append_nil] at hsplit
    have hall : ∀ j, ls cur j = none ∧ ls p j = none := fun j =>
      hbefore j (hsplit ▸ List.mem_finRange j)
    funext q j
    rw [unlinkLoop]
    by_cases hq : q = cur
    · subst hq
      rw [update_self, (hall j).1]
    · rw [update_of_ne hq]
      by_cases hqp : q = p
      · subst hqp
        rw [update_self, (hall j).2]
      · rw [update_of_ne hqp]
  | cons i rest ih =>
    have hsplit' : (before ++ [i]) ++ rest = List.finRange n := by simpa using hsplit
    have hnodup : (before ++ i :: rest).Nodup := hsplit ▸ List.nodup_finRange n
    have hi : i ∉ rest := (List.nodup_cons.mp (List.nodup_append.mp hnodup).2.1).1
    have herase : eraseFirst (ls p) cur = update (ls p) i none :=
      eraseFirst_of_split hsplit (fun j hj => (hbefore j hj).2) (htodo i List.mem_cons_self).2
    rw [unlinkLoop, (htodo i List.mem_cons_self).1]
    simp only [herase, update_of_ne hne.symm]
    rw [ih hsplit']
    · funext q
      by_cases hq : q = cur
      · subst hq
        simp
      · by_cases hqp : q = p
        · subst hqp
          simp [hq]
        · simp [hq, hqp]
    · intro j hj
      rw [update_self, update_of_ne hne, update_self]
      rcases List.mem_append.mp hj with hj | hj
      · by_cases hji : j = i
        · simp [hji]
        · rw [update_of_ne hji, update_of_ne hji]
          exact hbefore j hj
      · simp [List.mem_singleton.mp hj]
    · intro j hj
      have hji : j ≠ i := fun h => hi (h ▸ hj)
      rw [update_self, update_of_ne hne, update_self,
        update_of_ne hji, update_of_ne hji]
      exact htodo j (List.mem_cons_of_mem _ hj)

/-- Unlinking keeps arrays uniform and acts on partners as `unlinkPartner`. -/
theorem UniformLists.unlink (h : UniformLists ls partner) (hself : partner cur ≠ some cur) :
    UniformLists (unlink ls cur) (unlinkPartner partner cur) := by
  intro q i
  rw [Lib.unlink]
  cases hcur : partner cur with
  | none =>
    rw [unlinkLoop_of_forall_none fun j => (h cur j).trans hcur, h q i, unlinkPartner]
    by_cases hq : q = cur
    · rw [if_pos hq, hq, hcur]
    · rw [if_neg hq, if_neg (by simp [hcur])]
  | some p =>
    have hne : p ≠ cur := fun hpc => hself (by rw [hcur, hpc])
    by_cases hmutual : partner p = some cur
    · rw [unlinkLoop_mutual hne (List.nil_append _) (by simp)
        fun j _ => ⟨(h cur j).trans hcur, (h p j).trans hmutual⟩, unlinkPartner]
      by_cases hq : q = cur
      · subst hq
        simp
      · by_cases hqp : q = p
        · subst hqp
          simp [hq, hmutual, hcur]
        · have hqp' : ¬ (partner q = some cur ∧ partner cur = some q) := by
            rintro ⟨-, hq'⟩
            exact hqp (Option.some.inj (hq'.symm.trans hcur))
          rw [update_of_ne hq, update_of_ne hqp, if_neg hq, if_neg hqp', h q i]
    · rw [unlinkLoop_oneSided hne (List.nil_append _) (by simp)
        (fun j _ => (h cur j).trans hcur) fun j hj => hmutual ((h p j).symm.trans hj),
        unlinkPartner]
      by_cases hq : q = cur
      · subst hq
        simp
      · have hqp' : ¬ (partner q = some cur ∧ partner cur = some q) := by
          rintro ⟨hq', hq''⟩
          have hqp : q = p := Option.some.inj (hq''.symm.trans hcur)
          exact hmutual (hqp ▸ hq')
        rw [update_of_ne hq, if_neg hq, if_neg hqp', h q i]

/-- Linking acts on partners as `linkPartner`. -/
theorem UniformLists.link (h : UniformLists ls partner) (hnp : partner np = none)
    (hnew : ls' np = fillEmpty (ls np) cur) (hcur : ls' cur = fillEmpty (ls cur) np)
    (hother : ∀ q, q ≠ np → q ≠ cur → ls' q = ls q) :
    UniformLists ls' (linkPartner partner cur np) := by
  intro q i
  rw [linkPartner]
  by_cases hq : q = np
  · subst hq
    rw [hnew, fillEmpty_of_forall (h q), hnp, update_self, Option.none_or]
  · rw [update_of_ne hq]
    by_cases hqc : q = cur
    · subst hqc
      rw [hcur, fillEmpty_of_forall (h q), update_self]
    · rw [hother q hq hqc, h q i, update_of_ne hqc]

/-! ## Partners -/

/-- Partnership is symmetric. -/
def Mutual (partner : N → Option N) : Prop := ∀ q r, partner q = some r → partner r = some q

/-- What linking can produce: the new pair, or an old partner. -/
theorem linkPartner_eq_some (h : linkPartner partner cur np q = some r) :
    (q = np ∧ r = cur) ∨ (q = cur ∧ partner cur = none ∧ r = np) ∨
      (q ≠ np ∧ partner q = some r) := by
  rw [linkPartner] at h
  by_cases hq : q = np
  · subst hq
    rw [update_self] at h
    exact .inl ⟨rfl, (Option.some.inj h).symm⟩
  · rw [update_of_ne hq] at h
    by_cases hqc : q = cur
    · subst hqc
      rw [update_self] at h
      cases hp : partner q with
      | none =>
        rw [hp, Option.none_or] at h
        exact .inr (.inl ⟨rfl, rfl, (Option.some.inj h).symm⟩)
      | some x =>
        rw [hp, Option.some_or] at h
        exact .inr (.inr ⟨hq, h⟩)
    · rw [update_of_ne hqc] at h
      exact .inr (.inr ⟨hq, h⟩)

theorem linkPartner_of_ne (hq : q ≠ np) (hqc : q ≠ cur) :
    linkPartner partner cur np q = partner q := by
  rw [linkPartner, update_of_ne hq, update_of_ne hqc]

/-- What is left after unlinking `cur` was there before, and is not the other
half of `cur`'s own pair. -/
theorem unlinkPartner_eq_some :
    unlinkPartner partner cur q = some r ↔
      q ≠ cur ∧ partner q = some r ∧ ¬ (r = cur ∧ partner cur = some q) := by
  rw [unlinkPartner]
  by_cases hq : q = cur
  · simp [hq]
  · rw [if_neg hq]
    by_cases hpair : partner q = some cur ∧ partner cur = some q
    · rw [if_pos hpair]
      constructor
      · intro h
        cases h
      · rintro ⟨-, hr, hnot⟩
        exact absurd ⟨Option.some.inj (hr.symm.trans hpair.1), hpair.2⟩ hnot
    · rw [if_neg hpair]
      constructor
      · intro h
        refine ⟨hq, h, ?_⟩
        rintro ⟨rfl, hcur⟩
        exact hpair ⟨h, hcur⟩
      · exact fun h => h.2.1

theorem Mutual.link (h : Mutual partner) (hne : cur ≠ np) (hcur : partner cur = none)
    (hnp : partner np = none) :
    Mutual (linkPartner partner cur np) := by
  have hnpcur : linkPartner partner cur np np = some cur := update_self ..
  have hcurnp : linkPartner partner cur np cur = some np := by
    rw [linkPartner, update_of_ne hne, update_self, hcur, Option.none_or]
  intro q r hqr
  rcases linkPartner_eq_some hqr with ⟨rfl, rfl⟩ | ⟨rfl, -, rfl⟩ | ⟨hq, hold⟩
  · exact hcurnp
  · exact hnpcur
  · have hback := h q r hold
    have hr : r ≠ np := by
      rintro rfl
      rw [hnp] at hback
      cases hback
    have hrc : r ≠ cur := by
      rintro rfl
      rw [hcur] at hback
      cases hback
    rw [linkPartner_of_ne hr hrc]
    exact hback

theorem Mutual.unlink (h : Mutual partner) (cur : N) : Mutual (unlinkPartner partner cur) := by
  intro q r hqr
  obtain ⟨hq, hold, hnot⟩ := unlinkPartner_eq_some.mp hqr
  have hback := h q r hold
  have hr : r ≠ cur := by
    rintro rfl
    exact hnot ⟨rfl, hback⟩
  refine unlinkPartner_eq_some.mpr ⟨hr, hback, ?_⟩
  rintro ⟨hqc, -⟩
  exact hq hqc

end Xv6Threads.Lib
