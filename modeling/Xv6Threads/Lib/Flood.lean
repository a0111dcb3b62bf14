/-
# Flooding a value along neighbour lists

A table of cells, one per node, and for each node a list of neighbours some of
whose entries may be empty. A flood started at a node walks its list; each
neighbour that does not hold the value yet gets it and is flooded in turn, and
the walk of a list is given up at the first neighbour that already holds it.

Nothing bounds the shape of the lists, so the recursion is given a depth and
the module shows how much is enough. It also shows what a flood can change, and
what it does when every list repeats a single neighbour.
-/

import Mathlib.Data.Fintype.Card
import Mathlib.Logic.Function.Basic
import Mathlib.Logic.Relation

namespace Xv6Threads.Lib

universe u v

open Function (update update_eq_self_iff update_of_ne update_self)

variable {N : Type u} {β : Type v} [DecidableEq N] [DecidableEq β]

/-- The walk over one neighbour list. `visit` is the recursive call. -/
def floodLoop (visit : N → (N → β) → Option (N → β)) (v : β) (cur : N) :
    List (Option N) → (N → β) → Option (N → β)
  | [], cells => some cells
  | none :: rest, cells => floodLoop visit v cur rest cells
  | some q :: rest, cells =>
    if q = cur then floodLoop visit v cur rest cells
    else if cells q = v then some cells
    else (visit q (Function.update cells q v)).bind (floodLoop visit v cur rest)

/-- Flood `v` from `cur`. The first argument bounds the depth of the recursion;
`none` means the bound was reached. -/
def flood (nbr : N → List (Option N)) (v : β) : ℕ → N → (N → β) → Option (N → β)
  | 0, _, _ => none
  | depth + 1, cur, cells => floodLoop (flood nbr v depth) v cur (nbr cur) cells

/-- An entry of `cur`'s list that is not a reference to `cur` itself. -/
def FloodEdge (nbr : N → List (Option N)) (cur q : N) : Prop :=
  some q ∈ nbr cur ∧ q ≠ cur

/-- What one call may do to the cells: some nodes reachable along the lists get
`v`, everything else is kept. -/
def FloodSpec (nbr : N → List (Option N)) (v : β) (cur : N) (cells cells' : N → β) : Prop :=
  ∀ q, cells' q = cells q ∨
    (cells' q = v ∧ Relation.TransGen (FloodEdge nbr) cur q)

variable {nbr : N → List (Option N)} {v : β} {cur : N} {cells cells' : N → β}
variable {visit : N → (N → β) → Option (N → β)} {depth : ℕ} {partner : N → Option N}
variable {todo : List (Option N)}

omit [DecidableEq N] [DecidableEq β] in
theorem FloodSpec.keeps (h : FloodSpec nbr v cur cells cells') {q : N} (hq : cells q = v) :
    cells' q = v := by
  rcases h q with hsame | ⟨hset, -⟩
  · rw [hsame, hq]
  · exact hset

theorem floodLoop_spec
    (hvisit : ∀ q cells cells', visit q cells = some cells' → FloodSpec nbr v q cells cells')
    (htodo : ∀ x ∈ todo, x ∈ nbr cur) (hrun : floodLoop visit v cur todo cells = some cells') :
    FloodSpec nbr v cur cells cells' := by
  induction todo generalizing cells with
  | nil =>
    cases hrun
    exact fun q => Or.inl rfl
  | cons entry rest ih =>
    have hrest : ∀ x ∈ rest, x ∈ nbr cur := fun x hx => htodo x (List.mem_cons_of_mem _ hx)
    cases entry with
    | none => exact ih hrest hrun
    | some q =>
      rw [floodLoop] at hrun
      split_ifs at hrun with hself hheld
      · exact ih hrest hrun
      · cases hrun
        exact fun q => Or.inl rfl
      · obtain ⟨mid, hmid, hlater⟩ := Option.bind_eq_some_iff.mp hrun
        have hedge : FloodEdge nbr cur q := ⟨htodo _ List.mem_cons_self, hself⟩
        have hfirst := hvisit _ _ _ hmid
        have hsecond := ih hrest hlater
        intro r
        rcases hsecond r with hsame | hset
        · rcases hfirst r with hsame' | ⟨hset', hreach⟩
          · by_cases hrq : r = q
            · subst hrq
              refine Or.inr ⟨?_, Relation.TransGen.single hedge⟩
              rw [hsame, hsame', update_self]
            · exact Or.inl (by rw [hsame, hsame', update_of_ne hrq])
          · exact Or.inr ⟨by rw [hsame, hset'], hreach.head hedge⟩
        · exact Or.inr hset

/-- A flood changes nothing but cells of nodes reachable from its start, and
those only to the flooded value. -/
theorem flood_spec (hrun : flood nbr v depth cur cells = some cells') :
    FloodSpec nbr v cur cells cells' := by
  induction depth generalizing cur cells cells' with
  | zero => cases hrun
  | succ depth ih => exact floodLoop_spec (fun _ _ _ => ih) (fun _ hx => hx) hrun

/-- The first entry that is not a reference to `cur` itself. -/
def firstOther (cur : N) (todo : List (Option N)) : Option N :=
  todo.findSome? fun x => x.filter fun q => q ≠ cur

omit [DecidableEq β] in
theorem firstOther_ne {q : N} (h : firstOther cur todo = some q) : q ≠ cur := by
  obtain ⟨x, -, hx⟩ := List.exists_of_findSome?_eq_some h
  simpa using (Option.filter_eq_some_iff.mp hx).2

theorem floodLoop_eq_self_iff (htodo : ∀ x ∈ todo, x ∈ nbr cur)
    (hrun : floodLoop (flood nbr v depth) v cur todo cells = some cells') :
    cells' = cells ↔ ∀ q, firstOther cur todo = some q → cells q = v := by
  induction todo generalizing cells with
  | nil =>
    cases hrun
    simp [firstOther]
  | cons entry rest ih =>
    have hrest : ∀ x ∈ rest, x ∈ nbr cur := fun x hx => htodo x (List.mem_cons_of_mem _ hx)
    cases entry with
    | none => exact ih hrest hrun
    | some q =>
      rw [floodLoop] at hrun
      split_ifs at hrun with hself hheld
      · have hskip : firstOther cur (some q :: rest) = firstOther cur rest := by
          simp [firstOther, hself]
        rw [hskip]
        exact ih hrest hrun
      · cases hrun
        have hfirst : firstOther cur (some q :: rest) = some q := by
          simp [firstOther, hself]
        simp [hfirst, hheld]
      · have hfirst : firstOther cur (some q :: rest) = some q := by
          simp [firstOther, hself]
        -- the neighbour has the value afterwards, which it did not have before
        obtain ⟨mid, hmid, hlater⟩ := Option.bind_eq_some_iff.mp hrun
        have hset : mid q = v := (flood_spec hmid).keeps (update_self ..)
        have hspec := floodLoop_spec (fun _ _ _ => flood_spec) hrest hlater
        rw [hfirst]
        refine iff_of_false (fun heq => hheld ?_) fun hall => hheld (hall q rfl)
        rw [← heq]
        exact hspec.keeps hset

/-- A flood changes nothing exactly when the first neighbour has the value already. -/
theorem flood_eq_self_iff (hrun : flood nbr v depth cur cells = some cells') :
    cells' = cells ↔ ∀ q, firstOther cur (nbr cur) = some q → cells q = v := by
  cases depth with
  | zero => cases hrun
  | succ depth => exact floodLoop_eq_self_iff (fun _ hx => hx) hrun

/-! ## Enough depth -/

section Depth

variable [Fintype N]

/-- The nodes that do not hold `v` yet. Each level of the recursion lowers
their number. -/
def missing (v : β) (cells : N → β) : Finset N := Finset.univ.filter fun q => cells q ≠ v

omit [DecidableEq N] in
theorem missing_mono (h : ∀ q, cells q = v → cells' q = v) :
    missing v cells' ⊆ missing v cells := by
  intro q hq
  simp only [missing, Finset.mem_filter, Finset.mem_univ, true_and] at hq ⊢
  exact fun hv => hq (h q hv)

theorem card_missing_update {q : N} (hq : cells q ≠ v) :
    (missing v (update cells q v)).card < (missing v cells).card := by
  apply Finset.card_lt_card
  refine Finset.ssubset_iff_of_subset ?_ |>.mpr ⟨q, ?_, ?_⟩
  · apply missing_mono
    intro r hr
    by_cases hrq : r = q
    · rw [hrq, update_self]
    · rw [update_of_ne hrq, hr]
  · simpa [missing] using hq
  · simp [missing]

theorem floodLoop_isSome
    (hvisit : ∀ q cells, (missing v cells).card < depth →
      ∃ cells', flood nbr v depth q cells = some cells') (todo : List (Option N))
    (hcard : (missing v cells).card ≤ depth) :
    ∃ cells', floodLoop (flood nbr v depth) v cur todo cells = some cells' := by
  induction todo generalizing cells with
  | nil => exact ⟨cells, rfl⟩
  | cons entry rest ih =>
    cases entry with
    | none => exact ih hcard
    | some q =>
      rw [floodLoop]
      split_ifs with hself hheld
      · exact ih hcard
      · exact ⟨cells, rfl⟩
      · have hless := card_missing_update hheld
        obtain ⟨mid, hmid⟩ := hvisit q _ (lt_of_lt_of_le hless hcard)
        have hmono : (missing v mid).card ≤ (missing v (update cells q v)).card :=
          Finset.card_le_card (missing_mono fun r hr => (flood_spec hmid).keeps hr)
        have hmid' : (missing v mid).card ≤ depth := by omega
        obtain ⟨final, hfinal⟩ := ih hmid'
        exact ⟨final, by rw [hmid, Option.bind_some, hfinal]⟩

/-- One more level than there are nodes without the value is enough. -/
theorem flood_isSome (nbr : N → List (Option N)) (v : β) (cur : N)
    (hcard : (missing v cells).card < depth) :
    ∃ cells', flood nbr v depth cur cells = some cells' := by
  induction depth generalizing cur cells with
  | zero => omega
  | succ depth ih => exact floodLoop_isSome (fun q _ h => ih q h) _ (by omega)

end Depth

/-! ## Lists that repeat one neighbour -/

/-- Every entry of every list names the same neighbour, or every entry is
empty. -/
def Uniform (nbr : N → List (Option N)) (partner : N → Option N) : Prop :=
  ∀ q, nbr q ≠ [] ∧ ∀ x ∈ nbr q, x = partner q

theorem floodLoop_of_forall_none {todo : List (Option N)} (htodo : ∀ x ∈ todo, x = none)
    (cells : N → β) :
    floodLoop visit v cur todo cells = some cells := by
  induction todo with
  | nil => rfl
  | cons entry rest ih =>
    obtain rfl := htodo entry List.mem_cons_self
    exact ih fun x hx => htodo x (List.mem_cons_of_mem _ hx)

theorem floodLoop_of_held {q : N} (hself : q ≠ cur) {todo : List (Option N)}
    (htodo : ∀ x ∈ todo, x = some q) (hheld : cells q = v) :
    floodLoop visit v cur todo cells = some cells := by
  cases todo with
  | nil => rfl
  | cons entry rest =>
    obtain rfl := htodo entry List.mem_cons_self
    rw [floodLoop, if_neg hself, if_pos hheld]

/-- No neighbour: nothing happens. -/
theorem flood_of_partner_none (huni : Uniform nbr partner) (depth : ℕ)
    (hnone : partner cur = none) (cells : N → β) : flood nbr v (depth + 1) cur cells = some cells :=
  floodLoop_of_forall_none (fun x hx => ((huni cur).2 x hx).trans hnone) cells

/-- The neighbour already holds the value: nothing happens. -/
theorem flood_of_partner_held (huni : Uniform nbr partner) (depth : ℕ) {q : N}
    (hq : partner cur = some q) (hself : q ≠ cur) (hheld : cells q = v) :
    flood nbr v (depth + 1) cur cells = some cells :=
  floodLoop_of_held hself (fun x hx => ((huni cur).2 x hx).trans hq) hheld

/-- The neighbour lacks the value: it gets it and the flood moves on to it. The
repetitions later in the list find the value in place. -/
theorem flood_of_partner_missing (huni : Uniform nbr partner) (depth : ℕ) {q : N}
    (hq : partner cur = some q) (hself : q ≠ cur) (hmiss : cells q ≠ v) :
    flood nbr v (depth + 1) cur cells = flood nbr v depth q (update cells q v) := by
  obtain ⟨hne, hall⟩ := huni cur
  obtain ⟨entry, rest, hlist⟩ := List.exists_cons_of_ne_nil hne
  have hentry : entry = some q := (hall entry (by simp [hlist])).trans hq
  have hrest : ∀ x ∈ rest, x = some q := fun x hx =>
    (hall x (by rw [hlist]; exact List.mem_cons_of_mem _ hx)).trans hq
  rw [flood, hlist, hentry, floodLoop, if_neg hself, if_neg hmiss]
  cases hrun : flood nbr v depth q (update cells q v) with
  | none => rfl
  | some cells' =>
    have hheld : cells' q = v := (flood_spec hrun).keeps (update_self ..)
    exact floodLoop_of_held hself hrest hheld

/-- Two nodes that are each other's neighbour: a value the other lacks ends up
in both cells and nowhere else. -/
theorem flood_of_mutual (huni : Uniform nbr partner) (depth : ℕ) {q : N}
    (hq : partner cur = some q) (hback : partner q = some cur) (hself : q ≠ cur)
    (hmiss : cells q ≠ v) :
    flood nbr v (depth + 3) cur cells =
      some (update (update cells q v) cur v) := by
  rw [flood_of_partner_missing huni (depth + 2) hq hself hmiss]
  by_cases hcur : update cells q v cur = v
  · rw [flood_of_partner_held huni (depth + 1) hback hself.symm hcur]
    congr 1
    exact (update_eq_self_iff.mpr hcur.symm).symm
  · rw [flood_of_partner_missing huni (depth + 1) hback hself.symm hcur]
    apply flood_of_partner_held huni depth hq hself
    rw [update_of_ne hself, update_self]

end Xv6Threads.Lib
