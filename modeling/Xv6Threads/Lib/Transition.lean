/-
# Runs of a transition system

A system is a start state and a labelled step relation. Claims about it speak
of every state some run reaches, or of the states reached by runs whose steps
all meet a side condition; the condition reads the state before the step and
the step's label. Both are one notion here, with the condition as a parameter.
-/

import Mathlib.Logic.Basic

namespace Xv6Threads.Lib

universe u v

variable {σ : Type u} {ι : Type v}

/-- The states reached from `init` by runs every step of which meets `good`. -/
inductive ReachableBy (step : σ → ι → σ → Prop) (good : σ → ι → Prop) (init : σ) : σ → Prop
  | start : ReachableBy step good init init
  | extend {s s' : σ} {e : ι} (prior : ReachableBy step good init s) (hgood : good s e)
      (hstep : step s e s') : ReachableBy step good init s'

/-- The states reached by unrestricted runs. -/
abbrev Reachable (step : σ → ι → σ → Prop) (init : σ) : σ → Prop :=
  ReachableBy step (fun _ _ => True) init

variable {step : σ → ι → σ → Prop} {good good' : σ → ι → Prop} {init s s' : σ}
variable {P : σ → Prop} {next : σ → ι → Option σ} {ρ : Type*}

/-- A property of the start state that every admitted step preserves holds in
every state reached. The step may use that its source was reached. -/
theorem ReachableBy.invariant (hinit : P init)
    (hpres : ∀ s e s', ReachableBy step good init s → P s → good s e → step s e s' → P s')
    (hreach : ReachableBy step good init s) : P s := by
  induction hreach with
  | start => exact hinit
  | extend prior hgood hstep ih => exact hpres _ _ _ prior ih hgood hstep

/-- Runs under a stronger condition are runs under a weaker one. -/
theorem ReachableBy.mono (himp : ∀ s e, good s e → good' s e)
    (hreach : ReachableBy step good init s) : ReachableBy step good' init s := by
  induction hreach with
  | start => exact .start
  | extend _ hgood hstep ih => exact .extend ih (himp _ _ hgood) hstep

theorem ReachableBy.reachable (hreach : ReachableBy step good init s) :
    Reachable step init s :=
  hreach.mono fun _ _ _ => trivial

/-- Runs compose. -/
theorem ReachableBy.trans (hfirst : ReachableBy step good init s)
    (hsecond : ReachableBy step good s s') : ReachableBy step good init s' := by
  induction hsecond with
  | start => exact hfirst
  | extend _ hgood hstep ih => exact .extend ih hgood hstep

/-- The state a list of labels leads to, where every label has at most one
successor and `next` computes it. The run stops where a label does not meet
`good`. -/
def runList (next : σ → ι → Option σ) (good : σ → ι → Prop) [∀ s e, Decidable (good s e)]
    (s : σ) : List ι → Option σ
  | [] => some s
  | e :: es => if good s e then (next s e).bind fun s' => runList next good s' es else none

theorem runList_cons [∀ s e, Decidable (good s e)] {e : ι} {es : List ι} (hgood : good s e)
    (hnext : next s e = some s') :
    runList next good s (e :: es) = runList next good s' es := by
  rw [runList, if_pos hgood, hnext, Option.bind_some]

/-- A computed run is a run. -/
theorem reachableBy_of_runList [∀ s e, Decidable (good s e)] {es : List ι}
    (hrun : runList next good s es = some s') :
    ReachableBy (fun s e s' => next s e = some s') good s s' := by
  induction es generalizing s with
  | nil =>
    cases hrun
    exact .start
  | cons e es ih =>
    rw [runList] at hrun
    by_cases hgood : good s e
    · rw [if_pos hgood] at hrun
      obtain ⟨mid, hmid, hrest⟩ := Option.bind_eq_some_iff.mp hrun
      exact (ReachableBy.extend .start hgood hmid).trans (ih hrest)
    · rw [if_neg hgood] at hrun
      cases hrun

/-- The system together with what its steps report, the latest report first.
`report` reads the state before the step. -/
def nextLogged {ρ : Type*} (next : σ → ι → Option σ) (report : σ → ι → Option ρ)
    (x : σ × List ρ) (e : ι) : Option (σ × List ρ) :=
  (next x.1 e).map fun s' => (s', (report x.1 e).toList ++ x.2)

theorem nextLogged_eq_some {report : σ → ι → Option ρ} {x y : σ × List ρ} {e : ι}
    (h : nextLogged next report x e = some y) :
    next x.1 e = some y.1 ∧ y.2 = (report x.1 e).toList ++ x.2 := by
  obtain ⟨s', hs', rfl⟩ := Option.map_eq_some_iff.mp h
  exact ⟨hs', rfl⟩

/-- Keeping a log does not change which states are reached. -/
theorem reachable_of_logged {report : σ → ι → Option ρ} {x y : σ × List ρ}
    (h : Reachable (fun x e y => nextLogged next report x e = some y) x y) :
    Reachable (fun s e s' => next s e = some s') x.1 y.1 := by
  induction h with
  | start => exact .start
  | extend _ _ hstep ih => exact .extend ih trivial (nextLogged_eq_some hstep).1

/-- A computed run that ends in a state with a decidable property. -/
theorem exists_reachableBy [∀ s e, Decidable (good s e)] [DecidablePred P] (es : List ι)
    (hrun : ((runList next good s es).any fun s' => decide (P s')) = true) :
    ∃ s', ReachableBy (fun s e s' => next s e = some s') good s s' ∧ P s' := by
  cases hres : runList next good s es with
  | none => simp [hres] at hrun
  | some s' => exact ⟨s', reachableBy_of_runList hres, by simpa [hres] using hrun⟩

/-- The error of a call that fails. -/
def errorOf {ε α : Type*} : Except ε α → Option ε
  | .ok _ => none
  | .error e => some e

theorem eq_error_of_errorOf {ε α : Type*} {m : Except ε α} {e : ε} (h : errorOf m = some e) :
    m = .error e := by
  cases m with
  | ok a => cases h
  | error e' =>
    cases h
    rfl

/-- A computed call that returns `r` in a state with a decidable property. -/
theorem ok_of_result {ε : Type*} [DecidableEq ρ] {m : Except ε (σ × ρ)} {r : ρ} [DecidablePred P]
    (h : (m.toOption.any fun x => decide (x.2 = r ∧ P x.1)) = true) :
    ∃ s', m = .ok (s', r) ∧ P s' := by
  cases m with
  | error f => simp [Except.toOption] at h
  | ok x =>
    obtain ⟨s', r'⟩ := x
    obtain ⟨rfl, hP⟩ : r' = r ∧ P s' := by simpa [Except.toOption] using h
    exact ⟨s', rfl, hP⟩

end Xv6Threads.Lib
