/-
# The ring of buffers

The ring holds every buffer once, in an order that the model keeps as a list. Of
the buffers with one address all but the first in that order are untouched; past
the zeros of static data there is only one. This is what lets `bget` stop at the
first match: a lookup walks the ring forwards, and a buffer in use is never behind
another one with its address.
-/

import Xv6Threads.Bio.Cache

namespace Xv6Threads.Bio

open Xv6Threads.Lib Xv6Threads.Log

variable {U : Type}

/-- As static data is: in no use, and with no flag set. -/
structure Buf.Untouched (x : Buf U) : Prop where
  refcnt : x.refcnt = 0
  valid : x.valid = false
  dirty : x.dirty = false

/-- The buffers in ring order. -/
structure RingOk (s : Cache U) (l : List (Fin NBUF)) : Prop where
  perm : l.Perm (List.finRange NBUF)
  ring : s.links.Represents none (l.map some)
  once : l.Pairwise fun b c => (s.buf b).addr = (s.buf c).addr →
    (s.buf c).addr = ⟨0, 0⟩ ∧ (s.buf c).Untouched

section Ring

variable {s s' : Cache U} {l l₁ l₂ : List (Fin NBUF)} {a : BlockAddr} {b c : Fin NBUF}

theorem RingOk.nodup (hi : RingOk s l) : l.Nodup :=
  hi.perm.nodup_iff.mpr (List.nodup_finRange NBUF)

theorem RingOk.mem (hi : RingOk s l) (b : Fin NBUF) : b ∈ l :=
  hi.perm.mem_iff.mpr (List.mem_finRange b)

theorem RingOk.length_lt (hi : RingOk s l) : (l.map some).length < NBUF + 1 := by
  rw [List.length_map, hi.perm.length_eq, List.length_finRange]
  exact Nat.lt_succ_self NBUF

/-- Behind a buffer, only untouched ones have its address. -/
theorem RingOk.behind (hi : RingOk s (l₁ ++ b :: l₂)) (hc : c ∈ l₂)
    (haddr : (s.buf b).addr = (s.buf c).addr) :
    (s.buf c).addr = ⟨0, 0⟩ ∧ (s.buf c).Untouched :=
  (List.pairwise_cons.mp (List.pairwise_append.mp hi.once).2.1).1 c hc haddr

theorem RingOk.ahead (hi : RingOk s (l₁ ++ b :: l₂)) (hc : c ∈ l₁)
    (haddr : (s.buf c).addr = (s.buf b).addr) :
    (s.buf b).addr = ⟨0, 0⟩ ∧ (s.buf b).Untouched :=
  (List.pairwise_append.mp hi.once).2.2 c hc b List.mem_cons_self haddr

/-- Two buffers share an address only if one of them is still static data. -/
theorem RingOk.untouched_or (hi : RingOk s l) (hne : c ≠ b)
    (haddr : (s.buf c).addr = (s.buf b).addr) :
    (s.buf b).addr = ⟨0, 0⟩ ∧ ((s.buf b).Untouched ∨ (s.buf c).Untouched) := by
  obtain ⟨l₁, l₂, rfl⟩ := List.append_of_mem (hi.mem b)
  rcases List.mem_append.mp (hi.mem c) with hc | hc
  · have hb := hi.ahead hc haddr
    exact ⟨hb.1, .inl hb.2⟩
  · have hc := hi.behind ((List.mem_cons.mp hc).resolve_left hne) haddr.symm
    exact ⟨haddr.symm.trans hc.1, .inr hc.2⟩

/-- The other buffers with the address of one in use are untouched. -/
theorem RingOk.untouched (hi : RingOk s l) (hused : 0 < (s.buf b).refcnt) (hne : c ≠ b)
    (haddr : (s.buf c).addr = (s.buf b).addr) : (s.buf c).Untouched := by
  rcases (hi.untouched_or hne haddr).2 with hb | hc
  · rw [hb.refcnt] at hused
    exact absurd hused (Nat.lt_irrefl 0)
  · exact hc

/-- A step that leaves the ring, the addresses and the untouched buffers alone. -/
theorem RingOk.kept (hi : RingOk s l) (hlinks : s'.links = s.links)
    (haddr : ∀ c, (s'.buf c).addr = (s.buf c).addr)
    (hsame : ∀ c, (s.buf c).Untouched → s'.buf c = s.buf c) : RingOk s' l where
  perm := hi.perm
  ring := hlinks ▸ hi.ring
  once := by
    apply hi.once.imp
    intro b c hpair heq
    rw [haddr, haddr] at heq
    have hc := hpair heq
    rw [hsame c hc.2]
    exact hc

theorem find_map_some_getD {p : Node → Bool} :
    ((l.map some).find? p).getD none = l.find? fun b => p (some b) := by
  rw [List.find?_map]
  cases hfind : l.find? (p ∘ some) with
  | none => exact hfind.symm
  | some b => exact hfind.symm

/-- `bget` on the list the ring stands for. -/
theorem RingOk.bget_eq (hi : RingOk s l) (a : BlockAddr) :
    bget s a =
      match l.find? fun b => s.carries a (some b) with
      | some b => .ok (b, s.setBuf b { s.buf b with refcnt := (s.buf b).refcnt + 1 })
      | none =>
        match l.reverse.find? fun b => s.unused (some b) with
        | some b => .ok (b, s.setBuf b
            { s.buf b with addr := a, valid := false, dirty := false, refcnt := 1 })
        | none => .error .noBuffers := by
  rw [bget, hi.ring.scan_next _ hi.length_lt, hi.ring.scan_prev _ hi.length_lt,
    ← List.map_reverse, find_map_some_getD, find_map_some_getD]
  cases l.find? fun b => s.carries a (some b) with
  | some b => rfl
  | none =>
    cases l.reverse.find? fun b => s.unused (some b) with
    | some b => rfl
    | none => rfl

/-- `bget` returns the first buffer with the address, or gives the address, which
no buffer has, to one that is neither in use nor dirty. -/
theorem RingOk.bget_ok (hi : RingOk s l) (h : bget s a = .ok (b, s')) :
    (∃ l₁ l₂, l = l₁ ++ b :: l₂ ∧ (s.buf b).addr = a ∧ (∀ c ∈ l₁, (s.buf c).addr ≠ a) ∧
      s' = s.setBuf b { s.buf b with refcnt := (s.buf b).refcnt + 1 }) ∨
    ((∀ c, (s.buf c).addr ≠ a) ∧ (s.buf b).refcnt = 0 ∧ (s.buf b).dirty = false ∧
      s' = s.setBuf b
        { s.buf b with addr := a, valid := false, dirty := false, refcnt := 1 }) := by
  rw [hi.bget_eq] at h
  cases hhit : l.find? fun b => s.carries a (some b) with
  | some c =>
    rw [hhit] at h
    cases h
    obtain ⟨hb, l₁, l₂, hl, hfirst⟩ := List.find?_eq_some_iff_append.mp hhit
    exact .inl ⟨l₁, l₂, hl, by simpa [Cache.carries] using hb,
      by simpa [Cache.carries] using hfirst, rfl⟩
  | none =>
    rw [hhit] at h
    have hmiss : ∀ c, (s.buf c).addr ≠ a := by
      intro c
      simpa [Cache.carries] using List.find?_eq_none.mp hhit c (hi.mem c)
    cases hfree : l.reverse.find? fun b => s.unused (some b) with
    | some c =>
      rw [hfree] at h
      cases h
      have hunused := List.find?_some hfree
      simp only [Cache.unused, decide_eq_true_eq] at hunused
      exact .inr ⟨hmiss, hunused.1, hunused.2, rfl⟩
    | none =>
      rw [hfree] at h
      cases h

/-- A hit takes up the first buffer with its address. -/
theorem RingOk.hit (hi : RingOk s (l₁ ++ b :: l₂)) (hlinks : s'.links = s.links)
    (hfirst : ∀ c ∈ l₁, (s.buf c).addr ≠ (s.buf b).addr)
    (haddr : ∀ c, (s'.buf c).addr = (s.buf c).addr)
    (hsame : ∀ c, c ≠ b → s'.buf c = s.buf c) : RingOk s' (l₁ ++ b :: l₂) where
  perm := hi.perm
  ring := hlinks ▸ hi.ring
  once := by
    have hnodup := hi.nodup
    rw [List.nodup_append, List.nodup_cons] at hnodup
    have hne₁ : ∀ c ∈ l₁, c ≠ b := fun c hc heq =>
      hnodup.2.2 c hc b List.mem_cons_self heq
    have hne₂ : ∀ c ∈ l₂, c ≠ b := fun c hc heq => hnodup.2.1.1 (heq ▸ hc)
    have honce := List.pairwise_append.mp hi.once
    rw [List.pairwise_cons] at honce
    simp only [haddr]
    refine List.pairwise_append.mpr ⟨?_, List.pairwise_cons.mpr ⟨?_, ?_⟩, ?_⟩
    · refine honce.1.imp_of_mem ?_
      intro x c _ hc hpair
      rw [hsame c (hne₁ c hc)]
      exact hpair
    · intro c hc
      rw [hsame c (hne₂ c hc)]
      exact honce.2.1.1 c hc
    · refine honce.2.1.2.imp_of_mem ?_
      intro x c _ hc hpair
      rw [hsame c (hne₂ c hc)]
      exact hpair
    · intro x hx c hc heq
      rcases List.mem_cons.mp hc with rfl | hc₂
      · exact absurd heq (hfirst x hx)
      · rw [hsame c (hne₂ c hc₂)]
        exact honce.2.2 x hx c hc heq

/-- A buffer takes an address that no other has. -/
theorem RingOk.recycled (hi : RingOk s l) (hlinks : s'.links = s.links)
    (hmiss : ∀ c, (s.buf c).addr ≠ (s'.buf b).addr)
    (hsame : ∀ c, c ≠ b → s'.buf c = s.buf c) : RingOk s' l where
  perm := hi.perm
  ring := hlinks ▸ hi.ring
  once := by
    refine (hi.once.and hi.nodup).imp ?_
    rintro x c ⟨hpair, hne⟩ heq
    by_cases hc : c = b
    · subst hc
      rw [hsame x hne] at heq
      exact absurd heq (hmiss x)
    · by_cases hx : x = b
      · subst hx
        rw [hsame c hc] at heq
        exact absurd heq.symm (hmiss c)
      · rw [hsame x hx, hsame c hc] at heq
        rw [hsame c hc]
        exact hpair heq

/-- The last use of a buffer moves it to the front. -/
theorem RingOk.moved (hi : RingOk s (l₁ ++ b :: l₂)) (hused : 0 < (s.buf b).refcnt)
    (hlinks : s'.links = (s.links.unlink (some b)).pushFront none (some b))
    (haddr : ∀ c, (s'.buf c).addr = (s.buf c).addr)
    (hsame : ∀ c, c ≠ b → s'.buf c = s.buf c) : RingOk s' (b :: (l₁ ++ l₂)) := by
  have hnodup : (b :: (l₁ ++ l₂)).Nodup := List.nodup_middle.mp hi.nodup
  have hne : ∀ c ∈ l₁ ++ l₂, c ≠ b := fun c hc heq =>
    (List.nodup_cons.mp hnodup).1 (heq ▸ hc)
  constructor
  case perm => exact List.perm_middle.symm.trans hi.perm
  case ring =>
    have hring := hi.ring
    rw [List.map_append, List.map_cons] at hring
    have hout := hring.unlink
    rw [← List.map_append] at hout
    rw [hlinks, List.map_cons]
    apply hout.pushFront
    simpa using (List.nodup_cons.mp hnodup).1
  case once =>
    rw [List.pairwise_cons]
    constructor
    · intro c hc heq
      rw [haddr, haddr] at heq
      rw [haddr, hsame c (hne c hc)]
      rcases List.mem_append.mp hc with hc | hc
      · -- a buffer in use is not behind another one with its address
        have hb := (hi.ahead hc heq.symm).2.refcnt
        rw [hb] at hused
        exact absurd hused (Nat.lt_irrefl 0)
      · exact hi.behind hc heq
    · have hrest := hi.once.sublist ((List.sublist_cons_self b l₂).append_left l₁)
      refine hrest.imp_of_mem ?_
      intro x c _ hc hpair heq
      rw [haddr, haddr] at heq
      rw [haddr, hsame c (hne c hc)]
      exact hpair heq

end Ring

/-- `binit` strings the buffers up, the last one first. -/
theorem represents_binit : binit.Represents none ((List.finRange NBUF).reverse.map some) := by
  have hfold : ∀ (bs l : List (Fin NBUF)) (r : Links Node), (bs.reverse ++ l).Nodup →
      r.Represents none (l.map some) →
      (bs.foldl (fun r b => r.pushFront none (some b)) r).Represents none
        ((bs.reverse ++ l).map some) := by
    intro bs
    induction bs with
    | nil => exact fun l r _ hr => hr
    | cons b bs ih =>
      intro l r hnodup hr
      rw [List.reverse_cons, List.append_assoc, List.singleton_append] at hnodup ⊢
      apply ih (b :: l) _ hnodup
      apply hr.pushFront
      have hb := (List.nodup_cons.mp hnodup.of_append_right).1
      simpa using hb
  have hall := hfold (List.finRange NBUF) [] _ (by simpa using List.nodup_finRange NBUF)
    (Links.represents_alone ⟨fun _ => none, fun _ => none⟩ none)
  rwa [List.append_nil] at hall

theorem ringOk_init (disk : BlockAddr → Block) :
    RingOk (Cache.init U disk) (List.finRange NBUF).reverse where
  perm := List.reverse_perm _
  ring := represents_binit
  once := by
    refine ((List.nodup_reverse.mpr (List.nodup_finRange NBUF))).imp ?_
    exact fun _ _ => ⟨rfl, rfl, rfl, rfl⟩

end Xv6Threads.Bio
