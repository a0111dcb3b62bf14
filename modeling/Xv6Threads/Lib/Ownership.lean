/-
# Marked blocks and their owners

A pool of blocks, a map that marks some of them as used, and places that refer to
blocks. Some blocks are set apart for other uses and are always marked. Every other
marked block has one owner: a place that refers to it, or a party that took it from the
pool and has not stored it anywhere yet. Those are the loose blocks.

An allocation is `claim` followed by `attach`, and giving up a set of places is
`detach` followed by a `release` for each block.
-/

import Mathlib.Data.Set.Insert
import Mathlib.Tactic.Tauto

namespace Xv6Threads.Lib

universe u v

variable {ι : Type u} {B : Type v}

/-- `reserved` and `pool` are the two kinds of blocks the map speaks about, and `R`
says which place refers to which block. -/
structure Owned (reserved pool marked : B → Prop) (R : ι → B → Prop) (loose : Set B) :
    Prop where
  inPool : ∀ {p b}, R p b → pool b
  once : ∀ {p q b}, R p b → R q b → p = q
  looseInPool : ∀ {b}, b ∈ loose → pool b
  looseFree : ∀ {p b}, b ∈ loose → ¬R p b
  markedIff : ∀ {b}, reserved b ∨ pool b → (marked b ↔ reserved b ∨ b ∈ loose ∨ ∃ p, R p b)

variable {reserved pool marked marked' : B → Prop} {R R' : ι → B → Prop} {loose : Set B} {b : B}

theorem Owned.marked_of_ref (h : Owned reserved pool marked R loose) {p : ι} (hp : R p b) :
    marked b :=
  (h.markedIff (.inr (h.inPool hp))).mpr (.inr (.inr ⟨p, hp⟩))

theorem Owned.marked_of_loose (h : Owned reserved pool marked R loose) (hb : b ∈ loose) :
    marked b :=
  (h.markedIff (.inr (h.looseInPool hb))).mpr (.inr (.inl hb))

theorem Owned.congr (h : Owned reserved pool marked R loose)
    (hmarked : ∀ b, reserved b ∨ pool b → (marked' b ↔ marked b))
    (hR : ∀ p b, R' p b ↔ R p b) : Owned reserved pool marked' R' loose where
  inPool hp := h.inPool ((hR ..).mp hp)
  once hp hq := h.once ((hR ..).mp hp) ((hR ..).mp hq)
  looseInPool := h.looseInPool
  looseFree hb hp := h.looseFree hb ((hR ..).mp hp)
  markedIff {b} hb := by simp only [hmarked b hb, h.markedIff hb, hR]

/-- Take an unmarked block from the pool. -/
theorem Owned.claim (h : Owned reserved pool marked R loose) (hb : pool b) (hfree : ¬marked b)
    (hmarked : ∀ c, reserved c ∨ pool c → (marked' c ↔ marked c ∨ c = b)) :
    Owned reserved pool marked' R (insert b loose) where
  inPool := h.inPool
  once := h.once
  looseInPool hc := hc.elim (fun hc => hc ▸ hb) h.looseInPool
  looseFree {p c} hc hp := by
    rcases hc with rfl | hc
    · exact hfree (h.marked_of_ref hp)
    · exact h.looseFree hc hp
  markedIff {c} hc := by
    rw [hmarked c hc, h.markedIff hc, Set.mem_insert_iff]
    tauto

/-- Store a loose block in a place that held none. -/
theorem Owned.attach (h : Owned reserved pool marked R loose) (hb : b ∈ loose) {p : ι}
    (hempty : ∀ c, ¬R p c) (hR : ∀ q c, R' q c ↔ R q c ∨ q = p ∧ c = b) :
    Owned reserved pool marked R' (loose \ {b}) where
  inPool {q c} hq := by
    rcases (hR q c).mp hq with hq | ⟨-, rfl⟩
    · exact h.inPool hq
    · exact h.looseInPool hb
  once {q r c} hq hr := by
    rcases (hR q c).mp hq with hq | ⟨rfl, rfl⟩ <;> rcases (hR r c).mp hr with hr | ⟨rfl, hc⟩
    · exact h.once hq hr
    · exact absurd (hc ▸ hq) (h.looseFree hb)
    · exact absurd hr (h.looseFree hb)
    · rfl
  looseInPool hc := h.looseInPool hc.1
  looseFree {q c} hc hq := by
    rcases (hR q c).mp hq with hq | ⟨-, rfl⟩
    · exact h.looseFree hc.1 hq
    · exact hc.2 rfl
  markedIff {c} hc := by
    rw [h.markedIff hc]
    simp only [hR, Set.mem_sdiff, Set.mem_singleton_iff]
    by_cases hcb : c = b
    · subst hcb
      simp [hb]
    · simp [hcb]

/-- Give up a set of places. What they referred to becomes loose. -/
theorem Owned.detach (h : Owned reserved pool marked R loose) (gone : ι → Prop)
    (hR : ∀ q c, R' q c ↔ R q c ∧ ¬gone q) :
    Owned reserved pool marked R' (loose ∪ {c | ∃ q, gone q ∧ R q c}) where
  inPool hq := h.inPool ((hR ..).mp hq).1
  once hq hr := h.once ((hR ..).mp hq).1 ((hR ..).mp hr).1
  looseInPool hc := by
    rcases hc with hc | ⟨q, -, hq⟩
    · exact h.looseInPool hc
    · exact h.inPool hq
  looseFree {r c} hc hr := by
    rcases hc with hc | ⟨q, hgone, hq⟩
    · exact h.looseFree hc ((hR ..).mp hr).1
    · exact ((hR ..).mp hr).2 (h.once ((hR ..).mp hr).1 hq ▸ hgone)
  markedIff {c} hc := by
    rw [h.markedIff hc, Set.mem_union, Set.mem_ofPred_eq]
    have hsplit : (∃ p, R p c) ↔ (∃ q, gone q ∧ R q c) ∨ ∃ p, R' p c := by
      refine ⟨?_, ?_⟩
      · rintro ⟨p, hp⟩
        by_cases hgone : gone p
        · exact .inl ⟨p, hgone, hp⟩
        · exact .inr ⟨p, (hR ..).mpr ⟨hp, hgone⟩⟩
      · rintro (⟨p, -, hp⟩ | ⟨p, hp⟩)
        · exact ⟨p, hp⟩
        · exact ⟨p, ((hR ..).mp hp).1⟩
    rw [hsplit, or_assoc]

/-- Put a loose block back into the pool. -/
theorem Owned.release (h : Owned reserved pool marked R loose) (hb : b ∈ loose)
    (hreserved : ¬reserved b)
    (hmarked : ∀ c, reserved c ∨ pool c → (marked' c ↔ marked c ∧ c ≠ b)) :
    Owned reserved pool marked' R (loose \ {b}) where
  inPool := h.inPool
  once := h.once
  looseInPool hc := h.looseInPool hc.1
  looseFree hc := h.looseFree hc.1
  markedIff {c} hc := by
    rw [hmarked c hc, h.markedIff hc, Set.mem_sdiff, Set.mem_singleton_iff]
    by_cases hcb : c = b
    · subst hcb
      have hnone : ¬∃ p, R p c := fun ⟨p, hp⟩ => h.looseFree hb hp
      simp [hreserved, hnone]
    · simp [hcb]

end Xv6Threads.Lib
