/-
# Threads and the size of shared memory

`sz` is a field of the process and the page directory is shared, so `sbrk` by
one thread leaves the others with a stale size, and their next `sbrk` maps
pages that are mapped already. This module shows that this is the only way the
sizes come apart, besides the reuse of a directory that was freed too early.
-/

import Xv6Threads.Analysis.Memory
import Xv6Threads.Kernel.VmSpec

namespace Xv6Threads

open Lib
open Function (update update_of_ne update_self)

variable {s s' : Kernel} {p : Slot} {n : BitVec 32} {budget sz' : ℕ} {d : PageAddr}
variable {mem mem' : AddrSpace}

/-- An `sbrk` that leaves `sz` as it is: it asks for too much, or for less than
nothing, or memory does not suffice, or it gives back everything. -/
def SbrkKeepsSize (sz : ℕ) (n : BitVec 32) (budget : ℕ) : Prop :=
  (0 < n.toInt →
    KERNBASE ≤ (sz + n.toNat) % 2 ^ 32 ∨ (sz + n.toNat) % 2 ^ 32 < sz ∨
      budget < (pagesBetween (pgroundup sz) ((sz + n.toNat) % 2 ^ 32)).length) ∧
    (n.toInt < 0 → sz ≤ (sz + n.toNat) % 2 ^ 32 ∨ (sz + n.toNat) % 2 ^ 32 = 0)

/-- The caller shares its memory with no live process. -/
def Kernel.SoleUser (s : Kernel) (p : Slot) : Prop :=
  ∀ r, r ≠ p → (s.procs r).Live → (s.procs r).pgdir ≠ (s.procs p).pgdir

/-- No step frees memory that is in use elsewhere, and no process resizes memory
it shares. -/
def KeepsSizes (s : Kernel) (e : Event) : Prop :=
  FreesUnshared s e ∧
    match e with
    | .call p (.sbrk n budget) => s.SoleUser p ∨ SbrkKeepsSize (s.procs p).sz n budget
    | _ => True

instance (sz : ℕ) (n : BitVec 32) (budget : ℕ) : Decidable (SbrkKeepsSize sz n budget) :=
  inferInstanceAs (Decidable ((_ → _) ∧ (_ → _)))

instance (s : Kernel) (p : Slot) : Decidable (s.SoleUser p) :=
  inferInstanceAs (Decidable (∀ r, r ≠ p → (s.procs r).Live → _))

instance (s : Kernel) (e : Event) : Decidable (KeepsSizes s e) := by
  unfold KeepsSizes
  split <;> infer_instance

/-- Sizes fit the memory they describe, and users of one directory agree. -/
structure SizesOk (s : Kernel) : Prop where
  fits : ∀ q d mem, (s.procs q).Live → (s.procs q).pgdir = some d → s.pgdirs d = some mem →
    Fits mem (s.procs q).sz
  agree : ∀ q r, (s.procs q).Live → (s.procs r).Live → (s.procs q).pgdir = (s.procs r).pgdir →
    (s.procs q).sz = (s.procs r).sz

theorem live_boot {q : Slot} (h : (boot.procs q).Live) : q = 0 := by
  by_contra hq
  rw [boot_procs_of_ne hq] at h
  exact h.1 rfl

theorem sizesOk_boot : SizesOk boot := by
  constructor
  · intro q d mem hlive hd hmem
    obtain rfl := live_boot hlive
    obtain rfl : 0 = d := Option.some.inj hd
    obtain rfl : (fun pg => pg == 0) = mem := Option.some.inj hmem
    refine ⟨by decide, ?_⟩
    intro pg hpg
    obtain rfl : pg = 0 := by simpa using hpg
    decide
  · intro q r hq hr _
    rw [live_boot hq, live_boot hr]

theorem SizesOk.same (hi : SizesOk s) (h : SameMemory s s') : SizesOk s' := by
  constructor
  · intro q d mem hlive hd hmem
    rw [h.tree.live] at hlive
    rw [h.pgdir] at hd
    rw [h.pgdirs] at hmem
    rw [h.sz]
    exact hi.fits q d mem hlive hd hmem
  · intro q r hq hr hqr
    rw [h.tree.live] at hq hr
    rw [h.pgdir, h.pgdir] at hqr
    rw [h.sz, h.sz]
    exact hi.agree q r hq hr hqr

/-- Processes may disappear, and directories nobody live uses may change. -/
theorem SizesOk.restrict (hi : SizesOk s)
    (hlive : ∀ q, (s'.procs q).Live → (s.procs q).Live ∧
      (s'.procs q).pgdir = (s.procs q).pgdir ∧ (s'.procs q).sz = (s.procs q).sz)
    (hpgdirs : ∀ d mem, s'.pgdirs d = some mem → s.pgdirs d = some mem) : SizesOk s' := by
  constructor
  · intro q d mem hq hd hmem
    obtain ⟨hold, hpgdir, hsz⟩ := hlive q hq
    rw [hsz]
    exact hi.fits q d mem hold (hpgdir ▸ hd) (hpgdirs d mem hmem)
  · intro q r hq hr hqr
    obtain ⟨hqold, hqpgdir, hqsz⟩ := hlive q hq
    obtain ⟨hrold, hrpgdir, hrsz⟩ := hlive r hr
    rw [hqpgdir, hrpgdir] at hqr
    rw [hqsz, hrsz]
    exact hi.agree q r hqold hrold hqr

theorem Resized.sz_eq (h : Resized s p n budget d mem mem' sz' s')
    (hkeeps : SbrkKeepsSize (s.procs p).sz n budget) : sz' = (s.procs p).sz := by
  rcases h.grown with ⟨hpos, sz₁, halloc, rfl⟩ | ⟨hneg, sz₁, hdealloc, rfl⟩
  · have hgrow := hkeeps.1 hpos
    rw [allocuvm] at halloc
    split_ifs at halloc with hbig hsmall
    · simp only [Except.ok.injEq, Prod.mk.injEq] at halloc
      rw [← halloc.2, if_pos rfl]
    · simp only [Except.ok.injEq, Prod.mk.injEq] at halloc
      rw [← halloc.2, ite_self]
    · have hshort := (hgrow.resolve_left hbig).resolve_left hsmall
      split at halloc
      · cases halloc
      · rename_i hmap
        obtain ⟨h, -⟩ | h := mapPages_cases hmap
        · cases h
        · simp only [Except.ok.injEq, Prod.mk.injEq, true_eq_decide_iff] at h
          exact absurd h.2 (not_le.mpr hshort)
      · simp only [Except.ok.injEq, Prod.mk.injEq] at halloc
        rw [← halloc.2, if_pos rfl]
  · have hshrink := hkeeps.2 hneg
    rw [deallocuvm] at hdealloc
    split_ifs at hdealloc with hle
    · rw [← (Prod.mk.inj hdealloc).2, ite_self]
    · rw [← (Prod.mk.inj hdealloc).2, if_pos (hshrink.resolve_left hle)]

theorem Resized.fits (h : Resized s p n budget d mem mem' sz' s')
    (hfits : Fits mem (s.procs p).sz) : Fits mem' sz' := by
  rcases h.grown with ⟨hpos, sz₁, halloc, rfl⟩ | ⟨hneg, sz₁, hdealloc, rfl⟩
  · exact allocuvm_fits hfits halloc
  · exact deallocuvm_fits hfits hdealloc

theorem SizesOk.resized (hi : SizesOk s) (hp : (s.procs p).Live)
    (hgood : s.SoleUser p ∨ SbrkKeepsSize (s.procs p).sz n budget)
    (h : Resized s p n budget d mem mem' sz' s') : SizesOk s' := by
  have hnew : Fits mem' sz' := h.fits (hi.fits p d mem hp h.pgdir h.memory)
  have hpgdirs : s'.pgdirs = update s.pgdirs d (some mem') := by rw [h.shape]; rfl
  have hprocs : ∀ q,
      s'.procs q = { s.procs q with sz := if q = p then sz' else (s.procs q).sz } := by
    intro q
    rw [h.shape, Kernel.setProc_procs]
    split_ifs with hq
    · rw [hq]
    · rfl
  -- every other user of the directory already has the new size
  have hshared : ∀ q, q ≠ p → (s.procs q).Live → (s.procs q).pgdir = some d →
      (s.procs q).sz = sz' := by
    intro q hqp hq hqd
    rcases hgood with hsole | hkeeps
    · exact absurd (hqd.trans h.pgdir.symm) (hsole q hqp hq)
    · rw [h.sz_eq hkeeps]
      exact hi.agree q p hq hp (hqd.trans h.pgdir.symm)
  have hsize : ∀ q, (s.procs q).Live → (s.procs q).pgdir = some d → (s'.procs q).sz = sz' := by
    intro q hq hqd
    rw [hprocs]
    by_cases hqp : q = p
    · exact if_pos hqp
    · exact (if_neg hqp).trans (hshared q hqp hq hqd)
  have hother : ∀ q, (s.procs q).pgdir ≠ some d → (s'.procs q).sz = (s.procs q).sz := by
    intro q hqd
    have hqp : q ≠ p := by
      rintro rfl
      exact hqd h.pgdir
    rw [hprocs]
    exact if_neg hqp
  constructor
  · intro q d' mem₀ hq hqd hmem₀
    rw [hprocs] at hq hqd
    rw [hpgdirs] at hmem₀
    by_cases hd : d' = d
    · subst hd
      rw [update_self] at hmem₀
      rw [hsize q hq hqd, ← Option.some.inj hmem₀]
      exact hnew
    · rw [update_of_ne hd] at hmem₀
      have hne : (s.procs q).pgdir ≠ some d := fun heq => hd (Option.some.inj (hqd.symm.trans heq))
      rw [hother q hne]
      exact hi.fits q d' mem₀ hq hqd hmem₀
  · intro q r hq hr hqr
    have hqr' : (s.procs q).pgdir = (s.procs r).pgdir := by
      rw [hprocs, hprocs] at hqr
      exact hqr
    rw [hprocs] at hq hr
    by_cases hd : (s.procs q).pgdir = some d
    · rw [hsize q hq hd, hsize r hr (hqr'.symm.trans hd)]
    · rw [hother q hd, hother r fun heq => hd (hqr'.trans heq)]
      exact hi.agree q r hq hr hqr'

/-- A live process does not use a directory that is only now being created. -/
theorem MemoryOk.ne_fresh {q : Slot} (hmem : MemoryOk s) (hq : (s.procs q).Live)
    (hfresh : s.pgdirs d = none) : (s.procs q).pgdir ≠ some d := by
  intro hqd
  obtain ⟨d', mem, hd', hmem'⟩ := hmem q (.inl hq)
  obtain rfl : d' = d := Option.some.inj (hd'.symm.trans hqd)
  rw [hfresh] at hmem'
  cases hmem'

theorem SizesOk.spawned {np : Slot} {c : Call} {flags : BitVec 32} {env : SpawnEnv} {child : Proc}
    (hi : SizesOk s) (hmem : MemoryOk s) (hen : Enabled s p c) (hc : c.newPgdir = env.pgdir)
    (h : Spawned s p np flags env child s') : SizesOk s' := by
  have hp : (s.procs p).Live := live_of_running hen.1
  have hsz : (s'.procs np).sz = (s.procs p).sz := by rw [h.child_eq, h.sz]
  have hother : ∀ q, q ≠ np → ((s'.procs q).Live ↔ (s.procs q).Live) ∧
      (s'.procs q).pgdir = (s.procs q).pgdir ∧ (s'.procs q).sz = (s.procs q).sz := by
    intro q hq
    obtain ⟨_, _, hproc⟩ := h.other_eq hq
    rw [hproc]
    exact ⟨Iff.rfl, rfl, rfl⟩
  rcases h.memory with ⟨-, hshare, hpgdirs⟩ | ⟨-, d, copy, hcopied, hd, hpgdirs⟩
  · have hnp : (s'.procs np).pgdir = (s.procs p).pgdir := by rw [h.child_eq, hshare]
    constructor
    · intro q d mem hq hqd hqmem
      rw [hpgdirs] at hqmem
      by_cases hqn : q = np
      · subst hqn
        rw [hsz]
        exact hi.fits p d mem hp (hnp ▸ hqd) hqmem
      · obtain ⟨hlive, hpg, hqsz⟩ := hother q hqn
        rw [hqsz]
        exact hi.fits q d mem (hlive.mp hq) (hpg ▸ hqd) hqmem
    · -- the child stands for its creator
      have hstands : ∀ q, (s'.procs q).Live → ∃ q', (s.procs q').Live ∧
          (s'.procs q).pgdir = (s.procs q').pgdir ∧ (s'.procs q).sz = (s.procs q').sz := by
        intro q hq
        by_cases hqn : q = np
        · subst hqn
          exact ⟨p, hp, hnp, hsz⟩
        · obtain ⟨hlive, hpg, hqsz⟩ := hother q hqn
          exact ⟨q, hlive.mp hq, hpg, hqsz⟩
      intro q r hq hr hqr
      obtain ⟨q', hq', hqpg, hqsz⟩ := hstands q hq
      obtain ⟨r', hr', hrpg, hrsz⟩ := hstands r hr
      rw [hqsz, hrsz]
      exact hi.agree q' r' hq' hr' (hqpg.symm.trans (hqr.trans hrpg))
  · obtain ⟨henv, d₀, mem₀, hd₀, hmem₀, hcopy⟩ := hcopied
    have hfresh : s.pgdirs d = none := hen.fresh (hc.trans henv)
    have hnp : (s'.procs np).pgdir = some d := by rw [h.child_eq, hd]
    have hne : ∀ q, q ≠ np → (s'.procs q).Live → (s'.procs q).pgdir ≠ some d := by
      intro q hqn hq
      obtain ⟨hlive, hpg, -⟩ := hother q hqn
      rw [hpg]
      exact hmem.ne_fresh (hlive.mp hq) hfresh
    constructor
    · intro q d' mem hq hqd hqmem
      by_cases hqn : q = np
      · subst hqn
        obtain rfl : d = d' := Option.some.inj (hnp.symm.trans hqd)
        rw [hpgdirs, update_self] at hqmem
        rw [hsz, ← Option.some.inj hqmem]
        exact copyuvm_fits (hi.fits p d₀ mem₀ hp hd₀ hmem₀).1 hcopy
      · have hdd : d' ≠ d := fun heq => hne q hqn hq (heq ▸ hqd)
        rw [hpgdirs, update_of_ne hdd] at hqmem
        obtain ⟨hlive, hpg, hqsz⟩ := hother q hqn
        rw [hqsz]
        exact hi.fits q d' mem (hlive.mp hq) (hpg ▸ hqd) hqmem
    · intro q r hq hr hqr
      by_cases hqn : q = np
      · by_cases hrn : r = np
        · rw [hqn, hrn]
        · rw [hqn, hnp] at hqr
          exact absurd hqr.symm (hne r hrn hr)
      · by_cases hrn : r = np
        · rw [hrn, hnp] at hqr
          exact absurd hqr (hne q hqn hq)
        · obtain ⟨hqlive, hqpg, hqsz⟩ := hother q hqn
          obtain ⟨hrlive, hrpg, hrsz⟩ := hother r hrn
          rw [hqpg, hrpg] at hqr
          rw [hqsz, hrsz]
          exact hi.agree q r (hqlive.mp hq) (hrlive.mp hr) hqr

theorem SizesOk.execed {env : ExecEnv} (hi : SizesOk s) (hmem : MemoryOk s)
    (hen : Enabled s p (.exec env)) (h : Execed s p env s') : SizesOk s' := by
  obtain ⟨d, old, mem, sz, hd, hload, hold, -, hpgdirs, hprocs⟩ := h.image
  have hfresh : s.pgdirs d = none := hen.fresh hd
  have hp : s'.procs p = { s.procs p with pgdir := some d, sz := sz } := by
    rw [hprocs, update_self]
  have hother : ∀ q, q ≠ p → s'.procs q = s.procs q := fun q hq => by
    rw [hprocs, update_of_ne hq]
  have hne : ∀ q, q ≠ p → (s'.procs q).Live → (s'.procs q).pgdir ≠ some d := by
    intro q hqp hq
    rw [hother q hqp] at hq ⊢
    exact hmem.ne_fresh hq hfresh
  have hdold : d ≠ old := by
    rintro rfl
    exact hmem.ne_fresh (live_of_running hen.1) hfresh hold
  constructor
  · intro q d' mem' hq hqd hqmem
    by_cases hqp : q = p
    · subst hqp
      rw [hp] at hqd ⊢
      obtain rfl : d = d' := Option.some.inj hqd
      rw [hpgdirs, update_of_ne hdold, update_self] at hqmem
      rw [← Option.some.inj hqmem]
      exact loadImage_fits hload
    · have hdd : d' ≠ d := fun heq => hne q hqp hq (heq ▸ hqd)
      have hgone : d' ≠ old := by
        rintro rfl
        rw [hpgdirs, update_self] at hqmem
        cases hqmem
      rw [hpgdirs, update_of_ne hgone, update_of_ne hdd] at hqmem
      rw [hother q hqp] at hq hqd ⊢
      exact hi.fits q d' mem' hq hqd hqmem
  · intro q r hq hr hqr
    by_cases hqp : q = p
    · by_cases hrp : r = p
      · rw [hqp, hrp]
      · rw [hqp, hp] at hqr
        exact absurd hqr.symm (hne r hrp hr)
    · by_cases hrp : r = p
      · rw [hrp, hp] at hqr
        exact absurd hqr (hne q hqp hq)
      · rw [hother q hqp] at hq hqr ⊢
        rw [hother r hrp] at hr hqr ⊢
        exact hi.agree q r hq hr hqr

theorem SizesOk.step {e : Event} (hi : SizesOk s) (hmem : MemoryOk s) (hgood : KeepsSizes s e)
    (hstep : Step s e s') : SizesOk s' := by
  have hreaped : ∀ {s₁ q z}, SameMemory s s₁ → Reaped s₁ q z s' → ∀ r, (s'.procs r).Live →
      (s.procs r).Live ∧ (s'.procs r).pgdir = (s.procs r).pgdir ∧
        (s'.procs r).sz = (s.procs r).sz := by
    intro s₁ q z hsame h r hr
    have hrz := h.ne_of_used_after hr.1
    rw [h.kept r hrz] at hr ⊢
    exact ⟨(hsame.tree.live r).mp hr, hsame.pgdir r, hsame.sz r⟩
  cases step_memory hstep with
  | same h => exact hi.same h
  | spawnFailed h =>
    obtain ⟨-, -, -, hpgdirs, -⟩ := h.rest_eq
    apply hi.restrict
    · intro q hq
      have hqn := h.ne_of_used_after hq.1
      rw [h.other_eq hqn] at hq ⊢
      exact ⟨hq, rfl, rfl⟩
    · intro d mem hd
      rwa [hpgdirs] at hd
  | spawned hen hc hown h => exact hi.spawned hmem hen hc h
  | exited hen h =>
    rename_i p st
    apply hi.restrict
    · intro q hq
      have hqp : q ≠ p := by
        rintro rfl
        rw [h.procs] at hq
        exact hq.2 h.zombie
      have hwoken := h.woken q hqp
      rw [h.procs] at hq ⊢
      exact ⟨⟨mt hwoken.unused_iff.mpr hq.1, mt hwoken.zombie_iff.mpr hq.2⟩, rfl, rfl⟩
    · intro d mem hd
      rwa [h.pgdirs] at hd
  | waited hc hscan hsame h hpgdir hfree =>
    rename_i q z c d s₁
    apply hi.restrict (hreaped hsame h)
    intro d' mem hd'
    rw [hfree] at hd'
    by_cases hd : d' = d
    · rw [hd, update_self] at hd'
      cases hd'
    · rwa [update_of_ne hd] at hd'
  | joined hc helig hsame h hpgdirs =>
    apply hi.restrict (hreaped hsame h)
    intro d mem hd
    rwa [hpgdirs] at hd
  | execed hen h => exact hi.execed hmem hen h
  | resized hen h => exact hi.resized (live_of_running hen.1) hgood.2 h

/-- With sizes that fit, `sbrk` never maps a page twice. -/
theorem SizesOk.sbrk_ne_remap (hi : SizesOk s) (hp : (s.procs p).Live) :
    syscall s p (.sbrk n budget) ≠ .error .remap := by
  intro hfault
  have hsbrk := returned_eq_error hfault
  rw [sysSbrk] at hsbrk
  split at hsbrk
  · rename_i hgrow
    cases hsbrk
    rw [growproc] at hgrow
    split at hgrow
    · rename_i f hspace
      obtain rfl : f = .remap := Except.error.inj hgrow
      rcases addrSpace_error hspace with h | h <;> cases h
    · rename_i d mem hspace
      obtain ⟨hd, hmem⟩ := addrSpace_ok hspace
      have hfits : Fits mem (s.procs p).sz := hi.fits p d mem hp hd hmem
      dsimp only at hgrow
      split_ifs at hgrow with hpos
      obtain ⟨res, hres⟩ := allocuvm_isOk budget (((s.procs p).sz + n.toNat) % 2 ^ 32) hfits
      rw [hres] at hgrow
      dsimp only at hgrow
      split_ifs at hgrow
  · cases hsbrk

/-- If no process resizes memory it shares, and no memory is freed that is in
use elsewhere, live processes with one page directory agree on its size, and no
`sbrk` maps a page twice. -/
theorem sizes_agree_of_keeps_sizes {s : Kernel} (h : ReachableBy Step KeepsSizes boot s) :
    (∀ q r, (s.procs q).Live → (s.procs r).Live → (s.procs q).pgdir = (s.procs r).pgdir →
      (s.procs q).sz = (s.procs r).sz) ∧
    ∀ p n budget, (s.procs p).Live → syscall s p (.sbrk n budget) ≠ .error .remap := by
  have hi : MemoryOk s ∧ SizesOk s := by
    refine h.invariant (P := fun s => MemoryOk s ∧ SizesOk s) ⟨memoryOk_boot, sizesOk_boot⟩ ?_
    intro s e s' _ hi hgood hstep
    exact ⟨hi.1.step hgood.1 hstep, hi.2.step hi.1 hgood hstep⟩
  exact ⟨hi.2.agree, fun p n budget hp => hi.2.sbrk_ne_remap hp⟩

/-- Init grows alone and then clones the thread `1` onto its memory. -/
theorem sizes_agree_of_keeps_sizes_grown :
    ∃ s, ReachableBy Step KeepsSizes boot s ∧
      ((s.procs 0).Live ∧ (s.procs 1).Live ∧ (s.procs 0).pgdir = (s.procs 1).pgdir ∧
        (s.procs 1).sz = 8192) ∧ (s.procs 0).sz = (s.procs 1).sz := by
  have hrun : ∃ s, ReachableBy Step KeepsSizes boot s ∧
      ((s.procs 0).Live ∧ (s.procs 1).Live ∧ (s.procs 0).pgdir = (s.procs 1).pgdir ∧
        (s.procs 1).sz = 8192) :=
    exists_reachableBy
      [.dispatch 0, .call 0 (.sbrk 4096 8), .call 0 (.clone 1 ⟨true, none, 8⟩), .dispatch 1]
      (by decide +kernel)
  obtain ⟨s, hreach, hend⟩ := hrun
  exact ⟨s, hreach, hend,
    (sizes_agree_of_keeps_sizes hreach).1 0 1 hend.1 hend.2.1 hend.2.2.1⟩

/-- Init clones the thread `1` onto its memory and then grows. The sizes differ,
and the thread's own `sbrk` panics. -/
theorem thread_keeps_stale_size :
    ∃ s, Reachable Step boot s ∧ (s.procs 0).Live ∧ (s.procs 1).Live ∧
      (s.procs 0).pgdir = (s.procs 1).pgdir ∧ (s.procs 0).sz ≠ (s.procs 1).sz ∧
      Enabled s 1 (.sbrk 4096 8) ∧ faultOf (syscall s 1 (.sbrk 4096 8)) = some .remap :=
  exists_reachableBy
    [.dispatch 0, .call 0 (.clone 1 ⟨true, none, 8⟩), .call 0 (.sbrk 4096 8), .dispatch 1]
    (by decide +kernel)

end Xv6Threads
