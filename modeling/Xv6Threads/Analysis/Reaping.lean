/-
# Who can free a zombie

`wait` frees processes, `join` frees threads, and each looks only at the
caller's children; `join` wants them in the caller's group as well. A zombie
that matches no caller stays forever. Three things make one: a `clone` that
puts parent and group out of line, the exit of a process before its threads
are joined, and an `exec` that frees another process's memory, which `wait`
would have to free again. Nothing else does.
-/

import Mathlib.Data.Finset.Card
import Xv6Threads.Analysis.Joining
import Xv6Threads.Analysis.Memory
import Xv6Threads.Analysis.Sharing

namespace Xv6Threads

open Lib
open Function (update update_of_ne update_self)

variable {s s' : Kernel} {q z p np : Slot} {flags : BitVec 32} {env : SpawnEnv} {child : Proc}

/-- Calling `wait` again and again, `q` is handed `pid` at some point. -/
inductive WaitsFor (q : Slot) (pid : ℤ) : Kernel → Prop
  | now {s s' : Kernel} (h : syscall s q .wait = .ok (s', some pid)) : WaitsFor q pid s
  | later {s s' : Kernel} {r : ℤ} (h : syscall s q .wait = .ok (s', some r)) (hr : r ≠ -1)
      (rest : WaitsFor q pid s') : WaitsFor q pid s

/-- The parent of `p` lives, and `wait` or `join` hands it `p`. -/
def Reapable (s : Kernel) (p : Slot) : Prop :=
  ∃ q, (s.procs p).parent = some q ∧ (s.procs q).Live ∧
    (WaitsFor q (s.procs p).pid s ∨
      ∃ s', syscall s q (.join (s.procs p).pid) = .ok (s', some (s.procs p).pid))

/-! ## Waiting for the right one -/

theorem waitIter_of_found (hmem : s.HasMemory z)
    (hscan : waitScan s.procs q false (List.finRange NPROC) = .found z) :
    ∃ s', waitIter s q = .ok (s', some (s.procs z).pid) := by
  obtain ⟨d, mem, hd, hmem⟩ := hmem
  rw [waitIter, hscan]
  dsimp only
  rw [reapWait, hd, freevm, hmem]
  exact ⟨_, rfl⟩

/-- The zombies `q` may wait for can all be freed, one after the other. -/
structure WaitReady (s : Kernel) (q : Slot) : Prop where
  memory : ∀ z, WaitEligible s.procs q z → s.HasMemory z
  apart : ∀ z z', WaitEligible s.procs q z → WaitEligible s.procs q z' → z ≠ z' →
    (s.procs z).pgdir ≠ (s.procs z').pgdir
  pos : ∀ z, WaitEligible s.procs q z → 0 < (s.procs z).pid

theorem WaitReady.reaped {d : PageAddr} (h : WaitReady s q) (hz : WaitEligible s.procs q z)
    (hreaped : Reaped s q z s') (hd : (s.procs z).pgdir = some d)
    (hfree : s'.pgdirs = update s.pgdirs d none) :
    WaitReady s' q := by
  have hold : ∀ r, WaitEligible s'.procs q r →
      r ≠ z ∧ s'.procs r = s.procs r ∧ WaitEligible s.procs q r := by
    intro r hr
    have hrz : r ≠ z := by
      rintro rfl
      have := hr.zombie
      rw [hreaped.unused] at this
      cases this
    have hkept := hreaped.kept r hrz
    exact ⟨hrz, hkept, ⟨hkept ▸ hr.parent, hkept ▸ hr.isThread, hkept ▸ hr.zombie⟩⟩
  refine ⟨?_, ?_, ?_⟩
  · intro r hr
    obtain ⟨hrz, hkept, hr⟩ := hold r hr
    obtain ⟨d', mem, hd', hmem⟩ := h.memory r hr
    have hne : d' ≠ d := by
      rintro rfl
      exact h.apart r z hr hz hrz (hd'.trans hd.symm)
    exact ⟨d', mem, hkept ▸ hd', by rw [hfree, update_of_ne hne, hmem]⟩
  · intro r r' hr hr' hne
    obtain ⟨-, hkept, hr⟩ := hold r hr
    obtain ⟨-, hkept', hr'⟩ := hold r' hr'
    rw [hkept, hkept']
    exact h.apart r r' hr hr' hne
  · intro r hr
    obtain ⟨-, hkept, hr⟩ := hold r hr
    rw [hkept]
    exact h.pos r hr

/-- The zombies in the table. -/
def Kernel.zombies (s : Kernel) : Finset Slot :=
  Finset.univ.filter fun z => (s.procs z).state = .zombie

theorem Reaped.zombies_card (h : Reaped s q z s') : s'.zombies.card < s.zombies.card := by
  apply Finset.card_lt_card
  refine ⟨?_, ?_⟩
  · intro r hr
    simp only [Kernel.zombies, Finset.mem_filter, Finset.mem_univ, true_and] at hr ⊢
    have hrz : r ≠ z := by
      rintro rfl
      rw [h.unused] at hr
      cases hr
    rwa [h.kept r hrz] at hr
  · intro hsub
    have hz : z ∈ s'.zombies := hsub (by simp [Kernel.zombies, h.zombie])
    simp [Kernel.zombies, h.unused] at hz

/-- `wait` frees one zombie a call, so the one we want comes up. -/
theorem WaitReady.waitsFor (h : WaitReady s q) (hp : WaitEligible s.procs q p) :
    WaitsFor q (s.procs p).pid s := by
  induction hn : s.zombies.card using Nat.strong_induction_on generalizing s with
  | _ n ih =>
    obtain ⟨z, hscan⟩ := waitScan_of_eligible hp (List.mem_finRange p) false
    have hz := waitScan_found hscan
    obtain ⟨s', hwait⟩ := waitIter_of_found (h.memory z hz) hscan
    by_cases hzp : z = p
    · subst hzp
      exact .now hwait
    · have hpos := h.pos z hz
      refine .later hwait (by omega) ?_
      rcases waitIter_ok hwait with
        ⟨z', d, hscan', hreaped, hd, -, hfree, -⟩ | ⟨-, hr⟩ | ⟨-, hr, -⟩
      · obtain rfl : z = z' := ScanResult.found.inj (hscan.symm.trans hscan')
        have hkept := hreaped.kept p (Ne.symm hzp)
        rw [← hkept]
        refine ih _ (hn ▸ hreaped.zombies_card) (h.reaped hz hreaped hd hfree) ?_ rfl
        exact ⟨hkept.symm ▸ hp.parent, hkept.symm ▸ hp.isThread, hkept.symm ▸ hp.zombie⟩
      · have := Option.some.inj hr
        omega
      · cases hr

/-! ## What keeps zombies reapable -/

/-- A process that has a page directory of its own to free. Init never exits,
so nobody ever frees its directory that way. -/
def Kernel.Owns (s : Kernel) (q : Slot) : Prop :=
  (s.procs q).state ≠ .unused ∧ (s.procs q).isThread = false ∧ q ≠ s.initproc

instance (s : Kernel) (q : Slot) : Decidable (s.Owns q) :=
  inferInstanceAs (Decidable (_ ∧ _ ∧ _))

/-- A clone leaves parent and group in line, a process that exits has no
threads left, and an `exec` frees no other process's directory. -/
def KeepsReapable (s : Kernel) : Event → Prop
  | .call p (.clone flags env) =>
    s.canClone p flags env = true →
      flagParent flags = false ∧ ((s.procs p).isThread = true → flagThread flags = true)
  | .call p .exit =>
    ∀ r, (s.procs r).state ≠ .unused → (s.procs r).isThread = true →
      (s.procs r).parent ≠ some p
  | .call p (.exec env) =>
    env.loads = true → ∀ r, r ≠ p → s.Owns r → (s.procs r).pgdir ≠ (s.procs p).pgdir
  | _ => True

instance (s : Kernel) (e : Event) : Decidable (KeepsReapable s e) := by
  refine e.casesOn (motive := fun e => Decidable (KeepsReapable s e)) (fun p c => ?_)
    (fun p => ?_) fun p => ?_
  · apply c.casesOn (motive := fun c => Decidable (KeepsReapable s (.call p c))) <;> intros <;>
      dsimp only [KeepsReapable] <;> infer_instance
  · dsimp only [KeepsReapable]
    infer_instance
  · dsimp only [KeepsReapable]
    infer_instance

/-! ### Parents and groups -/

/-- Everyone but init has a parent, and the parent of a thread leads its
group. -/
def KinOk (s : Kernel) : Prop :=
  ∀ q, (s.procs q).state ≠ .unused → q ≠ s.initproc → ∃ r, (s.procs q).parent = some r ∧
    ((s.procs q).isThread = true →
      (s.procs r).isThread = false ∧ (s.procs q).tgid = (s.procs r).tgid)

theorem kinOk_boot : KinOk boot := by
  intro q hused hq
  rw [boot_procs_of_ne hq] at hused
  exact absurd rfl hused

theorem KinOk.same (hi : KinOk s) (h : SameIds s s') : KinOk s' := by
  intro q hused hq
  rw [h.initproc] at hq
  obtain ⟨r, hr, hthread⟩ := hi q (mt (h.unused q).mpr hused) hq
  refine ⟨r, by rw [h.parent, hr], ?_⟩
  rw [h.isThread, h.isThread, h.tgid, h.tgid]
  exact hthread

/-- A new process whose own parent is in order. -/
theorem KinOk.spawned (hi : KinOk s) (htree : TreeOk s) (h : Spawned s p np flags env child s')
    {r₀ : Slot} (hparent : child.parent = some r₀) (hr₀ : (s.procs r₀).state ≠ .unused)
    (hchild : child.isThread = true →
      (s.procs r₀).isThread = false ∧ child.tgid = (s.procs r₀).tgid) : KinOk s' := by
  have hother : ∀ r, (s.procs r).state ≠ .unused →
      (s'.procs r).isThread = (s.procs r).isThread ∧ (s'.procs r).tgid = (s.procs r).tgid := by
    intro r hr
    have hrn := h.ne_of_used hr
    obtain ⟨_, _, hproc⟩ := h.other_eq hrn
    rw [hproc]
    exact ⟨rfl, rfl⟩
  intro q hused hq
  by_cases hqn : q = np
  · subst hqn
    rw [h.child_eq]
    refine ⟨r₀, hparent, ?_⟩
    rw [(hother r₀ hr₀).1, (hother r₀ hr₀).2]
    exact hchild
  · obtain ⟨_, _, hproc⟩ := h.other_eq hqn
    rw [hproc] at hused
    rw [h.initproc] at hq
    obtain ⟨r, hr, hthread⟩ := hi q hused hq
    have hrs := (htree.parent q r hr).1
    refine ⟨r, by rw [hproc, hr], ?_⟩
    rw [hproc, (hother r hrs.ne.1).1, (hother r hrs.ne.1).2]
    exact hthread

theorem KinOk.cloned (hi : KinOk s) (htree : TreeOk s) (hp : (s.procs p).state = .running)
    (h : Spawned s p np flags env child s') (hclone : CloneMade s p s.nextpid flags child s')
    (hflag : flagParent flags = false)
    (hgroup : (s.procs p).isThread = true → flagThread flags = true) : KinOk s' := by
  have hused : (s.procs p).state ≠ .unused := by simp [hp]
  have hparent := hclone.parent
  cases hthread : (s.procs p).isThread with
  | false =>
    rw [cloneParentOf, hthread, hflag] at hparent
    refine hi.spawned htree h (Except.ok.inj hparent).symm hused fun _ => ⟨hthread, ?_⟩
    have hleads := htree.leads p hused (by simp [hp]) hthread
    rw [hclone.tgid]
    split_ifs
    · rfl
    · exact hleads.symm
  | true =>
    -- a thread's threads belong where it belongs
    have hinit : p ≠ s.initproc := by
      rintro rfl
      rw [htree.init.2.2.2] at hthread
      cases hthread
    obtain ⟨r, hr, hkin⟩ := hi p hused hinit
    rw [cloneParentOf, hthread, hflag, hr] at hparent
    have hrs := (htree.parent p r hr).1
    refine hi.spawned htree h (Except.ok.inj hparent).symm hrs.ne.1 fun _ => ?_
    rw [hclone.tgid, hgroup hthread]
    exact hkin hthread

theorem KinOk.step {e : Event} (hi : KinOk s) (htree : TreeOk s) (hgood : KeepsReapable s e)
    (hstep : Step s e s') : KinOk s' := by
  cases step_tree hstep with
  | same h => exact hi.same h.toSameIds
  | spawnFailed h =>
    intro q hused hq
    have hqn := h.ne_of_used_after hused
    rw [h.rest_eq.2.1] at hq
    rw [h.other_eq hqn] at hused ⊢
    obtain ⟨r, hr, hthread⟩ := hi q hused hq
    have hrn := h.ne_of_used (htree.parent q r hr).1.ne.1
    exact ⟨r, hr, by rw [h.other_eq hrn]; exact hthread⟩
  | forked hen h hfork =>
    refine hi.spawned htree h hfork.parent (by simp [hen.1]) fun hthread => ?_
    rw [hfork.isThread] at hthread
    cases hthread
  | cloned hen h hclone =>
    obtain ⟨hflag, hgroup⟩ := hgood h.canClone
    exact hi.cloned htree hen.1 h hclone hflag hgroup
  | exited hen h =>
    rename_i p st
    intro q hused hq
    rw [h.initproc] at hq
    have hused : (s.procs q).state ≠ .unused := mt (h.unused_iff hen.1 q).mpr hused
    obtain ⟨r, hr, hthread⟩ := hi q hused hq
    by_cases hrp : r = p
    · -- an orphan is no thread, so init can wait for it
      refine ⟨s.initproc, by rw [h.procs]; simp [hr, hrp], ?_⟩
      intro hq'
      rw [h.procs] at hq'
      exact absurd (hrp ▸ hr) (hgood q hused hq')
    · refine ⟨r, by rw [h.procs]; simp [hr, hrp], ?_⟩
      rw [h.procs, h.procs]
      exact hthread
  | reaped hsame h =>
    rename_i a z s₁
    have htree₁ : ∀ q r, (s₁.procs q).parent = some r → (s₁.procs r).state.Scheduled := by
      intro q r hr
      rw [hsame.parent] at hr
      exact (hsame.scheduled r).mpr (htree.parent q r hr).1
    intro q hused hq
    have hqz := h.ne_of_used_after hused
    rw [h.initproc] at hq
    rw [h.kept q hqz] at hused ⊢
    obtain ⟨r, hr, hthread⟩ := hi.same hsame.toSameIds q hused hq
    have hrz : r ≠ z := by
      rintro rfl
      exact (htree₁ q r hr).ne.2.2 h.zombie
    exact ⟨r, hr, by rw [h.kept r hrz]; exact hthread⟩

/-! ### Directories -/

/-- Every process has its directory, and no two have the same. -/
structure OwnersOk (s : Kernel) : Prop where
  memory : ∀ q, s.Owns q → s.HasMemory q
  apart : ∀ q r, s.Owns q → s.Owns r → q ≠ r → (s.procs q).pgdir ≠ (s.procs r).pgdir

theorem ownersOk_boot : OwnersOk boot := by
  have hnone : ∀ q, ¬ boot.Owns q := by
    rintro q ⟨hused, -, hq⟩
    rw [boot_procs_of_ne hq] at hused
    exact hused rfl
  exact ⟨fun q hq => absurd hq (hnone q), fun q _ hq => absurd hq (hnone q)⟩

/-- Nobody new owns a directory, and those who do keep theirs. -/
theorem OwnersOk.of_le (hi : OwnersOk s)
    (howns : ∀ q, s'.Owns q → s.Owns q ∧ (s'.procs q).pgdir = (s.procs q).pgdir)
    (hpgdirs : ∀ q d mem, s'.Owns q → (s.procs q).pgdir = some d → s.pgdirs d = some mem →
      ∃ mem', s'.pgdirs d = some mem') : OwnersOk s' := by
  refine ⟨?_, ?_⟩
  · intro q hq
    obtain ⟨hq', hpgdir⟩ := howns q hq
    obtain ⟨d, mem, hd, hmem⟩ := hi.memory q hq'
    obtain ⟨mem', hmem'⟩ := hpgdirs q d mem hq hd hmem
    exact ⟨d, mem', hpgdir.trans hd, hmem'⟩
  · intro q r hq hr hne
    rw [(howns q hq).2, (howns r hr).2]
    exact hi.apart q r (howns q hq).1 (howns r hr).1 hne

theorem SameMemory.owns (h : SameMemory s s') (q : Slot) : s'.Owns q ↔ s.Owns q := by
  rw [Kernel.Owns, Kernel.Owns, Ne, h.tree.unused, h.tree.isThread, h.tree.initproc]

theorem OwnersOk.same (hi : OwnersOk s) (h : SameMemory s s') : OwnersOk s' := by
  apply hi.of_le
  · exact fun q hq => ⟨(h.owns q).mp hq, h.pgdir q⟩
  · intro q d mem _ _ hmem
    exact ⟨mem, by rw [h.pgdirs, hmem]⟩

/-- A slot other than the new one owns what it owned before. -/
theorem Spawned.owns (h : Spawned s p np flags env child s') (hq : q ≠ np) (howns : s'.Owns q) :
    s.Owns q ∧ (s'.procs q).pgdir = (s.procs q).pgdir := by
  obtain ⟨_, _, hproc⟩ := h.other_eq hq
  rw [Kernel.Owns, hproc, h.initproc] at howns
  exact ⟨howns, by rw [hproc]⟩

theorem OwnersOk.spawned {c : Call} (hi : OwnersOk s) (hen : Enabled s p c)
    (hc : c.newPgdir = env.pgdir) (hown : child.isThread = false → flagVm flags = false)
    (h : Spawned s p np flags env child s') : OwnersOk s' := by
  -- a child that owns its directory got a fresh one
  have hfresh : s'.Owns np → ∃ d copy, child.pgdir = some d ∧ s.pgdirs d = none ∧
      s'.pgdirs d = some copy := by
    intro hnp
    rw [Kernel.Owns, h.child_eq] at hnp
    rcases h.memory with ⟨hshare, -⟩ | ⟨-, d, copy, hcopied, hd, hnew⟩
    · rw [hown hnp.2.1] at hshare
      cases hshare
    · refine ⟨d, copy, hd, hen.fresh (hc.trans hcopied.1), ?_⟩
      rw [hnew, update_self]
  have hne : ∀ q, q ≠ np → s'.Owns q → s'.Owns np → (s'.procs q).pgdir ≠ (s'.procs np).pgdir := by
    intro q hqn hq hnp heq
    obtain ⟨hq', hpgdir⟩ := h.owns hqn hq
    obtain ⟨d, copy, hd, hnone, -⟩ := hfresh hnp
    obtain ⟨d', mem, hd', hmem⟩ := hi.memory q hq'
    rw [hpgdir, hd', h.child_eq, hd] at heq
    cases heq
    rw [hnone] at hmem
    cases hmem
  refine ⟨?_, ?_⟩
  · intro q hq
    by_cases hqn : q = np
    · subst hqn
      obtain ⟨d, copy, hd, -, hcopy⟩ := hfresh hq
      exact ⟨d, copy, by rw [h.child_eq, hd], hcopy⟩
    · obtain ⟨hq', hpgdir⟩ := h.owns hqn hq
      obtain ⟨d, mem, hd, hmem⟩ := hi.memory q hq'
      obtain ⟨mem', hmem'⟩ := h.pgdirs_grow hmem
      exact ⟨d, mem', hpgdir.trans hd, hmem'⟩
  · intro q r hq hr hqr
    by_cases hqn : q = np
    · subst hqn
      exact (hne r (Ne.symm hqr) hr hq).symm
    · by_cases hrn : r = np
      · subst hrn
        exact hne q hqn hq hr
      · obtain ⟨hq', hpq⟩ := h.owns hqn hq
        obtain ⟨hr', hpr⟩ := h.owns hrn hr
        rw [hpq, hpr]
        exact hi.apart q r hq' hr' hqr

theorem OwnersOk.execed {env : ExecEnv} (hi : OwnersOk s) (hen : Enabled s p (.exec env))
    (hgood : KeepsReapable s (.call p (.exec env))) (h : Execed s p env s') : OwnersOk s' := by
  obtain ⟨d, old, mem, sz, hd, hload, hold, -, hpgdirs, hprocs⟩ := h.image
  have hspared := hgood (by simp [ExecEnv.loads, h.elf, hd, hload])
  have hnew : s.pgdirs d = none := hen.fresh hd
  have hother : ∀ q, q ≠ p → s'.Owns q → s.Owns q ∧ (s'.procs q).pgdir = (s.procs q).pgdir := by
    intro q hq howns
    rw [Kernel.Owns, hprocs, update_of_ne hq, h.initproc] at howns
    exact ⟨howns, by rw [hprocs, update_of_ne hq]⟩
  -- what somebody else owns is neither the old nor the new directory
  have hkept : ∀ q, q ≠ p → s.Owns q → ∃ d' mem', (s.procs q).pgdir = some d' ∧ d' ≠ d ∧
      s'.pgdirs d' = some mem' := by
    intro q hq howns
    obtain ⟨d', mem', hd', hmem'⟩ := hi.memory q howns
    have hne : d' ≠ d := by
      rintro rfl
      rw [hnew] at hmem'
      cases hmem'
    have hne' : d' ≠ old := by
      rintro rfl
      exact hspared q hq howns (hd'.trans hold.symm)
    exact ⟨d', mem', hd', hne, by
      rw [hpgdirs, update_of_ne hne', update_of_ne hne, hmem']⟩
  have hself : (s'.procs p).pgdir = some d := by rw [hprocs, update_self]
  refine ⟨?_, ?_⟩
  · intro q hq
    by_cases hqp : q = p
    · subst hqp
      have howns : s.Owns q := by
        rw [Kernel.Owns, hprocs, update_self, h.initproc] at hq
        exact hq
      obtain ⟨old', mem', hold', hmem'⟩ := hi.memory q howns
      have hne : d ≠ old := by
        rintro rfl
        obtain rfl := Option.some.inj (hold'.symm.trans hold)
        rw [hnew] at hmem'
        cases hmem'
      exact ⟨d, mem, hself, by
        rw [hpgdirs, update_of_ne hne, update_self]⟩
    · obtain ⟨howns, hpgdir⟩ := hother q hqp hq
      obtain ⟨d', mem', hd', -, hmem'⟩ := hkept q hqp howns
      exact ⟨d', mem', hpgdir.trans hd', hmem'⟩
  · intro q r hq hr hqr
    have hne : ∀ q, q ≠ p → s'.Owns q → (s'.procs q).pgdir ≠ (s'.procs p).pgdir := by
      intro q hqp hq heq
      obtain ⟨howns, hpgdir⟩ := hother q hqp hq
      obtain ⟨d', -, hd', hd'd, -⟩ := hkept q hqp howns
      rw [hpgdir, hd', hself] at heq
      exact hd'd (Option.some.inj heq)
    by_cases hqp : q = p
    · subst hqp
      exact (hne r (Ne.symm hqr) hr).symm
    · by_cases hrp : r = p
      · subst hrp
        exact hne q hqp hq
      · obtain ⟨hq', hpq⟩ := hother q hqp hq
        obtain ⟨hr', hpr⟩ := hother r hrp hr
        rw [hpq, hpr]
        exact hi.apart q r hq' hr' hqr

/-- A slot that is not the freed one owns what it owned before. -/
theorem Reaped.owns {s₁ : Kernel} {a : Slot} (hsame : SameMemory s s₁) (h : Reaped s₁ a z s')
    (hq : s'.Owns q) :
    q ≠ z ∧ s.Owns q ∧ (s'.procs q).pgdir = (s.procs q).pgdir := by
  have hqz := h.ne_of_used_after hq.1
  rw [Kernel.Owns, h.kept q hqz, h.initproc] at hq
  exact ⟨hqz, (hsame.owns q).mp hq, by rw [h.kept q hqz, hsame.pgdir]⟩

theorem OwnersOk.step {e : Event} (hi : OwnersOk s) (htree : TreeOk s) (hgood : KeepsReapable s e)
    (hstep : Step s e s') : OwnersOk s' := by
  cases step_memory hstep with
  | same h => exact hi.same h
  | spawnFailed h =>
    apply hi.of_le
    · intro q hq
      have hqn := h.ne_of_used_after hq.1
      rw [Kernel.Owns, h.other_eq hqn, h.rest_eq.2.1] at hq
      exact ⟨hq, by rw [h.other_eq hqn]⟩
    · intro q d mem _ _ hmem
      exact ⟨mem, by rw [h.rest_eq.2.2.2.1, hmem]⟩
  | spawned hen hc hown h => exact hi.spawned hen hc hown h
  | exited hen h =>
    apply hi.of_le
    · intro q hq
      rw [Kernel.Owns, Ne, h.unused_iff hen.1, h.initproc] at hq
      rw [h.procs] at hq ⊢
      exact ⟨hq, rfl⟩
    · intro q d mem _ _ hmem
      exact ⟨mem, by rw [h.pgdirs, hmem]⟩
  | waited hc hscan hsame h hpgdir hfree =>
    rename_i a z c d s₁
    have helig := waitScan_found hscan
    have hz : s.Owns z := by
      refine ⟨by simp [helig.zombie], helig.isThread, ?_⟩
      rintro rfl
      exact htree.init.1.ne.2.2 helig.zombie
    apply hi.of_le
    · exact fun q hq => (h.owns hsame hq).2
    · intro q d' mem hq hd' hmem
      obtain ⟨hqz, hq, -⟩ := h.owns hsame hq
      have hne : d' ≠ d := by
        rintro rfl
        exact hi.apart q z hq hz hqz (hd'.trans hpgdir.symm)
      exact ⟨mem, by rw [hfree, update_of_ne hne, hmem]⟩
  | joined hc helig hsame h hpgdirs =>
    apply hi.of_le
    · exact fun q hq => (h.owns hsame hq).2
    · intro q d mem _ _ hmem
      exact ⟨mem, by rw [hpgdirs, hmem]⟩
  | execed hen h => exact hi.execed hen hgood h
  | resized hen h =>
    rename_i p n budget d mem₀ mem₁ sz'
    apply hi.of_le
    · intro q hq
      obtain ⟨sz, hproc⟩ := h.procs_eq q
      rw [Kernel.Owns, hproc, h.sameTree.initproc] at hq
      exact ⟨hq, by rw [hproc]⟩
    · intro q d' mem _ _ hmem
      rw [h.pgdirs_eq]
      by_cases hd : d' = d
      · exact ⟨mem₁, by rw [hd, update_self]⟩
      · exact ⟨mem, by rw [update_of_ne hd, hmem]⟩

/-! ### Every zombie -/

theorem OwnersOk.waitReady (hi : OwnersOk s) (htree : TreeOk s) (hpids : PidsOk s) (q : Slot) :
    WaitReady s q := by
  have howns : ∀ z, WaitEligible s.procs q z → s.Owns z := by
    intro z hz
    refine ⟨by simp [hz.zombie], hz.isThread, ?_⟩
    rintro rfl
    exact htree.init.1.ne.2.2 hz.zombie
  refine ⟨?_, ?_, ?_⟩
  · exact fun z hz => hi.memory z (howns z hz)
  · exact fun z z' hz hz' => hi.apart z z' (howns z hz) (howns z' hz')
  · exact fun z hz => hpids.pos z (howns z hz).1

/-- If parents and groups stay in line, threads are joined before their leader
exits, and `exec` frees nobody else's memory, every zombie can be reaped. -/
theorem zombies_reapable_of_keeps {s : Kernel} (h : ReachableBy Step KeepsReapable boot s) :
    ∀ p, (s.procs p).state = .zombie → p ≠ s.initproc → Reapable s p := by
  have hi : KinOk s ∧ OwnersOk s := by
    refine h.invariant (P := fun s => KinOk s ∧ OwnersOk s) ⟨kinOk_boot, ownersOk_boot⟩ ?_
    rintro s e s' hreach ⟨hkin, howners⟩ hgood hstep
    have htree := treeOk_of_reachable hreach.reachable
    exact ⟨hkin.step htree hgood hstep, howners.step htree hgood hstep⟩
  have htree := treeOk_of_reachable h.reachable
  have hpids := pidsOk_of_reachable h.reachable
  intro p hp hinit
  have hused : (s.procs p).state ≠ .unused := by simp [hp]
  obtain ⟨q, hq, hkin⟩ := hi.1 p hused hinit
  have hqs := (htree.parent p q hq).1
  refine ⟨q, hq, ⟨hqs.ne.1, hqs.ne.2.2⟩, ?_⟩
  cases hthread : (s.procs p).isThread with
  | false => exact .inl ((hi.2.waitReady htree hpids q).waitsFor ⟨hq, hthread, hp⟩)
  | true =>
    have helig : JoinEligible s.procs q p (s.procs p).pid := ⟨rfl, hq, hthread, (hkin hthread).2⟩
    have hjoin := joinIter_of_zombie helig (fun r => hpids.unique hused) hp
    exact .inr ⟨(joinIter s q (s.procs p).pid).1, by rw [syscall, ← hjoin]⟩

/-- A process has exited, and so has a thread of another one. -/
theorem zombies_reapable_of_keeps_three :
    ∃ s, ReachableBy Step KeepsReapable boot s ∧
      ((s.procs 1).state = .zombie ∧ (s.procs 2).Live ∧ (s.procs 3).state = .zombie ∧
        (s.procs 3).isThread = true ∧ s.initproc = 0) ∧ Reapable s 1 ∧ Reapable s 3 := by
  have hrun : ∃ s, ReachableBy Step KeepsReapable boot s ∧
      ((s.procs 1).state = .zombie ∧ (s.procs 2).Live ∧ (s.procs 3).state = .zombie ∧
        (s.procs 3).isThread = true ∧ s.initproc = 0) :=
    exists_reachableBy
      [.dispatch 0, .call 0 (.fork ⟨true, some 1, 8⟩), .call 0 (.fork ⟨true, some 2, 8⟩),
        .dispatch 1, .dispatch 2, .call 2 (.clone 1 ⟨true, none, 8⟩), .dispatch 3,
        .call 3 .exit, .call 1 .exit] (by decide +kernel)
  obtain ⟨s, hreach, hend⟩ := hrun
  have hall := zombies_reapable_of_keeps hreach
  refine ⟨s, hreach, hend, hall 1 hend.1 ?_, hall 3 hend.2.2.1 ?_⟩
  · simp [hend.2.2.2.2]
  · simp [hend.2.2.2.2]

/-- The process `1` clones the thread `2`; both exit, and init waits for the
process. The thread is init's now, but init's `wait` passes it over and init's
`join` refuses it. -/
theorem zombie_thread_stays :
    ∃ s, Reachable Step boot s ∧ (s.procs 2).state = .zombie ∧ 2 ≠ s.initproc ∧
      ¬ Reapable s 2 := by
  have hrun : ∃ s, Reachable Step boot s ∧ ((s.procs 2).state = .zombie ∧ 2 ≠ s.initproc ∧
      (s.procs 2).parent = some 0 ∧ (s.procs 2).pid = 3 ∧
      (joinIter s 0 3).2 = some (-1) ∧
      ((syscall s 0 .wait).toOption.any fun x => decide (x.2 = some (-1) ∧ True)) = true) :=
    exists_reachableBy
      [.dispatch 0, .call 0 (.fork ⟨true, some 1, 8⟩), .dispatch 1,
        .call 1 (.clone 0 ⟨true, some 2, 8⟩), .dispatch 2, .call 2 .exit, .call 1 .exit,
        .call 0 .wait] (by decide +kernel)
  obtain ⟨s, hreach, hzombie, hinit, hparent, hpid, hjoin, hwait⟩ := hrun
  obtain ⟨s', hwait, -⟩ := ok_of_result (P := fun _ => True) hwait
  refine ⟨s, hreach, hzombie, hinit, ?_⟩
  rintro ⟨q, hq, -, hreap⟩
  obtain rfl : 0 = q := Option.some.inj (hparent.symm.trans hq)
  rw [hpid] at hreap
  rcases hreap with hwaits | ⟨s₂, hjoined⟩
  · cases hwaits with
    | now h => cases h.symm.trans hwait
    | later h hr _ =>
      rw [hwait] at h
      exact hr (Option.some.inj (Prod.mk.inj (Except.ok.inj h)).2).symm
  · have := congrArg Prod.snd (Except.ok.inj hjoined)
    rw [hjoin] at this
    cases this

end Xv6Threads
