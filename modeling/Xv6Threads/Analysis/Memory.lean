/-
# Page directories and the processes that use them

`clone` with `CLONE_VM` hands out a page directory without counting its users,
and `wait` and `exec` free one without asking who else uses it. This module
shows that this can leave a running thread without memory, and that nothing
else can: as long as what is freed is not in use elsewhere, every process that
runs has its directory, and all users of a directory agree on its size.
-/

import Xv6Threads.Analysis.Identity
import Xv6Threads.Kernel.Faults

namespace Xv6Threads

open Lib
open Function (update update_of_ne update_self)

variable {s s' : Kernel} {p : Slot} {c : Call} {d : PageAddr} {mem : AddrSpace}

/-- Two states in which every process has the same memory. -/
structure SameMemory (s s' : Kernel) : Prop where
  pgdir : ∀ q, (s'.procs q).pgdir = (s.procs q).pgdir
  sz : ∀ q, (s'.procs q).sz = (s.procs q).sz
  pgdirs : s'.pgdirs = s.pgdirs
  tree : SameTree s s'

theorem IsTouch.sameMemory (h : IsTouch s p s') : SameMemory s s' := by
  obtain ⟨st, ch, k, ht⟩ := id h
  refine ⟨?_, ?_, ht.pgdirs, h.sameTree⟩
  all_goals
    intro q
    rw [ht.procs]

theorem FileShape.sameMemory (h : FileShape s s') : SameMemory s s' := by
  have htree := h.sameTree
  obtain ⟨tables, ft, ic, rfl⟩ := h
  exact ⟨fun _ => rfl, fun _ => rfl, rfl, htree⟩

theorem Moved.sameMemory {w : Walk} (h : Moved s p w s') : SameMemory s s' := by
  obtain ⟨ic, ip, old, cwds, -, -, -, -, hprocs⟩ := h.moved
  refine ⟨?_, ?_, h.pgdirs, h.sameTree⟩
  all_goals
    intro q
    rw [hprocs]

/-- The steps that change who has which memory. -/
inductive MemoryChange (s : Kernel) : Event → Kernel → Prop
  | same {e : Event} {s' : Kernel} (h : SameMemory s s') : MemoryChange s e s'
  | spawnFailed {e : Event} {np : Slot} {s' : Kernel} (h : SpawnFailed s np s') :
      MemoryChange s e s'
  | spawned {p np : Slot} {c : Call} {flags : BitVec 32} {env : SpawnEnv} {child : Proc}
      {s' : Kernel} (hen : Enabled s p c) (hc : c.newPgdir = env.pgdir)
      (hown : child.isThread = false → flagVm flags = false)
      (h : Spawned s p np flags env child s') : MemoryChange s (.call p c) s'
  | exited {p : Slot} {st : Slot → ProcState} {s' : Kernel} (hen : Enabled s p .exit)
      (h : Exited s p st s') : MemoryChange s (.call p .exit) s'
  | waited {q z : Slot} {c : Call} {d : PageAddr} {s₁ s' : Kernel}
      (hc : c = .wait ∨ c = .resume ∧ s.ctl q = .waiting)
      (hscan : waitScan s.procs q false (List.finRange NPROC) = .found z)
      (hsame : SameMemory s s₁) (h : Reaped s₁ q z s')
      (hpgdir : (s.procs z).pgdir = some d)
      (hfree : s'.pgdirs = Function.update s.pgdirs d none) : MemoryChange s (.call q c) s'
  | joined {q z : Slot} {pid : ℤ} {c : Call} {s₁ s' : Kernel}
      (hc : c = .join pid ∨ c = .resume ∧ s.ctl q = .joining pid)
      (helig : JoinEligible s.procs q z pid) (hsame : SameMemory s s₁)
      (h : Reaped s₁ q z s') (hpgdirs : s'.pgdirs = s.pgdirs) : MemoryChange s (.call q c) s'
  | execed {p : Slot} {env : ExecEnv} {s' : Kernel} (hen : Enabled s p (.exec env))
      (h : Execed s p env s') : MemoryChange s (.call p (.exec env)) s'
  | resized {p : Slot} {n : BitVec 32} {budget : ℕ} {d : PageAddr} {mem mem' : AddrSpace}
      {sz' : ℕ} {s' : Kernel} (hen : Enabled s p (.sbrk n budget))
      (h : Resized s p n budget d mem mem' sz' s') : MemoryChange s (.call p (.sbrk n budget)) s'

theorem step_memory {e : Event} (h : Step s e s') : MemoryChange s e s' := by
  cases step_effect h with
  | touched h _ | slept hq h _ | moved hen h => exact .same h.sameMemory
  | spawnFailed hcut h => exact .spawnFailed h
  | forked hen h hfork => exact .spawned hen rfl (fun _ => rfl) h
  | cloned hen h hclone => exact .spawned hen rfl (by simp [hclone.isThread]) h
  | exited hen h => exact .exited hen h
  | waited hq hc htouch hstate hscan h hpgdir hfree =>
    exact .waited hc hscan htouch.sameMemory h hpgdir hfree
  | joined hq hc htouch hstate helig h hpgdirs hret =>
    exact .joined hc helig htouch.sameMemory h hpgdirs
  | filed hen hc hrun => exact .same (fileShape_of_isFile hc hrun).sameMemory
  | walked hen h => exact .same (fileShape_of_tables s s.ftable _).sameMemory
  | execed hen h => exact .execed hen h
  | resized hen h => exact .resized hen h

theorem Enabled.fresh (hen : Enabled s p c) (hd : c.newPgdir = some d) : s.pgdirs d = none := by
  have h := hen.2.2.2
  rw [hd] at h
  simpa using h

/-! ## Directories in use exist -/

/-- A process that runs, or that `wait` can still free. -/
def Proc.NeedsMemory (p : Proc) : Prop := p.Live ∨ p.state = .zombie ∧ p.isThread = false

/-- No other process that needs memory uses the directory of `z`. -/
def Kernel.Unshared (s : Kernel) (z : Slot) : Prop :=
  ∀ r, r ≠ z → (s.procs r).NeedsMemory → (s.procs r).pgdir ≠ (s.procs z).pgdir

/-- The image loads, so that `exec` gets to the point where it frees the old
one. -/
def ExecEnv.loads (env : ExecEnv) : Bool :=
  env.elf && env.pgdir.isSome &&
    match loadImage env with
    | .ok (some _) => true
    | _ => false

/-- A step that frees a page directory frees one nobody else uses. -/
def FreesUnshared (s : Kernel) : Event → Prop
  | .call q .wait =>
    ∀ z, waitScan s.procs q false (List.finRange NPROC) = .found z → s.Unshared z
  | .call q .resume =>
    s.ctl q = .waiting →
      ∀ z, waitScan s.procs q false (List.finRange NPROC) = .found z → s.Unshared z
  | .call p (.exec env) => env.loads = true → s.Unshared p
  | _ => True

instance (p : Proc) : Decidable p.NeedsMemory := inferInstanceAs (Decidable (_ ∨ _))

instance (s : Kernel) (z : Slot) : Decidable (s.Unshared z) :=
  inferInstanceAs (Decidable (∀ r, r ≠ z → (s.procs r).NeedsMemory → _))

instance (s : Kernel) (e : Event) : Decidable (FreesUnshared s e) := by
  unfold FreesUnshared
  split <;> infer_instance

/-- Every process that needs memory has it. -/
def MemoryOk (s : Kernel) : Prop := ∀ q, (s.procs q).NeedsMemory → s.HasMemory q

theorem memoryOk_boot : MemoryOk boot := by
  intro q hq
  by_cases h0 : q = 0
  · subst h0
    exact ⟨0, _, rfl, rfl⟩
  · rw [boot_procs_of_ne h0] at hq
    rcases hq with ⟨hlive, -⟩ | ⟨hzombie, -⟩
    · exact absurd rfl hlive
    · cases hzombie

theorem SameMemory.needsMemory (h : SameMemory s s') (q : Slot) :
    (s'.procs q).NeedsMemory ↔ (s.procs q).NeedsMemory := by
  rw [Proc.NeedsMemory, Proc.NeedsMemory, h.tree.live, h.tree.zombie, h.tree.isThread]

theorem MemoryOk.same (hi : MemoryOk s) (h : SameMemory s s') : MemoryOk s' := by
  intro q hq
  rw [Kernel.HasMemory, h.pgdir, h.pgdirs]
  exact hi q ((h.needsMemory q).mp hq)

/-- A process whose slot was just freed needs nothing. -/
theorem not_needsMemory_of_unused {p : Proc} (h : p.state = .unused) : ¬ p.NeedsMemory := by
  rintro (⟨hlive, -⟩ | ⟨hzombie, -⟩)
  · exact hlive h
  · rw [h] at hzombie
    cases hzombie

theorem Woken.needsMemory {p : Proc} {st : ProcState} {p' : Proc} (h : Woken p.state st)
    (hstate : p'.state = st) (hthread : p'.isThread = p.isThread) :
    p'.NeedsMemory ↔ p.NeedsMemory := by
  simp only [Proc.NeedsMemory, Proc.Live, ne_eq, hstate, hthread, h.unused_iff, h.zombie_iff]

/-- `fork` and `clone` free no directory. -/
theorem Spawned.pgdirs_grow {np : Slot} {flags : BitVec 32} {env : SpawnEnv} {child : Proc}
    (h : Spawned s p np flags env child s') (hmem : s.pgdirs d = some mem) :
    ∃ mem', s'.pgdirs d = some mem' := by
  rcases h.memory with ⟨-, -, hsame⟩ | ⟨-, d', copy, -, -, hnew⟩
  · exact ⟨mem, by rw [hsame, hmem]⟩
  · by_cases hd : d = d'
    · exact ⟨copy, by rw [hnew, hd, update_self]⟩
    · exact ⟨mem, by rw [hnew, update_of_ne hd, hmem]⟩

theorem MemoryOk.spawned {np : Slot} {flags : BitVec 32} {env : SpawnEnv} {child : Proc}
    (hi : MemoryOk s) (hen : Enabled s p c) (h : Spawned s p np flags env child s') :
    MemoryOk s' := by
  have hp : s.HasMemory p := hi p (.inl (live_of_running hen.1))
  intro q hq
  by_cases hqn : q = np
  · subst hqn
    rw [Kernel.HasMemory, h.child_eq]
    rcases h.memory with ⟨-, hshare, -⟩ | ⟨-, d, copy, -, hd, hnew⟩
    · obtain ⟨d, mem, hd, hmem⟩ := hp
      obtain ⟨mem', hmem'⟩ := h.pgdirs_grow hmem
      exact ⟨d, mem', hshare.trans hd, hmem'⟩
    · exact ⟨d, copy, hd, by rw [hnew, update_self]⟩
  · obtain ⟨_, _, hother⟩ := h.other_eq hqn
    rw [hother] at hq
    obtain ⟨d, mem, hd, hmem⟩ := hi q hq
    obtain ⟨mem', hmem'⟩ := h.pgdirs_grow hmem
    exact ⟨d, mem', by rw [hother]; exact hd, hmem'⟩

theorem MemoryOk.execed {env : ExecEnv} (hi : MemoryOk s) (hen : Enabled s p (.exec env))
    (hgood : env.loads = true → s.Unshared p) (h : Execed s p env s') : MemoryOk s' := by
  obtain ⟨d, old, mem, sz, hd, hload, hold, -, hpgdirs, hprocs⟩ := h.image
  have hunshared := hgood (by simp [ExecEnv.loads, h.elf, hd, hload])
  have hfresh : s.pgdirs d = none := hen.fresh hd
  have hne : ∀ q d' mem', (s.procs q).pgdir = some d' → s.pgdirs d' = some mem' → d' ≠ d := by
    rintro q d' mem' - hmem' rfl
    rw [hfresh] at hmem'
    cases hmem'
  obtain ⟨old', oldmem, hold', holdmem⟩ := hi p (.inl (live_of_running hen.1))
  obtain rfl : old' = old := Option.some.inj (hold'.symm.trans hold)
  have hdold : old' ≠ d := hne p old' oldmem hold holdmem
  intro q hq
  rw [Kernel.HasMemory, hpgdirs, hprocs]
  by_cases hqp : q = p
  · subst hqp
    rw [update_self]
    exact ⟨d, mem, rfl, by rw [update_of_ne hdold.symm, update_self]⟩
  · rw [hprocs, update_of_ne hqp] at hq
    rw [update_of_ne hqp]
    obtain ⟨d', mem', hd', hmem'⟩ := hi q hq
    have hd'old : d' ≠ old' := by
      rintro rfl
      exact hunshared q hqp hq (hd'.trans hold.symm)
    refine ⟨d', mem', hd', ?_⟩
    rw [update_of_ne hd'old, update_of_ne (hne q d' mem' hd' hmem'), hmem']

theorem Resized.procs_eq {n : BitVec 32} {budget : ℕ} {mem' : AddrSpace} {sz' : ℕ}
    (h : Resized s p n budget d mem mem' sz' s') (q : Slot) :
    ∃ sz, s'.procs q = { s.procs q with sz := sz } := by
  rw [h.shape, Kernel.setProc_procs]
  split_ifs with hqp
  · exact ⟨sz', by rw [hqp]⟩
  · exact ⟨(s.procs q).sz, rfl⟩

theorem Resized.pgdirs_eq {n : BitVec 32} {budget : ℕ} {mem' : AddrSpace} {sz' : ℕ}
    (h : Resized s p n budget d mem mem' sz' s') :
    s'.pgdirs = update s.pgdirs d (some mem') := by
  rw [h.shape]
  rfl

theorem MemoryOk.step {e : Event} (hi : MemoryOk s) (hgood : FreesUnshared s e)
    (hstep : Step s e s') : MemoryOk s' := by
  cases step_memory hstep with
  | same h => exact hi.same h
  | spawnFailed h =>
    rename_i np
    obtain ⟨-, -, -, hpgdirs, -⟩ := h.rest_eq
    intro q hq
    by_cases hqn : q = np
    · subst hqn
      exact absurd hq (not_needsMemory_of_unused h.self_eq.2.1)
    · rw [h.other_eq hqn] at hq
      rw [Kernel.HasMemory, h.other_eq hqn, hpgdirs]
      exact hi q hq
  | spawned hen hc hown h => exact hi.spawned hen h
  | exited hen h =>
    rename_i p st
    intro q hq
    have hold : (s.procs q).NeedsMemory := by
      by_cases hqp : q = p
      · rw [hqp]
        exact .inl (live_of_running hen.1)
      · exact ((h.woken q hqp).needsMemory (by rw [h.procs]) (by rw [h.procs])).mp hq
    rw [Kernel.HasMemory, h.procs, h.pgdirs]
    exact hi q hold
  | waited hc hscan hsame h hpgdir hfree =>
    rename_i q z c d s₁
    have hunshared : s.Unshared z := by
      rcases hc with rfl | ⟨rfl, hctl⟩
      · exact hgood z hscan
      · exact hgood hctl z hscan
    intro r hr
    by_cases hrz : r = z
    · subst hrz
      exact absurd hr (not_needsMemory_of_unused h.unused)
    · rw [h.kept r hrz, hsame.needsMemory] at hr
      obtain ⟨d', mem, hd', hmem⟩ := hi r hr
      refine ⟨d', mem, ?_, ?_⟩
      · rw [h.kept r hrz, hsame.pgdir, hd']
      · have hne : d' ≠ d := by
          rintro rfl
          exact hunshared r hrz hr (hd'.trans hpgdir.symm)
        rw [hfree, update_of_ne hne, hmem]
  | joined hc helig hsame h hpgdirs =>
    rename_i q z pid c s₁
    intro r hr
    by_cases hrz : r = z
    · subst hrz
      exact absurd hr (not_needsMemory_of_unused h.unused)
    · rw [h.kept r hrz, hsame.needsMemory] at hr
      rw [Kernel.HasMemory, h.kept r hrz, hsame.pgdir, hpgdirs]
      exact hi r hr
  | execed hen h => exact hi.execed hen hgood h
  | resized hen h =>
    rename_i p n budget d mem mem' sz'
    intro q hq
    obtain ⟨sz, hproc⟩ := h.procs_eq q
    rw [hproc] at hq
    obtain ⟨d', mem₀, hd', hmem₀⟩ := hi q hq
    rw [Kernel.HasMemory, hproc, h.pgdirs_eq]
    by_cases hd : d' = d
    · exact ⟨d', mem', hd', by rw [hd, update_self]⟩
    · exact ⟨d', mem₀, hd', by rw [update_of_ne hd, hmem₀]⟩

theorem MemoryOk.waitIter_ne_error {q : Slot} {f : Fault} (hi : MemoryOk s) :
    waitIter s q ≠ .error f := by
  intro h
  obtain ⟨-, z, hscan, hgone⟩ := waitIter_error h
  have helig := waitScan_found hscan
  exact hgone (hi z (.inr ⟨helig.zombie, helig.isThread⟩))

/-- With every process in memory, no call follows a pointer to a directory that
was freed, and none frees one twice. -/
theorem MemoryOk.not_dangling {f : Fault} (hi : MemoryOk s) (hen : Enabled s p c)
    (hfault : syscall s p c = .error f) : ¬ f.Dangling := by
  have hused : (s.procs p).state ≠ .unused := by simp [hen.1]
  have hp : s.HasMemory p := hi p (.inl (live_of_running hen.1))
  cases c with
  | fork env => exact SpawnFault.not_dangling hp (fork_error hused (returned_eq_error hfault))
  | clone flags env =>
    exact SpawnFault.not_dangling hp (clone_error hused (returned_eq_error hfault))
  | exec env =>
    rcases exec_error (returned_eq_error hfault) with hlist | ⟨-, hgone⟩
    · simp only [lookupFaults, List.mem_cons, List.not_mem_nil, or_false] at hlist
      rcases hlist with rfl | rfl | rfl | rfl <;> simp [Fault.Dangling]
    · exact absurd hp hgone
  | sbrk n budget => exact (sysSbrk_error (returned_eq_error hfault)).2 hp
  | exit =>
    rw [syscall] at hfault
    split at hfault
    · rename_i hexit
      cases hfault
      rcases exit_error hexit with rfl | rfl | ⟨rfl, -⟩ <;> simp [Fault.Dangling]
    · cases hfault
  | wait => exact absurd hfault hi.waitIter_ne_error
  | join pid => cases hfault
  | resume =>
    rw [syscall, resume] at hfault
    dsimp only at hfault
    split at hfault
    · exact absurd hfault (hi.same (isTouch_awake hen.1).sameMemory).waitIter_ne_error
    · cases hfault
    · cases hfault
  | kill pid => cases hfault
  | threadkill pid => cases hfault
  | «open» w accept =>
    have := sysOpen_error (returned_eq_error hfault)
    simp only [lookupFaults, List.mem_cons, List.not_mem_nil, or_false] at this
    rcases this with rfl | rfl | rfl <;> simp [Fault.Dangling]
  | dup fd => simp [Fault.Dangling, (sysDup_error (returned_eq_error hfault)).1]
  | pipe argok page =>
    obtain ⟨r, hr⟩ := sysPipe_isOk s p argok page
    rw [returned_eq_error hfault] at hr
    cases hr
  | close fd => simp [Fault.Dangling, (sysClose_error (returned_eq_error hfault)).1]
  | chdir w isDir =>
    have := sysChdir_error (returned_eq_error hfault)
    simp only [lookupFaults, List.mem_cons, List.not_mem_nil, or_false] at this
    rcases this with rfl | rfl | rfl <;> simp [Fault.Dangling]

/-- If every directory that is freed has no other user, no process runs on
memory that was freed, and no directory is freed a second time. The first part
speaks of every state of the run, so a directory that was freed stays unused
until it is created anew. -/
theorem memory_of_frees_unshared {s : Kernel} (h : ReachableBy Step FreesUnshared boot s) :
    MemoryOk s ∧
      ∀ p c f, Enabled s p c → syscall s p c = .error f → ¬ f.Dangling := by
  have hi : MemoryOk s := h.invariant memoryOk_boot fun _ _ _ _ hi hgood hstep =>
    hi.step hgood hstep
  exact ⟨hi, fun p c f hen hfault => hi.not_dangling hen hfault⟩

/-- The leader `1` clones the thread `2` onto its memory, joins it, exits and is
waited for: everything freed was unused. -/
theorem memory_of_frees_unshared_joined :
    ∃ s, ReachableBy Step FreesUnshared boot s ∧
      ((s.procs 0).state = .running ∧ (s.procs 1).state = .unused ∧
        (s.procs 2).state = .unused ∧ s.pgdirs 1 = none) ∧ s.HasMemory 0 := by
  have hrun : ∃ s, ReachableBy Step FreesUnshared boot s ∧
      ((s.procs 0).state = .running ∧ (s.procs 1).state = .unused ∧
        (s.procs 2).state = .unused ∧ s.pgdirs 1 = none) :=
    exists_reachableBy
      [.dispatch 0, .call 0 (.fork ⟨true, some 1, 8⟩), .dispatch 1,
        .call 1 (.clone 1 ⟨true, none, 8⟩), .dispatch 2, .call 2 .exit, .call 1 (.join 3),
        .call 1 .exit, .call 0 .wait] (by decide +kernel)
  obtain ⟨s, hreach, hend⟩ := hrun
  exact ⟨s, hreach, hend, (memory_of_frees_unshared hreach).1 0 (.inl (live_of_running hend.1))⟩

/-- The leader `1` clones the thread `2` onto its memory and exits; once it is
waited for, the thread runs on a directory that is gone, and its `exec` frees
that directory a second time. -/
theorem thread_runs_on_freed_directory :
    ∃ s, Reachable Step boot s ∧ (s.procs 2).Live ∧ ¬ s.HasMemory 2 ∧
      ∃ env, Enabled s 2 (.exec env) ∧
        faultOf (syscall s 2 (.exec env)) = some .danglingPgdir := by
  let env : ExecEnv := ⟨⟨true, []⟩, true, some 9, [⟨4096, true, 8⟩], 8, true⟩
  have hrun : ∃ s, Reachable Step boot s ∧ ((s.procs 2).Live ∧ (s.procs 2).pgdir = some 1 ∧
      s.pgdirs 1 = none ∧ Enabled s 2 (.exec env) ∧
      faultOf (syscall s 2 (.exec env)) = some .danglingPgdir) :=
    exists_reachableBy
      [.dispatch 0, .call 0 (.fork ⟨true, some 1, 8⟩), .dispatch 1,
        .call 1 (.clone 1 ⟨true, none, 8⟩), .call 1 .exit, .call 0 .wait, .dispatch 2]
      (by decide +kernel)
  obtain ⟨s, hreach, hlive, hpgdir, hgone, hen, hfault⟩ := hrun
  refine ⟨s, hreach, hlive, ?_, env, hen, hfault⟩
  rintro ⟨d, mem, hd, hmem⟩
  obtain rfl : 1 = d := Option.some.inj (hpgdir.symm.trans hd)
  rw [hgone] at hmem
  cases hmem

end Xv6Threads
