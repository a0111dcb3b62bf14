/-
# Process identity and parenthood

What the steps do to pids, parents and thread groups. Most of them leave these
alone; the others are a spawn, an exit, and freeing a slot.
-/

import Xv6Threads.Kernel.LockStep

namespace Xv6Threads

open Lib

variable {s s' : Kernel} {p q z np : Slot} {env : SpawnEnv} {flags : BitVec 32} {child : Proc}

/-- Two states with the same processes, which are each other's parents and
threads in the same way. -/
structure SameIds (s s' : Kernel) : Prop where
  pid : ∀ q, (s'.procs q).pid = (s.procs q).pid
  parent : ∀ q, (s'.procs q).parent = (s.procs q).parent
  isThread : ∀ q, (s'.procs q).isThread = (s.procs q).isThread
  tgid : ∀ q, (s'.procs q).tgid = (s.procs q).tgid
  pthread : ∀ q, (s'.procs q).pthread = (s.procs q).pthread
  unused : ∀ q, (s'.procs q).state = .unused ↔ (s.procs q).state = .unused
  embryo : ∀ q, (s'.procs q).state = .embryo ↔ (s.procs q).state = .embryo
  zombie : ∀ q, (s'.procs q).state = .zombie ↔ (s.procs q).state = .zombie
  initproc : s'.initproc = s.initproc
  nextpid : s'.nextpid = s.nextpid
  clones : s'.clones = s.clones

/-- Nor did anyone start or stop to share. -/
structure SameTree (s s' : Kernel) : Prop extends SameIds s s' where
  ofileClone : ∀ q, (s'.procs q).ofileClone = (s.procs q).ofileClone
  cwdClone : ∀ q, (s'.procs q).cwdClone = (s.procs q).cwdClone

theorem SameIds.live (h : SameIds s s') (q : Slot) : (s'.procs q).Live ↔ (s.procs q).Live := by
  simp only [Proc.Live, ne_eq, h.unused q, h.zombie q]

theorem SameIds.refl (s : Kernel) : SameIds s s := by
  constructor <;> intros <;> rfl

theorem IsTouch.sameTree (h : IsTouch s p s') : SameTree s s' := by
  obtain ⟨st, ch, k, h⟩ := h
  have hstate : ∀ q, (s'.procs q).state = (s.procs q).state ∨
      (s.procs q).state.Scheduled ∧ (s'.procs q).state.Scheduled := by
    intro q
    rw [h.procs]
    exact h.scheduled q
  refine ⟨⟨?_, ?_, ?_, ?_, ?_, ?_, ?_, ?_, h.initproc, h.nextpid, h.clones⟩, ?_, ?_⟩
  case refine_6 =>
      intro q
      rcases hstate q with hsame | ⟨hold, hnew⟩
      · rw [hsame]
      · exact iff_of_false hnew.ne.1 hold.ne.1
  case refine_7 =>
      intro q
      rcases hstate q with hsame | ⟨hold, hnew⟩
      · rw [hsame]
      · exact iff_of_false hnew.ne.2.1 hold.ne.2.1
  case refine_8 =>
      intro q
      rcases hstate q with hsame | ⟨hold, hnew⟩
      · rw [hsame]
      · exact iff_of_false hnew.ne.2.2 hold.ne.2.2
  all_goals
    intro q
    rw [h.procs]

theorem FileShape.sameTree (h : FileShape s s') : SameTree s s' := by
  obtain ⟨tables, ft, ic, rfl⟩ := h
  refine ⟨SameIds.mk ?_ ?_ ?_ ?_ ?_ ?_ ?_ ?_ ?_ ?_ ?_, ?_, ?_⟩ <;> intros <;> rfl

theorem Moved.sameTree {w : Walk} (h : Moved s p w s') : SameTree s s' := by
  obtain ⟨ic, ip, old, cwds, -, -, -, -, hprocs⟩ := h.moved
  refine ⟨⟨?_, ?_, ?_, ?_, ?_, ?_, ?_, ?_, h.initproc, h.nextpid, h.clones⟩, ?_, ?_⟩
  all_goals
    intro q
    rw [hprocs]

theorem FileShape.cwd_eq (h : FileShape s s') (q : Slot) : (s'.procs q).cwd = (s.procs q).cwd := by
  obtain ⟨_, _, _, rfl⟩ := h
  rfl

theorem FileShape.cwdGen_eq (h : FileShape s s') (q : Slot) :
    (s'.procs q).cwdGen = (s.procs q).cwdGen := by
  obtain ⟨_, _, _, rfl⟩ := h
  rfl

theorem Moved.ofile_eq {w : Walk} (h : Moved s p w s') (q : Slot) :
    (s'.procs q).ofile = (s.procs q).ofile := by
  obtain ⟨_, _, _, _, -, -, -, -, hprocs⟩ := h.moved
  rw [hprocs]

/-- Processes differ in their memory only. -/
def OnlyMemory (s s' : Kernel) : Prop :=
  ∀ q, ∃ d sz, s'.procs q = { s.procs q with pgdir := d, sz := sz }

theorem onlyMemory_of_update {d : Option PageAddr} {sz : ℕ}
    (h : s'.procs = Function.update s.procs p { s.procs p with pgdir := d, sz := sz }) :
    OnlyMemory s s' := by
  intro q
  rw [h]
  by_cases hqp : q = p
  · subst hqp
    exact ⟨d, sz, Function.update_self ..⟩
  · exact ⟨(s.procs q).pgdir, (s.procs q).sz, Function.update_of_ne hqp ..⟩

theorem OnlyMemory.sameTree (h : OnlyMemory s s') (hinit : s'.initproc = s.initproc)
    (hnext : s'.nextpid = s.nextpid) (hclones : s'.clones = s.clones) : SameTree s s' := by
  refine ⟨⟨?_, ?_, ?_, ?_, ?_, ?_, ?_, ?_, hinit, hnext, hclones⟩, ?_, ?_⟩
  all_goals
    intro q
    obtain ⟨d, sz, hq⟩ := h q
    rw [hq]

theorem Execed.onlyMemory {env : ExecEnv} (h : Execed s p env s') : OnlyMemory s s' := by
  obtain ⟨_, _, _, _, -, -, -, -, -, hprocs⟩ := h.image
  exact onlyMemory_of_update hprocs

theorem Resized.onlyMemory {n : BitVec 32} {budget : ℕ} {d : PageAddr} {mem mem' : AddrSpace}
    {sz' : ℕ} (h : Resized s p n budget d mem mem' sz' s') :
    OnlyMemory s s' := by
  have hshape := h.shape
  subst hshape
  exact onlyMemory_of_update rfl

theorem Execed.sameTree {env : ExecEnv} (h : Execed s p env s') : SameTree s s' :=
  h.onlyMemory.sameTree h.initproc h.nextpid h.clones

theorem Resized.sameTree {n : BitVec 32} {budget : ℕ} {d : PageAddr} {mem mem' : AddrSpace}
    {sz' : ℕ} (h : Resized s p n budget d mem mem' sz' s') :
    SameTree s s' := by
  apply h.onlyMemory.sameTree
  all_goals
    rw [h.shape]
    rfl

/-- The steps that change the tree. -/
inductive TreeChange (s : Kernel) : Event → Kernel → Prop
  | same {e : Event} {s' : Kernel} (h : SameTree s s') : TreeChange s e s'
  | spawnFailed {e : Event} {np : Slot} {s' : Kernel} (h : SpawnFailed s np s') :
      TreeChange s e s'
  | forked {p np : Slot} {env : SpawnEnv} {child : Proc} {s' : Kernel}
      (hen : Enabled s p (.fork env)) (h : Spawned s p np 0 env child s')
      (hfork : ForkMade s p s.nextpid child s') : TreeChange s (.call p (.fork env)) s'
  | cloned {p np : Slot} {flags : BitVec 32} {env : SpawnEnv} {child : Proc} {s' : Kernel}
      (hen : Enabled s p (.clone flags env)) (h : Spawned s p np flags env child s')
      (hclone : CloneMade s p s.nextpid flags child s') :
      TreeChange s (.call p (.clone flags env)) s'
  | exited {p : Slot} {st : Slot → ProcState} {s' : Kernel} (hen : Enabled s p .exit)
      (h : Exited s p st s') : TreeChange s (.call p .exit) s'
  | reaped {e : Event} {q z : Slot} {s₁ s' : Kernel} (hsame : SameTree s s₁)
      (h : Reaped s₁ q z s') : TreeChange s e s'

theorem step_tree {e : Event} (h : Step s e s') : TreeChange s e s' := by
  cases step_effect h with
  | touched h _ | slept hq h _ | moved hen h | execed hen h
  | resized hen h => exact .same h.sameTree
  | spawnFailed hcut h => exact .spawnFailed h
  | forked hen h hfork => exact .forked hen h hfork
  | cloned hen h hclone => exact .cloned hen h hclone
  | exited hen h => exact .exited hen h
  | waited hq hc htouch hstate hscan h hpgdir hfree
  | joined hq hc htouch hstate helig h hpgdirs hret => exact .reaped htouch.sameTree h
  | filed hen hc hrun => exact .same (fileShape_of_isFile hc hrun).sameTree
  | walked hen h => exact .same (fileShape_of_tables s s.ftable _).sameTree

/-- An exit frees no slot. -/
theorem Exited.unused_iff {st : Slot → ProcState} (h : Exited s p st s')
    (hp : (s.procs p).state = .running) (q : Slot) :
    (s'.procs q).state = .unused ↔ (s.procs q).state = .unused := by
  rw [h.procs]
  by_cases hq : q = p
  · rw [hq, h.zombie, hp]
    simp
  · exact (h.woken q hq).unused_iff

theorem Reaped.unused (h : Reaped s q z s') : (s'.procs z).state = .unused := by
  obtain ⟨_, hfreed⟩ := h.freed
  rw [hfreed]

theorem Reaped.ne_of_used_after {r : Slot} (h : Reaped s q z s')
    (hr : (s'.procs r).state ≠ .unused) : r ≠ z := by
  rintro rfl
  exact hr h.unused

theorem boot_procs_of_ne (hq : q ≠ 0) : boot.procs q = {} := by
  simp [boot, hq]

theorem SpawnFailed.self_eq (h : SpawnFailed s np s') :
    (s'.procs np).pid = s.nextpid ∧ (s'.procs np).state = .unused ∧
      (s'.procs np).parent = (s.procs np).parent := by
  obtain ⟨_, _, _, _, _, _, -, rfl⟩ := h
  simp

theorem SpawnFailed.other_eq (h : SpawnFailed s np s') (hq : q ≠ np) : s'.procs q = s.procs q := by
  obtain ⟨_, _, _, _, _, _, -, rfl⟩ := h
  exact Kernel.setProc_procs_of_ne _ _ _ hq

theorem SpawnFailed.free (h : SpawnFailed s np s') : (s.procs np).state = .unused := by
  obtain ⟨_, _, _, _, _, _, hfree, -⟩ := h
  exact hfree

theorem SpawnFailed.ne_of_used (h : SpawnFailed s np s') (hq : (s.procs q).state ≠ .unused) :
    q ≠ np := by
  rintro rfl
  exact hq h.free

theorem SpawnFailed.ne_of_used_after (h : SpawnFailed s np s') (hq : (s'.procs q).state ≠ .unused) :
    q ≠ np := by
  rintro rfl
  exact hq h.self_eq.2.1

theorem SpawnFailed.rest_eq (h : SpawnFailed s np s') :
    s'.nextpid = s.nextpid + 1 ∧ s'.initproc = s.initproc ∧ s'.clones = s.clones ∧
      s'.pgdirs = s.pgdirs ∧ s'.ftable = s.ftable ∧ s'.icache = s.icache ∧ s'.ctl = s.ctl := by
  obtain ⟨_, _, _, _, _, _, -, rfl⟩ := h
  exact ⟨rfl, rfl, rfl, rfl, rfl, rfl, rfl⟩

theorem Spawned.child_eq (h : Spawned s p np flags env child s') : s'.procs np = child := by
  rw [h.procs, Kernel.withChild_self]

theorem Spawned.other_eq (h : Spawned s p np flags env child s') (hq : q ≠ np) :
    ∃ cwdClone ofileClone, s'.procs q =
      { s.procs q with cwdClone := cwdClone, ofileClone := ofileClone } := by
  rw [h.procs, Kernel.withChild_of_ne _ _ _ _ _ hq]
  exact ⟨_, _, rfl⟩

theorem Spawned.ne_of_used (h : Spawned s p np flags env child s')
    (hq : (s.procs q).state ≠ .unused) :
    q ≠ np := by
  rintro rfl
  exact hq h.free

theorem Exited.live_iff {st : Slot → ProcState} (h : Exited s p st s') (q : Slot) :
    (s'.procs q).Live ↔ (s.procs q).Live ∧ q ≠ p := by
  rw [h.procs]
  by_cases hq : q = p
  · simp [Proc.Live, hq, h.zombie]
  · have hwoken := h.woken q hq
    simp only [Proc.Live, ne_eq, hwoken.unused_iff, hwoken.zombie_iff, hq, not_false_eq_true,
      and_true]

theorem Spawned.live_iff (h : Spawned s p np flags env child s') (q : Slot) :
    (s'.procs q).Live ↔ (s.procs q).Live ∨ q = np := by
  by_cases hq : q = np
  · simp [hq, h.child_eq, Proc.Live, h.state]
  · obtain ⟨_, _, hproc⟩ := h.other_eq hq
    simp [hproc, Proc.Live, hq]

theorem Spawned.pid_eq (h : Spawned s p np flags env child s') (q : Slot) (hq : q ≠ np) :
    (s'.procs q).pid = (s.procs q).pid := by
  obtain ⟨_, _, hproc⟩ := h.other_eq hq
  rw [hproc]

theorem SpawnFailed.live_iff (h : SpawnFailed s np s') (q : Slot) :
    (s'.procs q).Live ↔ (s.procs q).Live := by
  by_cases hq : q = np
  · simp [hq, Proc.Live, h.self_eq.2.1, h.free]
  · rw [h.other_eq hq]

theorem Reaped.live_iff (h : Reaped s q z s') (r : Slot) :
    (s'.procs r).Live ↔ (s.procs r).Live := by
  by_cases hr : r = z
  · simp [hr, Proc.Live, h.zombie, h.unused]
  · rw [h.kept r hr]

/-! ## At the granularity of the lock -/

theorem ProcState.scheduled_iff {st : ProcState} :
    st.Scheduled ↔ st ≠ .unused ∧ st ≠ .embryo ∧ st ≠ .zombie := by
  cases st <;> simp [Scheduled]

theorem SameIds.scheduled (h : SameIds s s') (q : Slot) :
    (s'.procs q).state.Scheduled ↔ (s.procs q).state.Scheduled := by
  rw [ProcState.scheduled_iff, ProcState.scheduled_iff, Ne, Ne, Ne, h.unused, h.embryo, h.zombie]

/-- Nobody's place in the kernel changed, unless to one where it holds no slot
and is not leaving. -/
def CtlKept (s s' : Kernel) : Prop := ∀ q, s'.ctl q = s.ctl q ∨ (s'.ctl q).Interruptible

theorem IsTouch.ctlKept (h : IsTouch s p s') : CtlKept s s' := by
  obtain ⟨st, ch, k, h⟩ := h
  intro q
  by_cases hq : q = p
  · rw [hq]
    exact h.ctl
  · exact .inl (h.others q hq).2.1

theorem CtlKept.of_eq (h : s'.ctl = s.ctl) : CtlKept s s' :=
  fun q => .inl (by rw [h])

/-- A step that is not cut leaves the tree alone or frees one slot. -/
theorem Effect.ids {e : Event} (hcut : e.isCut = false) (h : Effect s e s') :
    SameIds s s' ∧ CtlKept s s' ∨
      ∃ q z s₁, SameIds s s₁ ∧ CtlKept s s₁ ∧ Reaped s₁ q z s' := by
  cases h with
  | touched h _ | slept hq h _ => exact .inl ⟨h.sameTree.toSameIds, h.ctlKept⟩
  | spawnFailed hcut' h => simp [hcut] at hcut'
  | forked => cases hcut
  | cloned => cases hcut
  | exited => cases hcut
  | waited hq hc htouch hstate hscan h hpgdir hfree
  | joined hq hc htouch hstate helig h hpgdirs hret =>
    exact .inr ⟨_, _, _, htouch.sameTree.toSameIds, htouch.ctlKept, h⟩
  | filed hen hc hrun =>
    have hshape := fileShape_of_isFile hc hrun
    refine .inl ⟨hshape.sameTree.toSameIds, .of_eq ?_⟩
    obtain ⟨_, _, _, rfl⟩ := hshape
    rfl
  | walked hen h => exact .inl ⟨(fileShape_of_tables s s.ftable _).sameTree.toSameIds, .of_eq rfl⟩
  | moved hen h | execed hen h => exact .inl ⟨h.sameTree.toSameIds, .of_eq h.ctl⟩
  | resized hen h =>
    refine .inl ⟨h.sameTree.toSameIds, .of_eq ?_⟩
    rw [h.shape]
    rfl

end Xv6Threads
