/-
# A process runs on one CPU, on its own stack

While the lock is free, the processes that are `RUNNING` are those some CPU has as
its `c->proc`, each on one CPU. Inside the lock this is out of step for the CPU that
holds it only: between the change of `p->state` and the change of `c->proc` there are
two context switches, and the invariant says what holds at each place between them.
A kernel stack is taken from a slot only when no CPU executes on it.
-/

import Xv6Threads.Kernel.LeaveSpec
import Xv6Threads.Lib.Cells
import Xv6Threads.Sched.Switch

namespace Xv6Threads.Sched

open Lib
open Function (update update_of_ne update_self)

def Place.Holds : Place → Bool
  | .out => false
  | _ => true

/-- In `sched`, with the state already changed. -/
def Place.Parked : Place → Bool
  | .switching _ => true
  | _ => false

/-- The slot `fork` or `clone` has allocated and not published. -/
def Making.target : Making → Option Slot
  | .nothing => none
  | .slot np => some np
  | .child np => some np

/-- States of processes whose thread will run again. -/
def Resumes : ProcState → Bool
  | .runnable => true
  | .sleeping => true
  | .running => true
  | _ => false

/-- States a thread enters `sched` with. -/
def Leaves : ProcState → Bool
  | .runnable => true
  | .sleeping => true
  | .zombie => true
  | _ => false

section

variable {C K : Type} {s s' : SchedState C K} {c : C} {p : Slot}

/-- The saved thread is on the slot's own stack. -/
def Task.Ready (t : Task K) : Prop := ∃ k next, t.context = some (k, next) ∧ t.kstack = some k

/-- What holds of a CPU at each place of the scheduler and of a thread. -/
inductive CpuOk (s : SchedState C K) (c : C) : Prop
  | idle (hcpu : s.cpu c = ⟨none, .idle, none⟩) (hlock : s.lock ≠ some c)
  | waking {ch : Chan} (hcpu : s.cpu c = ⟨none, .waking ch, none⟩) (hlock : s.lock = some c)
  | scan {ps : List Slot} (hcpu : s.cpu c = ⟨none, .scan ps, none⟩) (hlock : s.lock = some c)
  | picked {p : Slot} {ps : List Slot} (hcpu : s.cpu c = ⟨some p, .picked ps, none⟩)
      (hlock : s.lock = some c) (hstate : (s.task p).state = .runnable)
  | chosen {p : Slot} {ps : List Slot} (hcpu : s.cpu c = ⟨some p, .chosen ps, none⟩)
      (hlock : s.lock = some c) (hstate : (s.task p).state = .running)
  | back {p : Slot} {ps : List Slot} (hcpu : s.cpu c = ⟨some p, .back ps, none⟩)
      (hlock : s.lock = some c) (hstate : Leaves (s.task p).state = true)
  | thread {p : Slot} {ps : List Slot} {k : K} {pl : Place}
      (hcpu : s.cpu c = ⟨some p, .away ps, some (k, pl)⟩)
      (hlock : s.lock = some c ↔ pl.Holds = true) (hkstack : (s.task p).kstack = some k)
      (hstate : if pl.Parked then Leaves (s.task p).state = true
        else (s.task p).state = .running)

structure SchedOk (s : SchedState C K) : Prop where
  cpus : ∀ c, CpuOk s c
  alone : ∀ c c' p, (s.cpu c).proc = some p → (s.cpu c').proc = some p → c = c'
  running : ∀ p, (s.task p).state = .running → ∃ c, (s.cpu c).proc = some p
  ready : ∀ p, Resumes (s.task p).state = true →
    (∀ c, (s.cpu c).proc = some p → (s.cpu c).thread = none) → (s.task p).Ready
  kstacks : ∀ p q k, (s.task p).kstack = some k → (s.task q).kstack = some k → p = q
  made : ∀ p np, (s.task p).making.target = some np → (s.task np).state = .embryo
  child : ∀ p np, (s.task p).making = .child np → (s.task np).Ready
  maker : ∀ p q np, (s.task p).making.target = some np →
    (s.task q).making.target = some np → p = q

/-- What a step has to show: it keeps the invariant, and a kernel stack it takes from
a slot is not one a CPU executes on. -/
structure StepOk (s s' : SchedState C K) : Prop where
  ok : SchedOk s'
  freed : ∀ z k, (s.task z).kstack = some k → (s'.task z).kstack ≠ some k →
    ∀ c, (s.cpu c).stack ≠ some k ∧ (s'.cpu c).stack ≠ some k

/-! ## Reading the invariant -/

theorem CpuOk.stack {k : K} (h : CpuOk s c) (hstack : (s.cpu c).stack = some k) :
    ∃ p, (s.cpu c).proc = some p ∧ (s.task p).kstack = some k := by
  cases h with
  | thread hcpu hlock hkstack hstate =>
    rw [hcpu] at hstack ⊢
    cases hstack
    exact ⟨_, rfl, hkstack⟩
  | idle hcpu | waking hcpu | scan hcpu | picked hcpu | chosen hcpu | back hcpu =>
    rw [hcpu] at hstack
    cases hstack

/-- A CPU that does not hold the lock has a running process, if any. -/
theorem CpuOk.running (h : CpuOk s c) (hlock : s.lock ≠ some c)
    (hproc : (s.cpu c).proc = some p) : (s.task p).state = .running := by
  cases h with
  | thread hcpu hiff hkstack hstate =>
    rename_i pl
    rw [hcpu] at hproc
    cases hproc
    cases pl with
    | out => exact hstate
    | _ => exact absurd (hiff.mpr rfl) hlock
  | idle hcpu =>
    rw [hcpu] at hproc
    cases hproc
  | waking _ hheld | scan _ hheld | picked _ hheld | chosen _ hheld | back _ hheld =>
    exact absurd hheld hlock

/-- Neither an `UNUSED` nor an `EMBRYO` slot is any CPU's process. -/
theorem CpuOk.live (h : CpuOk s c) (hproc : (s.cpu c).proc = some p) :
    (s.task p).state ≠ .unused ∧ (s.task p).state ≠ .embryo := by
  cases h with
  | thread hcpu hiff hkstack hstate =>
    rw [hcpu] at hproc
    cases hproc
    split_ifs at hstate
    · constructor <;> intro h <;> rw [h] at hstate <;> cases hstate
    · rw [hstate]
      exact ⟨by decide, by decide⟩
  | idle hcpu | waking hcpu | scan hcpu =>
    rw [hcpu] at hproc
    cases hproc
  | picked hcpu hlock hstate | chosen hcpu hlock hstate =>
    rw [hcpu] at hproc
    cases hproc
    rw [hstate]
    exact ⟨by decide, by decide⟩
  | back hcpu hlock hstate =>
    rw [hcpu] at hproc
    cases hproc
    constructor <;> intro h <;> rw [h] at hstate <;> cases hstate

/-- The whole record of a CPU in a thread. -/
theorem CpuOk.of_thread {k : K} {pl : Place} (h : CpuOk s c)
    (hthread : (s.cpu c).thread = some (k, pl)) (hproc : (s.cpu c).proc = some p) :
    (∃ ps, s.cpu c = ⟨some p, .away ps, some (k, pl)⟩) ∧
      (s.lock = some c ↔ pl.Holds = true) ∧ (s.task p).kstack = some k ∧
      (if pl.Parked then Leaves (s.task p).state = true else (s.task p).state = .running) := by
  cases h with
  | thread hcpu hlock hkstack hstate =>
    rw [hcpu] at hthread hproc
    cases hthread
    cases hproc
    exact ⟨⟨_, hcpu⟩, hlock, hkstack, hstate⟩
  | idle hcpu | waking hcpu | scan hcpu | picked hcpu | chosen hcpu | back hcpu =>
    rw [hcpu] at hthread
    cases hthread

theorem SchedOk.not_current (hi : SchedOk s)
    (hp : (s.task p).state = .unused ∨ (s.task p).state = .embryo) :
    (s.cpu c).proc ≠ some p := by
  intro hproc
  have hlive := (hi.cpus c).live hproc
  exact hp.elim hlive.1 hlive.2

/-- No CPU executes on the stack of a slot that is nobody's process. -/
theorem SchedOk.stack_ne (hi : SchedOk s) {k : K} (hkstack : (s.task p).kstack = some k)
    (hp : (s.cpu c).proc ≠ some p) : (s.cpu c).stack ≠ some k := by
  intro hstack
  obtain ⟨q, hproc, hq⟩ := (hi.cpus c).stack hstack
  rw [hi.kstacks p q k hkstack hq] at hp
  exact hp hproc

/-- A process that is to run again and is on one CPU, where no thread executes. -/
theorem SchedOk.ready_of_proc (hi : SchedOk s) (hproc : (s.cpu c).proc = some p)
    (hp : Resumes (s.task p).state = true) (hnone : (s.cpu c).thread = none) :
    (s.task p).Ready := by
  refine hi.ready p hp fun c' hc' => ?_
  rwa [hi.alone c' c p hc' hproc]

/-! ## Steps that leave states and stacks alone -/

/-- The state stays, or a sleeper is woken. -/
def Woken (st st' : ProcState) : Prop := st' = st ∨ st = .sleeping ∧ st' = .runnable

section

variable {st st' : ProcState}

theorem Woken.running (h : Woken st st') : st' = .running ↔ st = .running := by
  rcases h with h | ⟨h, h'⟩
  · rw [h]
  · simp [h, h']

theorem Woken.resumes (h : Woken st st') (hst : Resumes st' = true) : Resumes st = true := by
  rcases h with h | ⟨h, -⟩
  · rwa [h] at hst
  · rw [h]
    rfl

theorem Woken.leaves (h : Woken st st') (hst : Leaves st = true) : Leaves st' = true := by
  rcases h with h | ⟨-, h⟩
  · rwa [h]
  · rw [h]
    rfl

theorem Woken.embryo (h : Woken st st') (hst : st = .embryo) : st' = .embryo := by
  rcases h with h | ⟨h, -⟩
  · rwa [h]
  · rw [h] at hst
    cases hst

theorem Woken.runnable (h : Woken st st') (hst : st = .runnable) : st' = .runnable := by
  rcases h with h | ⟨-, h⟩
  · rwa [h]
  · exact h

end

/-- What a task may undergo at any time: a wakeup, and changes the invariant does not
speak about. -/
structure Kept (t t' : Task K) : Prop where
  state : Woken t.state t'.state
  kstack : t'.kstack = t.kstack
  context : t'.context = t.context
  making : t'.making = t.making

theorem Kept.refl (t : Task K) : Kept t t := ⟨.inl rfl, rfl, rfl, rfl⟩

theorem Kept.trans {t t' t'' : Task K} (h : Kept t t') (h' : Kept t' t'') : Kept t t'' where
  state := by
    rcases h'.state with h₂ | ⟨h₂, h₃⟩
    · rw [h₂]
      exact h.state
    · rcases h.state with h₁ | ⟨-, h₁⟩
      · exact .inr ⟨h₁ ▸ h₂, h₃⟩
      · rw [h₁] at h₂
        cases h₂
  kstack := h'.kstack.trans h.kstack
  context := h'.context.trans h.context
  making := h'.making.trans h.making

theorem Kept.ready {t t' : Task K} (h : Kept t t') (ht : t.Ready) : t'.Ready := by
  obtain ⟨k, next, hcontext, hkstack⟩ := ht
  exact ⟨k, next, h.context.trans hcontext, h.kstack.trans hkstack⟩

/-- A CPU that did nothing, and whose process was at most woken. -/
theorem CpuOk.frame (h : CpuOk s c) (hcpu : s'.cpu c = s.cpu c)
    (hlock : s'.lock = some c ↔ s.lock = some c)
    (hstate : ∀ p, (s.cpu c).proc = some p → Woken (s.task p).state (s'.task p).state)
    (hkstack : ∀ p, (s.cpu c).proc = some p → (s'.task p).kstack = (s.task p).kstack) :
    CpuOk s' c := by
  cases h with
  | idle hcpu' hfree => exact .idle (hcpu.trans hcpu') (hlock.not.mpr hfree)
  | waking hcpu' hheld => exact .waking (hcpu.trans hcpu') (hlock.mpr hheld)
  | scan hcpu' hheld => exact .scan (hcpu.trans hcpu') (hlock.mpr hheld)
  | picked hcpu' hheld hp =>
    exact .picked (hcpu.trans hcpu') (hlock.mpr hheld) ((hstate _ (by rw [hcpu'])).runnable hp)
  | chosen hcpu' hheld hp =>
    exact .chosen (hcpu.trans hcpu') (hlock.mpr hheld)
      ((hstate _ (by rw [hcpu'])).running.mpr hp)
  | back hcpu' hheld hp =>
    exact .back (hcpu.trans hcpu') (hlock.mpr hheld) ((hstate _ (by rw [hcpu'])).leaves hp)
  | thread hcpu' hiff hk hp =>
    have hwoken := hstate _ (by rw [hcpu'])
    refine .thread (hcpu.trans hcpu') (hlock.trans hiff) ?_ ?_
    · rw [hkstack _ (by rw [hcpu']), hk]
    · split_ifs at hp ⊢
      · exact hwoken.leaves hp
      · exact hwoken.running.mpr hp

/-- Only the CPU that holds the lock, or takes it, or gives it up, sees it change. -/
theorem lock_others {l l' : Option C} (hl : l = none ∨ l = some c) (hl' : l' = none ∨ l' = some c)
    {c' : C} (hc : c' ≠ c) : l' = some c' ↔ l = some c' := by
  have hfalse : ∀ {o : Option C}, o = none ∨ o = some c → ¬o = some c' := by
    rintro o (h | h) h'
    · rw [h] at h'
      cases h'
    · rw [h] at h'
      exact hc (Option.some.inj h').symm
  exact ⟨fun h => absurd h (hfalse hl'), fun h => absurd h (hfalse hl)⟩

variable {k : K} {pl pl' : Place}

/-- A thread that holds the lock, or takes it, and keeps it or gives it up. -/
theorem CpuOk.lock_moved (hi : CpuOk s c) (hthread : (s.cpu c).thread = some (k, pl))
    (hproc : (s.cpu c).proc = some p) (hlocked : pl.Holds = true ∨ s.lock = none)
    (hlock : s'.lock = if pl'.Holds then some c else none) :
    (s'.lock = some c ↔ pl'.Holds = true) ∧
      ∀ c', c' ≠ c → (s'.lock = some c' ↔ s.lock = some c') := by
  obtain ⟨-, hiff, -, -⟩ := hi.of_thread hthread hproc
  have hafter : s'.lock = none ∨ s'.lock = some c := by
    rw [hlock]
    cases pl'.Holds
    · exact .inl rfl
    · exact .inr rfl
  refine ⟨?_, fun _ => lock_others (hlocked.symm.imp_right hiff.mpr) hafter⟩
  rw [hlock]
  cases pl'.Holds <;> simp

variable [DecidableEq C] {x : Cpu K}

/-- The CPUs after one of them took a step that left the others' processes alone. -/
theorem SchedOk.cpus_update (hi : SchedOk s) (hcpu : s'.cpu = update s.cpu c x)
    (hlock : ∀ c', c' ≠ c → (s'.lock = some c' ↔ s.lock = some c'))
    (hstate : ∀ c', c' ≠ c → ∀ p, (s.cpu c').proc = some p →
      Woken (s.task p).state (s'.task p).state)
    (hkstack : ∀ c', c' ≠ c → ∀ p, (s.cpu c').proc = some p →
      (s'.task p).kstack = (s.task p).kstack)
    (hok : CpuOk s' c) (c' : C) : CpuOk s' c' := by
  by_cases hc : c' = c
  · rwa [hc]
  · refine (hi.cpus c').frame ?_ (hlock c' hc) (hstate c' hc) (hkstack c' hc)
    rw [hcpu, update_of_ne hc]

theorem proc_update (hcpu : s'.cpu = update s.cpu c x) (hproc : x.proc = (s.cpu c).proc)
    (c' : C) : (s'.cpu c').proc = (s.cpu c').proc := by
  rw [hcpu]
  by_cases hc : c' = c
  · rw [hc, update_self, hproc]
  · rw [update_of_ne hc]

/-- A CPU keeps its process, whose task may change as its thread goes on. -/
theorem SchedOk.ownStep (hi : SchedOk s) (hcpu : s'.cpu = update s.cpu c x)
    (hproc : x.proc = (s.cpu c).proc)
    (hlock : ∀ c', c' ≠ c → (s'.lock = some c' ↔ s.lock = some c'))
    (hothers : ∀ q, (s.cpu c).proc ≠ some q → Kept (s.task q) (s'.task q))
    (hkstack : ∀ q, (s'.task q).kstack = (s.task q).kstack)
    (hmaking : ∀ q, (s'.task q).making = (s.task q).making)
    (hready : ∀ q, (s.cpu c).proc = some q → Resumes (s'.task q).state = true →
      x.thread = none → (s'.task q).Ready) (hok : CpuOk s' c) : StepOk s s' := by
  have hprocs := proc_update hcpu hproc
  have hembryo : ∀ {q}, (s.task q).state = .embryo → Kept (s.task q) (s'.task q) := fun hq =>
    hothers _ (hi.not_current (.inr hq))
  constructor
  case freed => exact fun z k hz hz' => absurd ((hkstack z).trans hz) hz'
  constructor
  case cpus =>
    refine hi.cpus_update hcpu hlock ?_ (fun _ _ q _ => hkstack q) hok
    intro c' hc q hq
    exact (hothers q fun h => hc (hi.alone c' c q hq h)).state
  case alone =>
    intro c₁ c₂ q h₁ h₂
    rw [hprocs] at h₁ h₂
    exact hi.alone c₁ c₂ q h₁ h₂
  case running =>
    intro q hq
    by_cases hown : (s.cpu c).proc = some q
    · exact ⟨c, (hprocs c).trans hown⟩
    · obtain ⟨c', hc'⟩ := hi.running q ((hothers q hown).state.running.mp hq)
      exact ⟨c', (hprocs c').trans hc'⟩
  case ready =>
    intro q hq hout
    by_cases hown : (s.cpu c).proc = some q
    · have hnone := hout c ((hprocs c).trans hown)
      rw [hcpu, update_self] at hnone
      exact hready q hown hq hnone
    · have hkept := hothers q hown
      refine hkept.ready (hi.ready q (hkept.state.resumes hq) fun c' hc' => ?_)
      have hc : c' ≠ c := fun h => hown (h ▸ hc')
      have hnone := hout c' ((hprocs c').trans hc')
      rwa [hcpu, update_of_ne hc] at hnone
  case kstacks =>
    intro p q k hp hq
    rw [hkstack] at hp hq
    exact hi.kstacks p q k hp hq
  case made =>
    intro p np hnp
    rw [hmaking] at hnp
    have hnew := hi.made p np hnp
    exact (hembryo hnew).state.embryo hnew
  case child =>
    intro p np hnp
    rw [hmaking] at hnp
    exact (hembryo (hi.made p np (by rw [hnp]; rfl))).ready (hi.child p np hnp)
  case maker =>
    intro p q np hp hq
    rw [hmaking] at hp hq
    exact hi.maker p q np hp hq

theorem SchedOk.kept (hi : SchedOk s) (htask : ∀ p, Kept (s.task p) (s'.task p))
    (hcpu : s'.cpu = update s.cpu c x)
    (hlock : ∀ c', c' ≠ c → (s'.lock = some c' ↔ s.lock = some c'))
    (hproc : x.proc = (s.cpu c).proc) (hthread : x.thread = none ↔ (s.cpu c).thread = none)
    (hok : CpuOk s' c) : StepOk s s' := by
  refine hi.ownStep hcpu hproc hlock (fun q _ => htask q) (fun q => (htask q).kstack)
    (fun q => (htask q).making) ?_ hok
  intro q hq hresumes hnone
  exact (htask q).ready
    (hi.ready_of_proc hq ((htask q).state.resumes hresumes) (hthread.mp hnone))

/-- The CPU of a thread that moved on. -/
theorem CpuOk.moved (hi : CpuOk s c) (hthread : (s.cpu c).thread = some (k, pl))
    (hproc : (s.cpu c).proc = some p)
    (hcpu : s'.cpu = update s.cpu c { s.cpu c with thread := some (k, pl') })
    (hlock : s'.lock = some c ↔ pl'.Holds = true)
    (hkstack : (s'.task p).kstack = (s.task p).kstack)
    (hstate : if pl'.Parked then Leaves (s'.task p).state = true
      else (s'.task p).state = .running) : CpuOk s' c := by
  obtain ⟨⟨ps, hrecord⟩, -, hk, -⟩ := hi.of_thread hthread hproc
  have hrecord' : s'.cpu c = ⟨some p, .away ps, some (k, pl')⟩ := by
    rw [hcpu, update_self, hrecord]
  exact .thread hrecord' hlock (hkstack.trans hk) hstate

/-- A thread moves on, taking, keeping or giving up the lock. -/
theorem SchedOk.threadKept (hi : SchedOk s) (hthread : (s.cpu c).thread = some (k, pl))
    (hproc : (s.cpu c).proc = some p) (htask : ∀ p, Kept (s.task p) (s'.task p))
    (hcpu : s'.cpu = update s.cpu c { s.cpu c with thread := some (k, pl') })
    (hlocked : pl.Holds = true ∨ s.lock = none)
    (hlock : s'.lock = if pl'.Holds then some c else none)
    (hparked : pl.Parked = false) (hparked' : pl'.Parked = false) : StepOk s s' := by
  obtain ⟨-, -, -, hstate⟩ := (hi.cpus c).of_thread hthread hproc
  obtain ⟨hiff, hothers⟩ := (hi.cpus c).lock_moved hthread hproc hlocked hlock
  rw [hparked] at hstate
  refine hi.kept htask hcpu hothers rfl (by simp [hthread]) ?_
  refine (hi.cpus c).moved hthread hproc hcpu hiff (htask p).kstack ?_
  rw [hparked']
  exact (htask p).state.running.mpr hstate

/-! ## The two context switches -/

/-- A scheduler sets or clears `c->proc`. -/
theorem SchedOk.assign (hi : SchedOk s) (hidle : (s.cpu c).thread = none)
    (hold : ∀ q, (s.cpu c).proc = some q → (s.task q).state ≠ .running)
    (hnew : ∀ q, x.proc = some q → ∀ c', c' ≠ c → (s.cpu c').proc ≠ some q)
    (hok : CpuOk (s.setCpu c x) c) : StepOk s (s.setCpu c x) := by
  have hself : (s.setCpu c x).cpu c = x := update_self ..
  have hother : ∀ c', c' ≠ c → (s.setCpu c x).cpu c' = s.cpu c' := fun c' hc => update_of_ne hc ..
  constructor
  case freed => exact fun z k hz hz' => absurd hz hz'
  constructor
  case cpus =>
    exact hi.cpus_update rfl (fun _ _ => Iff.rfl) (fun _ _ _ _ => .inl rfl) (fun _ _ _ _ => rfl)
      hok
  case alone =>
    apply unique_of_ne hi.alone
    · intro c' hc
      rw [hother c' hc]
    · rwa [hself]
  case running =>
    intro q hq
    obtain ⟨c', hc'⟩ := hi.running q hq
    refine ⟨c', ?_⟩
    rwa [hother c']
    rintro rfl
    exact hold q hc' hq
  case ready =>
    intro q hq hout
    refine hi.ready q hq fun c' hc' => ?_
    by_cases hc : c' = c
    · rw [hc, hidle]
    · rw [← hother c' hc] at hc' ⊢
      exact hout c' hc'
  case kstacks => exact hi.kstacks
  case made => exact hi.made
  case child => exact hi.child
  case maker => exact hi.maker

/-- The scheduler sets `c->proc`. -/
theorem SchedOk.pick (hi : SchedOk s) {ps : List Slot}
    (hrecord : s.cpu c = ⟨none, .scan (p :: ps), none⟩) (hstate : (s.task p).state = .runnable) :
    StepOk s (s.setCpu c ⟨some p, .picked ps, none⟩) := by
  have hheld : s.lock = some c := by
    cases hi.cpus c with
    | scan _ hlock => exact hlock
    | idle h | waking h | picked h | chosen h | back h | thread h =>
      rw [hrecord] at h
      cases h
  apply hi.assign
  · rw [hrecord]
  · intro q hq
    rw [hrecord] at hq
    cases hq
  · -- any other CPU's process is running
    intro q hq c' hc hproc
    cases hq
    have hne : s.lock ≠ some c' := fun h => hc (Option.some.inj (h.symm.trans hheld))
    rw [(hi.cpus c').running hne hproc] at hstate
    cases hstate
  · exact .picked (update_self ..) hheld hstate

/-- A CPU exchanges its scheduler and the thread of its process. -/
theorem SchedOk.swtch (hi : SchedOk s) (hproc : (s.cpu c).proc = some p)
    (hcpu : s'.cpu = update s.cpu c x) (hproc' : x.proc = some p) (hlock : s'.lock = s.lock)
    {task : Slot → Task K} {t : Task K} (htable : s'.task = update task p t)
    (hothers : ∀ q, Kept (s.task q) (task q)) (hkstack : t.kstack = (s.task p).kstack)
    (hmaking : t.making = (s.task p).making) (hready : x.thread = none → t.Ready)
    (hok : CpuOk s' c) : StepOk s s' := by
  have htask : ∀ q, q ≠ p → Kept (s.task q) (s'.task q) := by
    intro q hq
    rw [htable, update_of_ne hq]
    exact hothers q
  have hself : s'.task p = t := by rw [htable, update_self]
  rw [← hself] at hkstack hmaking hready
  refine hi.ownStep hcpu (hproc'.trans hproc.symm) (fun _ _ => by rw [hlock]) ?_ ?_ ?_ ?_ hok
  · intro q hq
    exact htask q fun h => hq (h ▸ hproc)
  · exact forall_of_ne hkstack fun q hq => (htask q hq).kstack
  · exact forall_of_ne hmaking fun q hq => (htask q hq).making
  · intro q hq _ hnone
    obtain rfl := Option.some.inj (hproc.symm.trans hq)
    exact hready hnone

/-- The holder of the lock changes the state of its own process, and nobody else's
but to wake it. -/
theorem SchedOk.restate (hi : SchedOk s) (hproc : (s.cpu c).proc = some p)
    (hbefore : Resumes (s.task p).state = true)
    (hcpu : s'.cpu = update s.cpu c x) (hproc' : x.proc = some p)
    (hthread : x.thread = none ↔ (s.cpu c).thread = none) (hlock : s'.lock = s.lock)
    {task : Slot → Task K} {t : Task K} (htable : s'.task = update task p t)
    (hothers : ∀ q, Kept (s.task q) (task q)) (hkstack : t.kstack = (s.task p).kstack)
    (hcontext : t.context = (s.task p).context) (hmaking : t.making = (s.task p).making)
    (hok : CpuOk s' c) : StepOk s s' := by
  apply hi.swtch hproc hcpu hproc' hlock htable hothers hkstack hmaking _ hok
  intro hnone
  obtain ⟨k, next, h, h'⟩ := hi.ready_of_proc hproc hbefore (hthread.mp hnone)
  exact ⟨k, next, hcontext.trans h, hkstack.trans h'⟩

/-- The scheduler clears `c->proc`. -/
theorem SchedOk.clear (hi : SchedOk s) {ps : List Slot}
    (hrecord : s.cpu c = ⟨some p, .back ps, none⟩) :
    StepOk s (s.setCpu c ⟨none, .scan ps, none⟩) := by
  obtain ⟨hheld, hleaves⟩ : s.lock = some c ∧ Leaves (s.task p).state = true := by
    cases hi.cpus c with
    | back h hlock hstate =>
      rw [hrecord] at h
      cases h
      exact ⟨hlock, hstate⟩
    | idle h | waking h | scan h | picked h | chosen h | thread h =>
      rw [hrecord] at h
      cases h
  apply hi.assign
  · rw [hrecord]
  · intro q hq hrunning
    rw [hrecord] at hq
    cases hq
    rw [hrunning] at hleaves
    cases hleaves
  · intro q hq
    cases hq
  · exact .scan (update_self ..) hheld

/-! ## Slots that are nobody's process -/

/-- A thread changes a slot that is no CPU's process. -/
theorem SchedOk.offCpu (hi : SchedOk s) {z : Slot} (hz : ∀ c', (s.cpu c').proc ≠ some z)
    (hcpu : s'.cpu = update s.cpu c x) (hproc : x.proc = (s.cpu c).proc)
    (hstack : x.stack = (s.cpu c).stack)
    (hlock : ∀ c', c' ≠ c → (s'.lock = some c' ↔ s.lock = some c')) (hok : CpuOk s' c)
    (hstate : ∀ q, q ≠ z → (s'.task q).state = (s.task q).state)
    (hkstack : ∀ q, q ≠ z → (s'.task q).kstack = (s.task q).kstack)
    (hcontext : ∀ q, q ≠ z → (s'.task q).context = (s.task q).context)
    (hrunning : (s'.task z).state ≠ .running)
    (hready : Resumes (s'.task z).state = true → (s'.task z).Ready)
    (hfresh : ∀ q k, q ≠ z → (s.task q).kstack = some k → (s'.task z).kstack ≠ some k)
    (hmade : ∀ p np, (s'.task p).making.target = some np → (s'.task np).state = .embryo)
    (hchild : ∀ p np, (s'.task p).making = .child np → (s'.task np).Ready)
    (hmaker : ∀ p q np, (s'.task p).making.target = some np →
      (s'.task q).making.target = some np → p = q) : StepOk s s' := by
  have hprocs := proc_update hcpu hproc
  have hstacks : ∀ c', (s'.cpu c').stack = (s.cpu c').stack := by
    intro c'
    rw [hcpu]
    by_cases hc : c' = c
    · rw [hc, update_self, hstack]
    · rw [update_of_ne hc]
  have hne : ∀ {c' q}, (s.cpu c').proc = some q → q ≠ z := by
    rintro c' q h rfl
    exact hz c' h
  constructor
  case freed =>
    intro q k hq hq' c'
    have hqz : q = z := by
      by_contra h
      exact hq' ((hkstack q h).trans hq)
    have hoff : (s.cpu c').stack ≠ some k := hi.stack_ne hq (hqz ▸ hz c')
    exact ⟨hoff, hstacks c' ▸ hoff⟩
  constructor
  case cpus =>
    exact hi.cpus_update hcpu hlock (fun _ _ q hq => .inl (hstate q (hne hq)))
      (fun _ _ q hq => hkstack q (hne hq)) hok
  case alone =>
    intro c₁ c₂ q h₁ h₂
    rw [hprocs] at h₁ h₂
    exact hi.alone c₁ c₂ q h₁ h₂
  case running =>
    intro q hq
    have hqz : q ≠ z := by
      rintro rfl
      exact hrunning hq
    rw [hstate q hqz] at hq
    obtain ⟨c', hc'⟩ := hi.running q hq
    exact ⟨c', (hprocs c').trans hc'⟩
  case ready =>
    intro q hq hout
    by_cases hqz : q = z
    · rw [hqz] at hq ⊢
      exact hready hq
    · rw [hstate q hqz] at hq
      have hbefore : (s.task q).Ready := by
        refine hi.ready q hq fun c' hc' => ?_
        have hnone := hout c' ((hprocs c').trans hc')
        have hsame := hstacks c'
        rw [Cpu.stack, hnone] at hsame
        exact Option.map_eq_none_iff.mp hsame.symm
      obtain ⟨k, next, h, h'⟩ := hbefore
      exact ⟨k, next, (hcontext q hqz).trans h, (hkstack q hqz).trans h'⟩
  case kstacks =>
    apply unique_of_ne hi.kstacks hkstack
    intro k hk q hq h
    exact hfresh q k hq h hk
  case made => exact hmade
  case child => exact hchild
  case maker => exact hmaker

/-- `wait` or `join` frees a zombie. -/
theorem SchedOk.reaped (hi : SchedOk s) {z : Slot} {joined : Bool}
    (hthread : (s.cpu c).thread = some (k, pl)) (hproc : (s.cpu c).proc = some p)
    (hholds : pl.Holds = true) (hparked : pl.Parked = false)
    (hz : (s.task z).state = .zombie) :
    StepOk s ((s.setTask z (reap (s.task z) joined)).release c k) := by
  obtain ⟨-, hiff, -, hstate⟩ := (hi.cpus c).of_thread hthread hproc
  rw [hparked] at hstate
  have hheld := hiff.mpr hholds
  have hidle : ∀ c', (s.cpu c').proc ≠ some z := by
    intro c' hc'
    have hrunning : (s.task z).state = .running := by
      by_cases hc : c' = c
      · rw [hc, hproc] at hc'
        exact Option.some.inj hc' ▸ hstate
      · refine (hi.cpus c').running (fun h => hc ?_) hc'
        exact Option.some.inj (h.symm.trans hheld)
    rw [hz] at hrunning
    cases hrunning
  have hpz : p ≠ z := fun h => hidle c (h ▸ hproc)
  generalize hs' : (s.setTask z (reap (s.task z) joined)).release c k = s'
  have hself : s'.task z = reap (s.task z) joined := by
    rw [← hs']
    exact update_self ..
  have htask : ∀ q, q ≠ z → s'.task q = s.task q := by
    intro q hq
    rw [← hs']
    exact update_of_ne hq ..
  have hcpu : s'.cpu = update s.cpu c { s.cpu c with thread := some (k, .out) } := by
    rw [← hs']
    rfl
  have hlock : s'.lock = if Place.Holds .out then some c else none := by
    rw [← hs']
    rfl
  have hmaking : ∀ q, (s'.task q).making = (s.task q).making :=
    forall_of_ne (by rw [hself]; rfl) fun q hq => by rw [htask q hq]
  have hne : ∀ {q np}, (s.task q).making.target = some np → np ≠ z := by
    rintro q np h rfl
    rw [hi.made q np h] at hz
    cases hz
  obtain ⟨hiff', hothers⟩ := (hi.cpus c).lock_moved hthread hproc (.inl hholds) hlock
  refine hi.offCpu hidle hcpu rfl ?_ hothers ?_ (fun q hq => by rw [htask q hq])
    (fun q hq => by rw [htask q hq]) (fun q hq => by rw [htask q hq]) ?_ ?_ ?_ ?_ ?_ ?_
  · rw [Cpu.stack, Cpu.stack, hthread]
    rfl
  · refine (hi.cpus c).moved hthread hproc hcpu hiff' (by rw [htask p hpz]) ?_
    rw [htask p hpz]
    exact hstate
  · rw [hself]
    exact fun h => by cases h
  · rw [hself]
    exact fun h => by cases h
  · rw [hself]
    exact fun _ _ _ _ h => by cases h
  · intro q np h
    rw [hmaking] at h
    rw [htask np (hne h)]
    exact hi.made q np h
  · intro q np h
    rw [hmaking] at h
    rw [htask np (hne (q := q) (by rw [h]; rfl))]
    exact hi.child q np h
  · intro q r np hq hr
    rw [hmaking] at hq hr
    exact hi.maker q r np hq hr

/-- A thread in `fork` or `clone` changes the slot it is making. -/
theorem SchedOk.makes (hi : SchedOk s) {np : Slot} {m : Making} {t : Task K}
    (hp : (s.task p).state = .running)
    (hnp : (s.task np).state = .unused ∨ (s.task np).state = .embryo)
    (htask : s'.task = (s.make p m np t).task)
    (hcpu : s'.cpu = update s.cpu c x) (hproc : x.proc = (s.cpu c).proc)
    (hstack : x.stack = (s.cpu c).stack)
    (hlock : ∀ c', c' ≠ c → (s'.lock = some c' ↔ s.lock = some c')) (hok : CpuOk s' c)
    (hmaking : t.making = (s.task np).making) (hrunning : t.state ≠ .running)
    (hready : Resumes t.state = true → t.Ready)
    (hfresh : ∀ q k, q ≠ np → (s.task q).kstack = some k → t.kstack ≠ some k)
    (hown : ∀ q, q ≠ p → (s.task q).making.target ≠ some np)
    (hm : ∀ n, m.target = some n → n = np ∧ t.state = .embryo)
    (hchild : ∀ n, m = .child n → t.Ready) : StepOk s s' := by
  have hpnp : p ≠ np := by
    rintro rfl
    rw [hp] at hnp
    rcases hnp with h | h <;> cases h
  have hself : s'.task np = t := by rw [htask, make_task, update_self]
  have hmine : s'.task p = { s.task p with making := m } := by
    rw [htask, make_task, update_of_ne hpnp, update_self]
  have hother : ∀ q, q ≠ np → q ≠ p → s'.task q = s.task q := by
    intro q hq hqp
    rw [htask, make_task, update_of_ne hq, update_of_ne hqp]
  have hkept : ∀ q, q ≠ np → (s'.task q).state = (s.task q).state ∧
      (s'.task q).kstack = (s.task q).kstack ∧ (s'.task q).context = (s.task q).context := by
    intro q hq
    by_cases hqp : q = p
    · rw [hqp, hmine]
      exact ⟨rfl, rfl, rfl⟩
    · rw [hother q hq hqp]
      exact ⟨rfl, rfl, rfl⟩
  have hmakings : ∀ q, q ≠ p → (s'.task q).making = (s.task q).making := by
    intro q hq
    by_cases hqnp : q = np
    · rw [hqnp, hself, hmaking]
    · rw [hother q hqnp hq]
  refine hi.offCpu (fun c' => hi.not_current hnp) hcpu hproc hstack hlock hok
    (fun q hq => (hkept q hq).1) (fun q hq => (hkept q hq).2.1) (fun q hq => (hkept q hq).2.2)
    (hself ▸ hrunning) (hself ▸ hready) (hself ▸ hfresh) ?_ ?_ ?_
  · intro q n h
    by_cases hqp : q = p
    · rw [hqp, hmine] at h
      obtain ⟨rfl, hembryo⟩ := hm n h
      rwa [hself]
    · rw [hmakings q hqp] at h
      have hn : n ≠ np := fun hn => hown q hqp (hn ▸ h)
      rw [(hkept n hn).1]
      exact hi.made q n h
  · intro q n h
    by_cases hqp : q = p
    · rw [hqp, hmine] at h
      have hmn : m = .child n := h
      obtain ⟨rfl, -⟩ := hm n (by rw [hmn]; rfl)
      rw [hself]
      exact hchild n hmn
    · rw [hmakings q hqp] at h
      have hn : n ≠ np := by
        rintro rfl
        exact hown q hqp (by rw [h]; rfl)
      obtain ⟨k, next, hcontext, hkstack⟩ := hi.child q n h
      exact ⟨k, next, (hkept n hn).2.2.trans hcontext, (hkept n hn).2.1.trans hkstack⟩
  · apply unique_of_ne hi.maker (fun q hq => by rw [hmakings q hq])
    intro n hn q hq h
    rw [hmine] at hn
    exact hown q hq ((hm n hn).1 ▸ h)

end

end Xv6Threads.Sched
