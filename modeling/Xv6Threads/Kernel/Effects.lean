/-
# What a step does

The inversion lemmas of the single functions, put together: a step of the
machine has one of a handful of effects. Invariants are proved effect by
effect.
-/

import Xv6Threads.Kernel.FileSpec
import Xv6Threads.Kernel.LeaveSpec
import Xv6Threads.Kernel.Syscall

namespace Xv6Threads

open Lib
open Function (update update_of_ne update_self)

variable {st : ProcState} {s s₁ s' : Kernel} {p q : Slot} {c : Call} {r : Option ℤ}

/-- A state the scheduler moves processes between. -/
def ProcState.Scheduled (st : ProcState) : Prop := st = .sleeping ∨ st = .runnable ∨ st = .running

theorem ProcState.Scheduled.ne (h : st.Scheduled) : st ≠ .unused ∧ st ≠ .embryo ∧ st ≠ .zombie := by
  rcases h with rfl | rfl | rfl <;> simp

theorem Woken.scheduled {a b : ProcState} (h : Woken a b) (ha : a.Scheduled) : b.Scheduled := by
  rcases h with rfl | ⟨-, rfl⟩
  · exact ha
  · exact .inr (.inl rfl)

/-- In user mode or in the loop of `wait` or `join`. -/
def Ctl.Interruptible (c : Ctl) : Prop := c = .user ∨ c = .waiting ∨ ∃ pid, c = .joining pid

/-- Only scheduling changed: states, channels and killed flags, and where
processes stand in the kernel. `p` is the process that acted. -/
structure Touched (s : Kernel) (p : Slot) (st : Slot → ProcState) (ch : Slot → Option Slot)
    (k : Slot → Bool) (s' : Kernel) : Prop where
  procs : ∀ q, s'.procs q = { s.procs q with state := st q, chan := ch q, killed := k q }
  scheduled : ∀ q, st q = (s.procs q).state ∨
    (s.procs q).state.Scheduled ∧ (st q).Scheduled
  others : ∀ q, q ≠ p → ch q = (s.procs q).chan ∧ s'.ctl q = s.ctl q ∧
    Woken (s.procs q).state (st q)
  ctl : s'.ctl p = s.ctl p ∨ (s'.ctl p).Interruptible
  asleep : st p = .sleeping → ch p = some p ∨
    ch p = (s.procs p).chan ∧ (s.procs p).state = .sleeping
  initproc : s'.initproc = s.initproc
  nextpid : s'.nextpid = s.nextpid
  ftable : s'.ftable = s.ftable
  icache : s'.icache = s.icache
  pgdirs : s'.pgdirs = s.pgdirs
  clones : s'.clones = s.clones

theorem Touched.refl (s : Kernel) (p : Slot) :
    Touched s p (fun q => (s.procs q).state) (fun q => (s.procs q).chan)
      (fun q => (s.procs q).killed) s :=
  ⟨fun _ => rfl, fun _ => .inl rfl, fun _ _ => ⟨rfl, rfl, .inl rfl⟩, .inl rfl,
    fun h => .inr ⟨rfl, h⟩, rfl, rfl, rfl, rfl, rfl, rfl⟩

/-- The usual way only scheduling changes: one process's fields are set, and
the acting process moves inside the kernel. -/
theorem touched_setProc {ch : Option Slot} {k : Bool} {c : Ctl}
    (hst : (s.procs q).state.Scheduled ∧ st.Scheduled ∨ st = (s.procs q).state)
    (hc : c = s.ctl p ∨ c.Interruptible)
    (hother : q ≠ p → ch = (s.procs q).chan ∧ Woken (s.procs q).state st)
    (hasleep : q = p → st = .sleeping → ch = some p ∨
      ch = (s.procs p).chan ∧ (s.procs p).state = .sleeping) :
    Touched s p (update (fun r => (s.procs r).state) q st)
      (update (fun r => (s.procs r).chan) q ch)
      (update (fun r => (s.procs r).killed) q k)
      ((s.setProc q { s.procs q with state := st, chan := ch, killed := k }).setCtl p c) := by
  refine ⟨?_, ?_, ?_, ?_, ?_, rfl, rfl, rfl, rfl, rfl, rfl⟩
  · intro r
    by_cases hr : r = q
    · subst hr
      simp
    · simp [Kernel.setProc_procs_of_ne _ _ _ hr, hr]
  · intro r
    by_cases hr : r = q
    · subst hr
      simpa using hst.symm
    · exact .inl (by simp [hr])
  · intro r hrp
    refine ⟨?_, by simp [hrp], ?_⟩
    · by_cases hr : r = q
      · subst hr
        simpa using (hother hrp).1
      · simp [hr]
    · by_cases hr : r = q
      · subst hr
        simpa using (hother hrp).2
      · exact .inl (by simp [hr])
  · simpa using hc
  · intro hst
    by_cases hp : p = q
    · subst hp
      simpa using hasleep rfl (by simpa using hst)
    · rw [update_of_ne hp] at hst
      exact .inr ⟨update_of_ne hp .., hst⟩

theorem Kernel.setCtl_eq_self (s : Kernel) (q : Slot) : s.setCtl q (s.ctl q) = s := by
  simp [setCtl]

/-- Some touch. -/
def IsTouch (s : Kernel) (p : Slot) (s' : Kernel) : Prop := ∃ st ch k, Touched s p st ch k s'

theorem isTouch_refl (s : Kernel) (p : Slot) : IsTouch s p s := ⟨_, _, _, Touched.refl s p⟩

theorem isTouch_setCtl (s : Kernel) (p : Slot) : IsTouch s p (s.setCtl p .user) := by
  refine ⟨_, _, _, fun _ => rfl, fun _ => .inl rfl, ?_, ?_, fun h => .inr ⟨rfl, h⟩, rfl, rfl, rfl,
    rfl, rfl, rfl⟩
  · intro q hq
    exact ⟨rfl, by simp [hq], .inl rfl⟩
  · exact .inr (.inl (update_self ..))

/-- The running process sets its own state and channel. -/
theorem isTouch_self {ch : Option Slot} {c : Ctl} (hp : (s.procs p).state = .running)
    (hst : st.Scheduled) (hc : c = s.ctl p ∨ c.Interruptible)
    (hasleep : st = .sleeping → ch = some p) :
    IsTouch s p ((s.setProc p { s.procs p with state := st, chan := ch }).setCtl p c) :=
  ⟨_, _, _, touched_setProc (.inl ⟨.inr (.inr hp), hst⟩) hc (fun h => absurd rfl h)
    fun _ h => .inl (hasleep h)⟩

theorem live_of_running {p : Proc} (h : p.state = .running) : p.Live := by
  simp [Proc.Live, h]

theorem isTouch_sleepOnSelf {c : Ctl} (hq : (s.procs q).state = .running) (hc : c.Interruptible) :
    IsTouch s q (sleepOnSelf s q c) :=
  isTouch_self hq (.inl rfl) (.inr hc) fun _ => rfl

theorem isTouch_markKilled (s : Kernel) (p q : Slot) : IsTouch s p (markKilled s q) := by
  have hwoken : Woken (s.procs q).state
      (if (s.procs q).state = .sleeping then .runnable else (s.procs q).state) := by
    split_ifs with h
    · exact .inr ⟨h, rfl⟩
    · exact .inl rfl
  have hmark : markKilled s q = (s.setProc q { s.procs q with
      state := if (s.procs q).state = .sleeping then .runnable else (s.procs q).state
      chan := (s.procs q).chan
      killed := true }).setCtl p (s.ctl p) := (Kernel.setCtl_eq_self (markKilled s q) p).symm
  rw [hmark]
  refine ⟨_, _, _, touched_setProc ?_ (.inl rfl) (fun _ => ⟨rfl, hwoken⟩) ?_⟩
  · rcases hwoken with hsame | ⟨hold, hnew⟩
    · exact .inr hsame
    · exact .inl ⟨.inl hold, .inr (.inl hnew)⟩
  · rintro rfl hst
    rcases hwoken with hsame | ⟨-, hnew⟩
    · exact .inr ⟨rfl, hsame ▸ hst⟩
    · rw [hnew] at hst
      cases hst

theorem IsTouch.trans {s₂ : Kernel} (h₁ : IsTouch s p s₁) (h₂ : IsTouch s₁ p s₂) :
    IsTouch s p s₂ := by
  obtain ⟨st₁, ch₁, k₁, h₁⟩ := h₁
  obtain ⟨st₂, ch₂, k₂, h₂⟩ := h₂
  have hstate : ∀ q, (s₁.procs q).state = st₁ q := fun q => by rw [h₁.procs]
  have hchan : ∀ q, (s₁.procs q).chan = ch₁ q := fun q => by rw [h₁.procs]
  refine ⟨st₂, ch₂, k₂, ?_, ?_, ?_, ?_, ?_, h₂.initproc.trans h₁.initproc,
    h₂.nextpid.trans h₁.nextpid, h₂.ftable.trans h₁.ftable, h₂.icache.trans h₁.icache,
    h₂.pgdirs.trans h₁.pgdirs, h₂.clones.trans h₁.clones⟩
  · intro q
    rw [h₂.procs, h₁.procs]
  · intro q
    rcases h₂.scheduled q with hsame | ⟨hold, hnew⟩
    · rw [hsame, hstate q]
      exact h₁.scheduled q
    · rcases h₁.scheduled q with hsame | ⟨hold', -⟩
      · refine .inr ⟨?_, hnew⟩
        rwa [hstate q, hsame] at hold
      · exact .inr ⟨hold', hnew⟩
  · intro q hq
    obtain ⟨hch₁, hctl₁, hwoken₁⟩ := h₁.others q hq
    obtain ⟨hch₂, hctl₂, hwoken₂⟩ := h₂.others q hq
    exact ⟨hch₂.trans ((hchan q).trans hch₁), hctl₂.trans hctl₁,
      hwoken₁.trans (hstate q ▸ hwoken₂)⟩
  · rcases h₂.ctl with hctl₂ | hctl₂
    · rw [hctl₂]
      exact h₁.ctl
    · exact .inr hctl₂
  · intro hst
    rcases h₂.asleep hst with hself | ⟨hsame, hst₁⟩
    · exact .inl hself
    · rw [hstate p] at hst₁
      rw [hsame, hchan p]
      exact h₁.asleep hst₁

/-- What a sleeping call does first when it runs again. -/
theorem isTouch_awake (hq : (s.procs q).state = .running) :
    IsTouch s q (s.setProc q { s.procs q with chan := none }) := by
  have hset : s.setProc q { s.procs q with chan := none } =
      (s.setProc q { s.procs q with state := .running, chan := none }).setCtl q (s.ctl q) := by
    rw [← hq]
    exact (Kernel.setCtl_eq_self (s.setProc q { s.procs q with chan := none }) q).symm
  rw [hset]
  exact isTouch_self hq (.inr (.inr rfl)) (.inl rfl) (by simp)

/-! ## The effects -/

/-- The process an event is about. -/
def Event.actor : Event → Slot
  | .call p _ => p
  | .dispatch p => p
  | .yield p => p

/-- The calls that release `ptable.lock` in the middle. -/
def Event.isCut : Event → Bool
  | .call _ (.fork _) => true
  | .call _ (.clone _ _) => true
  | .call _ .exit => true
  | _ => false

/-- The calls that work on descriptors. -/
def Call.isFile : Call → Bool
  | .open _ _ => true
  | .dup _ => true
  | .pipe _ _ => true
  | .close _ => true
  | _ => false

/-- A state that differs in descriptor tables, open files and cached inodes
only. -/
def FileShape (s s' : Kernel) : Prop :=
  ∃ tables ft ic, s' = { s.setOfiles tables with ftable := ft, icache := ic }

theorem fileShape_of_tables (s : Kernel) (ft : Ftable) (ic : Icache) :
    FileShape s { s with ftable := ft, icache := ic } :=
  ⟨s.ofiles, ft, ic, rfl⟩

theorem fileShape_of_isFile (hc : c.isFile = true) (hrun : syscall s p c = .ok (s', r)) :
    FileShape s s' := by
  cases c with
  | «open» w accept =>
    obtain ⟨m, hm, -⟩ := returned_eq_ok hrun
    rcases sysOpen_ok hm with ⟨ic, -, rfl⟩ | ⟨_, _, _, _, ft, ic, -, -, -, rfl⟩ |
      ⟨_, _, _, _, tables, _, -, -, -, rfl⟩
    · exact fileShape_of_tables s _ _
    · exact fileShape_of_tables s _ _
    · exact ⟨tables, _, _, rfl⟩
  | dup fd =>
    obtain ⟨m, hm, -⟩ := returned_eq_ok hrun
    rcases sysDup_ok hm with rfl | ⟨_, _, tables, _, ft, -, -, -, rfl⟩
    · exact fileShape_of_tables _ _ _
    · exact ⟨tables, ft, _, rfl⟩
  | pipe argok page =>
    obtain ⟨m, hm, -⟩ := returned_eq_ok hrun
    cases sysPipe_ok hm with
    | refused => exact fileShape_of_tables _ _ _
    | failed _ => exact fileShape_of_tables s _ _
    | undone _ _ _ _ _ | done _ _ _ => exact ⟨_, _, _, rfl⟩
  | close fd =>
    obtain ⟨m, hm, -⟩ := returned_eq_ok hrun
    rcases sysClose_ok hm with rfl | ⟨_, _, tables, ft, ic, -, -, -, rfl⟩
    · exact fileShape_of_tables _ _ _
    · exact ⟨tables, ft, ic, rfl⟩
  | _ => cases hc

/-- The effect of one step. -/
inductive Effect (s : Kernel) : Event → Kernel → Prop
  | touched {e : Event} {s' : Kernel} (h : IsTouch s e.actor s')
      (hawake : (s'.procs e.actor).state ≠ .sleeping) : Effect s e s'
  | slept {q : Slot} {c : Call} {s' : Kernel} (hq : (s.procs q).state = .running)
      (h : IsTouch s q s')
      (hc : s'.ctl q = .waiting ∧
          waitScan s.procs q false (List.finRange NPROC) = .kids true ∨
        ∃ pid, s'.ctl q = .joining pid ∧
          joinScan s.procs q pid false (List.finRange NPROC) = some (.kids true)) :
      Effect s (.call q c) s'
  | spawnFailed {e : Event} {np : Slot} {s' : Kernel} (hcut : e.isCut = true)
      (h : SpawnFailed s np s') : Effect s e s'
  | forked {p np : Slot} {env : SpawnEnv} {child : Proc} {s' : Kernel}
      (hen : Enabled s p (.fork env)) (h : Spawned s p np 0 env child s')
      (hfork : ForkMade s p s.nextpid child s') : Effect s (.call p (.fork env)) s'
  | cloned {p np : Slot} {flags : BitVec 32} {env : SpawnEnv} {child : Proc} {s' : Kernel}
      (hen : Enabled s p (.clone flags env)) (h : Spawned s p np flags env child s')
      (hclone : CloneMade s p s.nextpid flags child s') :
      Effect s (.call p (.clone flags env)) s'
  | exited {p : Slot} {st : Slot → ProcState} {s' : Kernel} (hen : Enabled s p .exit)
      (h : Exited s p st s') : Effect s (.call p .exit) s'
  | waited {q z : Slot} {c : Call} {d : PageAddr} {s₁ s' : Kernel}
      (hq : (s.procs q).state = .running)
      (hc : c = .wait ∨ c = .resume ∧ s.ctl q = .waiting) (htouch : IsTouch s q s₁)
      (hstate : ∀ r, (s₁.procs r).state = (s.procs r).state)
      (hscan : waitScan s.procs q false (List.finRange NPROC) = .found z)
      (h : Reaped s₁ q z s') (hpgdir : (s.procs z).pgdir = some d)
      (hfree : s'.pgdirs = update s.pgdirs d none) : Effect s (.call q c) s'
  | joined {q z : Slot} {pid : ℤ} {c : Call} {s₁ s' : Kernel}
      (hq : (s.procs q).state = .running)
      (hc : c = .join pid ∨ c = .resume ∧ s.ctl q = .joining pid) (htouch : IsTouch s q s₁)
      (hstate : ∀ r, (s₁.procs r).state = (s.procs r).state)
      (helig : JoinEligible s.procs q z pid) (h : Reaped s₁ q z s')
      (hpgdirs : s'.pgdirs = s.pgdirs) (hret : syscall s q c = .ok (s', some pid)) :
      Effect s (.call q c) s'
  | filed {p : Slot} {c : Call} {s' : Kernel} {r : Option ℤ} (hen : Enabled s p c)
      (hc : c.isFile = true) (hrun : syscall s p c = .ok (s', r)) : Effect s (.call p c) s'
  | walked {p : Slot} {c : Call} {w : Walk} {ic : Icache} (hen : Enabled s p c)
      (h : LookupDropped s p w ic) : Effect s (.call p c) { s with icache := ic }
  | moved {p : Slot} {w : Walk} {isDir : Bool} {s' : Kernel}
      (hen : Enabled s p (.chdir w isDir)) (h : Moved s p w s') :
      Effect s (.call p (.chdir w isDir)) s'
  | execed {p : Slot} {env : ExecEnv} {s' : Kernel} (hen : Enabled s p (.exec env))
      (h : Execed s p env s') : Effect s (.call p (.exec env)) s'
  | resized {p : Slot} {n : BitVec 32} {budget : ℕ} {d : PageAddr} {mem mem' : AddrSpace}
      {sz' : ℕ} {s' : Kernel} (hen : Enabled s p (.sbrk n budget))
      (h : Resized s p n budget d mem mem' sz' s') : Effect s (.call p (.sbrk n budget)) s'

theorem IsTouch.waitScan_eq (hstate : ∀ q, (s₁.procs q).state = (s.procs q).state)
    (h : IsTouch s p s₁) (q : Slot) (b : Bool) (l : List Slot) :
    waitScan s₁.procs q b l = waitScan s.procs q b l := by
  obtain ⟨st, ch, k, h⟩ := h
  apply waitScan_congr q b l _ _ _ hstate
  all_goals
    intro r
    rw [h.procs]

theorem IsTouch.joinScan_eq (hstate : ∀ q, (s₁.procs q).state = (s.procs q).state)
    (h : IsTouch s p s₁) (q : Slot) (pid : ℤ) (b : Bool) (l : List Slot) :
    joinScan s₁.procs q pid b l = joinScan s.procs q pid b l := by
  obtain ⟨st, ch, k, h⟩ := h
  apply joinScan_congr q pid b l _ _ _ _ hstate
  all_goals
    intro r
    rw [h.procs]

theorem effect_of_waitIter (hc : c = .wait ∨ c = .resume ∧ s.ctl q = .waiting)
    (htouch : IsTouch s q s₁) (hsame : ∀ q, (s₁.procs q).state = (s.procs q).state)
    (hq : (s.procs q).state = .running) (hrun : waitIter s₁ q = .ok (s', r)) :
    Effect s (.call q c) s' := by
  rcases waitIter_ok hrun with ⟨z, d, hscan, hreaped, hpgdir, -, hfree, -⟩ | ⟨rfl, -⟩ |
    ⟨rfl, -, hscan⟩
  · rw [htouch.waitScan_eq hsame] at hscan
    obtain ⟨st, ch, k, ht⟩ := id htouch
    rw [ht.procs] at hpgdir
    rw [ht.pgdirs] at hfree
    exact .waited hq hc htouch hsame hscan hreaped hpgdir hfree
  · refine .touched (htouch.trans (isTouch_setCtl _ _)) ?_
    change (s₁.procs q).state ≠ .sleeping
    simp [hsame q, hq]
  · rw [htouch.waitScan_eq hsame] at hscan
    refine .slept hq (htouch.trans (isTouch_sleepOnSelf ((hsame q).trans hq) (.inr (.inl rfl))))
      (.inl ⟨?_, hscan⟩)
    exact update_self ..

theorem effect_of_joinIter {pid : ℤ} (hc : c = .join pid ∨ c = .resume ∧ s.ctl q = .joining pid)
    (htouch : IsTouch s q s₁) (hsame : ∀ q, (s₁.procs q).state = (s.procs q).state)
    (hq : (s.procs q).state = .running) (hrun : syscall s q c = .ok (joinIter s₁ q pid)) :
    Effect s (.call q c) (joinIter s₁ q pid).1 := by
  rcases joinIter_cases s₁ q pid with ⟨z, helig, hreaped, hpgdirs, hret⟩ | hfail | ⟨hscan, hsleep⟩
  · obtain ⟨st, ch, k, ht⟩ := id htouch
    refine .joined hq hc htouch hsame ?_ hreaped (hpgdirs.trans ht.pgdirs) (by rw [hrun, ← hret])
    obtain ⟨hpid, hparent, hthread, htgid⟩ := helig
    rw [ht.procs] at hpid hparent hthread htgid
    rw [ht.procs] at htgid
    exact ⟨hpid, hparent, hthread, htgid⟩
  · rw [hfail]
    refine .touched (htouch.trans (isTouch_setCtl _ _)) ?_
    change (s₁.procs q).state ≠ .sleeping
    simp [hsame q, hq]
  · rw [htouch.joinScan_eq hsame] at hscan
    rw [hsleep]
    refine .slept hq
      (htouch.trans (isTouch_sleepOnSelf ((hsame q).trans hq) (.inr (.inr ⟨pid, rfl⟩))))
      (.inr ⟨pid, ?_, hscan⟩)
    exact update_self ..

theorem awake_state (s : Kernel) (q r : Slot) :
    ((s.setProc q { s.procs q with chan := none }).procs r).state = (s.procs r).state := by
  rw [Kernel.setProc_procs]
  split_ifs with h
  · rw [h]
  · rfl

theorem markKilled_awake (hp : (s.procs p).state = .running) (q : Slot) :
    ((markKilled s q).procs p).state ≠ .sleeping := by
  by_cases hq : p = q
  · subst hq
    simp [markKilled, hp]
  · rw [markKilled, Kernel.setProc_procs_of_ne _ _ _ hq]
    simp [hp]

theorem effect_of_syscall (hen : Enabled s p c) (hrun : syscall s p c = .ok (s', r)) :
    Effect s (.call p c) s' := by
  have hp : (s.procs p).state = .running := hen.1
  have hused : (s.procs p).state ≠ .unused := by simp [hp]
  have hrefl : IsTouch s (Event.actor (.call p c)) s := isTouch_refl s p
  have hawake : (s.procs (Event.actor (.call p c))).state ≠ .sleeping := by
    rw [Event.actor, hp]
    exact ProcState.noConfusion
  cases c with
  | fork env =>
    obtain ⟨m, hm, -⟩ := returned_eq_ok hrun
    rcases fork_ok hm hused with ⟨rfl, -⟩ | ⟨np, hfail, -⟩ | ⟨np, child, hspawn, hfork, -⟩
    · exact .touched hrefl hawake
    · exact .spawnFailed rfl hfail
    · exact .forked hen hspawn hfork
  | clone flags env =>
    obtain ⟨m, hm, -⟩ := returned_eq_ok hrun
    rcases clone_ok hm hused with ⟨rfl, -⟩ | ⟨np, hfail, -⟩ | ⟨np, child, hspawn, hclone, -⟩
    · exact .touched hrefl hawake
    · exact .spawnFailed rfl hfail
    · exact .cloned hen hspawn hclone
  | exec env =>
    obtain ⟨m, hm, -⟩ := returned_eq_ok hrun
    rcases exec_ok hm with ⟨ic, hdropped, rfl⟩ | hexec
    · exact .walked hen hdropped
    · exact .execed hen hexec
  | sbrk n budget =>
    obtain ⟨m, hm, -⟩ := returned_eq_ok hrun
    rcases sysSbrk_ok hm with rfl | ⟨d, mem, mem', sz', hresized⟩
    · exact .touched hrefl hawake
    · exact .resized hen hresized
  | exit =>
    rw [syscall] at hrun
    split at hrun
    · cases hrun
    · rename_i s₁ hexit
      rw [state_of_ok hrun]
      obtain ⟨st, hexited⟩ := exit_ok hexit
      exact .exited hen hexited
  | wait => exact effect_of_waitIter (.inl rfl) (isTouch_refl s p) (fun _ => rfl) hp hrun
  | join pid =>
    rw [syscall] at hrun
    rw [state_of_ok hrun]
    exact effect_of_joinIter (.inl rfl) (isTouch_refl s p) (fun _ => rfl) hp rfl
  | resume =>
    rw [syscall, resume] at hrun
    dsimp only at hrun
    split at hrun
    · rename_i hctl
      exact effect_of_waitIter (.inr ⟨rfl, hctl⟩) (isTouch_awake hp) (awake_state s p) hp hrun
    · rename_i pid hctl
      rw [state_of_ok hrun]
      refine effect_of_joinIter (.inr ⟨rfl, hctl⟩) (isTouch_awake hp) (awake_state s p) hp ?_
      rw [syscall, resume, hctl]
    · rw [state_of_ok hrun]
      exact .touched hrefl hawake
  | kill pid =>
    rw [syscall, returned] at hrun
    rw [state_of_ok hrun, kill]
    split
    · exact .touched hrefl hawake
    · exact .touched (isTouch_markKilled s p _) (markKilled_awake hp _)
  | threadkill pid =>
    rw [syscall, returned] at hrun
    rw [state_of_ok hrun, threadkill]
    split
    · exact .touched hrefl hawake
    · exact .touched (isTouch_markKilled s p _) (markKilled_awake hp _)
  | chdir w isDir =>
    obtain ⟨m, hm, -⟩ := returned_eq_ok hrun
    rcases sysChdir_ok hm with ⟨ic, hdropped, rfl⟩ | hmoved
    · exact .walked hen hdropped
    · exact .moved hen hmoved
  | «open» w accept | dup fd | pipe argok page | close fd => exact .filed hen rfl hrun

/-- The scheduler's own changes. -/
theorem isTouch_schedule (hp : (s.procs p).state.Scheduled) (hst : st = .runnable ∨ st = .running) :
    IsTouch s p (s.setProc p { s.procs p with state := st }) := by
  have hset : s.setProc p { s.procs p with state := st } =
      (s.setProc p { s.procs p with state := st, chan := (s.procs p).chan }).setCtl p (s.ctl p) :=
    (Kernel.setCtl_eq_self (s.setProc p { s.procs p with state := st }) p).symm
  rw [hset]
  refine ⟨_, _, _, touched_setProc (.inl ⟨hp, .inr hst⟩) (.inl rfl) (fun h => absurd rfl h) ?_⟩
  rintro - rfl
  simp at hst

theorem step_effect {e : Event} (h : Step s e s') : Effect s e s' := by
  rcases step_cases h with ⟨p, c, r, rfl, hen, hrun⟩ | ⟨p, rfl, hst, rfl⟩ | ⟨p, rfl, hst, rfl⟩
  · exact effect_of_syscall hen hrun
  · refine .touched (isTouch_schedule (.inr (.inl hst)) (.inr rfl)) ?_
    simp [Event.actor]
  · refine .touched (isTouch_schedule (.inr (.inr hst)) (.inl rfl)) ?_
    simp [Event.actor]

end Xv6Threads
