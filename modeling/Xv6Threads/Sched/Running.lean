/-
# Running processes are current, and stacks outlive their use

Each function of the scheduler keeps the invariant, so it holds in every reachable
state. Read where the lock is free, it says that a process is `RUNNING` exactly if it
is `c->proc` of one CPU; read where a slot loses its kernel stack, it says that no CPU
executes on it.
-/

import Xv6Threads.Sched.Ownership

namespace Xv6Threads.Sched

open Lib
open Function (update update_eq_self update_of_ne update_self)

variable {C K : Type}

/-! ## What the critical sections do to other processes -/

theorem kept_wakeup1 (task : Slot → Task K) (ch : Option Chan) (q : Slot) :
    Kept (task q) (wakeup1 task ch q) := by
  rw [wakeup1]
  split_ifs with h
  · exact ⟨.inr ⟨h.1, rfl⟩, rfl, rfl, rfl⟩
  · exact .refl _

theorem kept_update {task : Slot → Task K} {p : Slot} {t : Task K} (h : Kept (task p) t)
    (q : Slot) : Kept (task q) (update task p t q) := by
  by_cases hq : q = p
  · rw [hq, update_self]
    exact h
  · rw [update_of_ne hq]
    exact .refl _

theorem kept_markKilled (t : Task K) : Kept t (markKilled t) where
  state := by
    rw [markKilled]
    by_cases h : t.state = .sleeping
    · exact .inr ⟨h, if_pos h⟩
    · exact .inl (if_neg h)
  kstack := rfl
  context := rfl
  making := rfl

theorem kept_kill (task : Slot → Task K) (pid : ℤ) (q : Slot) :
    Kept (task q) (kill task pid q) := by
  unfold kill
  cases (List.finRange NPROC).find? fun q => decide ((task q).pid = pid) with
  | none => exact .refl _
  | some r => exact kept_update (kept_markKilled _) q

theorem kept_passToInit (initproc p : Slot) (task : Slot → Task K) (r q : Slot) :
    Kept (task q) (passToInit initproc p task r q) := by
  have hparent : Kept (task r) { task r with parent := some initproc } := ⟨.inl rfl, rfl, rfl, rfl⟩
  unfold passToInit
  split_ifs
  · dsimp only
    split_ifs
    · exact (kept_update hparent q).trans (kept_wakeup1 _ _ q)
    · exact kept_update hparent q
  · exact .refl _

theorem kept_leaveFamily (initproc : Slot) (task : Slot → Task K) (p q : Slot) :
    Kept (task q) (leaveFamily initproc task p q) := by
  have hfold : ∀ (l : List Slot) (task' : Slot → Task K), Kept (task q) (task' q) →
      Kept (task q) (l.foldl (passToInit initproc p) task' q) := by
    intro l
    induction l with
    | nil => exact fun _ h => h
    | cons r l ih => exact fun task' h => ih _ (h.trans (kept_passToInit initproc p task' r q))
  exact hfold _ _ (kept_wakeup1 task _ q)

theorem kept_unchan (s : SchedState C K) (p q : Slot) :
    Kept (s.task q) ((s.setTask p { s.task p with chan := none }).task q) := by
  have hself : Kept (s.task p) { s.task p with chan := none } := ⟨.inl rfl, rfl, rfl, rfl⟩
  exact kept_update hself q

theorem place_holds {op : Op} {m : Making} {pl : Place} (h : op.place m = some pl) :
    pl.Holds = true ∧ pl.Parked = false := by
  cases op <;> cases m <;> cases h <;> exact ⟨rfl, rfl⟩

/-! ## The functions -/

variable [DecidableEq C] {s s' : SchedState C K} {c : C} {k : K} {p : Slot} {pl : Place}
variable {t : Task K} {np : Slot}

theorem sched_cpu {o : Option Slot} {a b : SchedPlace} {th : Option (K × Place)}
    (hrecord : s.cpu c = ⟨o, a, th⟩) : (s.sched c b).cpu c = ⟨o, b, th⟩ := by
  show update s.cpu c { s.cpu c with scheduler := b } c = _
  rw [update_self, hrecord]

theorem SchedOk.schedulerTurn (hi : SchedOk s) (hthread : (s.cpu c).thread = none)
    (h : schedulerTurn s c = some s') : StepOk s s' := by
  unfold Sched.schedulerTurn at h
  cases hi.cpus c with
  | idle hrecord hlock =>
    simp only [hrecord] at h
    split_ifs at h with hfree
    cases h
    exact hi.kept (fun _ => .refl _) rfl (fun _ => lock_others (.inl hfree) (.inr rfl)) rfl
      Iff.rfl (.scan (sched_cpu hrecord) rfl)
  | waking hrecord hlock =>
    simp only [hrecord] at h
    cases h
    exact hi.kept (kept_wakeup1 _ _) rfl (fun _ => lock_others (.inr hlock) (.inl rfl)) rfl
      Iff.rfl (.idle (sched_cpu hrecord) fun h => by cases h)
  | scan hrecord hlock =>
    rename_i ps
    cases ps with
    | nil =>
      simp only [hrecord] at h
      cases h
      exact hi.kept (fun _ => .refl _) rfl (fun _ => lock_others (.inr hlock) (.inl rfl)) rfl
        Iff.rfl (.idle (sched_cpu hrecord) fun h => by cases h)
    | cons p ps =>
      simp only [hrecord] at h
      split_ifs at h with hstate
      · cases h
        exact hi.pick hrecord hstate
      · cases h
        exact hi.kept (fun _ => .refl _) rfl (fun _ _ => Iff.rfl) rfl Iff.rfl
          (.scan (sched_cpu hrecord) hlock)
  | picked hrecord hlock hstate =>
    rename_i p ps
    simp only [hrecord] at h
    cases h
    have hproc : (s.cpu c).proc = some p := by rw [hrecord]
    refine hi.restate hproc (by rw [hstate]; rfl) rfl hproc Iff.rfl rfl rfl (fun _ => .refl _)
      rfl rfl rfl (.chosen (sched_cpu hrecord) hlock ?_)
    show (update s.task p { s.task p with state := .running } p).state = .running
    rw [update_self]
  | chosen hrecord hlock hstate =>
    rename_i p ps
    have hproc : (s.cpu c).proc = some p := by rw [hrecord]
    have hready : (s.task p).Ready := by
      refine hi.ready p (by rw [hstate]; rfl) fun c' hc' => ?_
      rw [hi.alone c' c p hc' hproc, hrecord]
    obtain ⟨k, next, hcontext, hkstack⟩ := hready
    simp only [hrecord, hcontext] at h
    cases h
    have hrecord' : update s.cpu c ⟨some p, .away ps, some (k, .back next)⟩ c =
        ⟨some p, .away ps, some (k, .back next)⟩ := update_self ..
    refine hi.swtch hproc rfl rfl rfl (update_eq_self p s.task).symm (fun _ => .refl _) rfl rfl
      (fun h => by cases h) (.thread hrecord' ?_ hkstack hstate)
    exact ⟨fun _ => rfl, fun _ => hlock⟩
  | back hrecord hlock hstate =>
    simp only [hrecord] at h
    cases h
    exact hi.clear hrecord
  | thread hrecord =>
    rw [hrecord] at hthread
    cases hthread

/-- A thread leaves its CPU to others: it changes the state and goes to `sched`. -/
theorem SchedOk.park (hi : SchedOk s) (hthread : (s.cpu c).thread = some (k, pl))
    (hproc : (s.cpu c).proc = some p) (hholds : pl.Holds = true) (hparked : pl.Parked = false)
    {task : Slot → Task K} {next : Next} (hothers : ∀ q, Kept (s.task q) (task q))
    (hkstack : t.kstack = (s.task p).kstack) (hcontext : t.context = (s.task p).context)
    (hmaking : t.making = (s.task p).making) (hleaves : Leaves t.state = true) :
    StepOk s ({ s with task := update task p t }.goto c k (.switching next)) := by
  obtain ⟨-, hiff, -, hstate⟩ := (hi.cpus c).of_thread hthread hproc
  rw [hparked] at hstate
  have hrunning : (s.task p).state = .running := hstate
  have hself : update task p t p = t := update_self ..
  refine hi.restate hproc (by rw [hrunning]; rfl) rfl hproc (by simp [hthread]) rfl rfl hothers
    hkstack hcontext hmaking ?_
  refine (hi.cpus c).moved hthread hproc rfl (hiff.trans (by rw [hholds]; rfl)) ?_ ?_
  · exact (congrArg Task.kstack hself).trans hkstack
  · show Leaves (update task p t p).state = true
    rwa [hself]

theorem SchedOk.released (hi : SchedOk s) (hthread : (s.cpu c).thread = some (k, pl))
    (hproc : (s.cpu c).proc = some p) (hholds : pl.Holds = true) (hparked : pl.Parked = false)
    {task : Slot → Task K} (htask : ∀ q, Kept (s.task q) (task q)) :
    StepOk s { s.release c k with task := task } :=
  hi.threadKept hthread hproc htask rfl (.inl hholds) rfl hparked rfl

theorem SchedOk.reapTurn (hi : SchedOk s) (hthread : (s.cpu c).thread = some (k, pl))
    (hproc : (s.cpu c).proc = some p) (hholds : pl.Holds = true) (hparked : pl.Parked = false)
    {next : Next} {found : ScanResult}
    (hfound : ∀ z, found = .found z → (s.task z).state = .zombie) :
    StepOk s (reapTurn s c k p next found) := by
  obtain ⟨-, hiff, -, -⟩ := (hi.cpus c).of_thread hthread hproc
  cases found with
  | found z => exact hi.reaped hthread hproc hholds hparked (hfound z rfl)
  | kids havekids =>
    rw [Sched.reapTurn]
    split_ifs
    · exact hi.released hthread hproc hholds hparked fun _ => .refl _
    · exact hi.threadKept hthread hproc (fun _ => .refl _) rfl (.inl hholds)
        (hiff.mpr hholds) hparked rfl

/-- `fork` or `clone` changes the slot it is making and releases the lock. -/
theorem SchedOk.madeAndReleased (hi : SchedOk s) (hthread : (s.cpu c).thread = some (k, pl))
    (hproc : (s.cpu c).proc = some p) (hholds : pl.Holds = true) (hparked : pl.Parked = false)
    {m : Making} {nextpid : ℤ} (hnp : (s.task np).state = .unused ∨ (s.task np).state = .embryo)
    (hmaking : t.making = (s.task np).making) (hkstack : t.kstack = (s.task np).kstack)
    (hrunning : t.state ≠ .running) (hready : Resumes t.state = true → t.Ready)
    (hown : ∀ q, q ≠ p → (s.task q).making.target ≠ some np)
    (hm : ∀ n, m.target = some n → n = np ∧ t.state = .embryo)
    (hchild : ∀ n, m = .child n → t.Ready) :
    StepOk s { (s.make p m np t).release c k with nextpid := nextpid } := by
  obtain ⟨-, -, -, hstate⟩ := (hi.cpus c).of_thread hthread hproc
  rw [hparked] at hstate
  have hp : (s.task p).state = .running := hstate
  have hpnp : p ≠ np := by
    rintro rfl
    exact hi.not_current hnp hproc
  have hmine : (s.make p m np t).task p = { s.task p with making := m } := by
    rw [make_task, update_of_ne hpnp, update_self]
  generalize hs' : ({ (s.make p m np t).release c k with nextpid := nextpid } : SchedState C K) = s'
  have htask : s'.task = (s.make p m np t).task := by
    rw [← hs']
    rfl
  have hlock : s'.lock = if Place.Holds .out then some c else none := by
    rw [← hs']
    rfl
  have hcpu : s'.cpu = update s.cpu c { s.cpu c with thread := some (k, .out) } := by
    rw [← hs']
    rfl
  obtain ⟨hiff, hothers⟩ := (hi.cpus c).lock_moved hthread hproc (.inl hholds) hlock
  refine hi.makes hp hnp htask hcpu rfl ?_ hothers ?_ hmaking hrunning hready ?_ hown hm hchild
  · rw [Cpu.stack, Cpu.stack, hthread]
    rfl
  · refine (hi.cpus c).moved hthread hproc hcpu hiff ?_ ?_
    · rw [htask, hmine]
    · rw [htask, hmine]
      exact hstate
  · intro q k hq hk
    rw [hkstack]
    exact fun h => hq (hi.kstacks q np k hk h)

/-- The same for a step outside the lock. -/
theorem SchedOk.madeOutside (hi : SchedOk s) (hthread : (s.cpu c).thread = some (k, .out))
    (hproc : (s.cpu c).proc = some p) {m : Making} (hnp : (s.task p).making.target = some np)
    (hmaking : t.making = (s.task np).making) (hrunning : t.state ≠ .running)
    (hready : Resumes t.state = true → t.Ready)
    (hfresh : ∀ q k, q ≠ np → (s.task q).kstack = some k → t.kstack ≠ some k)
    (hm : ∀ n, m.target = some n → n = np ∧ t.state = .embryo)
    (hchild : ∀ n, m = .child n → t.Ready) : StepOk s (s.make p m np t) := by
  obtain ⟨-, hiff, -, hp⟩ := (hi.cpus c).of_thread hthread hproc
  have hembryo := hi.made p np hnp
  have hpnp : p ≠ np := by
    rintro rfl
    exact hi.not_current (.inr hembryo) hproc
  have hmine : (s.make p m np t).task p = { s.task p with making := m } := by
    rw [make_task, update_of_ne hpnp, update_self]
  have hcpu : (s.make p m np t).cpu =
      update s.cpu c { s.cpu c with thread := some (k, .out) } := by
    rw [← hthread, update_eq_self]
    rfl
  refine hi.makes hp (.inr hembryo) rfl hcpu rfl ?_ (fun _ _ => Iff.rfl) ?_ hmaking hrunning
    hready hfresh ?_ hm hchild
  · rw [Cpu.stack, Cpu.stack, hthread]
  · refine (hi.cpus c).moved hthread hproc hcpu hiff ?_ ?_
    · rw [hmine]
    · rw [hmine]
      exact hp
  · exact fun q hq h => hq (hi.maker q p np h hnp)

theorem SchedOk.threadTurn (hi : SchedOk s) (hthread : (s.cpu c).thread = some (k, pl))
    (hproc : (s.cpu c).proc = some p) (h : threadTurn s c k p pl = some s') : StepOk s s' := by
  obtain ⟨⟨ps, hrecord⟩, hiff, hkstack, hstate⟩ := (hi.cpus c).of_thread hthread hproc
  cases pl with
  | out => cases h
  | yielding | sleeping ch next =>
    cases h
    exact hi.park hthread hproc rfl rfl (fun _ => .refl _) rfl rfl rfl rfl
  | exiting =>
    have hkept := kept_leaveFamily s.initproc s.task p
    unfold Sched.threadTurn at h
    generalize leaveFamily s.initproc s.task p = task at h hkept
    cases h
    exact hi.park hthread hproc rfl rfl hkept (hkept p).kstack (hkept p).context (hkept p).making
      rfl
  | waking ch =>
    cases h
    exact hi.released hthread hproc rfl rfl (kept_wakeup1 _ _)
  | killing pid =>
    cases h
    exact hi.released hthread hproc rfl rfl (kept_kill _ _)
  | waiting =>
    cases h
    exact hi.reapTurn hthread hproc rfl rfl fun z hz => (waitScan_found hz).zombie
  | joining pid =>
    rw [Sched.threadTurn] at h
    split at h
    · cases h
      exact hi.released hthread hproc rfl rfl fun _ => .refl _
    · rename_i found hfound
      cases h
      refine hi.reapTurn hthread hproc rfl rfl ?_
      rintro z rfl
      exact (joinScan_found hfound).2
  | allocating =>
    rw [Sched.threadTurn] at h
    split at h
    · cases h
      exact hi.released hthread hproc rfl rfl fun _ => .refl _
    · rename_i np hfind
      split_ifs at h
      cases h
      have hunused : (s.task np).state = .unused := by simpa using List.find?_some hfind
      refine hi.madeAndReleased hthread hproc rfl rfl (.inl hunused) rfl rfl ?_ ?_ ?_ ?_ ?_
      · exact fun h => by cases h
      · exact fun h => by cases h
      · intro q _ hq
        rw [hi.made q np hq] at hunused
        cases hunused
      · rintro n hn
        exact ⟨(Option.some.inj hn).symm, rfl⟩
      · exact fun n h => by cases h
  | publishing =>
    rw [Sched.threadTurn] at h
    split at h
    · rename_i np hmaking
      cases h
      have htarget : (s.task p).making.target = some np := by rw [hmaking]; rfl
      exact hi.madeAndReleased hthread hproc rfl rfl (.inr (hi.made p np htarget)) rfl rfl
        (fun h => by cases h) (fun _ => hi.child p np hmaking)
        (fun q hq h => hq (hi.maker q p np h htarget)) (fun n h => by cases h)
        (fun n h => by cases h)
    · cases h
  | switching next =>
    rw [Sched.threadTurn, hrecord] at h
    dsimp only at h
    split_ifs at h
    cases h
    have hheld : s.lock = some c := hiff.mpr rfl
    have hself : update s.task p { s.task p with context := some (k, next) } p =
        { s.task p with context := some (k, next) } := update_self ..
    have hrecord' : (s.swtchOut c k p next ps).cpu c = ⟨some p, .back ps, none⟩ :=
      (update_self ..).trans (by rw [hrecord])
    refine hi.swtch hproc rfl hproc rfl rfl (fun _ => .refl _) rfl rfl
      (fun _ => ⟨k, next, rfl, hkstack⟩) (.back hrecord' hheld ?_)
    show Leaves (update s.task p { s.task p with context := some (k, next) } p).state = _
    rw [hself]
    exact hstate
  | back next =>
    cases next with
    | release =>
      cases h
      exact hi.released hthread hproc rfl rfl fun _ => .refl _
    | slept =>
      cases h
      exact hi.released hthread hproc rfl rfl (kept_unchan s p)
    | wait | join pid =>
      cases h
      exact hi.threadKept hthread hproc (kept_unchan s p) rfl (.inl rfl) (hiff.mpr rfl) rfl rfl
    | never => cases h

theorem SchedOk.call (hi : SchedOk s) (hthread : (s.cpu c).thread = some (k, .out))
    (hproc : (s.cpu c).proc = some p) {op : Op} (h : call s c k p op = some s') :
    StepOk s s' := by
  unfold Sched.call at h
  split_ifs at h with hfree
  obtain ⟨pl, hpl, rfl⟩ := Option.map_eq_some_iff.mp h
  obtain ⟨hholds, hparked⟩ := place_holds hpl
  refine hi.threadKept hthread hproc (fun _ => .refl _) rfl (.inr hfree.1) ?_ rfl hparked
  rw [if_pos hholds]

theorem SchedOk.gaveUp (hi : SchedOk s) (hthread : (s.cpu c).thread = some (k, .out))
    (hproc : (s.cpu c).proc = some p) (hnp : (s.task p).making.target = some np) :
    StepOk s (s.make p .nothing np { s.task np with kstack := none, state := .unused }) :=
  hi.madeOutside hthread hproc hnp rfl (fun h => by cases h) (fun h => by cases h)
    (fun _ _ _ _ h => by cases h) (fun n h => by cases h) fun n h => by cases h

theorem SchedOk.giveUpChild (hi : SchedOk s) (hthread : (s.cpu c).thread = some (k, .out))
    (hproc : (s.cpu c).proc = some p) (h : giveUpChild s p = some s') : StepOk s s' := by
  unfold Sched.giveUpChild at h
  split at h
  · rename_i np hmaking
    cases h
    exact hi.gaveUp hthread hproc (by rw [hmaking]; rfl)
  · cases h

theorem SchedOk.fillChild (hi : SchedOk s) (hthread : (s.cpu c).thread = some (k, .out))
    {l : Lineage} (h : fillChild s p l = some s') : StepOk s s' := by
  unfold Sched.fillChild at h
  split at h
  · rename_i np hmaking
    cases h
    have hcpu : s.cpu = update s.cpu c { s.cpu c with thread := some (k, .out) } := by
      rw [← hthread, update_eq_self]
    have hself : Kept (s.task np) { s.task np with
        parent := l.parent, tgid := l.tgid, isThread := l.isThread, pthread := l.pthread } :=
      ⟨.inl rfl, rfl, rfl, rfl⟩
    refine hi.kept (kept_update hself) hcpu (fun _ _ => Iff.rfl) rfl (by simp [hthread]) ?_
    exact (hi.cpus c).frame rfl Iff.rfl (fun q _ => (kept_update hself q).state)
      fun q _ => (kept_update hself q).kstack
  · cases h

variable [DecidableEq K]

theorem SchedOk.allocStack (hi : SchedOk s) (hthread : (s.cpu c).thread = some (k, .out))
    (hproc : (s.cpu c).proc = some p) {page : Option K} (h : allocStack s p page = some s') :
    StepOk s s' := by
  unfold Sched.allocStack at h
  split at h
  case h_2 => cases h
  rename_i np hmaking
  have htarget : (s.task p).making.target = some np := by rw [hmaking]; rfl
  have hembryo := hi.made p np htarget
  cases page with
  | none =>
    cases h
    exact hi.gaveUp hthread hproc htarget
  | some page =>
    dsimp only at h
    split_ifs at h with hfree
    cases h
    refine hi.madeOutside hthread hproc htarget rfl ?_ ?_ ?_ ?_ ?_
    · exact fun h => by rw [hembryo] at h; cases h
    · exact fun _ => ⟨page, .release, rfl, rfl⟩
    · intro q k _ hk h
      exact hfree q (hk.trans h.symm)
    · exact fun n hn => ⟨(Option.some.inj hn).symm, hembryo⟩
    · exact fun _ _ => ⟨page, .release, rfl, rfl⟩

theorem SchedOk.step (hi : SchedOk s) {e : SchedEvent C K} (h : SchedStep s e s') :
    StepOk s s' := by
  unfold SchedStep schedNext at h
  dsimp only at h
  split at h
  · rename_i hthread
    exact hi.schedulerTurn hthread h
  · rename_i hthread hproc
    exact hi.threadTurn hthread hproc h
  · rename_i c ch hthread
    split_ifs at h with hidle
    cases h
    obtain ⟨hplace, hfree⟩ : (s.cpu c).scheduler = .idle ∧ s.lock = none := hidle
    cases hi.cpus c with
    | idle hrecord hlock =>
      exact hi.kept (fun _ => .refl _) rfl (fun _ => lock_others (.inl hfree) (.inr rfl)) rfl
        Iff.rfl (.waking (sched_cpu hrecord) rfl)
    | waking hrecord | scan hrecord | picked hrecord | chosen hrecord | back hrecord
    | thread hrecord =>
      rw [hrecord] at hplace
      cases hplace
  · rename_i hthread hproc
    exact hi.call hthread hproc h
  · rename_i hthread hproc
    exact hi.allocStack hthread hproc h
  · rename_i hthread hproc
    exact hi.fillChild hthread h
  · rename_i hthread hproc
    exact hi.giveUpChild hthread hproc h
  · cases h

/-! ## Runs -/

/-- The tables when the schedulers start: no CPU has a process, and the processes
`userinit` made wait on stacks of their own for their first turn. -/
structure Start (s : SchedState C K) : Prop where
  unlocked : s.lock = none
  idle : ∀ c, s.cpu c = ⟨none, .idle, none⟩
  states : ∀ p, (s.task p).state = .unused ∨ (s.task p).state = .runnable ∧ (s.task p).Ready
  kstacks : ∀ p q k, (s.task p).kstack = some k → (s.task q).kstack = some k → p = q
  making : ∀ p, (s.task p).making = .nothing

omit [DecidableEq C] [DecidableEq K] in
theorem Start.schedOk (h : Start s) : SchedOk s where
  cpus c := .idle (h.idle c) (by rw [h.unlocked]; exact fun h => by cases h)
  alone c _ _ hc := by
    rw [h.idle] at hc
    cases hc
  running p hp := by
    rcases h.states p with hs | ⟨hs, -⟩ <;> rw [hs] at hp <;> cases hp
  ready p hp _ := by
    rcases h.states p with hs | ⟨-, hs⟩
    · rw [hs] at hp
      cases hp
    · exact hs
  kstacks := h.kstacks
  made p np hnp := by
    rw [h.making] at hnp
    cases hnp
  child p np hnp := by
    rw [h.making] at hnp
    cases hnp
  maker p q np hp := by
    rw [h.making] at hp
    cases hp

theorem schedOk_of_reachable {init : SchedState C K} (hstart : Start init)
    (hreach : Reachable SchedStep init s) : SchedOk s := by
  refine hreach.invariant hstart.schedOk ?_
  intro s e s' _ hi _ hstep
  exact (hi.step hstep).ok

/-- Where the lock is free, the running processes are those some CPU has as its
`c->proc`, each on exactly one CPU, and whatever step takes a kernel stack from a slot,
no CPU executes on it. -/
theorem running_iff_current {init : SchedState C K} (hstart : Start init)
    (hreach : Reachable SchedStep init s) :
    (s.lock = none →
      (∀ p, (s.task p).state = .running ↔ ∃! c, (s.cpu c).proc = some p) ∧
        ∀ c p, (s.cpu c).proc = some p → (s.task p).state = .running) ∧
      ∀ e s', SchedStep s e s' → ∀ p k, (s.task p).kstack = some k → (s'.task p).kstack = none →
        ∀ c, (s.cpu c).stack ≠ some k ∧ (s'.cpu c).stack ≠ some k := by
  have hi := schedOk_of_reachable hstart hreach
  refine ⟨fun hfree => ?_, fun e s' hstep p k hk hnone => ?_⟩
  · have hcurrent : ∀ c p, (s.cpu c).proc = some p → (s.task p).state = .running := by
      intro c p hproc
      refine (hi.cpus c).running ?_ hproc
      rw [hfree]
      exact fun h => by cases h
    refine ⟨fun p => ⟨fun hp => ?_, ?_⟩, hcurrent⟩
    · obtain ⟨c, hc⟩ := hi.running p hp
      exact ⟨c, hc, fun c' hc' => hi.alone c' c p hc' hc⟩
    · rintro ⟨c, hc, -⟩
      exact hcurrent c p hc
  · refine (hi.step hstep).freed p k hk ?_
    rw [hnone]
    exact fun h => by cases h

/-- Two CPUs and one process that waits for its first turn. -/
def oneProcess : SchedState Bool ℕ where
  lock := none
  cpu := fun _ => {}
  task := Function.update (fun _ => {}) 0
    { state := .runnable, pid := 1, tgid := 1, kstack := some 3, context := some (3, .release) }
  initproc := 0
  nextpid := 2

theorem oneProcess_task_of_ne {p : Slot} (hp : p ≠ 0) : oneProcess.task p = {} := by
  unfold oneProcess
  dsimp only
  rw [update_of_ne hp]

theorem start_oneProcess : Start oneProcess where
  unlocked := rfl
  idle _ := rfl
  states p := by
    by_cases hp : p = 0
    · rw [hp]
      exact .inr ⟨rfl, 3, .release, rfl, rfl⟩
    · refine .inl ?_
      rw [oneProcess_task_of_ne hp]
  kstacks p q k hp hq := by
    have hzero : ∀ {r}, (oneProcess.task r).kstack = some k → r = 0 := by
      intro r hr
      by_contra h
      rw [oneProcess_task_of_ne h] at hr
      cases hr
    rw [hzero hp, hzero hq]
  making p := by
    by_cases hp : p = 0
    · rw [hp]
      rfl
    · rw [oneProcess_task_of_ne hp]

/-- The first process forks, the second CPU runs the child. -/
def forkAndRun : List (SchedEvent Bool ℕ) :=
  List.replicate 5 (.turn false) ++
    [.call false .fork, .turn false, .kalloc false (some 7), .fill false ⟨some 0, 2, false, none⟩,
      .call false .publish, .turn false] ++
    List.replicate 6 (.turn true)

/-- The child exits, its CPU leaves the lock, and the parent calls `wait`. -/
def exitAndWait : List (SchedEvent Bool ℕ) :=
  [.call true .exit] ++ List.replicate 66 (.turn true) ++ [.call false .wait]

/-- Parent and child run on two CPUs, and later the parent frees the child's stack. -/
theorem running_iff_current_reaped :
    (∃ s, Reachable SchedStep oneProcess s ∧
      (s.lock = none ∧ (s.task 0).state = .running ∧ (s.task 1).state = .running) ∧
      ∃! c, (s.cpu c).proc = some 1) ∧
    ∃ s s', Reachable SchedStep oneProcess s ∧ SchedStep s (.turn false) s' ∧
      ((s.task 1).kstack = some 7 ∧ (s'.task 1).kstack = none) ∧
      ∀ c, (s.cpu c).stack ≠ some 7 ∧ (s'.cpu c).stack ≠ some 7 := by
  have hboth : ∃ s, Reachable SchedStep oneProcess s ∧
      s.lock = none ∧ (s.task 0).state = .running ∧ (s.task 1).state = .running :=
    exists_reachableBy forkAndRun (by decide +kernel)
  have hreap : ∃ s, Reachable SchedStep oneProcess s ∧
      ((schedNext s (.turn false)).any fun s' =>
        decide ((s.task 1).kstack = some 7 ∧ (s'.task 1).kstack = none)) = true :=
    exists_reachableBy (forkAndRun ++ exitAndWait) (by decide +kernel)
  obtain ⟨s, hs, hlock, hzero, hone⟩ := hboth
  obtain ⟨t, ht, hany⟩ := hreap
  obtain ⟨t', hstep, hkstack⟩ := (Option.any_eq_true ..).mp hany
  have hfreed := of_decide_eq_true hkstack
  refine ⟨⟨s, hs, ⟨hlock, hzero, hone⟩, ?_⟩, t, t', ht, hstep, hfreed, ?_⟩
  · exact (((running_iff_current start_oneProcess hs).1 hlock).1 1).mp hone
  · exact (running_iff_current start_oneProcess ht).2 _ t' hstep 1 7 hfreed.1 hfreed.2

end Xv6Threads.Sched
