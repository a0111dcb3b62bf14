/-
# Joining what one has cloned

`join` accepts a thread whose parent is the caller and whose group is the
caller's. `clone` makes the caller the parent of the new thread only if it is
not a thread itself and did not ask for `CLONE_PARENT`. In that case `join`
does what it should for the rest of the caller's life; in every other case it
refuses at once.
-/

import Xv6Threads.Analysis.Wakeups

namespace Xv6Threads

open Lib

variable {s s' : Kernel} {c p : Slot} {t : ℤ} {e : Event}

/-! ## The scan, when the thread is there -/

section Scan

-- `z` is the only process with the pid, and `q` may join it.
variable {procs : Slot → Proc} {q z : Slot} {pid : ℤ} {l : List Slot}

theorem joinScan_eq (helig : JoinEligible procs q z pid)
    (hunique : ∀ r, (procs r).pid = pid → r = z) (havekids : Bool) :
    joinScan procs q pid havekids l = some (if z ∈ l then
      if (procs z).state = .zombie then .found z else .kids true else .kids havekids) := by
  induction l generalizing havekids with
  | nil => rfl
  | cons p rest ih =>
    rw [joinScan]
    by_cases hp : (procs p).pid = pid
    · obtain rfl := hunique p hp
      rw [if_pos hp, if_neg (by simp [helig.parent, helig.isThread, helig.tgid]), ih]
      by_cases hz : (procs p).state = .zombie <;> simp [hz]
    · have hne : z ≠ p := by
        rintro rfl
        exact hp helig.pid
      rw [if_neg hp, ih]
      simp [hne]

end Scan

variable {q z : Slot}

theorem joinIter_of_zombie {pid : ℤ} (helig : JoinEligible s.procs q z pid)
    (hunique : ∀ r, (s.procs r).pid = pid → r = z) (hzombie : (s.procs z).state = .zombie) :
    (joinIter s q pid).2 = some pid := by
  rw [joinIter, joinScan_eq helig hunique, if_pos (List.mem_finRange z), if_pos hzombie]
  exact congrArg some helig.pid

theorem joinIter_of_running {pid : ℤ} (helig : JoinEligible s.procs q z pid)
    (hunique : ∀ r, (s.procs r).pid = pid → r = z) (hrunning : (s.procs z).state ≠ .zombie)
    (hkilled : (s.procs q).killed = false) :
    joinIter s q pid = (sleepOnSelf s q (.joining pid), none) := by
  rw [joinIter, joinScan_eq helig hunique, if_pos (List.mem_finRange z), if_neg hrunning]
  simp [hkilled]

/-! ## What the creator gets -/

/-- The call is a `join(t)` by `c`, beginning or going on. -/
def IsJoin (s : Kernel) (c : Slot) (t : ℤ) (call : Call) : Prop :=
  call = .join t ∨ call = .resume ∧ s.ctl c = .joining t

/-- Somebody's `join(t)` returns `t` in this step. -/
def JoinReturns (t : ℤ) (s : Kernel) : Event → Prop
  | .call q call => IsJoin s q t call ∧ ∃ s', syscall s q call = .ok (s', some t)
  | _ => False

/-- A `join(t)` by `c` in this state returns `t` if that process has exited and
goes to sleep if it has not; and if `c` already sleeps, it has not. -/
def JoinWorks (s : Kernel) (c : Slot) (t : ℤ) : Prop :=
  ∃ z, (s.procs z).pid = t ∧ (s.procs z).state ≠ .unused ∧
    (∀ call, IsJoin s c t call → Enabled s c call →
      ∃ s' r, syscall s c call = .ok (s', r) ∧
        ((s.procs z).state = .zombie ∧ r = some t ∨
          (s.procs z).state ≠ .zombie ∧ r = none ∧ (s'.procs c).state = .sleeping ∧
            s'.ctl c = .joining t)) ∧
    ((s.procs c).state = .sleeping → s.ctl c = .joining t → (s.procs z).state ≠ .zombie)

/-- From here on, as long as `c` lives and is not killed and nobody has joined
`t` yet, `join(t)` by `c` works. -/
def CreatorJoins (s₁ : Kernel) (c : Slot) (t : ℤ) : Prop :=
  ∀ s, ReachableBy Step (fun s e => ¬ JoinReturns t s e) s₁ s →
    (s.procs c).pid = (s₁.procs c).pid → (s.procs c).Live → (s.procs c).killed = false →
      JoinWorks s c t

/-- `z` is a thread `c` cloned and may join. -/
structure Joinable (s : Kernel) (c z : Slot) (t : ℤ) : Prop
    extends JoinEligible s.procs c z t where
  pthread : (s.procs z).pthread = some c

theorem PidsOk.unique {r : Slot} (hi : PidsOk s) (hz : (s.procs z).state ≠ .unused)
    (h : (s.procs r).pid = (s.procs z).pid) : r = z :=
  hi.inj r z h (h ▸ (hi.pos z hz).ne')

theorem TreeOk.used_of_parent (hi : TreeOk s) (h : (s.procs z).parent = some c) :
    (s.procs z).state ≠ .unused := by
  intro hfree
  rw [hi.free z hfree] at h
  cases h

theorem Joinable.same (h : Joinable s c z t) (hsame : SameIds s s') : Joinable s' c z t := by
  refine ⟨⟨?_, ?_, ?_, ?_⟩, ?_⟩
  · rw [hsame.pid, h.pid]
  · rw [hsame.parent, h.parent]
  · rw [hsame.isThread, h.isThread]
  · rw [hsame.tgid, hsame.tgid, h.tgid]
  · rw [hsame.pthread, h.pthread]

theorem Joinable.works (h : Joinable s c z t) (hpids : PidsOk s) (htree : TreeOk s)
    (hkilled : (s.procs c).killed = false)
    (hasleep : (s.procs c).state = .sleeping → s.ctl c = .joining t →
      (s.procs z).state ≠ .zombie) : JoinWorks s c t := by
  have hused := htree.used_of_parent h.parent
  -- both a new call and one that goes on take a turn of the loop
  have hturn : ∀ call s₂, SameIds s s₂ → (∀ r, (s₂.procs r).state = (s.procs r).state) →
      (s₂.procs c).killed = false → syscall s c call = .ok (joinIter s₂ c t) →
      ∃ s' r, syscall s c call = .ok (s', r) ∧
        ((s.procs z).state = .zombie ∧ r = some t ∨
          (s.procs z).state ≠ .zombie ∧ r = none ∧ (s'.procs c).state = .sleeping ∧
            s'.ctl c = .joining t) := by
    intro call s₂ hsame hstate hkilled₂ hrun
    have helig := (h.same hsame).toJoinEligible
    have hunique : ∀ r, (s₂.procs r).pid = t → r = z := by
      intro r hr
      apply hpids.unique hused
      rw [← hsame.pid, hr, h.pid]
    refine ⟨(joinIter s₂ c t).1, (joinIter s₂ c t).2, hrun, ?_⟩
    by_cases hzombie : (s.procs z).state = .zombie
    · exact .inl ⟨hzombie, joinIter_of_zombie helig hunique ((hstate z).trans hzombie)⟩
    · refine .inr ⟨hzombie, ?_⟩
      rw [joinIter_of_running helig hunique (by rwa [hstate]) hkilled₂]
      simp [sleepOnSelf]
  refine ⟨z, h.pid, hused, ?_, hasleep⟩
  rintro call (rfl | ⟨rfl, hctl⟩) hen
  · exact hturn _ s (SameIds.refl s) (fun _ => rfl) hkilled rfl
  · refine hturn _ _ (isTouch_awake hen.1).sameTree.toSameIds (awake_state s c) ?_ ?_
    · rw [Kernel.setProc_procs_self]
      exact hkilled
    · rw [syscall, resume, hctl]

/-- A step that leaves alone what `join` reads about the two. -/
theorem Joinable.of_eq (h : Joinable s c z t) (hpid : (s'.procs z).pid = (s.procs z).pid)
    (hparent : (s'.procs z).parent = (s.procs z).parent)
    (hthread : (s'.procs z).isThread = (s.procs z).isThread)
    (htgid : (s'.procs z).tgid = (s.procs z).tgid)
    (hpthread : (s'.procs z).pthread = (s.procs z).pthread)
    (hcaller : (s'.procs c).tgid = (s.procs c).tgid) : Joinable s' c z t :=
  ⟨⟨hpid.trans h.pid, hparent.trans h.parent, hthread.trans h.isThread,
    (htgid.trans h.tgid).trans hcaller.symm⟩, hpthread.trans h.pthread⟩

theorem Joinable.spawned {np : Slot} {flags : BitVec 32} {env : SpawnEnv} {child : Proc}
    (h : Joinable s c z t) (hz : (s.procs z).state ≠ .unused) (hc : (s.procs c).state ≠ .unused)
    (hspawn : Spawned s p np flags env child s') :
    Joinable s' c z t ∧ (s'.procs z).state = (s.procs z).state := by
  have hzn := hspawn.ne_of_used hz
  have hcn := hspawn.ne_of_used hc
  obtain ⟨_, _, hz'⟩ := hspawn.other_eq hzn
  obtain ⟨_, _, hc'⟩ := hspawn.other_eq hcn
  rw [hz']
  refine ⟨h.of_eq ?_ ?_ ?_ ?_ ?_ (by rw [hc']), rfl⟩
  all_goals rw [hz']

theorem Joinable.reaped {s₁ : Kernel} {z' : Slot} (h : Joinable s c z t) (hc : (s.procs c).Live)
    (hsame : SameIds s s₁) (hreaped : Reaped s₁ q z' s') (hne : z ≠ z') :
    Joinable s' c z t ∧ ((s'.procs z).state = .zombie → (s.procs z).state = .zombie) := by
  have h₁ := h.same hsame
  have hcz : c ≠ z' := by
    rintro rfl
    exact ((hsame.live c).mpr hc).2 hreaped.zombie
  have hz' := hreaped.kept z hne
  refine ⟨h₁.of_eq ?_ ?_ ?_ ?_ ?_ ?_, ?_⟩
  case refine_6 => rw [hreaped.kept c hcz]
  case refine_7 =>
      rw [hz']
      exact (hsame.zombie z).mp
  all_goals rw [hz']

theorem Joinable.exited_kept {st : Slot → ProcState} (h : Joinable s c z t)
    (hexit : Exited s p st s') (hcp : c ≠ p) : Joinable s' c z t := by
  have hparent : (s'.procs z).parent = (s.procs z).parent := by
    rw [hexit.procs]
    dsimp only
    rw [if_neg]
    rw [h.parent]
    exact fun heq => hcp (Option.some.inj heq)
  apply h.of_eq
  case hparent => exact hparent
  all_goals rw [hexit.procs]

theorem Joinable.exited {st : Slot → ProcState} (h : Joinable s c z t)
    (hchan : (s.procs c).state = .sleeping → (s.procs c).chan = some c) (hexit : Exited s p st s')
    (hcp : c ≠ p) :
    Joinable s' c z t ∧ ((s'.procs z).state = .zombie → (s.procs z).state = .zombie ∨
      (s'.procs c).state ≠ .sleeping) := by
  refine ⟨h.exited_kept hexit hcp, ?_⟩
  intro hzombie
  by_cases hzp : z = p
  · -- the thread itself exits, and wakes its creator
    subst hzp
    right
    intro hasleep
    rw [hexit.procs] at hasleep
    have hold : (s.procs c).state = .sleeping := by
      rcases hexit.woken c hcp with hsame | ⟨hold, -⟩
      · exact hsame.symm.trans hasleep
      · exact hold
    have hwake := hexit.wakes c hcp hold
      (by rw [hchan hold, exitChan, if_pos h.isThread, h.pthread])
    exact absurd (hwake.symm.trans hasleep) ProcState.noConfusion
  · rw [hexit.procs] at hzombie
    exact .inl ((hexit.woken z hzp).zombie_iff.mp hzombie)

theorem Joinable.step (h : Joinable s c z t) (htree : TreeOk s)
    (hchan : (s.procs c).state = .sleeping → (s.procs c).chan = some c)
    (hgood : ¬ JoinReturns t s e) (heffect : Effect s e s') (hc : (s.procs c).Live)
    (hc' : (s'.procs c).Live) :
    Joinable s' c z t ∧ ((s'.procs z).state = .zombie → (s.procs z).state = .zombie ∨
      (s'.procs c).state ≠ .sleeping) := by
  have hused := htree.used_of_parent h.parent
  have hsame : SameIds s s' → Joinable s' c z t ∧ ((s'.procs z).state = .zombie →
      (s.procs z).state = .zombie ∨ (s'.procs c).state ≠ .sleeping) :=
    fun hids => ⟨h.same hids, fun hzombie => .inl ((hids.zombie z).mp hzombie)⟩
  cases heffect with
  | touched h _ | slept hq h _ | moved hen h | execed hen h
  | resized hen h => exact hsame h.sameTree.toSameIds
  | spawnFailed hcut hfail =>
    have hcn := hfail.ne_of_used hc.1
    have hz' := hfail.other_eq (hfail.ne_of_used hused)
    refine ⟨h.of_eq ?_ ?_ ?_ ?_ ?_ (by rw [hfail.other_eq hcn]), fun hzombie => .inl ?_⟩
    case refine_6 => rwa [hz'] at hzombie
    all_goals rw [hz']
  | forked hen hspawn hfork | cloned hen hspawn hclone =>
    obtain ⟨h', hstate⟩ := h.spawned hused hc.1 hspawn
    exact ⟨h', fun hzombie => .inl (hstate ▸ hzombie)⟩
  | exited hen hexit =>
    refine h.exited hchan hexit ?_
    rintro rfl
    exact ((hexit.live_iff c).mp hc').2 rfl
  | waited hq hcall htouch hstate hscan hreaped hpgdir hfree =>
    rename_i q z' call d s₁
    -- `wait` frees no thread
    have hne : z ≠ z' := by
      rintro rfl
      have := (waitScan_found hscan).isThread
      rw [h.isThread] at this
      cases this
    obtain ⟨h', hzombie⟩ := h.reaped hc htouch.sameTree.toSameIds hreaped hne
    exact ⟨h', fun hz => .inl (hzombie hz)⟩
  | joined hq hcall htouch hstate helig hreaped hpgdirs hret =>
    rename_i q z' pid call s₁
    -- a `join` that returns something else frees another one
    have hne : z ≠ z' := by
      rintro rfl
      obtain rfl := helig.pid.symm.trans h.pid
      exact hgood ⟨hcall, _, hret⟩
    obtain ⟨h', hzombie⟩ := h.reaped hc htouch.sameTree.toSameIds hreaped hne
    exact ⟨h', fun hz => .inl (hzombie hz)⟩
  | filed hen hcall hrun => exact hsame (fileShape_of_isFile hcall hrun).sameTree.toSameIds
  | walked hen h => exact hsame (fileShape_of_tables s s.ftable _).sameTree.toSameIds

/-- A process with a pid handed out earlier did not appear in this step. -/
theorem TreeChange.live_before (h : TreeChange s e s') (hpid : (s'.procs c).pid < s.nextpid)
    (hlive : (s'.procs c).Live) :
    (s.procs c).Live ∧ (s'.procs c).pid = (s.procs c).pid := by
  cases h with
  | same h => exact ⟨(h.live c).mp hlive, h.pid c⟩
  | spawnFailed h =>
    have hcn := h.ne_of_used_after hlive.1
    exact ⟨(h.live_iff c).mp hlive, by rw [h.other_eq hcn]⟩
  | forked hen h hfork =>
    rename_i p np env child
    have hcn : c ≠ np := by
      rintro rfl
      rw [h.child_eq, hfork.pid] at hpid
      exact hpid.false
    exact ⟨((h.live_iff c).mp hlive).resolve_right hcn, h.pid_eq c hcn⟩
  | cloned hen h hclone =>
    rename_i p np flags env child
    have hcn : c ≠ np := by
      rintro rfl
      rw [h.child_eq, hclone.pid] at hpid
      exact hpid.false
    exact ⟨((h.live_iff c).mp hlive).resolve_right hcn, h.pid_eq c hcn⟩
  | exited hen h => exact ⟨((h.live_iff c).mp hlive).1, by rw [h.procs]⟩
  | reaped hsame h =>
    have hcz := h.ne_of_used_after hlive.1
    exact ⟨(hsame.live c).mp ((h.live_iff c).mp hlive), by rw [h.kept c hcz, hsame.pid]⟩

theorem TreeChange.nextpid_le (h : TreeChange s e s') : s.nextpid ≤ s'.nextpid := by
  cases h with
  | same h => exact h.nextpid.ge
  | spawnFailed h => exact (Int.le_add_one le_rfl).trans h.rest_eq.1.ge
  | forked hen h hfork | cloned hen h hclone => exact (Int.le_add_one le_rfl).trans h.nextpid.ge
  | exited hen h => exact h.nextpid.ge
  | reaped hsame h => exact (h.nextpid.trans hsame.nextpid).ge

/-- What carries through the run: as long as the creator lives, the thread is
there for it to join, and has not exited behind its back. -/
structure CreatorOk (k : ℤ) (c : Slot) (t : ℤ) (s : Kernel) : Prop where
  old : k < s.nextpid
  joinable : (s.procs c).pid = k → (s.procs c).Live → ∃ z, Joinable s c z t ∧
    ((s.procs c).state = .sleeping → s.ctl c = .joining t → (s.procs z).state ≠ .zombie)

theorem CreatorOk.step {k : ℤ} (hi : CreatorOk k c t s) (hreach : Reachable Step boot s)
    (hgood : ¬ JoinReturns t s e) (hstep : Step s e s') : CreatorOk k c t s' := by
  have htree := treeOk_of_reachable hreach
  have hpids := pidsOk_of_reachable hreach
  have hchange := step_tree hstep
  refine ⟨hi.old.trans_le hchange.nextpid_le, ?_⟩
  intro hpid hlive'
  obtain ⟨hlive, hpid'⟩ := hchange.live_before (hpid ▸ hi.old) hlive'
  obtain ⟨z, hz, hasleep⟩ := hi.joinable (hpid'.symm.trans hpid) hlive
  have hchan := chan_of_sleeping (lockReachable_of_reachable hreach) c
  have heffect := step_effect hstep
  obtain ⟨hz', hzombie⟩ := hz.step htree hchan hgood heffect hlive hlive'
  refine ⟨z, hz', ?_⟩
  intro hsleeping hctl hdead
  rcases heffect.asleep hsleeping with hstill | hfell
  · rcases hzombie hdead with hold | hawake
    · exact hasleep hstill.before (hstill.ctl ▸ hctl) hold
    · exact hawake hsleeping
  · -- the scan that made it sleep saw the thread alive
    rcases hfell.loop with ⟨hwaiting, -⟩ | ⟨pid, hjoining, hscan⟩
    · rw [hctl] at hwaiting
      cases hwaiting
    · rw [hctl] at hjoining
      obtain rfl := Ctl.joining.inj hjoining
      rcases joinScan_kids hscan with hkids | ⟨p, -, helig, hrunning⟩
      · cases hkids
      · obtain rfl := hpids.unique (htree.used_of_parent hz.parent) (helig.pid.trans hz.pid.symm)
        exact hrunning ((hfell.same.zombie p).mp hdead)

theorem cloned_joinable {s₁ : Kernel} {np : Slot} {flags : BitVec 32} {env : SpawnEnv}
    {child : Proc} (htree : TreeOk s) (hc : (s.procs c).state = .running)
    (h : Spawned s c np flags env child s₁) (hclone : CloneMade s c s.nextpid flags child s₁)
    (hthread : (s.procs c).isThread = false) (hflag : flagParent flags = false) :
    Joinable s₁ c np s.nextpid := by
  have hself := h.child_eq
  obtain ⟨_, _, hcaller⟩ := h.other_eq h.ne
  have hleads := htree.leads c (by simp [hc]) (by simp [hc]) hthread
  refine ⟨⟨?_, ?_, ?_, ?_⟩, ?_⟩
  · rw [hself, hclone.pid]
  · have hparent := hclone.parent
    rw [cloneParentOf, hthread, hflag] at hparent
    rw [hself]
    exact (Except.ok.inj hparent).symm
  · rw [hself, hclone.isThread]
  · rw [hself, hclone.tgid, hcaller]
    split_ifs
    · rfl
    · exact hleads.symm
  · rw [hself, hclone.pthread]

/-- Only a thread whose parent is the caller is not refused at once. -/
theorem JoinWorks.parent (h : JoinWorks s c t) (ht : 0 < t) (hen : Enabled s c (.join t)) :
    ∃ z, (s.procs z).pid = t ∧ (s.procs z).parent = some c := by
  obtain ⟨z, -, -, hcall, -⟩ := h
  obtain ⟨s', r, hrun, hresult⟩ := hcall (.join t) (.inl rfl) hen
  have hr : (joinIter s c t).2 = r := congrArg Prod.snd (Except.ok.inj hrun)
  rcases joinIter_cases s c t with ⟨p, helig, -⟩ | hfail | ⟨hscan, -⟩
  · exact ⟨p, helig.pid, helig.parent⟩
  · rw [hfail] at hr
    rcases hresult with ⟨-, rfl⟩ | ⟨-, rfl, -⟩
    · have := Option.some.inj hr
      omega
    · cases hr
  · rcases joinScan_kids hscan with hkids | ⟨p, -, helig, -⟩
    · cases hkids
    · exact ⟨p, helig.pid, helig.parent⟩

/-- The creator of a thread can join it if and only if the creator is not a
thread itself and did not pass `CLONE_PARENT`. -/
theorem creator_joins_iff {s s₁ : Kernel} {c : Slot} {flags : BitVec 32} {env : SpawnEnv} {t : ℤ}
    (hreach : Reachable Step boot s) (hen : Enabled s c (.clone flags env))
    (hrun : syscall s c (.clone flags env) = .ok (s₁, some t)) (ht : 0 < t) :
    CreatorJoins s₁ c t ↔ (s.procs c).isThread = false ∧ flagParent flags = false := by
  have hused : (s.procs c).state ≠ .unused := by simp [hen.1]
  have htree := treeOk_of_reachable hreach
  obtain ⟨m, hm, hmt⟩ := returned_eq_ok hrun
  cases hmt
  have hstep : Step s (.call c (.clone flags env)) s₁ := by
    rw [Step, next, if_pos hen, hrun]
    rfl
  have hreach₁ : Reachable Step boot s₁ := .extend hreach trivial hstep
  have hpids₁ := pidsOk_of_reachable hreach₁
  obtain ⟨np, child, hspawn, hclone, rfl⟩ : ∃ np child, Spawned s c np flags env child s₁ ∧
      CloneMade s c s.nextpid flags child s₁ ∧ t = s.nextpid := by
    rcases clone_ok hm hused with ⟨-, rfl⟩ | ⟨np, -, rfl⟩ | hmade
    · omega
    · omega
    · exact hmade
  have hcan := hen.canCall rfl
  obtain ⟨_, _, hcaller⟩ := hspawn.other_eq hspawn.ne
  have hlive₁ : (s₁.procs c).Live := (hspawn.live_iff c).mpr (.inl (live_of_running hen.1))
  constructor
  · intro hjoins
    have hworks := hjoins s₁ .start rfl hlive₁ (by rw [hcaller]; exact hcan.2.2)
    have hjoin : Enabled s₁ c (.join s.nextpid) := by
      refine ⟨by rw [hcaller]; exact hen.1, ?_, .inl (by rw [hcaller]; exact hcan.2.2), rfl⟩
      rw [hspawn.ctl, hcan.2.1]
      rfl
    obtain ⟨z, hz, hparent⟩ := hworks.parent ht hjoin
    have hself : (s₁.procs np).pid = s.nextpid := by rw [hspawn.child_eq, hclone.pid]
    obtain rfl : z = np := by
      apply hpids₁.unique _ (hz.trans hself.symm)
      simp [hspawn.child_eq, hspawn.state]
    have hchosen := hclone.parent
    rw [← hspawn.child_eq, hparent] at hchosen
    obtain ⟨-, ⟨-, hcond⟩ | hlt⟩ := htree.cloneParentOf (.inr (.inr hen.1)) hchosen
    · exact hcond
    · exact absurd hlt (lt_irrefl _)
  · rintro ⟨hthread, hflag⟩ s₂ hreach₂ hpid hlive hkilled
    have hstart : CreatorOk (s₁.procs c).pid c s.nextpid s₁ := by
      refine ⟨hpids₁.lt c, fun _ _ => ⟨np, ?_, ?_⟩⟩
      · exact cloned_joinable htree hen.1 hspawn hclone hthread hflag
      · intro _ _
        simp [hspawn.child_eq, hspawn.state]
    have hi : CreatorOk (s₁.procs c).pid c s.nextpid s₂ := by
      refine hreach₂.invariant hstart ?_
      intro s₃ e s₄ hreach₃ hi hgood hstep
      exact hi.step (hreach₁.trans hreach₃.reachable) hgood hstep
    have hreach' := hreach₁.trans hreach₂.reachable
    obtain ⟨z, hz, hasleep⟩ := hi.joinable hpid hlive
    exact hz.works (pidsOk_of_reachable hreach') (treeOk_of_reachable hreach') hkilled hasleep

/-- Init clones a thread without flags. -/
theorem creator_joins_iff_init :
    ∃ s s₁, Reachable Step boot s ∧ Enabled s 0 (.clone 0 ⟨true, some 1, 8⟩) ∧
      syscall s 0 (.clone 0 ⟨true, some 1, 8⟩) = .ok (s₁, some 2) ∧ CreatorJoins s₁ 0 2 := by
  have hrun : ∃ s, Reachable Step boot s ∧ (Enabled s 0 (.clone 0 ⟨true, some 1, 8⟩) ∧
      (s.procs 0).isThread = false ∧
      ((syscall s 0 (.clone 0 ⟨true, some 1, 8⟩)).toOption.any fun x =>
        decide (x.2 = some 2 ∧ True)) = true) :=
    exists_reachableBy [.dispatch 0] (by decide +kernel)
  obtain ⟨s, hreach, hen, hthread, hresult⟩ := hrun
  obtain ⟨s₁, hclone, -⟩ := ok_of_result (P := fun _ => True) hresult
  exact ⟨s, s₁, hreach, hen, hclone,
    (creator_joins_iff hreach hen hclone (by decide)).mpr ⟨hthread, by decide⟩⟩

/-- A thread of init clones a thread without flags; its `join` is refused, with
nobody killed and nothing joined before. -/
theorem thread_cannot_join_its_thread :
    ∃ s s₁ s₂, Reachable Step boot s ∧ Enabled s 1 (.clone 0 ⟨true, some 2, 8⟩) ∧
      syscall s 1 (.clone 0 ⟨true, some 2, 8⟩) = .ok (s₁, some 3) ∧ Enabled s₁ 1 (.join 3) ∧
      syscall s₁ 1 (.join 3) = .ok (s₂, some (-1)) := by
  have hrun : ∃ s, Reachable Step boot s ∧ (Enabled s 1 (.clone 0 ⟨true, some 2, 8⟩) ∧
      ((syscall s 1 (.clone 0 ⟨true, some 2, 8⟩)).toOption.any fun x =>
        decide (x.2 = some 3 ∧ Enabled x.1 1 (.join 3) ∧
          (joinIter x.1 1 3).2 = some (-1))) = true) :=
    exists_reachableBy [.dispatch 0, .call 0 (.clone 0 ⟨true, some 1, 8⟩), .dispatch 1]
      (by decide +kernel)
  obtain ⟨s, hreach, hen, hresult⟩ := hrun
  obtain ⟨s₁, hclone, hjoin, hrefused⟩ := ok_of_result
    (P := fun s₁ => Enabled s₁ 1 (.join 3) ∧ (joinIter s₁ 1 3).2 = some (-1)) hresult
  refine ⟨s, s₁, (joinIter s₁ 1 3).1, hreach, hen, hclone, hjoin, ?_⟩
  rw [syscall, ← hrefused]

end Xv6Threads
