/-
# When a thread's stack is freed

`join_threads` frees the stack whatever `join` returns. For a thread that still runs `join`
returns only if it refuses the caller, and it refuses a creator that is a thread itself or
has passed `CLONE_PARENT`: the new thread's parent is somebody else then.
-/

import Xv6Threads.Analysis.Joining
import Xv6Threads.Kernel.Threadlib

namespace Xv6Threads

open Lib
open Function (update update_of_ne update_self)

variable {s s' : Kernel} {e : Event} {pid k : ℤ} {c z : Slot} {v : Created} {call : Call}
variable {r : Option ℤ} {x y : Program}

/-- No process with the pid is left that has not exited: its slot is a `ZOMBIE`, has been
given back, or never was. -/
def Over (s : Kernel) (pid : ℤ) : Prop := ∀ z, (s.procs z).pid = pid → ¬(s.procs z).Live

instance (s : Kernel) (pid : ℤ) : Decidable (Over s pid) :=
  inferInstanceAs (Decidable (∀ z, (s.procs z).pid = pid → ¬(s.procs z).Live))

/-- The creator is not a thread and did not pass `CLONE_PARENT`. -/
def Created.Own (v : Created) : Prop := v.nested = false ∧ flagParent v.flags = false

instance (v : Created) : Decidable v.Own := inferInstanceAs (Decidable (_ ∧ _))

/-- A thread that still runs is joined only by a creator that `join` accepts. -/
def JoinsOwn (x : Program) : UserEvent → Prop
  | .join _ v => v.Own ∨ Over x.kernel v.thread.pid
  | _ => True

instance (x : Program) : DecidablePred (JoinsOwn x)
  | .join _ _ => inferInstanceAs (Decidable (_ ∨ _))
  | .other _ | .create _ _ | .resume _ | .free _ => inferInstanceAs (Decidable True)

/-! ## What stays true of a created thread -/

/-- What the kernel knows about a THREAD value of the process with pid `k`. -/
structure Known (s : Kernel) (k : ℤ) (v : Created) : Prop where
  old : v.thread.pid < s.nextpid
  creator : k < s.nextpid
  own : v.Own → ∀ c z, (s.procs c).pid = k → (s.procs c).Live →
    (s.procs z).pid = v.thread.pid → (s.procs z).Live → Joinable s c z v.thread.pid
  strange : ¬v.Own → ∀ z q, (s.procs z).pid = v.thread.pid → (s.procs z).Live →
    (s.procs z).parent = some q → (s.procs q).pid < k

theorem Over.treeChange (h : Over s pid) (hchange : TreeChange s e s') (hold : pid < s.nextpid) :
    Over s' pid := by
  intro z hz hlive
  obtain ⟨hlive', hz'⟩ := hchange.live_before (hz ▸ hold) hlive
  exact h z (hz'.symm.trans hz) hlive'

/-- The thread stays joinable as long as both live. -/
theorem Joinable.treeChange {t : ℤ} (h : Joinable s c z t) (htree : TreeOk s)
    (hchange : TreeChange s e s') (hc : (s.procs c).Live) (hc' : (s'.procs c).Live)
    (hz' : (s'.procs z).Live) :
    Joinable s' c z t := by
  have hused := htree.used_of_parent h.parent
  cases hchange with
  | same hsame => exact h.same hsame.toSameIds
  | spawnFailed hfail =>
    have hz := hfail.other_eq (hfail.ne_of_used hused)
    have hcaller := hfail.other_eq (hfail.ne_of_used hc.1)
    apply h.of_eq
    case hcaller => rw [hcaller]
    all_goals rw [hz]
  | forked hen hspawn hfork | cloned hen hspawn hclone => exact (h.spawned hused hc.1 hspawn).1
  | exited hen hexit => exact h.exited_kept hexit ((hexit.live_iff c).mp hc').2
  | reaped hsame hreaped =>
    exact (h.reaped hc hsame.toSameIds hreaped (hreaped.ne_of_used_after hz'.1)).1

/-- A parent changes only when it exits, and then to init. -/
theorem TreeChange.parent_pid {q : Slot} (h : TreeChange s e s') (htree : TreeOk s)
    (hpids : PidsOk s) (hlive : (s.procs z).Live) (hlive' : (s'.procs z).Live)
    (hq : (s'.procs z).parent = some q) :
    ∃ q', (s.procs z).parent = some q' ∧ (s'.procs q).pid ≤ (s.procs q').pid := by
  cases h with
  | same h => exact ⟨q, (h.parent z).symm.trans hq, (h.pid q).le⟩
  | spawnFailed h =>
    rw [h.other_eq (h.ne_of_used hlive.1)] at hq
    have hused := (htree.parent z q hq).1.ne.1
    exact ⟨q, hq, by rw [h.other_eq (h.ne_of_used hused)]⟩
  | forked hen h hfork | cloned hen h hclone =>
    obtain ⟨_, _, hz⟩ := h.other_eq (h.ne_of_used hlive.1)
    rw [hz] at hq
    have hused := (htree.parent z q hq).1.ne.1
    exact ⟨q, hq, (h.pid_eq q (h.ne_of_used hused)).le⟩
  | exited hen h =>
    rename_i p st
    rw [h.procs] at hq
    dsimp only at hq
    have hpid : (s'.procs q).pid = (s.procs q).pid := by rw [h.procs]
    split_ifs at hq with hp
    · -- passed to init, whose pid is the least of all
      cases hq
      refine ⟨p, hp, ?_⟩
      rw [hpid, htree.init.2.1]
      exact hpids.pos p (htree.parent z p hp).1.ne.1
    · exact ⟨q, hq, hpid.le⟩
  | reaped hsame h =>
    rename_i p z' s₁
    rw [h.kept z (h.ne_of_used_after hlive'.1), hsame.parent] at hq
    refine ⟨q, hq, ?_⟩
    have hqz : q ≠ z' := by
      rintro rfl
      exact (htree.parent z q hq).1.ne.2.2 ((hsame.zombie q).mp h.zombie)
    rw [h.kept q hqz, hsame.pid]

theorem Known.treeChange (h : Known s k v) (htree : TreeOk s) (hpids : PidsOk s)
    (hchange : TreeChange s e s') : Known s' k v := by
  refine ⟨h.old.trans_le hchange.nextpid_le, h.creator.trans_le hchange.nextpid_le, ?_, ?_⟩
  · intro hown c z hc hlive hz hlivez
    obtain ⟨hlive₀, hc₀⟩ := hchange.live_before (hc ▸ h.creator) hlive
    obtain ⟨hlivez₀, hz₀⟩ := hchange.live_before (hz ▸ h.old) hlivez
    have hjoinable := h.own hown c z (hc₀.symm.trans hc) hlive₀ (hz₀.symm.trans hz) hlivez₀
    exact hjoinable.treeChange htree hchange hlive₀ hlive hlivez
  · intro hother z q hz hlivez hq
    obtain ⟨hlivez₀, hz₀⟩ := hchange.live_before (hz ▸ h.old) hlivez
    obtain ⟨q', hq', hle⟩ := hchange.parent_pid htree hpids hlivez₀ hlivez hq
    exact hle.trans_lt (h.strange hother z q' (hz₀.symm.trans hz) hlivez₀ hq')

theorem known_none (hpids : PidsOk s) (hk : k < s.nextpid) (hv : v.thread.pid = -1) :
    Known s k v := by
  have hnobody : ∀ z, (s.procs z).pid = v.thread.pid → ¬(s.procs z).Live := by
    intro z hz hlive
    have hpos := hpids.pos z hlive.1
    omega
  have hnext := hpids.next
  refine ⟨by omega, hk, ?_, ?_⟩
  · intro _ c z _ _ hz hlive
    exact absurd hlive (hnobody z hz)
  · intro _ z q hz hlive
    exact absurd hlive (hnobody z hz)

theorem step_of_syscall {p : Slot} (hen : Enabled s p call)
    (hrun : syscall s p call = .ok (s', r)) :
    Step s (.call p call) s' := by
  rw [Step, next, if_pos hen, hrun]
  rfl

theorem known_cloned {np : Slot} {flags : BitVec 32} {env : SpawnEnv} {child : Proc}
    {stack : BitVec 32} (htree : TreeOk s) (hpids : PidsOk s) (hc : (s.procs c).state = .running)
    (h : Spawned s c np flags env child s') (hclone : CloneMade s c s.nextpid flags child s')
    (hpids' : PidsOk s') :
    Known s' (s.procs c).pid ⟨⟨s.nextpid, stack⟩, flags, (s.procs c).isThread⟩ := by
  have hself : (s'.procs np).pid = s.nextpid := by rw [h.child_eq, hclone.pid]
  have hnew : ∀ z, (s'.procs z).pid = s.nextpid → z = np := by
    intro z hz
    apply hpids'.unique _ (hz.trans hself.symm)
    simp [h.child_eq, h.state]
  have hnext := h.nextpid
  have hold := hpids.lt c
  refine ⟨?_, by omega, ?_, ?_⟩
  · show s.nextpid < s'.nextpid
    omega
  · rintro ⟨hthread, hflag⟩ c' z hc' hlive' hz hlive
    obtain rfl := hnew z hz
    obtain rfl : c' = c := by
      apply hpids'.unique ((h.live_iff c).mpr (.inl (live_of_running hc))).1
      rw [hc', h.pid_eq c h.ne]
    exact cloned_joinable htree hc h hclone hthread hflag
  · intro hstrange z q hz hlive hq
    obtain rfl := hnew z hz
    have hparent := hclone.parent
    rw [← h.child_eq, hq] at hparent
    obtain ⟨hsched, ⟨rfl, hown⟩ | hlt⟩ := htree.cloneParentOf (.inr (.inr hc)) hparent
    · exact absurd hown hstrange
    · rwa [h.pid_eq q (h.ne_of_used hsched.ne.1)]

/-- What `create_thread` returns is known from then on. -/
theorem known_created {a : CreateArgs} {t : Thread} (hreach : Reachable Step boot s)
    (hen : Enabled s c (.clone a.flags a.env)) (hrun : createThread s c a = .ok (s', t)) :
    (s' = s ∨ Step s (.call c (.clone a.flags a.env)) s') ∧
      Known s' (s.procs c).pid ⟨t, a.flags, (s.procs c).isThread⟩ := by
  have hpids := pidsOk_of_reachable hreach
  have htree := treeOk_of_reachable hreach
  rw [createThread] at hrun
  split_ifs at hrun with hargs
  · split at hrun
    · cases hrun
    · rename_i s₁ ret hclone
      obtain ⟨rfl, rfl⟩ := Prod.mk.inj (Except.ok.inj hrun)
      have hstep : Step s (.call c (.clone a.flags a.env)) s₁ :=
        step_of_syscall hen (by rw [syscall, hclone, returned])
      have hpids' := pidsOk_of_reachable (.extend hreach trivial hstep)
      refine ⟨.inr hstep, ?_⟩
      rcases clone_ok hclone (by simp [hen.1]) with ⟨rfl, rfl⟩ | ⟨np, hfail, rfl⟩ |
        ⟨np, child, hspawn, hmade, rfl⟩
      · exact known_none hpids (hpids.lt c) rfl
      · have hnext := hfail.rest_eq.1
        have hold := hpids.lt c
        exact known_none hpids' (by omega) rfl
      · exact known_cloned htree hpids hen.1 hspawn hmade hpids'
  · cases hrun
    exact ⟨.inl rfl, known_none hpids (hpids.lt c) rfl⟩

/-! ## One step of a program -/

/-- What a step of a program is. -/
inductive Uses (x : Program) : UserEvent → Program → Prop
  | other {e : Event} {s : Kernel} (hout : outside x e = true) (hstep : Step x.kernel e s) :
      Uses x (.other e) { x with kernel := s }
  | create {c : Slot} {a : CreateArgs} {s : Kernel} {t : Thread}
      (hidle : x.phaseOf c = .idle) (hen : Enabled x.kernel c (.clone a.flags a.env))
      (hrun : createThread x.kernel c a = .ok (s, t)) :
      Uses x (.create c a) { x with
        kernel := s
        held := update x.held (x.kernel.procs c).pid
          (⟨t, a.flags, (x.kernel.procs c).isThread⟩ :: x.held (x.kernel.procs c).pid) }
  | join {c : Slot} {v : Created} {s : Kernel} {r : Option ℤ} (hidle : x.phaseOf c = .idle)
      (hheld : v ∈ x.held (x.kernel.procs c).pid)
      (hen : Enabled x.kernel c (.join v.thread.pid))
      (hrun : syscall x.kernel c (.join v.thread.pid) = .ok (s, r)) :
      Uses x (.join c v) {
        kernel := s
        held := update x.held (x.kernel.procs c).pid
          ((x.held (x.kernel.procs c).pid).erase v)
        phase := update x.phase (x.kernel.procs c).pid
          (afterJoin v (s.procs c).killed r) }
  | resume {c : Slot} {v : Created} {s : Kernel} {r : Option ℤ}
      (hphase : x.phaseOf c = .joining v) (hen : Enabled x.kernel c .resume)
      (hrun : syscall x.kernel c .resume = .ok (s, r)) :
      Uses x (.resume c) { x with
        kernel := s
        phase := update x.phase (x.kernel.procs c).pid
          (afterJoin v (s.procs c).killed r) }
  | free {c : Slot} {v : Created} {ret : ℤ} (hphase : x.phaseOf c = .freeing v ret)
      (hrunning : (x.kernel.procs c).state = .running) :
      Uses x (.free c) { x with
        phase := update x.phase (x.kernel.procs c).pid .idle }

theorem userStep_cases {e : UserEvent} (h : UserStep x e y) : Uses x e y := by
  rw [UserStep] at h
  cases e with
  | other e =>
    rw [nextUser] at h
    split_ifs at h with hout
    obtain ⟨s, hs, rfl⟩ := Option.map_eq_some_iff.mp h
    exact .other hout hs
  | create c a =>
    rw [nextUser] at h
    split at h
    · rename_i hidle
      split_ifs at h with hen
      split at h
      · cases h
      · rename_i s t hrun
        cases h
        exact .create hidle hen hrun
    · cases h
  | join c v =>
    rw [nextUser] at h
    split at h
    · rename_i hidle
      split_ifs at h with hjoin
      rw [joinThreads] at h
      split at h
      · cases h
      · rename_i s r hrun
        cases h
        exact .join hidle hjoin.1 hjoin.2 hrun
    · cases h
  | resume c =>
    rw [nextUser] at h
    split at h
    · rename_i v hphase
      split_ifs at h with hen
      rw [joinThreads] at h
      split at h
      · cases h
      · rename_i s r hrun
        cases h
        exact .resume hphase hen hrun
    · cases h
  | free c =>
    rw [nextUser] at h
    split at h
    · rename_i v ret hphase
      split_ifs at h with hrunning
      cases h
      exact .free hphase hrunning
    · cases h

/-! ## A turn of `join` -/

/-- Nobody but the process itself moves it on in the kernel. -/
theorem step_ctl {q : Slot} (h : Step s e s') (hq : ∀ call, e ≠ .call q call) :
    s'.ctl q = s.ctl q := by
  rcases step_cases h with ⟨p, call, r, rfl, hen, hrun⟩ | ⟨p, rfl, -, rfl⟩ | ⟨p, rfl, -, rfl⟩
  case inr.inl => rfl
  case inr.inr => rfl
  have hqp : q ≠ p := by
    rintro rfl
    exact hq call rfl
  cases effect_of_syscall hen hrun with
  | touched h _ | slept _ h _ =>
    obtain ⟨_, _, _, h⟩ := h
    exact (h.others q hqp).2.1
  | spawnFailed _ h => rw [h.rest_eq.2.2.2.2.2.2]
  | forked _ h _ => rw [h.ctl]
  | cloned _ h _ => rw [h.ctl]
  | exited _ h => rw [h.ctl]
  | waited _ _ htouch _ _ h _ _ | joined _ _ htouch _ _ h _ _ =>
    obtain ⟨_, _, _, htouch⟩ := htouch
    rw [h.ctl, update_of_ne hqp, (htouch.others q hqp).2.1]
  | filed _ hfile hrun =>
    obtain ⟨_, _, _, rfl⟩ := fileShape_of_isFile hfile hrun
    rfl
  | walked _ _ => rfl
  | moved _ h => rw [h.ctl]
  | execed _ h => rw [h.ctl]
  | resized _ h => rw [h.shape]; rfl

/-- A `join` that begins and one that goes on both take a turn of the loop. -/
theorem syscall_isJoin (hcall : IsJoin s c pid call) (hen : Enabled s c call) :
    ∃ s₁, SameIds s s₁ ∧ syscall s c call = .ok (joinIter s₁ c pid) := by
  rcases hcall with rfl | ⟨rfl, hctl⟩
  · exact ⟨s, SameIds.refl s, rfl⟩
  · refine ⟨_, (isTouch_awake hen.1).sameTree.toSameIds, ?_⟩
    rw [syscall, resume, hctl]

theorem join_blocks (hcall : IsJoin s c pid call) (hen : Enabled s c call)
    (hrun : syscall s c call = .ok (s', none)) : s'.ctl c = .joining pid := by
  obtain ⟨s₁, -, hturn⟩ := syscall_isJoin hcall hen
  have hiter := Except.ok.inj (hrun.symm.trans hturn)
  rcases joinIter_cases s₁ c pid with ⟨z, -, -, -, hret⟩ | hfail | ⟨-, hsleep⟩
  · rw [← hiter] at hret
    cases hret
  · cases hiter.trans hfail
  · rw [(Prod.mk.inj (hiter.trans hsleep)).1]
    exact update_self ..

/-- A `join` that does not refuse its caller, and does not find it killed, returns only when
the thread is over. -/
theorem join_returns {n : ℤ} (hpids : PidsOk s) (hcall : IsJoin s c pid call)
    (hen : Enabled s c call)
    (hjoinable : ∀ z, (s.procs z).pid = pid → (s.procs z).Live → Joinable s c z pid)
    (hrun : syscall s c call = .ok (s', some n)) (hkilled : (s'.procs c).killed = false) :
    Over s' pid := by
  obtain ⟨s₁, hsame, hturn⟩ := syscall_isJoin hcall hen
  have hiter := Except.ok.inj (hrun.symm.trans hturn)
  have hpids₁ := hpids.same hsame
  rcases joinIter_cases s₁ c pid with ⟨z, helig, hreaped, -, -⟩ | hfail | ⟨-, hsleep⟩
  · rw [← hiter] at hreaped
    intro y hy hlive
    have hyz := hreaped.ne_of_used_after hlive.1
    rw [hreaped.kept y hyz] at hy
    have hused : (s₁.procs z).state ≠ .unused := by simp [hreaped.zombie]
    exact hyz (hpids₁.unique hused (hy.trans helig.pid.symm))
  · obtain rfl : s' = s₁.setCtl c .user := (Prod.mk.inj (hiter.trans hfail)).1
    intro z hz hlive
    -- a thread that runs would have put the caller to sleep
    have helig := (hjoinable z ((hsame.pid z).symm.trans hz) ((hsame.live z).mp hlive)).same hsame
    have hunique : ∀ r, (s₁.procs r).pid = pid → r = z := fun r hr =>
      hpids₁.unique hlive.1 (hr.trans hz.symm)
    have hsleep := joinIter_of_running helig.toJoinEligible hunique hlive.2 hkilled
    cases congrArg Prod.snd (hfail.symm.trans hsleep)
  · cases hiter.trans hsleep

/-- A `join` whose caller is not the parent is refused at once. -/
theorem join_refused (hpids : PidsOk s) (hz : (s.procs z).pid = pid) (hlive : (s.procs z).Live)
    (hparent : (s.procs z).parent ≠ some c) : joinIter s c pid = (s.setCtl c .user, some (-1)) := by
  rcases joinIter_cases s c pid with ⟨y, helig, -⟩ | hfail | ⟨hscan, -⟩
  · obtain rfl := hpids.unique hlive.1 (helig.pid.trans hz.symm)
    exact absurd helig.parent hparent
  · exact hfail
  · rcases joinScan_kids hscan with hkids | ⟨y, -, helig, -⟩
    · cases hkids
    · obtain rfl := hpids.unique hlive.1 (helig.pid.trans hz.symm)
      exact absurd helig.parent hparent

/-! ## Runs of programs -/

/-- What holds in every run: the values that are still to be joined are known, and who is in
the `join` of the library is in the kernel's. -/
structure LibraryOk (x : Program) : Prop where
  kernel : Reachable Step boot x.kernel
  held : ∀ k, ∀ v ∈ x.held k, Known x.kernel k v
  joining : ∀ k v, x.phase k = .joining v → Known x.kernel k v ∧
    ∀ c, (x.kernel.procs c).pid = k → (x.kernel.procs c).Live →
      x.kernel.ctl c = .joining v.thread.pid

/-- The kernel takes the step `e` or none; what is new among the values and in the phases is
known. -/
theorem LibraryOk.move (hi : LibraryOk x) (hstep : y.kernel = x.kernel ∨ Step x.kernel e y.kernel)
    (hheld : ∀ k, ∀ v ∈ y.held k, v ∈ x.held k ∨ Known y.kernel k v)
    (hphase : ∀ k v, y.phase k = .joining v →
      (x.phase k = .joining v ∧ ∀ c call, (x.kernel.procs c).pid = k → e ≠ .call c call) ∨
        Known y.kernel k v ∧ ∀ c, (y.kernel.procs c).pid = k → (y.kernel.procs c).Live →
          y.kernel.ctl c = .joining v.thread.pid) : LibraryOk y := by
  rcases hstep with hsame | hstep
  · refine ⟨hsame ▸ hi.kernel, ?_, ?_⟩
    · intro k v hv
      rcases hheld k v hv with hold | hnew
      · exact hsame ▸ hi.held k v hold
      · exact hnew
    · intro k v hv
      rcases hphase k v hv with ⟨hold, -⟩ | hnew
      · exact hsame ▸ hi.joining k v hold
      · exact hnew
  · have htree := treeOk_of_reachable hi.kernel
    have hpids := pidsOk_of_reachable hi.kernel
    have hchange := step_tree hstep
    refine ⟨.extend hi.kernel trivial hstep, ?_, ?_⟩
    · intro k v hv
      rcases hheld k v hv with hold | hnew
      · exact (hi.held k v hold).treeChange htree hpids hchange
      · exact hnew
    · intro k v hv
      rcases hphase k v hv with ⟨hold, hother⟩ | hnew
      · obtain ⟨hknown, hctl⟩ := hi.joining k v hold
        refine ⟨hknown.treeChange htree hpids hchange, fun c hc hlive => ?_⟩
        obtain ⟨hlive₀, hc₀⟩ := hchange.live_before (hc ▸ hknown.creator) hlive
        rw [step_ctl hstep (fun call => hother c call (hc₀.symm.trans hc))]
        exact hctl c (hc₀.symm.trans hc) hlive₀
      · exact hnew

theorem libraryOk_boot : LibraryOk Program.boot := by
  refine ⟨.start, ?_, ?_⟩
  · intro k v hv
    cases hv
  · intro k v hv
    cases hv

theorem afterJoin_joining {w : Created} {killed : Bool} (h : afterJoin v killed r = .joining w) :
    r = none ∧ v = w := by
  cases r with
  | none => exact ⟨rfl, Joining.joining.inj h⟩
  | some n =>
    rw [afterJoin] at h
    split_ifs at h

theorem afterJoin_freeing {w : Created} {killed : Bool} {ret : ℤ}
    (h : afterJoin v killed r = .freeing w ret) : (∃ n, r = some n) ∧ killed = false ∧ v = w := by
  cases r with
  | none => cases h
  | some n =>
    rw [afterJoin] at h
    split_ifs at h with hkilled hret
    · exact ⟨⟨n, rfl⟩, by simpa using hkilled, (Joining.freeing.inj h).1⟩
    · exact ⟨⟨n, rfl⟩, by simpa using hkilled, (Joining.freeing.inj h).1⟩

/-- A turn of the `join` in `join_threads(v)` keeps the invariant. -/
theorem LibraryOk.turn {held : ℤ → List Created} (hi : LibraryOk x)
    (hknown : Known x.kernel (x.kernel.procs c).pid v)
    (hcall : IsJoin x.kernel c v.thread.pid call) (hen : Enabled x.kernel c call)
    (hrun : syscall x.kernel c call = .ok (s, r)) (hheld : ∀ k, ∀ w ∈ held k, w ∈ x.held k) :
    LibraryOk ⟨s, held, update x.phase (x.kernel.procs c).pid
      (afterJoin v (s.procs c).killed r)⟩ := by
  have hstep := step_of_syscall hen hrun
  have hpids := pidsOk_of_reachable hi.kernel
  have hchange := step_tree hstep
  apply hi.move (.inr hstep)
  · exact fun k w hw => .inl (hheld k w hw)
  · intro k w hw
    dsimp only at hw
    by_cases hk : k = (x.kernel.procs c).pid
    · subst hk
      rw [update_self] at hw
      obtain ⟨rfl, rfl⟩ := afterJoin_joining hw
      have hknown' := hknown.treeChange (treeOk_of_reachable hi.kernel) hpids hchange
      refine .inr ⟨hknown', fun c' hc' hlive => ?_⟩
      obtain ⟨hlive₀, hpid⟩ := hchange.live_before (hc' ▸ hknown.creator) hlive
      obtain rfl : c = c' := hpids.unique hlive₀.1 (hc'.symm.trans hpid)
      exact join_blocks hcall hen hrun
    · rw [update_of_ne hk] at hw
      refine .inl ⟨hw, fun c' call' hc' heq => ?_⟩
      obtain ⟨rfl, -⟩ := Event.call.inj heq
      exact hk hc'.symm

theorem phaseOf_eq (hc : (x.kernel.procs c).pid = k) : x.phaseOf c = x.phase k := by
  rw [Program.phaseOf, hc]

theorem outside_joining (hphase : x.phaseOf c = .joining v) : outside x (.call c call) = false := by
  simp only [outside, hphase]

theorem LibraryOk.isJoin (hi : LibraryOk x) (hphase : x.phaseOf c = .joining v)
    (hrunning : (x.kernel.procs c).state = .running) :
    IsJoin x.kernel c v.thread.pid .resume :=
  .inr ⟨rfl, (hi.joining _ v hphase).2 c rfl (live_of_running hrunning)⟩

theorem LibraryOk.uses {e : UserEvent} (hi : LibraryOk x) (h : Uses x e y) : LibraryOk y := by
  cases h with
  | @other e s hout hstep =>
    apply hi.move (.inr hstep)
    · exact fun k v hv => .inl hv
    · intro k v hv
      refine .inl ⟨hv, fun c call hc heq => ?_⟩
      rw [heq, outside_joining ((phaseOf_eq hc).trans hv)] at hout
      cases hout
  | @create c a s t hidle hen hrun =>
    obtain ⟨hstep, hknown⟩ := known_created hi.kernel hen hrun
    apply hi.move hstep
    · intro k v hv
      dsimp only at hv
      by_cases hk : k = (x.kernel.procs c).pid
      · subst hk
        rw [update_self] at hv
        rcases List.mem_cons.mp hv with rfl | hv
        · exact .inr hknown
        · exact .inl hv
      · rw [update_of_ne hk] at hv
        exact .inl hv
    · intro k v hv
      refine .inl ⟨hv, fun c' call hc heq => ?_⟩
      obtain ⟨rfl, -⟩ := Event.call.inj heq
      rw [phaseOf_eq hc, hv] at hidle
      cases hidle
  | @join c v s r hidle hheld hen hrun =>
    apply hi.turn (hi.held _ v hheld) (.inl rfl) hen hrun
    intro k w hw
    by_cases hk : k = (x.kernel.procs c).pid
    · subst hk
      rw [update_self] at hw
      exact List.mem_of_mem_erase hw
    · rwa [update_of_ne hk] at hw
  | resume hphase hen hrun =>
    exact hi.turn (hi.joining _ _ hphase).1 (hi.isJoin hphase hen.1) hen hrun
      fun _ _ hw => hw
  | @free c v ret hphase hrunning =>
    refine ⟨hi.kernel, hi.held, fun k w hw => ?_⟩
    dsimp only at hw
    by_cases hk : k = (x.kernel.procs c).pid
    · subst hk
      rw [update_self] at hw
      cases hw
    · rw [update_of_ne hk] at hw
      exact hi.joining k w hw

theorem libraryOk_of_reachable (h : Reachable UserStep Program.boot x) : LibraryOk x :=
  h.invariant libraryOk_boot fun _ _ _ _ hi _ hstep => hi.uses (userStep_cases hstep)

/-- What holds in runs that meet the condition: nobody waits in vain, and the thread of a
stack on its way to `free` is over. -/
structure StacksOk (x : Program) : Prop where
  waits : ∀ k v, x.phase k = .joining v → v.Own ∨ Over x.kernel v.thread.pid
  frees : ∀ k v ret, x.phase k = .freeing v ret →
    v.thread.pid < x.kernel.nextpid ∧ Over x.kernel v.thread.pid

/-- The phases that are not new stay as they are. -/
theorem StacksOk.move (hi : StacksOk x) (hlib : LibraryOk x)
    (hstep : y.kernel = x.kernel ∨ Step x.kernel e y.kernel)
    (hphase : ∀ k, y.phase k = x.phase k ∨
      (∀ v, y.phase k = .joining v → v.Own ∨ Over y.kernel v.thread.pid) ∧
        ∀ v ret, y.phase k = .freeing v ret →
          v.thread.pid < y.kernel.nextpid ∧ Over y.kernel v.thread.pid) : StacksOk y := by
  have hover : ∀ pid, pid < x.kernel.nextpid → Over x.kernel pid →
      pid < y.kernel.nextpid ∧ Over y.kernel pid := by
    intro pid hold hover
    rcases hstep with hsame | hstep
    · rw [hsame]
      exact ⟨hold, hover⟩
    · have hchange := step_tree hstep
      exact ⟨hold.trans_le hchange.nextpid_le, hover.treeChange hchange hold⟩
  refine ⟨?_, ?_⟩
  · intro k v hv
    rcases hphase k with hsame | ⟨hnew, -⟩
    · rw [hsame] at hv
      have hold := (hlib.joining k v hv).1.old
      exact (hi.waits k v hv).imp_right fun h => (hover _ hold h).2
    · exact hnew v hv
  · intro k v ret hv
    rcases hphase k with hsame | ⟨-, hnew⟩
    · rw [hsame] at hv
      obtain ⟨hold, h⟩ := hi.frees k v ret hv
      exact hover _ hold h
    · exact hnew v ret hv

theorem StacksOk.turn {held : ℤ → List Created} (hi : StacksOk x) (hlib : LibraryOk x)
    (hknown : Known x.kernel (x.kernel.procs c).pid v)
    (hsafe : v.Own ∨ Over x.kernel v.thread.pid) (hcall : IsJoin x.kernel c v.thread.pid call)
    (hen : Enabled x.kernel c call) (hrun : syscall x.kernel c call = .ok (s, r)) :
    StacksOk ⟨s, held, update x.phase (x.kernel.procs c).pid
      (afterJoin v (s.procs c).killed r)⟩ := by
  have hstep := step_of_syscall hen hrun
  have hchange := step_tree hstep
  apply hi.move hlib (.inr hstep)
  intro k
  dsimp only
  by_cases hk : k = (x.kernel.procs c).pid
  case neg => exact .inl (update_of_ne hk ..)
  subst hk
  rw [update_self]
  refine .inr ⟨?_, ?_⟩
  · intro w hw
    obtain ⟨-, rfl⟩ := afterJoin_joining hw
    exact hsafe.imp_right fun h => h.treeChange hchange hknown.old
  · intro w ret hw
    obtain ⟨⟨n, rfl⟩, hkilled, rfl⟩ := afterJoin_freeing hw
    refine ⟨hknown.old.trans_le hchange.nextpid_le, ?_⟩
    rcases hsafe with hown | hover
    · apply join_returns (pidsOk_of_reachable hlib.kernel) hcall hen _ hrun hkilled
      intro z hz hlive
      exact hknown.own hown c z rfl (live_of_running hen.1) hz hlive
    · exact hover.treeChange hchange hknown.old

theorem StacksOk.uses {e : UserEvent} (hi : StacksOk x) (hlib : LibraryOk x)
    (hgood : JoinsOwn x e) (h : Uses x e y) : StacksOk y := by
  cases h with
  | other hout hstep => exact hi.move hlib (.inr hstep) fun _ => .inl rfl
  | create hidle hen hrun =>
    exact hi.move hlib (known_created hlib.kernel hen hrun).1 fun _ => .inl rfl
  | join hidle hheld hen hrun =>
    exact hi.turn hlib (hlib.held _ _ hheld) hgood (.inl rfl) hen hrun
  | resume hphase hen hrun =>
    exact hi.turn hlib (hlib.joining _ _ hphase).1 (hi.waits _ _ hphase)
      (hlib.isJoin hphase hen.1) hen hrun
  | @free c v ret hphase hrunning =>
    refine hi.move (e := .yield c) hlib ?_ ?_
    · exact .inl rfl
    · intro k
      dsimp only
      by_cases hk : k = (x.kernel.procs c).pid
      · rw [hk, update_self]
        refine .inr ⟨?_, ?_⟩
        · intro w hw
          cases hw
        · intro w ret hw
          cases hw
      · exact .inl (update_of_ne hk ..)

theorem stacksOk_boot : StacksOk Program.boot := by
  refine ⟨?_, ?_⟩
  · intro k v hv
    cases hv
  · intro k v ret hv
    cases hv

theorem stacksOk_of_reachable (h : ReachableBy UserStep JoinsOwn Program.boot x) : StacksOk x := by
  apply h.invariant stacksOk_boot
  intro x e y hreach hi hgood hstep
  exact hi.uses (libraryOk_of_reachable hreach.reachable) hgood (userStep_cases hstep)

theorem UserEvent.frees_eq_some {e : UserEvent} (h : e.frees x = some v) :
    ∃ c ret, x.phaseOf c = .freeing v ret := by
  cases e with
  | free c =>
    rw [UserEvent.frees] at h
    split at h
    · rename_i w ret hphase
      cases h
      exact ⟨c, ret, hphase⟩
    · cases h
  | _ => cases h

theorem userStep_free {ret : ℤ} (hphase : x.phaseOf c = .freeing v ret)
    (hrunning : (x.kernel.procs c).state = .running) :
    (∃ y, UserStep x (.free c) y) ∧ (UserEvent.free c).frees x = some v := by
  refine ⟨⟨{ x with phase := update x.phase (x.kernel.procs c).pid .idle }, ?_⟩, ?_⟩
  · simp only [UserStep, nextUser, hphase, if_pos hrunning]
  · simp only [UserEvent.frees, hphase]

/-- A `join_threads` on a thread that runs and does not have the caller for its parent comes
back at once and goes on to `free`. -/
theorem frees_running (hreach : Reachable UserStep Program.boot x)
    (hstep : UserStep x (.join c v) y) (hbad : ¬JoinsOwn x (.join c v)) :
    (∃ z, UserStep y (.free c) z) ∧ (UserEvent.free c).frees y = some v ∧
      ¬Over y.kernel v.thread.pid := by
  have hlib := libraryOk_of_reachable hreach
  have hpids := pidsOk_of_reachable hlib.kernel
  cases userStep_cases hstep with
  | @join _ _ s r hidle hheld hen hrun =>
    have hstrange : ¬v.Own := fun h => hbad (.inl h)
    obtain ⟨z, hz, hlive⟩ : ∃ z, (x.kernel.procs z).pid = v.thread.pid ∧
        (x.kernel.procs z).Live := by
      by_contra hnone
      exact hbad (.inr fun z hz hlive => hnone ⟨z, hz, hlive⟩)
    have hparent : (x.kernel.procs z).parent ≠ some c := fun hc =>
      ((hlib.held _ v hheld).strange hstrange z c hz hlive hc).false
    have hiter := join_refused hpids hz hlive hparent
    obtain ⟨rfl, rfl⟩ := Prod.mk.inj (Except.ok.inj
      (hrun.symm.trans (congrArg Except.ok hiter)))
    have hkilled : (x.kernel.procs c).killed = false := (hen.canCall rfl).2.2
    have hne : (-1 : ℤ) ≠ v.thread.pid := by
      have := hpids.pos z hlive.1
      omega
    have hafter : afterJoin v ((x.kernel.setCtl c .user).procs c).killed (some (-1)) =
        .freeing v (-1) := by
      rw [afterJoin, Kernel.setCtl_procs, hkilled, if_neg Bool.false_ne_true, if_pos hne]
    rw [hafter]
    obtain ⟨hfree, hfrees⟩ := userStep_free (x := ⟨x.kernel.setCtl c .user, _,
      update x.phase (x.kernel.procs c).pid (.freeing v (-1))⟩)
      (update_self ..) hen.1
    exact ⟨hfree, hfrees, fun hover => hover z hz hlive⟩

/-- In runs where a thread that still runs is joined only by a creator that is not a thread
itself and did not pass `CLONE_PARENT`, a stack is freed only when its thread is over; and
every other call of `join_threads` goes on to free the stack of a thread that runs. -/
theorem stack_freed_after_exit (x : Program) :
    (ReachableBy UserStep JoinsOwn Program.boot x → ∀ e y v, UserStep x e y →
      e.frees x = some v → Over x.kernel v.thread.pid) ∧
    (Reachable UserStep Program.boot x → ∀ c v y, UserStep x (.join c v) y →
      ¬JoinsOwn x (.join c v) → (∃ z, UserStep y (.free c) z) ∧
        (UserEvent.free c).frees y = some v ∧ ¬Over y.kernel v.thread.pid) := by
  refine ⟨?_, fun hreach _ _ _ hstep hbad => frees_running hreach hstep hbad⟩
  intro hreach e y v hstep hfrees
  obtain ⟨c, ret, hphase⟩ := UserEvent.frees_eq_some hfrees
  exact ((stacksOk_of_reachable hreach).frees _ v ret hphase).2

/-- Init creates a thread that shares its memory, and joins it after it has exited. -/
theorem stack_freed_after_exit_init :
    ∃ x y v, ReachableBy UserStep JoinsOwn Program.boot x ∧ UserStep x (.free 0) y ∧
      (UserEvent.free 0).frees x = some v ∧ v.thread = ⟨2, 4096⟩ ∧ Over x.kernel 2 := by
  have hrun : ∃ x, ReachableBy UserStep JoinsOwn Program.boot x ∧
      ((nextUser x (.free 0)).isSome ∧
        (UserEvent.free 0).frees x = some ⟨⟨2, 4096⟩, 1, false⟩) :=
    exists_reachableBy
      [.other (.dispatch 0), .create 0 ⟨1, 4096, 0, true, ⟨true, none, 0⟩⟩,
        .other (.dispatch 1), .other (.call 1 .exit), .join 0 ⟨⟨2, 4096⟩, 1, false⟩]
      (by decide +kernel)
  obtain ⟨x, hreach, hfree, hfrees⟩ := hrun
  obtain ⟨y, hstep⟩ := Option.isSome_iff_exists.mp hfree
  exact ⟨x, y, _, hreach, hstep, hfrees, rfl,
    (stack_freed_after_exit x).1 hreach (.free 0) y _ hstep hfrees⟩

/-- A thread of init creates a thread and joins it: its stack is freed while it has yet to
run. -/
theorem stack_freed_under_thread :
    ∃ x y v, Reachable UserStep Program.boot x ∧ UserStep x (.free 1) y ∧
      (UserEvent.free 1).frees x = some v ∧ (x.kernel.procs 2).pid = v.thread.pid ∧
      (x.kernel.procs 2).state = .runnable ∧ ¬Over x.kernel v.thread.pid := by
  have hrun : ∃ x, Reachable UserStep Program.boot x ∧
      ((nextUser x (.free 1)).isSome ∧
        (UserEvent.free 1).frees x = some ⟨⟨3, 8192⟩, 1, true⟩ ∧
        (x.kernel.procs 2).pid = 3 ∧ (x.kernel.procs 2).state = .runnable) :=
    exists_reachableBy
      [.other (.dispatch 0), .create 0 ⟨1, 4096, 0, true, ⟨true, none, 0⟩⟩,
        .other (.dispatch 1), .create 1 ⟨1, 8192, 0, true, ⟨true, none, 0⟩⟩,
        .join 1 ⟨⟨3, 8192⟩, 1, true⟩]
      (by decide +kernel)
  obtain ⟨x, hreach, hfree, hfrees, hpid, hstate⟩ := hrun
  obtain ⟨y, hstep⟩ := Option.isSome_iff_exists.mp hfree
  refine ⟨x, y, _, hreach, hstep, hfrees, hpid, hstate, fun hover => ?_⟩
  apply hover 2 hpid
  rw [Proc.Live, hstate]
  decide

end Xv6Threads
