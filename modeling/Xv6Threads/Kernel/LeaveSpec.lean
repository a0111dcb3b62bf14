/-
# What exit, wait, join and kill do

Inversion lemmas for the rest of `proc.c`, in the manner of the ones for `fork`
and `clone`.
-/

import Xv6Threads.Kernel.SpawnSpec

namespace Xv6Threads

open Lib
open Function (update update_of_ne update_self)

variable {a b : ProcState} {p z q : Slot} {l : List Slot} {procs : Slot → Proc} {s s' : Kernel}
variable {havekids : Bool}

/-! ## Leaving -/

/-- A state `wakeup1` can leave a process in. -/
def Woken (old new : ProcState) : Prop := new = old ∨ (old = .sleeping ∧ new = .runnable)

theorem Woken.trans {c : ProcState} (hab : Woken a b) (hbc : Woken b c) : Woken a c := by
  rcases hab with rfl | ⟨ha, rfl⟩
  · exact hbc
  · rcases hbc with rfl | ⟨hb, -⟩
    · exact .inr ⟨ha, rfl⟩
    · cases hb

theorem Woken.unused_iff (h : Woken a b) : b = .unused ↔ a = .unused := by
  rcases h with rfl | ⟨rfl, rfl⟩ <;> simp

theorem Woken.zombie_iff (h : Woken a b) : b = .zombie ↔ a = .zombie := by
  rcases h with rfl | ⟨rfl, rfl⟩ <;> simp

theorem wakeup1_apply (procs : Slot → Proc) (chan : Option Slot) (q : Slot) :
    ∃ st, wakeup1 procs chan q = { procs q with state := st } ∧ Woken (procs q).state st ∧
      ((procs q).state = .sleeping → (procs q).chan = chan → st = .runnable) := by
  rw [wakeup1]
  split_ifs with h
  · exact ⟨.runnable, rfl, .inr ⟨h.1, rfl⟩, fun _ _ => rfl⟩
  · exact ⟨(procs q).state, rfl, .inl rfl, fun hs hc => absurd ⟨hs, hc⟩ h⟩

theorem passToInit_apply (initproc p z : Slot) (procs : Slot → Proc) (q : Slot) :
    ∃ st, passToInit initproc p procs z q =
        { procs q with
          state := st
          parent := if q = z ∧ (procs q).parent = some p then some initproc
            else (procs q).parent } ∧
      Woken (procs q).state st := by
  have hmoved : update procs z { procs z with parent := some initproc } q =
      { procs q with parent := if q = z then some initproc else (procs q).parent } := by
    by_cases hq : q = z
    · subst hq
      simp
    · simp [hq]
  rw [passToInit]
  by_cases hz : (procs z).parent = some p
  · have hif : (if q = z ∧ (procs q).parent = some p then some initproc else (procs q).parent) =
        if q = z then some initproc else (procs q).parent := by
      by_cases hq : q = z
      · simp [hq, hz]
      · simp [hq]
    simp only [if_pos hz, update_self, hif]
    by_cases hzombie : (procs z).state = .zombie
    · rw [if_pos hzombie]
      obtain ⟨st, hst, hwoken, -⟩ := wakeup1_apply
        (update procs z { procs z with parent := some initproc }) (some initproc) q
      rw [hmoved] at hst hwoken
      exact ⟨st, hst, hwoken⟩
    · rw [if_neg hzombie]
      exact ⟨(procs q).state, hmoved, .inl rfl⟩
  · have hif : ¬ (q = z ∧ (procs q).parent = some p) := fun h => hz (h.1 ▸ h.2)
    exact ⟨(procs q).state, by simp [hz, hif], .inl rfl⟩

/-- Passing on children changes parents and wakes processes, nothing else. -/
theorem foldl_passToInit {initproc : Slot} (hne : initproc ≠ p) (l : List Slot)
    (procs : Slot → Proc) (q : Slot) :
    ∃ st, l.foldl (passToInit initproc p) procs q =
        { procs q with
          state := st
          parent := if q ∈ l ∧ (procs q).parent = some p then some initproc
            else (procs q).parent } ∧
      Woken (procs q).state st := by
  induction l generalizing procs with
  | nil => exact ⟨(procs q).state, by simp, .inl rfl⟩
  | cons z l ih =>
    obtain ⟨st, hst, hwoken⟩ := ih (passToInit initproc p procs z)
    obtain ⟨st', hone, hwoken'⟩ := passToInit_apply initproc p z procs q
    rw [hone] at hst hwoken
    refine ⟨st, ?_, hwoken'.trans hwoken⟩
    rw [List.foldl_cons, hst]
    by_cases hp : (procs q).parent = some p
    · by_cases hqz : q = z
      · subst hqz
        simp [hp, hne]
      · simp [hqz, hp]
    · simp [hp]

/-- Init, asleep in `wait` or `join`, is woken when a zombie is passed to it. -/
theorem foldl_passToInit_wakes {initproc : Slot} (hne : initproc ≠ p) (hz : z ∈ l)
    (hparent : (procs z).parent = some p) (hzombie : (procs z).state = .zombie)
    (hchan : (procs initproc).chan = some initproc)
    (hstate : (procs initproc).state = .sleeping ∨ (procs initproc).state = .runnable) :
    (l.foldl (passToInit initproc p) procs initproc).state = .runnable := by
  induction l generalizing procs with
  | nil => cases hz
  | cons a l ih =>
    obtain ⟨st, hst, hwoken⟩ := passToInit_apply initproc p a procs initproc
    rw [List.foldl_cons]
    by_cases ha : (procs a).parent = some p ∧ (procs a).state = .zombie
    · -- this is where init is woken; afterwards it stays awake
      have hainit : initproc ≠ a := by
        rintro rfl
        rw [ha.2] at hstate
        simp at hstate
      have hrun : (passToInit initproc p procs a initproc).state = .runnable := by
        rw [passToInit, if_pos ha.1]
        dsimp only
        rw [if_pos (by rw [update_self]; exact ha.2), wakeup1,
          update_of_ne hainit]
        rcases hstate with hsleeping | hrunnable
        · rw [if_pos ⟨hsleeping, hchan⟩]
        · rw [if_neg (by simp [hrunnable]), hrunnable]
      obtain ⟨st', hst', hwoken'⟩ :=
        foldl_passToInit hne l (passToInit initproc p procs a) initproc
      rw [hst']
      rcases hwoken' with hsame | ⟨hold, -⟩
      · exact hsame.trans hrun
      · rw [hrun] at hold
        cases hold
    · have hza : z ≠ a := by
        rintro rfl
        exact ha ⟨hparent, hzombie⟩
      obtain ⟨stz, hstz, hwokenz⟩ := passToInit_apply initproc p a procs z
      apply ih ((List.mem_cons.mp hz).resolve_left hza)
      · rw [hstz]
        simp [hza, hparent]
      · rw [hstz]
        exact hwokenz.zombie_iff.mpr hzombie
      · rw [hst]
        exact hchan
      · rw [hst]
        rcases hwoken with hsame | ⟨-, hrunnable⟩
        · rw [show st = (procs initproc).state from hsame]
          exact hstate
        · exact .inr hrunnable

/-- The channel `exit` wakes. -/
def exitChan (p : Proc) : Option Slot := if p.isThread then p.pthread else p.parent

/-- The critical section of `exit`. -/
theorem exitZombie_procs (hinit : p ≠ s.initproc) (q : Slot) :
    ∃ st, (exitZombie s p).procs q =
        { s.procs q with
          state := st
          parent := if (s.procs q).parent = some p then some s.initproc
            else (s.procs q).parent } ∧
      (q = p → st = .zombie) ∧ (q ≠ p → Woken (s.procs q).state st) ∧
      (q ≠ p → (s.procs q).state = .sleeping → (s.procs q).chan = exitChan (s.procs p) →
        st = .runnable) := by
  obtain ⟨st₁, hst₁, hwoken₁, hwakes⟩ := wakeup1_apply s.procs (exitChan (s.procs p)) q
  obtain ⟨st, hst, hwoken⟩ := foldl_passToInit hinit.symm (List.finRange NPROC)
    (wakeup1 s.procs (exitChan (s.procs p))) q
  rw [hst₁] at hst hwoken
  simp only [List.mem_finRange, true_and] at hst
  have hprocs : (exitZombie s p).procs = update
      ((List.finRange NPROC).foldl (passToInit s.initproc p)
        (wakeup1 s.procs (exitChan (s.procs p)))) p
      { (List.finRange NPROC).foldl (passToInit s.initproc p)
        (wakeup1 s.procs (exitChan (s.procs p))) p with state := .zombie } := rfl
  by_cases hq : q = p
  · subst hq
    refine ⟨.zombie, ?_, fun _ => rfl, fun h => absurd rfl h, fun h => absurd rfl h⟩
    rw [hprocs, update_self, hst]
  · refine ⟨st, ?_, fun h => absurd h hq, fun _ => hwoken₁.trans hwoken, ?_⟩
    · rw [hprocs, update_of_ne hq, hst]
    · intro _ hsleeping hchan
      have hrun : st₁ = .runnable := hwakes hsleeping hchan
      rcases hwoken with rfl | ⟨hst', -⟩
      · exact hrun
      · rw [hrun] at hst'
        cases hst'

theorem exitZombie_wakes_init (hinit : p ≠ s.initproc) (hparent : (s.procs z).parent = some p)
    (hzombie : (s.procs z).state = .zombie) (hchan : (s.procs s.initproc).chan = some s.initproc)
    (hstate : (s.procs s.initproc).state = .sleeping) :
    ((exitZombie s p).procs s.initproc).state = .runnable := by
  have hprocs : (exitZombie s p).procs s.initproc =
      (List.finRange NPROC).foldl (passToInit s.initproc p)
        (wakeup1 s.procs (exitChan (s.procs p))) s.initproc := update_of_ne hinit.symm ..
  obtain ⟨st, hst, hwoken, -⟩ := wakeup1_apply s.procs (exitChan (s.procs p)) s.initproc
  obtain ⟨stz, hstz, hwokenz, -⟩ := wakeup1_apply s.procs (exitChan (s.procs p)) z
  rw [hprocs]
  apply foldl_passToInit_wakes hinit.symm (List.mem_finRange z)
  · rw [hstz]
    exact hparent
  · rw [hstz]
    exact hwokenz.zombie_iff.mpr hzombie
  · rw [hst]
    exact hchan
  · rw [hst]
    rcases hwoken with hsame | ⟨-, hrunnable⟩
    · exact .inl (hsame.trans hstate)
    · exact .inr hrunnable

/-- The tables once `exit` has closed the caller's files and let go of its
current directory. -/
def ExitTables (s : Kernel) (p : Slot) (ft : Ftable) (ic : Icache) : Prop :=
  ∃ ic₀,
    ((s.procs p).cloneFiles = true ∧ ft = s.ftable ∧ ic₀ = s.icache ∨
      (s.procs p).cloneFiles = false ∧
        closeFiles (s.procs p).ofile (List.finRange NOFILE) s.ftable s.icache = .ok (ft, ic₀)) ∧
    ((s.procs p).cloneFs = true ∧ ic = ic₀ ∨
      (s.procs p).cloneFs = false ∧ ∃ ip, (s.procs p).cwd = some ip ∧ ic = iput ic₀ ip)

/-- `exit` before its critical section. -/
structure ExitReleased (s : Kernel) (p : Slot) (s' : Kernel) : Prop where
  notInit : p ≠ s.initproc
  tables : ExitTables s p s'.ftable s'.icache
  procs : ∀ q, s'.procs q =
    { s.procs q with
      ofileClone := unlink s.ofilePeers p q
      cwdClone := unlink s.cwdPeers p q
      ofile := if q = p then fun _ => none else (s.procs q).ofile
      cwd := if q = p then none else (s.procs q).cwd }
  initproc : s'.initproc = s.initproc
  nextpid : s'.nextpid = s.nextpid
  pgdirs : s'.pgdirs = s.pgdirs
  ctl : s'.ctl = s.ctl
  clones : s'.clones = s.clones

theorem exitRelease_ok (h : exitRelease s p = .ok s') : ExitReleased s p s' := by
  by_cases hinit : p = s.initproc
  · simp [exitRelease, hinit] at h
  rw [exitRelease, if_neg hinit] at h
  dsimp only at h
  split at h
  · cases h
  · rename_i ft ic hclosed
    have hfiles : (s.procs p).cloneFiles = true ∧ ft = s.ftable ∧ ic = s.icache ∨
        (s.procs p).cloneFiles = false ∧
          closeFiles (s.procs p).ofile (List.finRange NOFILE) s.ftable s.icache =
            .ok (ft, ic) := by
      cases hflag : (s.procs p).cloneFiles with
      | true =>
        simp only [hflag, if_true, Except.ok.injEq, Prod.mk.injEq] at hclosed
        exact .inl ⟨rfl, hclosed.1.symm, hclosed.2.symm⟩
      | false => exact .inr ⟨rfl, by simpa [hflag] using hclosed⟩
    simp only [Kernel.setProc_procs_self] at h
    cases hfs : (s.procs p).cloneFs with
    | true =>
      simp only [hfs, if_true, Except.ok.injEq] at h
      subst h
      refine ⟨hinit, ⟨ic, hfiles, .inl ⟨hfs, rfl⟩⟩, ?_, rfl, rfl, rfl, rfl, rfl⟩
      intro q
      by_cases hq : q = p
      · subst hq
        simp [hfs]
      · simp [Kernel.setProc_procs_of_ne _ _ _ hq, hq]
    | false =>
      simp only [hfs, Bool.false_eq_true, if_false] at h
      cases hcwd : (s.procs p).cwd with
      | none => simp [hcwd] at h
      | some ip =>
        simp only [hcwd, Except.ok.injEq] at h
        subst h
        refine ⟨hinit, ⟨ic, hfiles, .inr ⟨hfs, ip, hcwd, rfl⟩⟩, ?_, rfl, rfl, rfl, rfl, rfl⟩
        intro q
        by_cases hq : q = p
        · subst hq
          simp [hfs]
        · simp [Kernel.setProc_procs_of_ne _ _ _ hq, hq]

/-- A whole `exit` seen as one step. `st` is the state each process ends up
in. -/
structure Exited (s : Kernel) (p : Slot) (st : Slot → ProcState) (s' : Kernel) : Prop where
  notInit : p ≠ s.initproc
  tables : ExitTables s p s'.ftable s'.icache
  procs : ∀ q, s'.procs q =
    { s.procs q with
      ofileClone := unlink s.ofilePeers p q
      cwdClone := unlink s.cwdPeers p q
      ofile := if q = p then fun _ => none else (s.procs q).ofile
      cwd := if q = p then none else (s.procs q).cwd
      state := st q
      parent := if (s.procs q).parent = some p then some s.initproc
        else (s.procs q).parent }
  zombie : st p = .zombie
  woken : ∀ q, q ≠ p → Woken (s.procs q).state (st q)
  wakes : ∀ q, q ≠ p → (s.procs q).state = .sleeping →
    (s.procs q).chan = exitChan (s.procs p) → st q = .runnable
  initproc : s'.initproc = s.initproc
  nextpid : s'.nextpid = s.nextpid
  pgdirs : s'.pgdirs = s.pgdirs
  ctl : s'.ctl = s.ctl
  clones : s'.clones = s.clones

theorem exit_ok (h : exit s p = .ok s') : ∃ st, Exited s p st s' := by
  rw [exit] at h
  split at h
  · cases h
  · rename_i s₁ hrelease
    obtain rfl : exitZombie s₁ p = s' := Except.ok.inj h
    obtain ⟨hinit, htables, hprocs, hinitproc, hnext, hpgdirs, hctl, hclones⟩ :=
      exitRelease_ok hrelease
    choose st hst using fun q => exitZombie_procs (hinitproc.symm ▸ hinit) (p := p) q
    refine ⟨st, hinit, htables, ?_, ?_, ?_, ?_, hinitproc, hnext, hpgdirs, hctl, hclones⟩
    · intro q
      rw [(hst q).1, hprocs q, hinitproc]
    · exact (hst p).2.1 rfl
    · intro q hq
      have hwoken := (hst q).2.2.1 hq
      rwa [hprocs q] at hwoken
    · intro q hq hsleeping hchan
      apply (hst q).2.2.2 hq
      · rw [hprocs q]
        exact hsleeping
      · rw [hprocs q, hprocs p]
        exact hchan

/-! ## Reaping -/

theorem waitScan_congr {procs' : Slot → Proc} (q : Slot) (havekids : Bool) (l : List Slot)
    (hparent : ∀ r, (procs' r).parent = (procs r).parent)
    (hthread : ∀ r, (procs' r).isThread = (procs r).isThread)
    (htgid : ∀ r, (procs' r).tgid = (procs r).tgid)
    (hstate : ∀ r, (procs' r).state = (procs r).state) :
    waitScan procs' q havekids l = waitScan procs q havekids l := by
  induction l generalizing havekids with
  | nil => rfl
  | cons p rest ih => simp only [waitScan, hparent, hthread, htgid, hstate, ih]

theorem joinScan_congr {procs' : Slot → Proc} (q : Slot) (pid : ℤ) (havekids : Bool)
    (l : List Slot) (hpid : ∀ r, (procs' r).pid = (procs r).pid)
    (hparent : ∀ r, (procs' r).parent = (procs r).parent)
    (hthread : ∀ r, (procs' r).isThread = (procs r).isThread)
    (htgid : ∀ r, (procs' r).tgid = (procs r).tgid)
    (hstate : ∀ r, (procs' r).state = (procs r).state) :
    joinScan procs' q pid havekids l = joinScan procs q pid havekids l := by
  induction l generalizing havekids with
  | nil => rfl
  | cons p rest ih => simp only [joinScan, hpid, hparent, hthread, htgid, hstate, ih]

/-- `z` is a child `wait` by `q` may free. -/
structure WaitEligible (procs : Slot → Proc) (q z : Slot) : Prop where
  parent : (procs z).parent = some q
  isThread : (procs z).isThread = false
  zombie : (procs z).state = .zombie

theorem waitScan_found (h : waitScan procs q havekids l = .found z) : WaitEligible procs q z := by
  induction l generalizing havekids with
  | nil => cases h
  | cons p rest ih =>
    rw [waitScan] at h
    split_ifs at h with hparent hthread hgroup hzombie
    · exact ih h
    · exact ih h
    · exact ih h
    · obtain rfl : p = z := by simpa using h
      exact ⟨not_not.mp hparent, by simpa using hthread, hzombie⟩
    · exact ih h

/-- A scan that passes a zombie child stops there or earlier. -/
theorem waitScan_of_eligible (h : WaitEligible procs q z) (hmem : z ∈ l) (havekids : Bool) :
    ∃ z', waitScan procs q havekids l = .found z' := by
  induction l generalizing havekids with
  | nil => cases hmem
  | cons p rest ih =>
    have hrest : p ≠ z → z ∈ rest := fun hne =>
      (List.mem_cons.mp hmem).resolve_left (Ne.symm hne)
    rw [waitScan]
    split_ifs with hparent hthread hgroup hzombie
    · refine ih (hrest ?_) havekids
      rintro rfl
      exact hparent h.parent
    · refine ih (hrest ?_) havekids
      rintro rfl
      rw [h.isThread] at hthread
      cases hthread
    · -- the parent is the caller, so its group is the caller's
      refine absurd ?_ hgroup.2
      rw [not_not.mp hparent]
      rfl
    · exact ⟨p, rfl⟩
    · refine ih (hrest ?_) true
      rintro rfl
      exact hzombie h.zombie

/-- `z` is a thread `join(pid)` by `q` accepts. -/
structure JoinEligible (procs : Slot → Proc) (q z : Slot) (pid : ℤ) : Prop where
  pid : (procs z).pid = pid
  parent : (procs z).parent = some q
  isThread : (procs z).isThread = true
  tgid : (procs z).tgid = (procs q).tgid

theorem joinScan_found {pid : ℤ} (h : joinScan procs q pid havekids l = some (.found z)) :
    JoinEligible procs q z pid ∧ (procs z).state = .zombie := by
  induction l generalizing havekids with
  | nil => cases h
  | cons p rest ih =>
    rw [joinScan] at h
    split_ifs at h with hpid hrefused hzombie
    · obtain rfl : p = z := by simpa using h
      simp only [not_or, not_not, Bool.not_eq_false] at hrefused
      exact ⟨⟨hpid, hrefused.1, hrefused.2.1, hrefused.2.2⟩, hzombie⟩
    · exact ih h
    · exact ih h

/-- A scan that saw something to wait for saw an eligible thread that has not
exited. -/
theorem joinScan_kids {pid : ℤ} (h : joinScan procs q pid havekids l = some (.kids true)) :
    havekids = true ∨ ∃ p ∈ l, JoinEligible procs q p pid ∧ (procs p).state ≠ .zombie := by
  induction l generalizing havekids with
  | nil => exact .inl (by simpa [joinScan] using h)
  | cons p rest ih =>
    rw [joinScan] at h
    split_ifs at h with hpid hrefused hzombie
    · simp at h
    · simp only [not_or, not_not, Bool.not_eq_false] at hrefused
      exact .inr ⟨p, List.mem_cons_self,
        ⟨hpid, hrefused.1, hrefused.2.1, hrefused.2.2⟩, hzombie⟩
    · rcases ih h with hkids | ⟨r, hr, helig⟩
      · exact .inl hkids
      · exact .inr ⟨r, List.mem_cons_of_mem _ hr, helig⟩

/-- The table after `q` freed `z`. -/
structure Reaped (s : Kernel) (q z : Slot) (s' : Kernel) : Prop where
  zombie : (s.procs z).state = .zombie
  parent : (s.procs z).parent = some q
  freed : ∃ pthread, s'.procs z =
    { s.procs z with
      kstack := false, pid := 0, parent := none, tgid := 0, killed := false,
      state := .unused, pthread := pthread }
  kept : ∀ r, r ≠ z → s'.procs r = s.procs r
  initproc : s'.initproc = s.initproc
  nextpid : s'.nextpid = s.nextpid
  ftable : s'.ftable = s.ftable
  icache : s'.icache = s.icache
  ctl : s'.ctl = Function.update s.ctl q .user
  clones : s'.clones = s.clones

theorem waitIter_ok {r : Option ℤ} (h : waitIter s q = .ok (s', r)) :
    (∃ z d, waitScan s.procs q false (List.finRange NPROC) = .found z ∧ Reaped s q z s' ∧
      (s.procs z).pgdir = some d ∧ s.pgdirs d ≠ none ∧
      s'.pgdirs = update s.pgdirs d none ∧ r = some (s.procs z).pid) ∨
    (s' = s.setCtl q .user ∧ r = some (-1)) ∨
    (s' = sleepOnSelf s q .waiting ∧ r = none ∧
      waitScan s.procs q false (List.finRange NPROC) = .kids true) := by
  rw [waitIter] at h
  split at h
  · rename_i z hfound
    have helig := waitScan_found hfound
    split at h
    · cases h
    · rename_i s₁ hreap
      rw [reapWait] at hreap
      split at hreap
      · cases hreap
      · rename_i pgdirs hfree
        obtain ⟨d, mem, hd, hmem, rfl⟩ := freevm_ok hfree
        simp only [Except.ok.injEq] at hreap
        cases h
        subst hreap
        refine .inl ⟨z, d, hfound, ?_, hd, by simp [hmem], rfl, rfl⟩
        refine ⟨helig.zombie, helig.parent, ⟨(s.procs z).pthread, ?_⟩, ?_, rfl, rfl, rfl, rfl, rfl,
          rfl⟩
        · exact Kernel.setProc_procs_self ..
        · exact fun r hr => Kernel.setProc_procs_of_ne _ _ _ hr
  · rename_i havekids hkids
    split_ifs at h with hgiveup
    · simp only [Except.ok.injEq, Prod.mk.injEq] at h
      exact .inr (.inl ⟨h.1.symm, h.2.symm⟩)
    · simp only [not_or, Bool.not_eq_false] at hgiveup
      rw [hgiveup.1] at hkids
      simp only [Except.ok.injEq, Prod.mk.injEq] at h
      exact .inr (.inr ⟨h.1.symm, h.2.symm, hkids⟩)

theorem joinIter_cases (s : Kernel) (q : Slot) (pid : ℤ) :
    (∃ z, JoinEligible s.procs q z pid ∧ Reaped s q z (joinIter s q pid).1 ∧
      (joinIter s q pid).1.pgdirs = s.pgdirs ∧ (joinIter s q pid).2 = some pid) ∨
    joinIter s q pid = (s.setCtl q .user, some (-1)) ∨
    (joinScan s.procs q pid false (List.finRange NPROC) = some (.kids true) ∧
      joinIter s q pid = (sleepOnSelf s q (.joining pid), none)) := by
  rw [joinIter]
  split
  · exact .inr (.inl rfl)
  · rename_i z hfound
    obtain ⟨helig, hzombie⟩ := joinScan_found hfound
    refine .inl ⟨z, helig, ?_, rfl, by rw [helig.pid]⟩
    refine ⟨hzombie, helig.parent, ⟨none, ?_⟩, ?_, rfl, rfl, rfl, rfl, rfl, rfl⟩
    · exact Kernel.setProc_procs_self ..
    · exact fun r hr => Kernel.setProc_procs_of_ne _ _ _ hr
  · rename_i havekids hkids
    split_ifs with hgiveup
    · exact .inr (.inl rfl)
    · simp only [not_or, Bool.not_eq_false] at hgiveup
      rw [hgiveup.1] at hkids
      exact .inr (.inr ⟨hkids, rfl⟩)

end Xv6Threads
