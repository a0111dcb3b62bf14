/-
# Who shares with whom

`CLONE_FILES` and `CLONE_FS` record sharing in the same way, in the arrays
`ofile_clone` and `cwd_clone`, and `clone` and `exit` treat the two arrays
alike. This module treats them as one: what a step does to the partners the
arrays amount to, and under which conditions partners are alive, mutual, and
related by `clone`.
-/

import Mathlib.Logic.Relation
import Xv6Threads.Analysis.Lineage
import Xv6Threads.Kernel.VmSpec

namespace Xv6Threads

open Lib

variable {p np q : Slot} {flags : BitVec 32} {env : SpawnEnv} {child : Proc} {e : Event}

/-- There is enough for `clone` to make a thread: a slot, a kernel stack, and
the pages of a copy unless memory is shared. -/
def Kernel.canClone (s : Kernel) (p : Slot) (flags : BitVec 32) (env : SpawnEnv) : Bool :=
  (List.finRange NPROC).any (fun q => decide ((s.procs q).state = .unused)) && env.kstack &&
    (flagVm flags ||
      env.pgdir.isSome && decide ((pagesBetween 0 (s.procs p).sz).length ≤ env.budget))

theorem Spawned.canClone {s s' : Kernel} (h : Spawned s p np flags env child s') :
    s.canClone p flags env = true := by
  have hslot : (List.finRange NPROC).any (fun q => decide ((s.procs q).state = .unused)) = true :=
    List.any_eq_true.mpr ⟨np, List.mem_finRange np, by simp [h.free]⟩
  rw [Kernel.canClone, hslot, h.kstack]
  rcases h.memory with ⟨hvm, -⟩ | ⟨-, d, copy, ⟨hpgdir, d₀, mem, -, -, hcopy⟩, -⟩
  · simp [hvm]
  · simp [hpgdir, (copyPages_ok hcopy).2]

/-- One of the two arrays, with the flag that fills it and what the steps do to
it. -/
structure PeerField where
  get : Proc → PeerList
  flag : BitVec 32 → Bool
  flag_zero : flag 0 = false
  boot : ∀ q, get (boot.procs q) = fun _ => none
  same : ∀ {s s' : Kernel}, SameTree s s' → ∀ q, get (s'.procs q) = get (s.procs q)
  spawnFailed : ∀ {s s' : Kernel} {np : Slot}, SpawnFailed s np s' →
    ∀ q, get (s'.procs q) = get (s.procs q)
  child : ∀ {s s' : Kernel} {p np : Slot} {flags : BitVec 32} {env : SpawnEnv} {child : Proc},
    Spawned s p np flags env child s' →
      get child = if flag flags then fillEmpty (get (s.procs np)) p else get (s.procs np)
  others : ∀ {s s' : Kernel} {p np : Slot} {flags : BitVec 32} {env : SpawnEnv} {child : Proc},
    Spawned s p np flags env child s' → ∀ q, q ≠ np →
      get (s'.procs q) = if q = p ∧ flag flags then fillEmpty (get (s.procs q)) np
        else get (s.procs q)
  exited : ∀ {s s' : Kernel} {p : Slot} {st : Slot → ProcState}, Exited s p st s' →
    ∀ q, get (s'.procs q) = unlink (fun r => get (s.procs r)) p q
  reaped : ∀ {s s' : Kernel} {q z : Slot}, Reaped s q z s' →
    ∀ r, get (s'.procs r) = get (s.procs r)

/-- `ofile_clone`, filled by `CLONE_FILES`. -/
def ofileField : PeerField where
  get := Proc.ofileClone
  flag := flagFiles
  flag_zero := rfl
  boot q := by
    by_cases hq : q = 0
    · rw [hq]
      rfl
    · rw [boot_procs_of_ne hq]
  same h q := h.ofileClone q
  spawnFailed h q := by
    obtain ⟨_, _, _, _, _, _, -, rfl⟩ := h
    simp only [Kernel.setProc_procs]
    split_ifs with hq
    · rw [hq]
    · rfl
  child h := h.ofileClone
  others h q hq := by rw [h.procs, Kernel.withChild_of_ne _ _ _ _ _ hq]
  exited h q := by
    rw [h.procs]
    rfl
  reaped {s s' q z} h r := by
    by_cases hr : r = z
    · obtain ⟨_, hfreed⟩ := h.freed
      rw [hr, hfreed]
    · rw [h.kept r hr]

/-- `cwd_clone`, filled by `CLONE_FS`. -/
def cwdField : PeerField where
  get := Proc.cwdClone
  flag := flagFs
  flag_zero := rfl
  boot q := by
    by_cases hq : q = 0
    · rw [hq]
      rfl
    · rw [boot_procs_of_ne hq]
  same h q := h.cwdClone q
  spawnFailed h q := by
    obtain ⟨_, _, _, _, _, _, -, rfl⟩ := h
    simp only [Kernel.setProc_procs]
    split_ifs with hq
    · rw [hq]
    · rfl
  child h := h.cwdClone
  others h q hq := by rw [h.procs, Kernel.withChild_of_ne _ _ _ _ _ hq]
  exited h q := by
    rw [h.procs]
    rfl
  reaped {s s' q z} h r := by
    by_cases hr : r = z
    · obtain ⟨_, hfreed⟩ := h.freed
      rw [hr, hfreed]
    · rw [h.kept r hr]

namespace PeerField

variable (F : PeerField)

/-- The process the array of `q` names, if any. -/
def partner (s : Kernel) (q : Slot) : Option Slot := F.get (s.procs q) 0

/-- The arrays name one process each, never their owner, and are empty for
processes that are not alive. -/
structure Ok (s : Kernel) : Prop where
  uniform : UniformLists (fun q => F.get (s.procs q)) (F.partner s)
  irrefl : ∀ q, F.partner s q ≠ some q
  dead : ∀ q, ¬ (s.procs q).Live → F.partner s q = none

/-- What a step does to partners. -/
inductive Change (s : Kernel) : Event → Kernel → Prop
  | quiet {e : Event} {s' : Kernel} (hpartner : F.partner s' = F.partner s)
      (hlive : ∀ q, (s'.procs q).Live ↔ (s.procs q).Live)
      (hpid : ∀ q, (s.procs q).Live → (s'.procs q).pid = (s.procs q).pid)
      (hclones : s'.clones = s.clones) : Change s e s'
  | born {e : Event} {s' : Kernel} {np : Slot} (hpartner : F.partner s' = F.partner s)
      (hnp : ¬ (s.procs np).Live) (hlive : ∀ q, (s'.procs q).Live ↔ (s.procs q).Live ∨ q = np)
      (hnew : (s'.procs np).pid = s.nextpid)
      (hpid : ∀ q, q ≠ np → (s'.procs q).pid = (s.procs q).pid)
      (hclones : ∀ x ∈ s'.clones, F.flag x.flags = true → x ∈ s.clones)
      (hgrown : ∀ x ∈ s.clones, x ∈ s'.clones) : Change s e s'
  | linked {p np : Slot} {flags : BitVec 32} {env : SpawnEnv} {s' : Kernel}
      (hpartner : F.partner s' = linkPartner (F.partner s) p np)
      (hcan : s.canClone p flags env = true)
      (hp : (s.procs p).Live) (hnp : ¬ (s.procs np).Live) (hflag : F.flag flags = true)
      (hlive : ∀ q, (s'.procs q).Live ↔ (s.procs q).Live ∨ q = np)
      (hnew : (s'.procs np).pid = s.nextpid)
      (hpid : ∀ q, q ≠ np → (s'.procs q).pid = (s.procs q).pid)
      (hclones : s'.clones = ⟨(s.procs p).pid, s.nextpid, flags⟩ :: s.clones) :
      Change s (.call p (.clone flags env)) s'
  | left {p : Slot} {s' : Kernel} (hpartner : F.partner s' = unlinkPartner (F.partner s) p)
      (hlive : ∀ q, (s'.procs q).Live ↔ (s.procs q).Live ∧ q ≠ p)
      (hpid : ∀ q, (s'.procs q).pid = (s.procs q).pid) (hclones : s'.clones = s.clones) :
      Change s (.call p .exit) s'

theorem ok_boot : F.Ok Xv6Threads.boot := by
  have hnone : ∀ q i, F.get (Xv6Threads.boot.procs q) i = none := fun q i => by rw [F.boot]
  refine ⟨?_, ?_, ?_⟩
  · intro q i
    exact (hnone q i).trans (hnone q 0).symm
  · intro q
    rw [partner, hnone]
    simp
  · intro q _
    exact hnone q 0

variable {F} {s s' : Kernel}

theorem partner_congr (h : ∀ q, F.get (s'.procs q) = F.get (s.procs q)) :
    F.partner s' = F.partner s := by
  funext q
  rw [partner, partner, h]

theorem Ok.of_eq (hok : F.Ok s) (hget : ∀ q, F.get (s'.procs q) = F.get (s.procs q))
    (hlive : ∀ q, (s.procs q).Live → (s'.procs q).Live) : F.Ok s' := by
  have hpartner := partner_congr hget
  refine ⟨?_, ?_, ?_⟩
  · intro q i
    rw [hpartner, ← hok.uniform q i]
    exact congrFun (hget q) i
  · rw [hpartner]
    exact hok.irrefl
  · intro q hq
    rw [hpartner]
    exact hok.dead q (mt (hlive q) hq)

/-- A step given by what it does to uniform arrays. -/
theorem Ok.of_uniform {nb : Slot → Option Slot}
    (huni : UniformLists (fun q => F.get (s'.procs q)) nb) (hirrefl : ∀ q, nb q ≠ some q)
    (hdead : ∀ q, ¬ (s'.procs q).Live → nb q = none) : F.Ok s' ∧ F.partner s' = nb := by
  have hpartner : F.partner s' = nb := funext fun q => huni q 0
  refine ⟨⟨?_, ?_, ?_⟩, hpartner⟩
  · rw [hpartner]
    exact huni
  · rw [hpartner]
    exact hirrefl
  · rw [hpartner]
    exact hdead

theorem Ok.linked (hok : F.Ok s) (hflag : F.flag flags = true) (hp : (s.procs p).Live)
    (h : Spawned s p np flags env child s')
    (hlive : ∀ q, (s'.procs q).Live ↔ (s.procs q).Live ∨ q = np) :
    F.Ok s' ∧ F.partner s' = linkPartner (F.partner s) p np := by
  have hnp : F.partner s np = none := hok.dead np fun hlive => hlive.1 h.free
  apply Ok.of_uniform
  · apply hok.uniform.link hnp
    · rw [h.child_eq, F.child h, if_pos hflag]
    · rw [F.others h p h.ne, if_pos ⟨rfl, hflag⟩]
    · intro q hq hqp
      rw [F.others h q hq, if_neg fun hcase => hqp hcase.1]
  · intro q hself
    rcases linkPartner_eq_some hself with ⟨rfl, hqp⟩ | ⟨rfl, -, hqn⟩ | ⟨-, hold⟩
    · exact h.ne hqp.symm
    · exact h.ne hqn
    · exact hok.irrefl q hold
  · intro q hq
    have hqn : q ≠ np := fun hqn => hq ((hlive q).mpr (.inr hqn))
    have hqlive : ¬ (s.procs q).Live := fun hqlive => hq ((hlive q).mpr (.inl hqlive))
    have hqp : q ≠ p := fun hqp => hqlive (hqp ▸ hp)
    rw [linkPartner_of_ne hqn hqp]
    exact hok.dead q hqlive

theorem Ok.left {st : Slot → ProcState} (hok : F.Ok s) (h : Exited s p st s')
    (hlive : ∀ q, (s'.procs q).Live ↔ (s.procs q).Live ∧ q ≠ p) :
    F.Ok s' ∧ F.partner s' = unlinkPartner (F.partner s) p := by
  apply Ok.of_uniform
  · intro q i
    rw [← hok.uniform.unlink (hok.irrefl p) q i]
    exact congrFun (F.exited h q) i
  · intro q hself
    exact hok.irrefl q (unlinkPartner_eq_some.mp hself).2.1
  · intro q hq
    by_cases hqp : q = p
    · rw [unlinkPartner, if_pos hqp]
    · have hnone : F.partner s q = none := hok.dead q fun hqlive => hq ((hlive q).mpr ⟨hqlive, hqp⟩)
      cases hres : unlinkPartner (F.partner s) p q with
      | none => rfl
      | some r =>
        rw [(unlinkPartner_eq_some.mp hres).2.1] at hnone
        cases hnone

end PeerField

namespace PeerField

variable {F : PeerField} {s s' : Kernel}

theorem get_of_not_shared (hflag : F.flag flags = false) (h : Spawned s p np flags env child s')
    (q : Slot) :
    F.get (s'.procs q) = F.get (s.procs q) := by
  by_cases hq : q = np
  · rw [hq, h.child_eq, F.child h]
    simp [hflag]
  · rw [F.others h q hq]
    simp [hflag]

/-- A new process that shares nothing through this array. -/
theorem Ok.born (hok : F.Ok s) (hflag : F.flag flags = false)
    (h : Spawned s p np flags env child s') (hpid : child.pid = s.nextpid)
    (hclones : ∀ x ∈ s'.clones, F.flag x.flags = true → x ∈ s.clones)
    (hgrown : ∀ x ∈ s.clones, x ∈ s'.clones) : F.Ok s' ∧ F.Change s e s' := by
  have hget := get_of_not_shared hflag h
  refine ⟨hok.of_eq hget fun q hq => (h.live_iff q).mpr (.inl hq), ?_⟩
  exact .born (partner_congr hget) (fun hlive => hlive.1 h.free) h.live_iff
    (by rw [h.child_eq, hpid]) h.pid_eq hclones hgrown

theorem Ok.step (hok : F.Ok s) (hstep : Step s e s') : F.Ok s' ∧ F.Change s e s' := by
  cases step_tree hstep with
  | same h =>
    refine ⟨hok.of_eq (F.same h) fun q hq => (h.live q).mpr hq, ?_⟩
    exact .quiet (partner_congr (F.same h)) h.live (fun q _ => h.pid q) h.clones
  | spawnFailed h =>
    refine ⟨hok.of_eq (F.spawnFailed h) fun q hq => (h.live_iff q).mpr hq, ?_⟩
    refine .quiet (partner_congr (F.spawnFailed h)) h.live_iff ?_ h.rest_eq.2.2.1
    intro q hq
    have hlive := (h.live_iff q).mpr hq
    rw [h.other_eq fun hqn => hlive.1 (by rw [hqn]; exact h.self_eq.2.1)]
  | forked hen h hfork =>
    apply hok.born F.flag_zero h hfork.pid
    · rw [hfork.clones]
      exact fun x hx _ => hx
    · rw [hfork.clones]
      exact fun x hx => hx
  | cloned hen h hclone =>
    rename_i p np flags env child
    cases hflag : F.flag flags with
    | true =>
      have hp := live_of_running hen.1
      obtain ⟨hok', hpartner⟩ := hok.linked hflag hp h h.live_iff
      refine ⟨hok', .linked hpartner h.canClone hp (fun hlive => hlive.1 h.free) hflag
        h.live_iff (by rw [h.child_eq, hclone.pid]) h.pid_eq hclone.clones⟩
    | false =>
      apply hok.born hflag h hclone.pid
      · rw [hclone.clones]
        intro x hx hxflag
        rcases List.mem_cons.mp hx with rfl | hx
        · rw [hflag] at hxflag
          cases hxflag
        · exact hx
      · rw [hclone.clones]
        exact fun x hx => List.mem_cons_of_mem _ hx
  | exited hen h =>
    obtain ⟨hok', hpartner⟩ := hok.left h h.live_iff
    exact ⟨hok', .left hpartner h.live_iff (fun q => by rw [h.procs]) h.clones⟩
  | reaped hsame h =>
    rename_i q z s₁
    have hget : ∀ r, F.get (s'.procs r) = F.get (s.procs r) := fun r =>
      (F.reaped h r).trans (F.same hsame r)
    have hlive : ∀ r, (s'.procs r).Live ↔ (s.procs r).Live := fun r =>
      (h.live_iff r).trans (hsame.live r)
    refine ⟨hok.of_eq hget fun r hr => (hlive r).mpr hr, ?_⟩
    refine .quiet (partner_congr hget) hlive ?_ (h.clones.trans hsame.clones)
    intro r hr
    have hrz : r ≠ z := fun hrz => ((hlive r).mpr hr).1 (hrz ▸ h.unused)
    rw [h.kept r hrz, hsame.pid]

theorem ok_of_reachable (h : Reachable Step Xv6Threads.boot s) : F.Ok s :=
  h.invariant F.ok_boot fun _ _ _ _ hok _ hstep => (hok.step hstep).1

theorem Ok.live (hok : F.Ok s) {r : Slot} (h : F.partner s q = some r) : (s.procs q).Live := by
  by_contra hdead
  rw [hok.dead q hdead] at h
  cases h

theorem Ok.partner_eq_some (hok : F.Ok s) {r : Slot} :
    F.partner s q = some r ↔ ∃ i, F.get (s.procs q) i = some r := by
  constructor
  · exact fun h => ⟨0, h⟩
  · rintro ⟨i, hi⟩
    exact (hok.uniform q i).symm.trans hi

theorem partner_boot (q : Slot) : F.partner Xv6Threads.boot q = none := by
  rw [partner, F.boot]

end PeerField

/-! ## Stale entries -/

/-- Related by a chain of clones that set the flag, whichever of the processes
in between are still there. Processes are named by their pids. -/
def Connected (s : Kernel) (flag : BitVec 32 → Bool) : ℤ → ℤ → Prop :=
  Relation.EqvGen fun a b => ∃ x ∈ s.clones, flag x.flags = true ∧ x.creator = a ∧ x.child = b

theorem Connected.mono {s s' : Kernel} {flag : BitVec 32 → Bool} {a b : ℤ}
    (hclones : ∀ x ∈ s.clones, x ∈ s'.clones) (h : Connected s flag a b) :
    Connected s' flag a b := by
  refine Relation.EqvGen.mono (fun a b => ?_) a b h
  rintro ⟨x, hx, hrest⟩
  exact ⟨x, hclones x hx, hrest⟩

namespace PeerField

variable {F : PeerField} {s s' : Kernel}

/-- Every array names a living process that a chain of clones relates to its
owner. -/
def NoStale (F : PeerField) (s : Kernel) : Prop :=
  ∀ q r, F.partner s q = some r →
    (s.procs r).Live ∧ Connected s F.flag (s.procs q).pid (s.procs r).pid

/-- An `exit` that finds every array it is named in: each is the array of a
process that its own array names. -/
def ExitUnlinks (F : PeerField) (s : Kernel) : Event → Prop
  | .call p .exit =>
    ∀ q, (∃ i, F.get (s.procs q) i = some p) → ∃ i, F.get (s.procs p) i = some q
  | _ => True

instance (s : Kernel) (e : Event) : Decidable (F.ExitUnlinks s e) := by
  unfold ExitUnlinks
  split <;> infer_instance

theorem noStale_boot : F.NoStale Xv6Threads.boot := by
  intro q r h
  rw [partner_boot] at h
  cases h

theorem NoStale.step (h : F.NoStale s) (hok : F.Ok s) (hgood : F.ExitUnlinks s e)
    (hchange : F.Change s e s') : F.NoStale s' := by
  intro q r hqr
  cases hchange with
  | quiet hpartner hlive hpid hclones =>
    rw [hpartner] at hqr
    obtain ⟨hr, hconn⟩ := h q r hqr
    rw [hlive, hpid q (hok.live hqr), hpid r hr]
    exact ⟨hr, hconn.mono (by simp [hclones])⟩
  | born hpartner hnp hlive hnew hpid hclones hgrown =>
    rw [hpartner] at hqr
    obtain ⟨hr, hconn⟩ := h q r hqr
    rw [hlive, hpid q fun hq => hnp (hq ▸ hok.live hqr), hpid r fun hrn => hnp (hrn ▸ hr)]
    exact ⟨.inl hr, hconn.mono hgrown⟩
  | @linked p np flags env _ hpartner _ hp hnp hflag hlive hnew hpid hclones =>
    have hpn : p ≠ np := fun hpn => hnp (hpn ▸ hp)
    have hnewpair : Connected s' F.flag (s'.procs p).pid (s'.procs np).pid := by
      refine .rel _ _ ⟨⟨(s.procs p).pid, s.nextpid, flags⟩, ?_, hflag, (hpid p hpn).symm,
        hnew.symm⟩
      rw [hclones]
      exact List.mem_cons_self
    rw [hpartner] at hqr
    rw [hlive]
    rcases linkPartner_eq_some hqr with ⟨rfl, rfl⟩ | ⟨rfl, -, rfl⟩ | ⟨hqn, hold⟩
    · exact ⟨.inl hp, hnewpair.symm⟩
    · exact ⟨.inr rfl, hnewpair⟩
    · obtain ⟨hr, hconn⟩ := h q r hold
      rw [hpid q hqn, hpid r fun hrn => hnp (hrn ▸ hr)]
      refine ⟨.inl hr, hconn.mono ?_⟩
      rw [hclones]
      exact fun x hx => List.mem_cons_of_mem _ hx
  | @left p _ hpartner hlive hpid hclones =>
    rw [hpartner] at hqr
    obtain ⟨hqp, hold, hnot⟩ := unlinkPartner_eq_some.mp hqr
    obtain ⟨hr, hconn⟩ := h q r hold
    rw [hlive, hpid, hpid]
    refine ⟨⟨hr, ?_⟩, hconn.mono (by simp [hclones])⟩
    rintro rfl
    exact hnot ⟨rfl, hok.partner_eq_some.mpr (hgood q (hok.partner_eq_some.mp hold))⟩

theorem noStale_of_reachable {good : Kernel → Event → Prop}
    (hgood : ∀ s e, good s e → F.ExitUnlinks s e)
    (h : ReachableBy Step good Xv6Threads.boot s) : F.NoStale s := by
  refine h.invariant noStale_boot ?_
  intro s e s' hreach hns hg hstep
  have hok := F.ok_of_reachable hreach.reachable
  exact hns.step hok (hgood s e hg) (hok.step hstep).2

/-- Along entries that are not stale one only meets relatives. -/
theorem NoStale.transGen (h : F.NoStale s) (hok : F.Ok s)
    (hpath : Relation.TransGen (FloodEdge (peerNbr fun q => F.get (s.procs q))) p q) :
    (s.procs q).Live ∧ Connected s F.flag (s.procs p).pid (s.procs q).pid := by
  have hedge : ∀ {a b}, FloodEdge (peerNbr fun q => F.get (s.procs q)) a b →
      F.partner s a = some b := by
    rintro a b ⟨hmem, -⟩
    obtain ⟨i, -, hi⟩ := List.mem_map.mp hmem
    exact hok.partner_eq_some.mpr ⟨i, hi⟩
  induction hpath with
  | single hstep => exact h _ _ (hedge hstep)
  | tail _ hstep ih =>
    obtain ⟨hlive, hconn⟩ := h _ _ (hedge hstep)
    exact ⟨hlive, ih.2.trans _ _ _ hconn⟩

end PeerField

/-! ## Pairs -/

namespace PeerField

variable {F : PeerField} {s s' : Kernel}

/-- A clone that shares finds its caller's array empty, so that it can enter
the new thread there. -/
def LinksFresh (F : PeerField) (s : Kernel) : Event → Prop
  | .call p (.clone flags env) =>
    F.flag flags = true → s.canClone p flags env = true → ∀ i, F.get (s.procs p) i = none
  | _ => True

instance (s : Kernel) (e : Event) : Decidable (F.LinksFresh s e) := by
  unfold LinksFresh
  split <;> infer_instance

/-- Processes share in pairs, and a living thread is paired with the process
that cloned it. -/
structure Paired (F : PeerField) (s : Kernel) : Prop where
  symmetric : Mutual (F.partner s)
  related : ∀ x ∈ s.clones, F.flag x.flags = true → ∀ q r, (s.procs q).Live → (s.procs r).Live →
    (s.procs q).pid = x.creator → (s.procs r).pid = x.child → F.partner s q = some r

theorem paired_boot : F.Paired Xv6Threads.boot := by
  refine ⟨?_, ?_⟩
  · intro q r h
    rw [partner_boot] at h
    cases h
  · intro x hx
    cases hx

/-- A recorded clone is not about a process made since. -/
theorem ne_new_of_mem_clones {x : CloneEvent} (hpids : PidsOk s)
    (hnew : (s'.procs np).pid = s.nextpid) (hx : x ∈ s.clones)
    (hq : (s'.procs q).pid = x.creator ∨ (s'.procs q).pid = x.child) : q ≠ np := by
  rintro rfl
  obtain ⟨hcreator, hchild⟩ := hpids.clones x hx
  rcases hq with hq | hq
  · exact hcreator.ne (hq.symm.trans hnew)
  · exact hchild.ne (hq.symm.trans hnew)

theorem Paired.step (h : F.Paired s) (hok : F.Ok s) (hpids : PidsOk s) (hgood : F.LinksFresh s e)
    (hchange : F.Change s e s') : F.Paired s' := by
  cases hchange with
  | quiet hpartner hlive hpid hclones =>
    refine ⟨hpartner ▸ h.symmetric, ?_⟩
    intro x hx hflag q r hq hr hxq hxr
    rw [hlive] at hq hr
    rw [hpid q hq] at hxq
    rw [hpid r hr] at hxr
    rw [hpartner]
    exact h.related x (hclones ▸ hx) hflag q r hq hr hxq hxr
  | born hpartner hnp hlive hnew hpid hclones hgrown =>
    refine ⟨hpartner ▸ h.symmetric, ?_⟩
    intro x hx hflag q r hq hr hxq hxr
    have hxs := hclones x hx hflag
    have hqn := ne_new_of_mem_clones hpids hnew hxs (.inl hxq)
    have hrn := ne_new_of_mem_clones hpids hnew hxs (.inr hxr)
    rw [hpartner]
    exact h.related x hxs hflag q r (((hlive q).mp hq).resolve_right hqn)
      (((hlive r).mp hr).resolve_right hrn) ((hpid q hqn).symm.trans hxq)
      ((hpid r hrn).symm.trans hxr)
  | @linked p np flags env _ hpartner hcan hp hnp hflag hlive hnew hpid hclones =>
    have hpn : p ≠ np := fun hpn => hnp (hpn ▸ hp)
    have hpnone : F.partner s p = none := hgood hflag hcan 0
    refine ⟨hpartner ▸ h.symmetric.link hpn hpnone (hok.dead np hnp), ?_⟩
    intro x hx hxflag q r hq hr hxq hxr
    rw [hclones] at hx
    rw [hpartner]
    rcases List.mem_cons.mp hx with rfl | hxs
    · -- the clone of this step: its two processes were linked with each other
      have hqn : q ≠ np := by
        rintro rfl
        exact (hpids.lt p).ne (hxq.symm.trans hnew)
      have hqlive := ((hlive q).mp hq).resolve_right hqn
      rw [hpid q hqn] at hxq
      obtain rfl := hpids.inj q p hxq (hpids.pos q hqlive.1).ne'
      have hrn : r = np := by
        by_contra hrn
        rw [hpid r hrn] at hxr
        exact (hpids.lt r).ne hxr
      rw [hrn, linkPartner, Function.update_of_ne hqn, Function.update_self, hpnone,
        Option.none_or]
    · have hqn := ne_new_of_mem_clones hpids hnew hxs (.inl hxq)
      have hrn := ne_new_of_mem_clones hpids hnew hxs (.inr hxr)
      have hold := h.related x hxs hxflag q r (((hlive q).mp hq).resolve_right hqn)
        (((hlive r).mp hr).resolve_right hrn) ((hpid q hqn).symm.trans hxq)
        ((hpid r hrn).symm.trans hxr)
      have hqp : q ≠ p := by
        rintro rfl
        rw [hpnone] at hold
        cases hold
      rw [linkPartner_of_ne hqn hqp, hold]
  | @left p _ hpartner hlive hpid hclones =>
    refine ⟨hpartner ▸ h.symmetric.unlink p, ?_⟩
    intro x hx hflag q r hq hr hxq hxr
    rw [hlive] at hq hr
    rw [hpid] at hxq hxr
    rw [hpartner]
    refine unlinkPartner_eq_some.mpr ⟨hq.2, ?_, fun hrp => hr.2 hrp.1⟩
    exact h.related x (hclones ▸ hx) hflag q r hq.1 hr.1 hxq hxr

end PeerField

end Xv6Threads
