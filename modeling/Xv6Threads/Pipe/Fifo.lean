/-
# A pipe is a queue

Whatever the interleaving and wherever the counters start, the ring holds exactly
the bytes stored and not yet delivered. So the bytes delivered are a prefix of the
bytes stored, and the counters never lie more than `PIPESIZE` apart. The bytes of
one writer are stored in the order of its calls, each call up to where it stopped.
-/

import Xv6Threads.Pipe.Steps

namespace Xv6Threads.Pipe

open Lib
open Function (update update_of_ne update_self)

/-- What the `pipewrite` a process is in has still to store. -/
def Phase.pending : Phase → Option (List Byte)
  | .writing bs => some bs
  | .full bs => some bs
  | .waking bs => some bs
  | .resting bs => some bs
  | .asleepWriter bs => some bs
  | .wokenWriter bs => some bs
  | .written => some []
  | _ => none

@[simp]
theorem Phase.pending_wake (ph : Phase) : ph.wake.pending = ph.pending := by
  cases ph <;> rfl

/-- A call stores its bytes from the front, and all of them if it returns their
number. -/
def WriteCall.Stored (c : WriteCall) (xs : List Byte) : Prop :=
  xs <+: c.bytes ∧ (c.complete = true → xs = c.bytes)

@[simp]
theorem pending_wakeReaders {P : Type} (phase : P → Phase) (q : P) :
    (wakeReaders phase q).pending = (phase q).pending := by
  rw [wakeReaders]
  split_ifs <;> simp

@[simp]
theorem pending_wakeWriters {P : Type} (phase : P → Phase) (q : P) :
    (wakeWriters phase q).pending = (phase q).pending := by
  rw [wakeWriters]
  split_ifs <;> simp

section

variable {P : Type} [DecidableEq P] {s s' : PipeState P} {p q : P}

/-- The bytes one process stored. -/
def PipeState.storedBy (s : PipeState P) (p : P) : List Byte :=
  (s.stored.filter fun x => x.1 = p).map Prod.snd

/-- A process's bytes stand in the order of its calls. -/
def PipeState.InOwnOrder (s : PipeState P) (p : P) : Prop :=
  ∃ pieces, List.Forall₂ WriteCall.Stored (s.calls p) pieces ∧
    s.storedBy p = pieces.reverse.flatten

/-- The same, for a process inside a call that has `bs` left to store. -/
def PipeState.InCall (s : PipeState P) (p : P) (bs : List Byte) : Prop :=
  ∃ arg cs xs pieces, s.calls p = ⟨arg, false⟩ :: cs ∧ arg = xs ++ bs ∧
    List.Forall₂ WriteCall.Stored cs pieces ∧ s.storedBy p = pieces.reverse.flatten ++ xs

theorem PipeState.InCall.inOwnOrder {bs : List Byte} (h : s.InCall p bs) : s.InOwnOrder p := by
  obtain ⟨arg, cs, xs, pieces, hcalls, rfl, hpieces, hstored⟩ := h
  refine ⟨xs :: pieces, ?_, ?_⟩
  · rw [hcalls]
    refine .cons ⟨List.prefix_append .., ?_⟩ hpieces
    intro h
    cases h
  · rw [hstored]
    simp

/-- The ring holds what was stored and not delivered, and every process's bytes
are in its own order. -/
structure FifoOk (s : PipeState P) : Prop where
  ring : ∃ xs, RingHolds s.data s.nread s.nwrite xs ∧ s.stored.map Prod.snd = s.delivered ++ xs
  own : ∀ p, s.InOwnOrder p
  inCall : ∀ p bs, (s.phase p).pending = some bs → s.InCall p bs

/-- Nothing was moved and no call began or ended. -/
structure SameFlow (s s' : PipeState P) : Prop where
  data : s'.data = s.data
  nread : s'.nread = s.nread
  nwrite : s'.nwrite = s.nwrite
  stored : s'.stored = s.stored
  delivered : s'.delivered = s.delivered
  calls : s'.calls = s.calls

theorem FifoOk.quiet (hi : FifoOk s) (hsame : SameFlow s s')
    (hpending : ∀ q, (s'.phase q).pending = (s.phase q).pending ∨ (s'.phase q).pending = none) :
    FifoOk s' where
  ring := by
    rw [hsame.data, hsame.nread, hsame.nwrite, hsame.stored, hsame.delivered]
    exact hi.ring
  own p := by
    rw [PipeState.InOwnOrder, PipeState.storedBy, hsame.calls, hsame.stored]
    exact hi.own p
  inCall p bs hp := by
    rw [PipeState.InCall, PipeState.storedBy, hsame.calls, hsame.stored]
    rcases hpending p with h | h
    · exact hi.inCall p bs (h ▸ hp)
    · rw [hp] at h
      cases h

/-- One process goes on in its call, or out of it, and others may be woken. -/
theorem pending_update {phase : P → Phase} {ph : Phase}
    (hsame : ∀ q, (phase q).pending = (s.phase q).pending)
    (hp : ph.pending = (s.phase p).pending ∨ ph.pending = none) (q : P) :
    (update phase p ph q).pending = (s.phase q).pending ∨
      (update phase p ph q).pending = none := by
  by_cases hq : q = p
  · rw [hq, update_self]
    exact hp
  · rw [update_of_ne hq]
    exact .inl (hsame q)

theorem FifoOk.began (hi : FifoOk s) (hp : s.phase p = .idle) (bs : List Byte)
    (l : Option P) :
    FifoOk { s with
      lock := l
      phase := update s.phase p (.writing bs)
      calls := update s.calls p (⟨bs, false⟩ :: s.calls p) } := by
  have hcall : ∀ q cs, (s.phase q).pending = some cs → q ≠ p := by
    rintro q cs h rfl
    rw [hp] at h
    cases h
  have hnew : PipeState.InCall { s with
      lock := l
      phase := update s.phase p (.writing bs)
      calls := update s.calls p (⟨bs, false⟩ :: s.calls p) } p bs := by
    obtain ⟨pieces, hpieces, hstored⟩ := hi.own p
    refine ⟨bs, s.calls p, [], pieces, ?_, rfl, hpieces, ?_⟩
    · exact update_self ..
    · rw [List.append_nil]
      exact hstored
  constructor
  case ring => exact hi.ring
  case own =>
    intro q
    by_cases hq : q = p
    · rw [hq]
      exact hnew.inOwnOrder
    · rw [PipeState.InOwnOrder]
      simp only [update_of_ne hq]
      exact hi.own q
  case inCall =>
    intro q cs hcs
    by_cases hq : q = p
    · subst hq
      simp only [update_self, Phase.pending, Option.some.injEq] at hcs
      exact hcs ▸ hnew
    · simp only [update_of_ne hq] at hcs
      rw [PipeState.InCall]
      simp only [update_of_ne hq]
      exact hi.inCall q cs hcs

theorem storedBy_append (s : PipeState P) (p q : P) (b : Byte) :
    ((s.stored ++ [(p, b)]).filter fun x => x.1 = q).map Prod.snd =
      s.storedBy q ++ if p = q then [b] else [] := by
  rw [PipeState.storedBy, List.filter_append, List.map_append]
  split_ifs with h <;> simp [h]

theorem FifoOk.stored {b : Byte} {bs : List Byte} (hi : FifoOk s)
    (hp : s.phase p = .writing (b :: bs))
    (hroom : s.nwrite ≠ s.nread + BitVec.ofNat 32 PIPESIZE) : FifoOk (s.store p b bs) := by
  have hother : ∀ q, q ≠ p → (s.store p b bs).storedBy q = s.storedBy q := by
    intro q hq
    refine (storedBy_append s p q b).trans ?_
    rw [if_neg hq.symm, List.append_nil]
  -- the byte moves from what is left of the argument to what is stored of it
  have hself : (s.store p b bs).InCall p bs := by
    obtain ⟨arg, cs, xs, pieces, hcalls, harg, hpieces, hstored⟩ :=
      hi.inCall p (b :: bs) (by rw [hp]; rfl)
    refine ⟨arg, cs, xs ++ [b], pieces, hcalls, ?_, hpieces, ?_⟩
    · rw [harg, List.append_assoc, List.singleton_append]
    · refine (storedBy_append s p p b).trans ?_
      rw [if_pos rfl, hstored, List.append_assoc]
  constructor
  case ring =>
    obtain ⟨xs, hring, hxs⟩ := hi.ring
    have hlt : xs.length < PIPESIZE :=
      lt_of_le_of_ne hring.room (mt (hring.full_iff (by decide)).mpr hroom)
    refine ⟨xs ++ [b], hring.push (by decide) hlt b, ?_⟩
    simp [PipeState.store, hxs]
  case own =>
    intro q
    by_cases hq : q = p
    · rw [hq]
      exact hself.inOwnOrder
    · rw [PipeState.InOwnOrder, hother q hq]
      exact hi.own q
  case inCall =>
    intro q cs hcs
    by_cases hq : q = p
    · subst hq
      rw [store_phase, update_self] at hcs
      cases hcs
      exact hself
    · rw [store_phase, update_of_ne hq] at hcs
      rw [PipeState.InCall, hother q hq]
      exact hi.inCall q cs hcs

theorem FifoOk.delivered {n : ℕ} (hi : FifoOk s) (hp : s.phase p = .copying (n + 1))
    (hsome : s.nread ≠ s.nwrite) : FifoOk (s.deliver p n) := by
  constructor
  case ring =>
    obtain ⟨xs, hring, hxs⟩ := hi.ring
    cases xs with
    | nil => exact absurd ((hring.empty_iff (by decide)).mpr rfl) hsome
    | cons x xs =>
      obtain ⟨hx, hrest⟩ := hring.pop
      refine ⟨xs, hrest, ?_⟩
      simp [PipeState.deliver, hxs, hx]
  case own => exact hi.own
  case inCall =>
    intro q cs hcs
    by_cases hq : q = p
    · subst hq
      rw [deliver_phase, update_self] at hcs
      cases hcs
    · rw [deliver_phase, update_of_ne hq] at hcs
      exact hi.inCall q cs hcs

theorem finish_calls_self {c : WriteCall} {cs : List WriteCall} (h : s.calls p = c :: cs) :
    (s.finish p).calls p = { c with complete := true } :: cs := by
  refine (update_self ..).trans ?_
  rw [h]

theorem finish_calls_of_ne (hq : q ≠ p) : (s.finish p).calls q = s.calls q :=
  update_of_ne hq ..

theorem FifoOk.finished (hi : FifoOk s) (hp : s.phase p = .written) : FifoOk (s.finish p) := by
  constructor
  case ring => exact hi.ring
  case own =>
    intro q
    by_cases hq : q = p
    · subst hq
      obtain ⟨arg, cs, xs, pieces, hcalls, rfl, hpieces, hstored⟩ :=
        hi.inCall q [] (by rw [hp]; rfl)
      refine ⟨xs :: pieces, ?_, ?_⟩
      · rw [finish_calls_self hcalls]
        exact .cons ⟨List.prefix_append .., fun _ => (List.append_nil _).symm⟩ hpieces
      · refine hstored.trans ?_
        simp
    · rw [PipeState.InOwnOrder, finish_calls_of_ne hq]
      exact hi.own q
  case inCall =>
    intro q cs hcs
    by_cases hq : q = p
    · subst hq
      rw [finish_phase, update_self] at hcs
      cases hcs
    · rw [finish_phase, update_of_ne hq, pending_wakeReaders] at hcs
      rw [PipeState.InCall, finish_calls_of_ne hq]
      exact hi.inCall q cs hcs

theorem FifoOk.step {e : PipeEvent P} (hi : FifoOk s) (h : PipeStep s e s') : FifoOk s' := by
  -- all but four kinds of step only move a process on, and wake others
  have hmoved : ∀ {t : PipeState P} {r : P} {phase : P → Phase} {ph : Phase},
      SameFlow s t → t.phase = update phase r ph →
      (∀ q, (phase q).pending = (s.phase q).pending) →
      (ph.pending = (s.phase r).pending ∨ ph.pending = none) → FifoOk t := by
    intro t r phase ph hsame hphase hothers hself
    apply hi.quiet hsame
    rw [hphase]
    exact pending_update hothers hself
  have hquiet : SameFlow s s := ⟨rfl, rfl, rfl, rfl, rfl, rfl⟩
  have hrefl : ∀ q, (s.phase q).pending = (s.phase q).pending := fun _ => rfl
  cases pipeStep_effect h with
  | beginWrite hp hfree => exact hi.began hp _ _
  | stored hp hroom => exact hi.stored hp hroom
  | delivered hp hsome => exact hi.delivered hp hsome
  | finished hp => exact hi.finished hp
  | killed =>
    rename_i p
    exact hmoved ⟨rfl, rfl, rfl, rfl, rfl, rfl⟩ rfl hrefl (.inl (Phase.pending_wake _))
  | beginRead hp hfree
  | beginClose hp hfree
  | gaveUp hp hgone
  | foundSome hp
  | readerKilled hp
  | readerStays hp
  | readerSlept hp
  | readerBack hp hfree
  | tookAll hp | shut hp
  | freed hp | left hp => exact hmoved ⟨rfl, rfl, rfl, rfl, rfl, rfl⟩ rfl hrefl (.inr rfl)
  | foundFull hp hfull | stays hp hopen | writerSlept hp | writerBack hp hfree | wroteAll hp =>
    exact hmoved ⟨rfl, rfl, rfl, rfl, rfl, rfl⟩ rfl hrefl (.inl (by rw [hp]; rfl))
  | wokeReaders hp =>
    exact hmoved ⟨rfl, rfl, rfl, rfl, rfl, rfl⟩ rfl (pending_wakeReaders _)
      (.inl (by rw [hp]; rfl))
  | foundEmpty hp hempty hopen =>
    exact hmoved ⟨rfl, rfl, rfl, rfl, rfl, rfl⟩ rfl hrefl (.inr rfl)
  | wokeWriters hp | shutWriters hp =>
    exact hmoved ⟨rfl, rfl, rfl, rfl, rfl, rfl⟩ rfl (pending_wakeWriters _) (.inr rfl)
  | shutReaders hp =>
    exact hmoved ⟨rfl, rfl, rfl, rfl, rfl, rfl⟩ rfl (pending_wakeReaders _) (.inr rfl)

/-- A pipe nobody uses yet, with both counters at the same value. -/
structure Start (s : PipeState P) : Prop where
  counters : s.nread = s.nwrite
  unlocked : s.lock = none
  idle : ∀ p, s.phase p = .idle
  stored : s.stored = []
  delivered : s.delivered = []
  calls : ∀ p, s.calls p = []

theorem Start.fifoOk (h : Start s) : FifoOk s where
  ring := by
    refine ⟨[], ?_, ?_⟩
    · rw [h.counters]
      exact ringHolds_nil ..
    · rw [h.stored, h.delivered]
      rfl
  own p := by
    refine ⟨[], ?_, ?_⟩
    · rw [h.calls]
      exact .nil
    · rw [PipeState.storedBy, h.stored]
      rfl
  inCall p bs hp := by
    rw [h.idle] at hp
    cases hp

theorem fifoOk_of_reachable {init : PipeState P} (hstart : Start init)
    (hreach : Reachable PipeStep init s) : FifoOk s :=
  hreach.invariant hstart.fifoOk fun _ _ _ _ hi _ hstep => hi.step hstep

/-- Pipes are first in, first out. What is not delivered yet is in the ring. -/
theorem pipe_fifo {init : PipeState P} (hstart : Start init)
    (hreach : Reachable PipeStep init s) :
    (s.nwrite - s.nread).toNat ≤ PIPESIZE ∧
      s.delivered <+: s.stored.map Prod.snd ∧
      (∃ xs, s.stored.map Prod.snd = s.delivered ++ xs ∧
        RingHolds s.data s.nread s.nwrite xs) ∧
      ∀ p, s.InOwnOrder p := by
  have hi := fifoOk_of_reachable hstart hreach
  obtain ⟨xs, hring, hxs⟩ := hi.ring
  refine ⟨?_, ?_, ⟨xs, hxs, hring⟩, hi.own⟩
  · rw [hring.distance (by decide)]
    exact hring.room
  · rw [hxs]
    exact List.prefix_append ..

end

/-- A new pipe whose counters are about to wrap. -/
def nearWrap : PipeState Bool where
  data := fun _ => 0
  nread := BitVec.allOnes 32
  nwrite := BitVec.allOnes 32
  readopen := true
  writeopen := true
  lock := none
  freed := false
  phase := fun _ => .idle
  killed := fun _ => false
  stored := []
  delivered := []
  calls := fun _ => []

theorem start_nearWrap : Start nearWrap := ⟨rfl, rfl, fun _ => rfl, rfl, rfl, fun _ => rfl⟩

/-- A write and a read across the wrap of the counters. -/
theorem pipe_fifo_wrapped : ∃ s : PipeState Bool, Reachable PipeStep nearWrap s ∧
    s.nread = 1 ∧ s.delivered = [3, 4] ∧ s.stored = [(true, 3), (true, 4), (true, 5)] ∧
    (s.nwrite - s.nread).toNat ≤ PIPESIZE ∧
    s.delivered <+: s.stored.map Prod.snd ∧
    (∃ xs, s.stored.map Prod.snd = s.delivered ++ xs ∧
      RingHolds s.data s.nread s.nwrite xs) ∧
    ∀ p, s.InOwnOrder p := by
  have hrun : ∃ s : PipeState Bool, Reachable PipeStep nearWrap s ∧
      s.nread = 1 ∧ s.delivered = [3, 4] ∧ s.stored = [(true, 3), (true, 4), (true, 5)] :=
    exists_reachableBy ([.pipewrite true [3, 4, 5]] ++ List.replicate 6 (.turn true) ++
      [.piperead false 2] ++ List.replicate 6 (.turn false)) (by decide +kernel)
  obtain ⟨s, hreach, hread, hdelivered, hstored⟩ := hrun
  exact ⟨s, hreach, hread, hdelivered, hstored, pipe_fifo start_nearWrap hreach⟩

end Xv6Threads.Pipe
