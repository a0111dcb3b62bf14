/-
# The disk queue

Whatever the interleaving, the queue is the list of requests that have arrived and are not
finished, the device works on the one at its head, and requests are started in the order
of their arrival. A process leaves `iderw` when the transfer of its own buffer is finished,
and none sleeps on a buffer that is.
-/

import Xv6Threads.Ide.Driver

namespace Xv6Threads.Ide

open Lib
open Function (update update_of_ne update_self)

section

variable {B : Type}

/-- The buffer that a process is in `iderw` with. -/
def Phase.buf : Phase B → Option B
  | .idle => none
  | .entered b => some b
  | .waiting b => some b
  | .asleep b => some b
  | .woken b => some b

/-- The buffer that a process has queued. -/
def Phase.request : Phase B → Option B
  | .idle => none
  | .entered _ => none
  | .waiting b => some b
  | .asleep b => some b
  | .woken b => some b

def Phase.Holds : Phase B → Prop
  | .entered _ => True
  | .waiting _ => True
  | _ => False

theorem Phase.buf_of_request {ph : Phase B} {b : B} (h : ph.request = some b) :
    ph.buf = some b := by
  cases ph <;> first | exact h | cases h

end

section

variable {P B D : Type}

/-- What holds between steps, for the list of buffers in the queue. -/
structure Inv (s : IdeState P B D) (queue : List B) : Prop where
  chain : Chain (fun b => (s.bufs b).qnext) s.idequeue queue
  nodup : queue.Nodup
  queued : ∀ b ∈ queue, (∃ p, (s.phase p).request = some b) ∧ ¬(s.bufs b).Finished
  owns : ∀ p b, (s.phase p).buf = some b → s.owner b = some p
  entered : ∀ p b, s.phase p = .entered b → b ∉ queue ∧ ¬(s.bufs b).Finished
  holds : ∀ p, (s.phase p).Holds → s.idelock = some (.proc p)
  request : ∀ p b, (s.phase p).request = some b → b ∉ queue →
    (s.bufs b).Finished ∧ s.result b = some (s.bufs b).data
  asleep : ∀ p b, s.phase p = .asleep b → b ∈ queue
  intr : s.handler ≠ .idle → s.idelock = some .intr
  command : s.device.cmd =
    if s.handler = .served then none else queue.head?.map fun b => (s.bufs b).command
  order : s.arrived = s.started ++ if s.handler = .served then queue else queue.tail
  ready : s.device.irq = true ∨ s.handler = .entered →
    s.device.done = true ∧ s.device.cmd ≠ none
  quiet : s.handler ≠ .idle → s.device.irq = false
  pending : s.device.done = true → s.device.irq = true ∨ s.handler = .entered
  written : s.device.done = true → ∀ c d, s.device.cmd = some c → c.write = some d →
    s.device.disk c.drive c.block = d

variable {s s' : IdeState P B D} {queue : List B} {p : P} {b : B}

/-- Nobody is in `iderw` with a buffer that a process outside of it has locked. -/
theorem Inv.untouched (h : Inv s queue) (hp : s.phase p = .idle) (howner : s.owner b = some p) :
    b ∉ queue ∧ ∀ q, (s.phase q).buf ≠ some b := by
  have hnone : ∀ q, (s.phase q).buf ≠ some b := by
    intro q hq
    have hsame := h.owns q b hq
    rw [howner, Option.some.injEq] at hsame
    rw [← hsame, hp] at hq
    cases hq
  refine ⟨fun hmem => ?_, hnone⟩
  obtain ⟨⟨q, hq⟩, -⟩ := h.queued b hmem
  exact hnone q (Phase.buf_of_request hq)

theorem Inv.handler_idle (h : Inv s queue) (hlock : s.idelock ≠ some .intr) : s.handler = .idle :=
  by_contra fun hne => hlock (h.intr hne)

/-! ## Steps of processes -/

theorem Inv.setOwner (h : Inv s queue) {owner : B → Option P}
    (howner : ∀ q b, (s.phase q).buf = some b → owner b = some q) :
    Inv { s with owner := owner } queue :=
  { h with owns := howner }

theorem Inv.setBufs (h : Inv s queue) {bufs : B → Buf B D}
    (hqueue : ∀ c ∈ queue, bufs c = s.bufs c)
    (hphase : ∀ q c, (s.phase q).buf = some c → bufs c = s.bufs c) :
    Inv { s with bufs := bufs } queue where
  chain := by
    apply h.chain.congr
    intro c hc
    show (bufs c).qnext = _
    rw [hqueue c hc]
  nodup := h.nodup
  queued c hc := by
    obtain ⟨hq, hunfinished⟩ := h.queued c hc
    refine ⟨hq, ?_⟩
    show ¬(bufs c).Finished
    rwa [hqueue c hc]
  owns := h.owns
  entered q c hq := by
    obtain ⟨hc, hunfinished⟩ := h.entered q c hq
    refine ⟨hc, ?_⟩
    show ¬(bufs c).Finished
    rwa [hphase q c (by rw [hq]; rfl)]
  holds := h.holds
  request q c hq hc := by
    have hdone := h.request q c hq hc
    show (bufs c).Finished ∧ s.result c = some (bufs c).data
    rwa [hphase q c (Phase.buf_of_request hq)]
  asleep := h.asleep
  intr := h.intr
  command := by
    show s.device.cmd = if s.handler = .served then none else
      queue.head?.map fun b => (bufs b).command
    rw [h.command]
    cases queue with
    | nil => rfl
    | cons c rest =>
      rw [List.head?_cons, Option.map_some, Option.map_some, hqueue c List.mem_cons_self]
  order := h.order
  ready := h.ready
  quiet := h.quiet
  pending := h.pending
  written := h.written

variable [DecidableEq P]

/-- A phase after a change is the new one, or that of another process, which keeps it. -/
theorem setPhase_cases {Q : Phase B → Prop} {ph : Phase B} {q : P}
    (hq : Q ((s.setPhase p ph).phase q)) : q = p ∧ Q ph ∨ q ≠ p ∧ Q (s.phase q) := by
  change Q (update s.phase p ph q) at hq
  by_cases hqp : q = p
  · rw [hqp, update_self] at hq
    exact .inl ⟨hqp, hq⟩
  · rw [update_of_ne hqp] at hq
    exact .inr ⟨hqp, hq⟩

/-- A process goes from one phase to another, and takes or releases `idelock`. -/
theorem Inv.moves (h : Inv s queue) {ph : Phase B} {lock : Option (Holder P)}
    (hkeeps : ∀ b ∈ queue, (s.phase p).request = some b → ph.request = some b)
    (howns : ∀ b, ph.buf = some b → s.owner b = some p)
    (hentered : ∀ b, ph = .entered b → b ∉ queue ∧ ¬(s.bufs b).Finished)
    (hholds : ph.Holds → lock = some (.proc p))
    (hrequest : ∀ b, ph.request = some b → b ∉ queue →
      (s.bufs b).Finished ∧ s.result b = some (s.bufs b).data)
    (hasleep : ∀ b, ph = .asleep b → b ∈ queue)
    (hothers : ∀ q, q ≠ p → (s.phase q).Holds → lock = some (.proc q))
    (hintr : s.handler ≠ .idle → lock = some .intr) :
    Inv { s.setPhase p ph with idelock := lock } queue where
  chain := h.chain
  nodup := h.nodup
  queued b hb := by
    obtain ⟨⟨q, hq⟩, hunfinished⟩ := h.queued b hb
    refine ⟨?_, hunfinished⟩
    by_cases hqp : q = p
    · refine ⟨p, ?_⟩
      show (update s.phase p ph p).request = some b
      rw [update_self]
      exact hkeeps b hb (hqp ▸ hq)
    · refine ⟨q, ?_⟩
      show (update s.phase p ph q).request = some b
      rwa [update_of_ne hqp]
  owns q b hq := by
    rcases setPhase_cases (Q := fun ph => ph.buf = some b) hq with ⟨rfl, hnew⟩ | ⟨-, hold⟩
    · exact howns b hnew
    · exact h.owns q b hold
  entered q b hq := by
    rcases setPhase_cases (Q := fun ph => ph = .entered b) hq with ⟨rfl, hnew⟩ | ⟨-, hold⟩
    · exact hentered b hnew
    · exact h.entered q b hold
  holds q hq := by
    rcases setPhase_cases hq with ⟨rfl, hnew⟩ | ⟨hqp, hold⟩
    · exact hholds hnew
    · exact hothers q hqp hold
  request q b hq := by
    rcases setPhase_cases (Q := fun ph => ph.request = some b) hq with ⟨rfl, hnew⟩ | ⟨-, hold⟩
    · exact hrequest b hnew
    · exact h.request q b hold
  asleep q b hq := by
    rcases setPhase_cases (Q := fun ph => ph = .asleep b) hq with ⟨rfl, hnew⟩ | ⟨-, hold⟩
    · exact hasleep b hnew
    · exact h.asleep q b hold
  intr := hintr
  command := h.command
  order := h.order
  ready := h.ready
  quiet := h.quiet
  pending := h.pending
  written := h.written

omit [DecidableEq P] in
/-- Nobody else holds the lock when it is free or when `p` has it. -/
theorem Inv.others_free (h : Inv s queue) (hlock : s.idelock = none ∨ s.idelock = some (.proc p))
    {lock : Option (Holder P)} (q : P) (hq : q ≠ p) (hholds : (s.phase q).Holds) :
    lock = some (.proc q) := by
  have hsame := h.holds q hholds
  rcases hlock with hlock | hlock
  · rw [hlock] at hsame
    cases hsame
  · rw [hlock, Option.some.injEq, Holder.proc.injEq] at hsame
    exact absurd hsame.symm hq

theorem Inv.iderw (h : Inv s queue) (hp : s.phase p = .idle) (hlock : s.idelock = none)
    (howner : s.owner b = some p) (hunfinished : ¬(s.bufs b).Finished) :
    Inv { s.setPhase p (.entered b) with idelock := some (.proc p) } queue := by
  obtain ⟨hmem, -⟩ := h.untouched hp howner
  apply h.moves
  · intro c _ hc
    rw [hp] at hc
    cases hc
  · intro c hc
    cases hc
    exact howner
  · intro c hc
    cases hc
    exact ⟨hmem, hunfinished⟩
  · exact fun _ => rfl
  · intro c hc
    cases hc
  · intro c hc
    cases hc
  · exact h.others_free (.inl hlock)
  · intro hne
    exact absurd (h.handler_idle (by rw [hlock]; simp)) hne

theorem Inv.test (h : Inv s queue) (hp : s.phase p = .waiting b) : Inv (s.test p b) queue := by
  have hlock := h.holds p (by rw [hp]; trivial)
  have hbuf : (s.phase p).buf = some b := by rw [hp]; rfl
  have hrequest : (s.phase p).request = some b := by rw [hp]; rfl
  have hintr : s.handler ≠ .idle → (none : Option (Holder P)) = some .intr := fun hne =>
    absurd (h.handler_idle (by rw [hlock]; simp)) hne
  unfold IdeState.test
  by_cases hdone : (s.bufs b).Finished
  · rw [if_pos hdone]
    apply h.moves
    · intro c hc hcp
      rw [hrequest, Option.some.injEq] at hcp
      exact absurd hdone (hcp ▸ (h.queued c hc).2)
    · intro c hc
      cases hc
    · intro c hc
      cases hc
    · exact False.elim
    · intro c hc
      cases hc
    · intro c hc
      cases hc
    · exact h.others_free (.inr hlock)
    · exact hintr
  · rw [if_neg hdone]
    have hmem : b ∈ queue := by_contra fun hno => hdone (h.request p b hrequest hno).1
    apply h.moves
    · intro c _ hcp
      rwa [hrequest] at hcp
    · intro c hc
      cases hc
      exact h.owns p b hbuf
    · intro c hc
      cases hc
    · exact False.elim
    · intro c hc hno
      cases hc
      exact absurd hmem hno
    · intro c hc
      cases hc
      exact hmem
    · exact h.others_free (.inr hlock)
    · exact hintr

/-- A process that leaves the loop of `iderw` does so after its transfer. -/
theorem Inv.returned (h : Inv s queue) (hp : s.phase p = .waiting b)
    (hidle : (s.test p b).phase p = .idle) :
    b ∉ queue ∧ (s.bufs b).Finished ∧ s.result b = some (s.bufs b).data := by
  have hrequest : (s.phase p).request = some b := by rw [hp]; rfl
  have hdone : (s.bufs b).Finished := by
    by_contra hnot
    unfold IdeState.test at hidle
    rw [if_neg hnot] at hidle
    have hasleep : (Phase.asleep b : Phase B) = .idle := by
      rw [← hidle]
      exact (update_self p (.asleep b) s.phase).symm
    cases hasleep
  have hno : b ∉ queue := fun hmem => (h.queued b hmem).2 hdone
  exact ⟨hno, h.request p b hrequest hno⟩

theorem Inv.kill (h : Inv s queue) (p : P) : Inv (s.setPhase p (s.phase p).wake) queue := by
  have hrequest : (s.phase p).wake.request = (s.phase p).request := by
    cases s.phase p <;> rfl
  have hbuf : (s.phase p).wake.buf = (s.phase p).buf := by
    cases s.phase p <;> rfl
  have hmoved : Inv { s.setPhase p (s.phase p).wake with idelock := s.idelock } queue := by
    apply h.moves
    · intro c _ hc
      rw [hrequest]
      exact hc
    · intro c hc
      rw [hbuf] at hc
      exact h.owns p c hc
    · intro c hc
      apply h.entered p c
      cases hph : s.phase p <;> rw [hph] at hc <;> first | exact hc | cases hc
    · intro hholds
      apply h.holds p
      cases hph : s.phase p <;> rw [hph] at hholds <;> exact hholds
    · intro c hc
      rw [hrequest] at hc
      exact h.request p c hc
    · intro c hc
      apply h.asleep p c
      cases hph : s.phase p <;> rw [hph] at hc <;> cases hc
    · exact fun q _ => h.holds q
    · exact h.intr
  exact hmoved

theorem Inv.resume (h : Inv s queue) (hp : s.phase p = .woken b) (hlock : s.idelock = none) :
    Inv { s.setPhase p (.waiting b) with idelock := some (.proc p) } queue := by
  have hbuf : (s.phase p).buf = some b := by rw [hp]; rfl
  have hrequest : (s.phase p).request = some b := by rw [hp]; rfl
  apply h.moves
  · intro c _ hc
    rwa [hrequest] at hc
  · intro c hc
    cases hc
    exact h.owns p b hbuf
  · intro c hc
    cases hc
  · exact fun _ => rfl
  · intro c hc
    cases hc
    exact h.request p b hrequest
  · intro c hc
    cases hc
  · exact h.others_free (.inl hlock)
  · intro hne
    exact absurd (h.handler_idle (by rw [hlock]; simp)) hne

end

/-! ## The append -/

section

variable {P B D : Type} [DecidableEq B] [Fintype B]
variable {s : IdeState P B D} {queue : List B} {b : B}

theorem Inv.append_eq (h : Inv s queue) (hb : b ∉ queue) :
    ∃ bufs, s.append b = some { s with bufs := bufs, idequeue := (queue ++ [b]).head? } ∧
      Chain (fun c => (bufs c).qnext) (queue ++ [b]).head? (queue ++ [b]) ∧
      ∀ c, ∃ next, bufs c = { s.bufs c with qnext := next } := by
  have hone : ∀ c, ∃ next, (s.setNext b none).bufs c = { s.bufs c with qnext := next } := by
    intro c
    show ∃ next, update s.bufs b { s.bufs b with qnext := none } c = _
    by_cases hc : c = b
    · rw [hc, update_self]
      exact ⟨none, rfl⟩
    · rw [update_of_ne hc]
      exact ⟨(s.bufs c).qnext, rfl⟩
  have hchain : Chain (fun c => ((s.setNext b none).bufs c).qnext) s.idequeue queue := by
    apply h.chain.congr
    intro c hc
    show (update s.bufs b _ c).qnext = _
    rw [update_of_ne (ne_of_mem_of_not_mem hc hb)]
  have hend : ((s.setNext b none).bufs b).qnext = none := by
    show (update s.bufs b _ b).qnext = none
    rw [update_self]
  have hhead : s.idequeue = queue.head? := h.chain.eq_head?
  cases hlast : queue.getLast? with
  | none =>
    rw [List.getLast?_eq_none_iff] at hlast
    subst hlast
    refine ⟨(s.setNext b none).bufs, ?_, ⟨rfl, hend⟩, hone⟩
    have hempty : (s.setNext b none).idequeue = none := hhead
    simp only [IdeState.append, hempty]
    rfl
  | some last =>
    obtain ⟨first, hfirst⟩ : ∃ first, queue.head? = some first := by
      cases queue with
      | nil => cases hlast
      | cons first rest => exact ⟨first, rfl⟩
    have happend : (queue ++ [b]).head? = some first := by
      rw [List.head?_append, hfirst, Option.some_or]
    have hqueue : (s.setNext b none).idequeue = some first := hhead.trans hfirst
    have hfuel : queue.length ≤ Fintype.card B := h.nodup.length_le_card
    rw [hhead, hfirst] at hchain
    refine ⟨((s.setNext b none).setNext last (some b)).bufs, ?_, ?_, ?_⟩
    · simp only [IdeState.append, hqueue, hchain.chainEnd_eq hfuel, hlast, Option.map_some,
        happend]
      rw [← hqueue]
      rfl
    · have hext := hchain.append h.nodup hlast hb hend
      rw [happend]
      apply hext.congr
      intro c _
      show (update (s.setNext b none).bufs last _ c).qnext = _
      by_cases hc : c = last
      · rw [hc, update_self, update_self]
      · rw [update_of_ne hc, update_of_ne hc]
    · intro c
      show ∃ next, update (s.setNext b none).bufs last _ c = _
      by_cases hc : c = last
      · rw [hc, update_self]
        obtain ⟨next, hnext⟩ := hone last
        rw [hnext]
        exact ⟨some b, rfl⟩
      · rw [update_of_ne hc]
        exact hone c

end

section

variable {P B D : Type} [DecidableEq P] [DecidableEq B]
variable {s s' : IdeState P B D} {queue : List B} {p : P} {b : B}

omit [DecidableEq P] [DecidableEq B] in
theorem idestart_ok (h : s.idestart b = .ok s') :
    s' = { s with device := s.device.start (s.bufs b).command, started := s.started ++ [b] } := by
  unfold IdeState.idestart at h
  by_cases hblock : FSSIZE ≤ (s.bufs b).blockno
  · rw [if_pos hblock] at h
    cases h
  · rw [if_neg hblock] at h
    cases h
    rfl

omit [DecidableEq P] in
theorem startFirst_ok (h : s.startFirst b = .ok s') :
    s.idequeue = some b ∧ s.idestart b = .ok s' ∨ s.idequeue ≠ some b ∧ s' = s := by
  unfold IdeState.startFirst at h
  by_cases hfirst : s.idequeue = some b
  · rw [if_pos hfirst] at h
    exact .inl ⟨hfirst, h⟩
  · rw [if_neg hfirst] at h
    cases h
    exact .inr ⟨hfirst, rfl⟩

/-- A buffer has been appended, and the device has been given its command if it had none. -/
theorem Inv.enqueued (h : Inv s queue) (hp : s.phase p = .entered b) {bufs : B → Buf B D}
    (hchain : Chain (fun c => (bufs c).qnext) (queue ++ [b]).head? (queue ++ [b]))
    (hbufs : ∀ c, ∃ next, bufs c = { s.bufs c with qnext := next })
    {device : Device D} {started : List B}
    (hcmd : device.cmd = (queue ++ [b]).head?.map fun c => (bufs c).command)
    (horder : s.arrived ++ [b] = started ++ (queue ++ [b]).tail)
    (hready : device.irq = true → device.done = true ∧ device.cmd ≠ none)
    (hpending : device.done = true → device.irq = true)
    (hwritten : device.done = true → ∀ c d, device.cmd = some c → c.write = some d →
      device.disk c.drive c.block = d) :
    Inv { s.setPhase p (.waiting b) with
      bufs := bufs, idequeue := (queue ++ [b]).head?, arrived := s.arrived ++ [b]
      result := update s.result b none, device := device, started := started }
      (queue ++ [b]) := by
  obtain ⟨hb, hunfinished⟩ := h.entered p b hp
  have hlock := h.holds p (by rw [hp]; trivial)
  have hidle : s.handler = .idle := h.handler_idle (by rw [hlock]; simp)
  have hbuf : (s.phase p).buf = some b := by rw [hp]; rfl
  have hfinished : ∀ c, (bufs c).Finished ↔ (s.bufs c).Finished := by
    intro c
    obtain ⟨next, hnext⟩ := hbufs c
    rw [hnext]
    exact Iff.rfl
  have hdata : ∀ c, (bufs c).data = (s.bufs c).data := by
    intro c
    obtain ⟨next, hnext⟩ := hbufs c
    rw [hnext]
  exact {
    chain := hchain
    nodup := by
      rw [List.nodup_append]
      refine ⟨h.nodup, List.nodup_singleton b, ?_⟩
      intro c hc d hd
      rw [List.mem_singleton.mp hd]
      exact ne_of_mem_of_not_mem hc hb
    queued := by
      intro c hc
      show (∃ q, (update s.phase p (.waiting b) q).request = some c) ∧ ¬(bufs c).Finished
      rw [hfinished]
      rcases List.mem_append.mp hc with hc | hc
      · obtain ⟨⟨q, hq⟩, hnot⟩ := h.queued c hc
        have hqp : q ≠ p := by
          rintro rfl
          rw [hp] at hq
          cases hq
        refine ⟨⟨q, ?_⟩, hnot⟩
        rwa [update_of_ne hqp]
      · cases List.mem_singleton.mp hc
        refine ⟨⟨p, ?_⟩, hunfinished⟩
        rw [update_self]
        rfl
    owns := by
      intro q c hq
      rcases setPhase_cases (Q := fun ph => ph.buf = some c) hq with ⟨rfl, hc⟩ | ⟨-, hq⟩
      · cases hc
        exact h.owns q b hbuf
      · exact h.owns q c hq
    entered := by
      intro q c hq
      rcases setPhase_cases (Q := fun ph => ph = .entered c) hq with ⟨rfl, hc⟩ | ⟨hqp, hq⟩
      · cases hc
      · -- only `p` was between `acquire` and the append
        have hsame := h.holds q (by rw [hq]; trivial)
        rw [hlock, Option.some.injEq, Holder.proc.injEq] at hsame
        exact absurd hsame.symm hqp
    holds := by
      intro q hq
      rcases setPhase_cases hq with ⟨rfl, -⟩ | ⟨-, hq⟩
      · exact hlock
      · exact h.holds q hq
    request := by
      intro q c hq hc
      show (bufs c).Finished ∧ update s.result b none c = some (bufs c).data
      rw [List.mem_append, List.mem_singleton, not_or] at hc
      rw [hfinished, hdata, update_of_ne hc.2]
      rcases setPhase_cases (Q := fun ph => ph.request = some c) hq with ⟨rfl, hcb⟩ | ⟨-, hq⟩
      · cases hcb
        exact absurd rfl hc.2
      · exact h.request q c hq hc.1
    asleep := by
      intro q c hq
      rcases setPhase_cases (Q := fun ph => ph = .asleep c) hq with ⟨rfl, hc⟩ | ⟨-, hq⟩
      · cases hc
      · exact List.mem_append_left _ (h.asleep q c hq)
    intr := h.intr
    command := by
      show device.cmd = if s.handler = .served then none else _
      rw [hidle, hcmd]
      rfl
    order := by
      show s.arrived ++ [b] = started ++ if s.handler = .served then _ else _
      rw [hidle, horder]
      rfl
    ready := by
      intro hor
      apply hready
      rcases hor with hirq | hhandler
      · exact hirq
      · exact absurd (hidle.symm.trans hhandler) (by decide)
    quiet := fun hne => absurd hidle hne
    pending := fun hdone => .inl (hpending hdone)
    written := hwritten }

variable [Fintype B]

/-- The loop to the end of the queue ends, and only a buffer that finds the queue empty is
started. -/
theorem Inv.enqueue (h : Inv s queue) (hp : s.phase p = .entered b) :
    ∃ r, s.enqueue p b = some r ∧ ∀ s', r = .ok s' → Inv s' (queue ++ [b]) := by
  obtain ⟨hb, hunfinished⟩ := h.entered p b hp
  obtain ⟨bufs, happend, hchain, hbufs⟩ := h.append_eq hb
  have hlock := h.holds p (by rw [hp]; trivial)
  have hidle : s.handler = .idle := h.handler_idle (by rw [hlock]; simp)
  have hcmd := h.command
  have horder := h.order
  rw [hidle, if_neg (by decide)] at hcmd horder
  have hcommand : ∀ c, (bufs c).command = (s.bufs c).command := by
    intro c
    obtain ⟨next, hnext⟩ := hbufs c
    rw [hnext]
    rfl
  unfold IdeState.enqueue
  rw [happend, Option.map_some]
  refine ⟨_, rfl, fun s' hs' => ?_⟩
  cases queue with
  | nil =>
    rcases startFirst_ok hs' with ⟨-, hstart⟩ | ⟨hne, -⟩
    · rw [idestart_ok hstart]
      apply h.enqueued hp hchain hbufs
      · rfl
      · show s.arrived ++ [b] = (s.started ++ [b]) ++ []
        rw [horder]
        simp
      · intro hirq
        exact absurd hcmd (h.ready (.inl hirq)).2
      · intro hdone
        cases hdone
      · intro hdone
        cases hdone
    · exact absurd rfl hne
  | cons first rest =>
    rcases startFirst_ok hs' with ⟨heq, -⟩ | ⟨-, hsame⟩
    · exact absurd (Option.some.inj heq) (ne_of_mem_of_not_mem List.mem_cons_self hb)
    · rw [hsame]
      apply h.enqueued hp hchain hbufs
      · show s.device.cmd = some (bufs first).command
        rw [hcmd, hcommand]
        rfl
      · show s.arrived ++ [b] = s.started ++ (rest ++ [b])
        rw [horder, List.tail_cons, List.append_assoc]
      · exact fun hirq => h.ready (.inl hirq)
      · intro hdone
        rcases h.pending hdone with hirq | hhandler
        · exact hirq
        · exact absurd (hidle.symm.trans hhandler) (by decide)
      · exact h.written

end

/-! ## The device and the interrupt handler -/

section

variable {P B D : Type} {s : IdeState P B D} {queue : List B} {b : B}

theorem Inv.finish (h : Inv s queue) {c : Command D} (hcmd : s.device.cmd = some c)
    (hdone : s.device.done = false) : Inv { s with device := s.device.finish c } queue :=
  { h with
    command := hcmd.symm.trans h.command
    ready := fun _ => ⟨rfl, Option.some_ne_none c⟩
    quiet := by
      intro hne
      exfalso
      cases hhandler : s.handler with
      | idle => exact hne hhandler
      | entered =>
        have hready := (h.ready (.inr hhandler)).1
        rw [hdone] at hready
        cases hready
      | served =>
        have hnone := h.command
        rw [hcmd, hhandler] at hnone
        cases hnone
    pending := fun _ => .inl rfl
    written := by
      intro _ c' d hc' hwrite
      cases hc'
      show (if c.drive = c.drive ∧ c.block = c.block then c.write.getD _ else _) = d
      rw [if_pos ⟨rfl, rfl⟩, hwrite]
      rfl }

theorem Inv.no_holder (h : Inv s queue) (hlock : ∀ p, s.idelock ≠ some (.proc p))
    {lock : Option (Holder P)} (q : P) (hholds : (s.phase q).Holds) : lock = some (.proc q) :=
  absurd (h.holds q hholds) (hlock q)

theorem Inv.ideintr (h : Inv s queue) (hirq : s.device.irq = true) (hlock : s.idelock = none) :
    Inv { s with
      idelock := some .intr, handler := .entered, device := { s.device with irq := false } }
      queue := by
  have hidle : s.handler = .idle := h.handler_idle (by rw [hlock]; simp)
  have hcmd := h.command
  have horder := h.order
  rw [hidle, if_neg (by decide)] at hcmd horder
  exact { h with
    holds := h.no_holder fun p => by rw [hlock]; simp
    intr := fun _ => rfl
    command := hcmd
    order := horder
    ready := fun _ => h.ready (.inl hirq)
    quiet := fun _ => rfl
    pending := fun _ => .inr rfl }

/-- What the device did for the buffer at the head of the queue, when it has finished. -/
theorem Inv.transferred (h : Inv s (b :: queue)) (hhandler : s.handler = .entered) :
    s.device.cmd = some (s.bufs b).command ∧
      ((s.bufs b).dirty = true →
        s.device.disk ((s.bufs b).dev % 2) (s.bufs b).blockno = (s.bufs b).data) := by
  have hcmd := h.command
  rw [hhandler, if_neg (by decide)] at hcmd
  refine ⟨hcmd, fun hdirty => ?_⟩
  apply h.written (h.ready (.inr hhandler)).1 _ _ hcmd
  show (if (s.bufs b).dirty then some (s.bufs b).data else none) = _
  rw [hdirty]
  rfl

variable [DecidableEq B]

theorem wakeup_request (ph : Phase B) : (wakeup b ph).request = ph.request := by
  unfold wakeup
  by_cases h : ph = .asleep b
  · rw [if_pos h, h]
    rfl
  · rw [if_neg h]

theorem wakeup_buf (ph : Phase B) : (wakeup b ph).buf = ph.buf := by
  unfold wakeup
  by_cases h : ph = .asleep b
  · rw [if_pos h, h]
    rfl
  · rw [if_neg h]

theorem wakeup_cases (ph : Phase B) :
    wakeup b ph = .woken b ∨ wakeup b ph = ph ∧ ph ≠ .asleep b := by
  unfold wakeup
  by_cases h : ph = .asleep b
  · rw [if_pos h]
    exact .inl rfl
  · rw [if_neg h]
    exact .inr ⟨rfl, h⟩

/-- The handler leaves in a buffer what the disk has in its block. -/
theorem Inv.serve_data (h : Inv s (b :: queue)) (hhandler : s.handler = .entered) :
    (s.serve b).bufs b = { s.bufs b with
      valid := true, dirty := false
      data := s.device.disk ((s.bufs b).dev % 2) (s.bufs b).blockno } := by
  obtain ⟨hcmd, hwritten⟩ := h.transferred hhandler
  show update s.bufs b _ b = _
  rw [update_self, hcmd]
  cases hdirty : (s.bufs b).dirty with
  | false => rfl
  | true =>
    rw [hwritten hdirty]
    rfl

theorem Inv.serve (h : Inv s (b :: queue)) (hhandler : s.handler = .entered) :
    Inv (s.serve b) queue := by
  have hb : b ∉ queue := (List.nodup_cons.mp h.nodup).1
  have hother : ∀ c, c ≠ b → (s.serve b).bufs c = s.bufs c := fun c hc =>
    update_of_ne hc _ _
  have horder := h.order
  rw [hhandler, if_neg (by decide)] at horder
  exact {
    chain := by
      apply h.chain.2.congr
      intro c hc
      rw [hother c (ne_of_mem_of_not_mem hc hb)]
    nodup := (List.nodup_cons.mp h.nodup).2
    queued := by
      intro c hc
      obtain ⟨⟨q, hq⟩, hunfinished⟩ := h.queued c (List.mem_cons_of_mem b hc)
      rw [hother c (ne_of_mem_of_not_mem hc hb)]
      exact ⟨⟨q, (wakeup_request _).trans hq⟩, hunfinished⟩
    owns := fun q c hq => h.owns q c ((wakeup_buf _).symm.trans hq)
    entered := by
      intro q c hq
      change wakeup b (s.phase q) = _ at hq
      rcases wakeup_cases (b := b) (s.phase q) with hwoken | ⟨hsame, -⟩
      · rw [hwoken] at hq
        cases hq
      · obtain ⟨hc, hunfinished⟩ := h.entered q c (hsame.symm.trans hq)
        rw [List.mem_cons, not_or] at hc
        rw [hother c hc.1]
        exact ⟨hc.2, hunfinished⟩
    holds := by
      intro q hq
      change (wakeup b (s.phase q)).Holds at hq
      rcases wakeup_cases (b := b) (s.phase q) with hwoken | ⟨hsame, -⟩
      · rw [hwoken] at hq
        exact hq.elim
      · rw [hsame] at hq
        exact h.holds q hq
    request := by
      intro q c hq hc
      have hrequest := (wakeup_request _).symm.trans hq
      by_cases hcb : c = b
      · subst hcb
        rw [h.serve_data hhandler]
        exact ⟨⟨rfl, rfl⟩, update_self _ _ _⟩
      · rw [hother c hcb]
        show _ ∧ update s.result b _ c = _
        rw [update_of_ne hcb]
        exact h.request q c hrequest fun hmem => (List.mem_cons.mp hmem).elim hcb hc
    asleep := by
      intro q c hq
      change wakeup b (s.phase q) = _ at hq
      rcases wakeup_cases (b := b) (s.phase q) with hwoken | ⟨hsame, hne⟩
      · rw [hwoken] at hq
        cases hq
      · rw [hsame] at hq
        rcases List.mem_cons.mp (h.asleep q c hq) with hcb | hmem
        · exact absurd (hcb ▸ hq) hne
        · exact hmem
    intr := fun _ => h.intr (by rw [hhandler]; decide)
    command := rfl
    order := horder
    ready := by
      intro hor
      rcases hor with hirq | hentered
      · have hquiet := h.quiet (by rw [hhandler]; decide)
        exact absurd (hirq.symm.trans hquiet) (by decide)
      · cases hentered
    quiet := fun _ => h.quiet (by rw [hhandler]; decide)
    pending := by
      intro hdone
      cases hdone
    written := by
      intro hdone
      cases hdone }

end

section

variable {P B D : Type} {s s' : IdeState P B D} {queue : List B} {b : B}

theorem Inv.leave (h : Inv s []) (hhandler : s.handler = .served) :
    Inv { s with idelock := none, handler := .idle } [] := by
  have hlock := h.intr (by rw [hhandler]; decide)
  have hcmd := h.command
  have horder := h.order
  rw [hhandler] at hcmd horder
  exact { h with
    holds := h.no_holder fun p => by rw [hlock]; simp
    intr := fun hne => absurd rfl hne
    command := hcmd
    order := horder
    ready := by
      intro hor
      rcases hor with hirq | hentered
      · exact h.ready (.inl hirq)
      · cases hentered
    quiet := fun hne => absurd rfl hne
    pending := by
      intro hdone
      rcases h.pending hdone with hirq | hentered
      · exact .inl hirq
      · exact absurd (hhandler.symm.trans hentered) (by decide) }

theorem Inv.startNext (h : Inv s (b :: queue)) (hhandler : s.handler = .served)
    (hstart : s.idestart b = .ok s') :
    Inv { s' with idelock := none, handler := .idle } (b :: queue) := by
  rw [idestart_ok hstart]
  have hlock := h.intr (by rw [hhandler]; decide)
  have horder := h.order
  rw [hhandler] at horder
  exact { h with
    holds := h.no_holder fun p => by rw [hlock]; simp
    intr := fun hne => absurd rfl hne
    command := rfl
    order := by
      show s.arrived = (s.started ++ [b]) ++ queue
      rw [horder, List.append_assoc]
      rfl
    ready := by
      intro hor
      rcases hor with hirq | hentered
      · have hquiet := h.quiet (by rw [hhandler]; decide)
        exact absurd (hirq.symm.trans hquiet) (by decide)
      · cases hentered
    quiet := fun hne => absurd rfl hne
    pending := by
      intro hdone
      cases hdone
    written := by
      intro hdone
      cases hdone }

end

/-! ## Runs -/

section

variable {P B D : Type} [DecidableEq P] [DecidableEq B] [Fintype B]
variable {s s' : IdeState P B D} {e : Event P B D} {queue : List B}

theorem Inv.step (h : Inv s queue) (hstep : IdeStep s e s') : ∃ queue', Inv s' queue' := by
  have hnext := ideNext_of_step hstep
  cases e with
  | lockBuf p b =>
    obtain ⟨⟨-, hfree⟩, hs'⟩ := Option.ite_none_right_eq_some.mp hnext
    cases hs'
    refine ⟨queue, h.setOwner fun q c hq => ?_⟩
    have hne : c ≠ b := by
      rintro rfl
      exact absurd ((h.owns q c hq).symm.trans hfree) (by simp)
    rw [update_of_ne hne]
    exact h.owns q c hq
  | unlockBuf p b =>
    obtain ⟨⟨hp, howner⟩, hs'⟩ := Option.ite_none_right_eq_some.mp hnext
    cases hs'
    refine ⟨queue, h.setOwner fun q c hq => ?_⟩
    have hne : c ≠ b := by
      rintro rfl
      exact (h.untouched hp howner).2 q hq
    rw [update_of_ne hne]
    exact h.owns q c hq
  | modify p b valid dirty dev blockno data =>
    obtain ⟨⟨hp, howner⟩, hs'⟩ := Option.ite_none_right_eq_some.mp hnext
    cases hs'
    obtain ⟨hqueue, hphase⟩ := h.untouched hp howner
    refine ⟨queue, h.setBufs (fun c hc => ?_) fun q c hc => ?_⟩
    · exact update_of_ne (ne_of_mem_of_not_mem hc hqueue) _ _
    · apply update_of_ne
      rintro rfl
      exact hphase q hc
  | iderw p b =>
    obtain ⟨⟨hp, hlock⟩, hs'⟩ := Option.ite_none_right_eq_some.mp hnext
    split_ifs at hs' with howner hfinished hdisk <;> cases hs'
    exact ⟨queue, h.iderw hp hlock (not_not.mp howner) hfinished⟩
  | enqueue p =>
    cases hp : s.phase p <;> simp only [ideNext, hp] at hnext <;> try cases hnext
    rename_i b
    obtain ⟨r, hr, hok⟩ := h.enqueue hp
    exact ⟨queue ++ [b], hok s' (Option.some.inj (hr.symm.trans hnext))⟩
  | test p =>
    cases hp : s.phase p <;> simp only [ideNext, hp] at hnext <;> cases hnext
    exact ⟨queue, h.test hp⟩
  | kill p =>
    cases hnext
    exact ⟨queue, h.kill p⟩
  | resume p =>
    cases hp : s.phase p <;> simp only [ideNext, hp] at hnext <;> try cases hnext
    obtain ⟨hlock, hs'⟩ := Option.ite_none_right_eq_some.mp hnext
    cases hs'
    exact ⟨queue, h.resume hp hlock⟩
  | finish =>
    cases hcmd : s.device.cmd <;> simp only [ideNext, hcmd] at hnext
    · cases hnext
    · obtain ⟨hdone, hs'⟩ := Option.ite_none_right_eq_some.mp hnext
      cases hs'
      exact ⟨queue, h.finish hcmd hdone⟩
  | ideintr =>
    obtain ⟨⟨hirq, hlock⟩, hs'⟩ := Option.ite_none_right_eq_some.mp hnext
    cases hs'
    exact ⟨queue, h.ideintr hirq hlock⟩
  | serve =>
    obtain ⟨hhandler, hs'⟩ := Option.ite_none_right_eq_some.mp hnext
    have hcmd := h.command
    rw [hhandler, if_neg (by decide)] at hcmd
    cases queue with
    | nil => exact absurd hcmd (h.ready (.inr hhandler)).2
    | cons b rest =>
      split at hs'
      case h_1 hnone => exact absurd (hnone.symm.trans h.chain.1) (by simp)
      case h_2 hhead =>
        cases hhead.symm.trans h.chain.1
        cases hs'
        exact ⟨rest, h.serve hhandler⟩
  | startNext =>
    obtain ⟨hhandler, hs'⟩ := Option.ite_none_right_eq_some.mp hnext
    split at hs'
    case h_1 hnone =>
      cases hs'
      cases queue with
      | nil => exact ⟨[], h.leave hhandler⟩
      | cons b rest => exact absurd (hnone.symm.trans h.chain.1) (by simp)
    case h_2 b hhead =>
      cases queue with
      | nil => exact absurd (hhead.symm.trans h.chain) (by simp)
      | cons c rest =>
        cases hhead.symm.trans h.chain.1
        cases hstart : s.idestart b with
        | error x =>
          rw [hstart] at hs'
          cases hs'
        | ok s₁ =>
          rw [hstart] at hs'
          cases hs'
          exact ⟨b :: rest, h.startNext hhandler hstart⟩

end

end Xv6Threads.Ide
