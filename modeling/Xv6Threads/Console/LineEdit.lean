/-
# Console input is a line-edited queue

What the ring and its three indices stand for: a queue of committed characters, of which
readers take from the front, and a line that is being edited behind it. Each key acts on
this pair as a line editor would, so no editing key reaches the queue; and whatever the
interleaving, readers together take the committed characters in order.
-/

import Xv6Threads.Console.Input

namespace Xv6Threads.Console

open Lib
open Function (update update_of_ne update_self)

variable {target n : ℕ} {got : List Byte}

/-! ## The line editor -/

structure Line where
  queue : List Byte
  edit : List Byte

/-- What a key does. -/
def Line.key (c : Byte) (l : Line) : Line :=
  if c = ctrlP then l
  else if c = ctrlU then { l with edit := [] }
  else if c = ctrlH ∨ c = delete then { l with edit := l.edit.dropLast }
  else if c ≠ 0 ∧ l.queue.length + l.edit.length < INPUT_BUF then
    let c := if c = carriageReturn then newline else c
    if c = newline ∨ c = ctrlD ∨ l.queue.length + l.edit.length + 1 = INPUT_BUF then
      ⟨l.queue ++ (l.edit ++ [c]), []⟩
    else { l with edit := l.edit ++ [c] }
  else l

/-- The ring holds the queue and then the line, and `w` stands between them. A newline is
committed at once. -/
structure Represents (x : Input) (l : Line) : Prop where
  ring : RingHolds x.buf x.r x.e (l.queue ++ l.edit)
  mark : x.w = x.r + BitVec.ofNat 32 l.queue.length
  edit : newline ∉ l.edit

/-- What the indices say. -/
def Input.line (x : Input) : Line where
  queue := ringBetween x.buf x.r x.w
  edit := ringBetween x.buf x.w x.e

theorem inputBuf_dvd : INPUT_BUF ∣ 2 ^ 32 := by decide

theorem inputBuf_lt : INPUT_BUF < 2 ^ 32 := by decide

section

variable {x : Input} {l : Line} {c : Byte}

theorem Represents.line (h : Represents x l) : x.line = l := by
  have hqueue := h.ring.left.between inputBuf_lt
  have hedit := h.ring.right.between inputBuf_lt
  rw [← h.mark] at hqueue hedit
  rw [Input.line, hqueue, hedit]

theorem Represents.room (h : Represents x l) : l.queue.length + l.edit.length ≤ INPUT_BUF := by
  have hroom := h.ring.room
  rwa [List.length_append] at hroom

theorem Represents.total_length (h : Represents x l) :
    (x.e - x.r).toNat = l.queue.length + l.edit.length := by
  rw [h.ring.distance inputBuf_lt, List.length_append]

theorem Represents.edit_length (h : Represents x l) : (x.e - x.w).toNat = l.edit.length := by
  rw [h.mark]
  exact h.ring.right.distance inputBuf_lt

theorem Represents.edit_empty_iff (h : Represents x l) : x.e = x.w ↔ l.edit = [] := by
  rw [h.mark, eq_comm]
  exact h.ring.right.empty_iff inputBuf_lt

theorem Represents.queue_empty_iff (h : Represents x l) : x.r = x.w ↔ l.queue = [] := by
  rw [h.mark]
  exact h.ring.left.empty_iff inputBuf_lt

/-- The last character of the line. -/
theorem Represents.last (h : Represents x l) {line : List Byte} (hline : l.edit = line ++ [c]) :
    x.buf (ringSlot (x.e - 1)) = c ∧
      Represents { x with e := x.e - 1 } { l with edit := line } := by
  have hring := h.ring
  rw [hline, ← List.append_assoc] at hring
  have hback := hring.unpush
  have hlong : (l.queue ++ line).length < (l.queue ++ line ++ [c]).length := by simp
  have hcell := hring.cells (l.queue ++ line).length hlong
  rw [← hback.count, List.getElem_concat_length] at hcell
  · refine ⟨hcell, hback, h.mark, ?_⟩
    intro hmem
    apply h.edit
    rw [hline]
    exact List.mem_append_left _ hmem
  · rfl

/-- Without a newline in the line, control-U takes all of it away. -/
theorem Represents.killLine (h : Represents x l) {fuel : ℕ} (hfuel : l.edit.length ≤ fuel) :
    Represents (x.killLine fuel) { l with edit := [] } := by
  induction fuel generalizing x l with
  | zero =>
    have hnil : l.edit = [] := List.length_eq_zero_iff.mp (Nat.le_zero.mp hfuel)
    rw [Input.killLine, ← hnil]
    exact h
  | succ fuel ih =>
    rw [Input.killLine]
    rcases List.eq_nil_or_concat l.edit with hnil | ⟨line, c, hline⟩
    · rw [if_neg fun hno => hno.1 (h.edit_empty_iff.mpr hnil), ← hnil]
      exact h
    · rw [List.concat_eq_append] at hline
      obtain ⟨hcell, hback⟩ := h.last hline
      have hne : l.edit ≠ [] := by
        rw [hline]
        simp
      have hc : c ≠ newline := by
        rintro rfl
        apply h.edit
        rw [hline]
        exact List.mem_append_right _ (List.mem_singleton_self _)
      rw [if_pos ⟨fun heq => hne (h.edit_empty_iff.mp heq), hcell ▸ hc⟩]
      apply ih hback
      rw [hline, List.length_append, List.length_singleton] at hfuel
      exact Nat.le_of_succ_le_succ hfuel

theorem Represents.backspace (h : Represents x l) :
    Represents (if x.e ≠ x.w then { x with e := x.e - 1 } else x)
      { l with edit := l.edit.dropLast } := by
  rcases List.eq_nil_or_concat l.edit with hnil | ⟨line, c, hline⟩
  · rw [if_neg (not_not.mpr (h.edit_empty_iff.mpr hnil)), hnil, List.dropLast_nil, ← hnil]
    exact h
  · rw [List.concat_eq_append] at hline
    have hne : l.edit ≠ [] := by
      rw [hline]
      simp
    rw [if_pos fun heq => hne (h.edit_empty_iff.mp heq), hline, List.dropLast_concat]
    exact (h.last hline).2

/-- A character is stored: it ends the line or extends it. -/
theorem Represents.store (h : Represents x l) (hroom : l.queue.length + l.edit.length < INPUT_BUF) :
    (c = newline ∨ c = ctrlD ∨ l.queue.length + l.edit.length + 1 = INPUT_BUF →
      (x.store c).2 = true ∧ Represents (x.store c).1 ⟨l.queue ++ (l.edit ++ [c]), []⟩ ∧
      ringBetween (x.store c).1.buf x.w (x.store c).1.w = l.edit ++ [c]) ∧
    (¬(c = newline ∨ c = ctrlD ∨ l.queue.length + l.edit.length + 1 = INPUT_BUF) →
      (x.store c).2 = false ∧ Represents (x.store c).1 { l with edit := l.edit ++ [c] }) := by
  have hlen : (l.queue ++ l.edit).length < INPUT_BUF := by rwa [List.length_append]
  have hpush := h.ring.push inputBuf_dvd hlen c
  rw [List.append_assoc] at hpush
  have hfull : x.e + 1 = x.r + BitVec.ofNat 32 INPUT_BUF ↔
      l.queue.length + l.edit.length + 1 = INPUT_BUF := by
    rw [hpush.full_iff inputBuf_lt]
    simp only [List.length_append, List.length_singleton, Nat.add_assoc]
  unfold Input.store
  constructor
  · intro hends
    rw [if_pos (by rwa [hfull])]
    refine ⟨rfl, ⟨?_, ?_, List.not_mem_nil⟩, ?_⟩
    · rw [List.append_nil]
      exact hpush
    · exact hpush.count
    · have hright := hpush.right.between inputBuf_lt
      rwa [← h.mark] at hright
  · intro hgoes
    rw [if_neg (by rwa [hfull])]
    refine ⟨rfl, hpush, h.mark, ?_⟩
    intro hmem
    rcases List.mem_append.mp hmem with hold | hnew
    · exact h.edit hold
    · exact hgoes (.inl (List.mem_singleton.mp hnew).symm)

theorem Represents.lt_iff (h : Represents x l) : x.e - x.r < BitVec.ofNat 32 INPUT_BUF ↔
    l.queue.length + l.edit.length < INPUT_BUF := by
  rw [BitVec.lt_def, h.total_length, BitVec.toNat_ofNat, Nat.mod_eq_of_lt inputBuf_lt]

/-- Every key acts on the ring as it does on the line; the queue grows at its end by what is
between the old and the new `w`. -/
theorem Represents.key (h : Represents x l) (c : Byte) :
    Represents (consoleintr c x).1 (l.key c) ∧
      (l.key c).queue = l.queue ++ (if (consoleintr c x).2 then
        ringBetween (consoleintr c x).1.buf x.w (consoleintr c x).1.w else []) := by
  unfold consoleintr Line.key
  by_cases hP : c = ctrlP
  · rw [if_pos hP, if_pos hP]
    exact ⟨h, (List.append_nil _).symm⟩
  rw [if_neg hP, if_neg hP]
  by_cases hU : c = ctrlU
  · rw [if_pos hU, if_pos hU]
    exact ⟨h.killLine h.edit_length.ge, (List.append_nil _).symm⟩
  rw [if_neg hU, if_neg hU]
  by_cases hH : c = ctrlH ∨ c = delete
  · rw [if_pos hH, if_pos hH]
    exact ⟨h.backspace, (List.append_nil _).symm⟩
  rw [if_neg hH, if_neg hH]
  by_cases hroom : c ≠ 0 ∧ l.queue.length + l.edit.length < INPUT_BUF
  · rw [if_pos hroom, if_pos ⟨hroom.1, h.lt_iff.mpr hroom.2⟩]
    obtain ⟨hends, hgoes⟩ := h.store (c := if c = carriageReturn then newline else c) hroom.2
    dsimp only
    by_cases hcommit : (if c = carriageReturn then newline else c) = newline ∨
        (if c = carriageReturn then newline else c) = ctrlD ∨
        l.queue.length + l.edit.length + 1 = INPUT_BUF
    · obtain ⟨htrue, hrep, hadded⟩ := hends hcommit
      rw [if_pos hcommit, htrue, if_pos rfl, hadded]
      exact ⟨hrep, rfl⟩
    · obtain ⟨hfalse, hrep⟩ := hgoes hcommit
      rw [if_neg hcommit, hfalse, if_neg Bool.false_ne_true]
      exact ⟨hrep, (List.append_nil _).symm⟩
  · rw [if_neg hroom, if_neg fun hno => hroom ⟨hno.1, h.lt_iff.mp hno.2⟩]
    exact ⟨h, (List.append_nil _).symm⟩

/-- A reader takes the first character of the queue. -/
theorem Represents.take (h : Represents x l) {queue : List Byte} (hqueue : l.queue = c :: queue) :
    x.buf (ringSlot x.r) = c ∧
      Represents { x with r := x.r + 1 } { l with queue := queue } := by
  have hring := h.ring
  rw [hqueue] at hring
  obtain ⟨hcell, hrest⟩ := hring.pop
  refine ⟨hcell, hrest, ?_, h.edit⟩
  have hone : BitVec.ofNat 32 1 = 1 := rfl
  show x.w = x.r + 1 + BitVec.ofNat 32 queue.length
  rw [h.mark, hqueue, List.length_cons, BitVec.ofNat_add, hone, BitVec.add_comm _ 1,
    ← BitVec.add_assoc]

end

/-! ## Readers -/

/-- What a call took out of the queue: its bytes, or one control-D if it has none. -/
def ReadCall.consumed (c : ReadCall) : List Byte :=
  c.bytes ++ if c.stop = .eof ∧ c.bytes = [] then [ctrlD] else []

/-- A call returned no control-D and at most what was asked for, and it stopped where it
should: after the first newline, at a control-D, or when it had as much as was asked for. -/
structure ReadCall.Ok (c : ReadCall) : Prop where
  noEof : ctrlD ∉ c.bytes
  length : c.bytes.length ≤ c.target
  full : c.stop = .full → c.bytes.length = c.target ∧ newline ∉ c.bytes
  newline : c.stop = .newline → ∃ line, c.bytes = line ++ [Console.newline] ∧
    Console.newline ∉ line
  eof : c.stop = .eof → c.bytes.length < c.target ∧ Console.newline ∉ c.bytes
  notKilled : c.stop ≠ .killed

/-- A call that goes on. -/
structure PartOk (target n : ℕ) (got : List Byte) : Prop where
  left : got.length + n = target
  noNewline : newline ∉ got
  noEof : ctrlD ∉ got

def Phase.Ok : Phase → Prop
  | .idle => True
  | .reading target n got => PartOk target n got
  | .asleep target n got => PartOk target n got
  | .woken target n got => PartOk target n got

theorem Phase.got_wake (ph : Phase) : ph.wake.got = ph.got := by cases ph <;> rfl

theorem Phase.ok_wake {ph : Phase} (h : ph.Ok) : ph.wake.Ok := by cases ph <;> exact h

theorem Phase.not_asleep_wake (ph : Phase) : ¬ph.wake.Asleep := by cases ph <;> exact id

section

variable {P : Type} [DecidableEq P] {s s' : ConsState P} {p q : P} {c : Byte}

/-- The characters that one process took. -/
def ConsState.takenBy (s : ConsState P) (p : P) : List Byte :=
  (s.taken.filter fun x => x.1 = p).map Prod.snd

/-- What holds in every run without kills: the ring stands for a line, the committed
characters are those taken and then those in the queue, each process has taken what its
calls account for, and nobody sleeps while there is something to read. -/
structure Ok (s : ConsState P) : Prop where
  line : ∃ l, Represents s.input l ∧ s.committed = s.taken.map Prod.snd ++ l.queue
  own : ∀ p, s.takenBy p =
    ((s.calls p).reverse.map ReadCall.consumed).flatten ++ (s.phase p).got
  calls : ∀ p, ∀ c ∈ s.calls p, c.Ok
  phase : ∀ p, (s.phase p).Ok
  asleep : ∀ p, (s.phase p).Asleep → s.input.r = s.input.w
  alive : ∀ p, s.killed p = false

theorem ok_boot (buf : Fin INPUT_BUF → Byte) (i : BitVec 32) :
    Ok (ConsState.boot buf i : ConsState P) where
  line := ⟨⟨[], []⟩, ⟨ringHolds_nil _ _, (BitVec.add_zero i).symm, List.not_mem_nil⟩, rfl⟩
  own _ := rfl
  calls _ _ hc := absurd hc List.not_mem_nil
  phase _ := trivial
  asleep _ h := h.elim
  alive _ := rfl

theorem Ok.setLock (h : Ok s) (lock : Option (Holder P)) : Ok { s with lock := lock } :=
  ⟨h.line, h.own, h.calls, h.phase, h.asleep, h.alive⟩

theorem Ok.key (h : Ok s) (c : Byte) : Ok (s.key c) := by
  obtain ⟨l, hrep, hcommitted⟩ := h.line
  obtain ⟨hrep', hqueue⟩ := hrep.key c
  unfold ConsState.key
  by_cases hwake : (consoleintr c s.input).2 = true
  · rw [if_pos hwake] at hqueue ⊢
    refine ⟨⟨_, hrep', ?_⟩, fun p => ?_, h.calls, fun p => Phase.ok_wake (h.phase p),
      fun p hasleep => absurd hasleep (Phase.not_asleep_wake _), h.alive⟩
    · rw [hqueue, hcommitted, List.append_assoc]
    · rw [Phase.got_wake]
      exact h.own p
  · rw [if_neg hwake] at hqueue ⊢
    rw [List.append_nil] at hqueue
    refine ⟨⟨_, hrep', ?_⟩, h.own, h.calls, h.phase, fun p hasleep => ?_, h.alive⟩
    · rw [hqueue]
      exact hcommitted
    · apply hrep'.queue_empty_iff.mpr
      rw [hqueue]
      exact hrep.queue_empty_iff.mp (h.asleep p hasleep)

/-- A step of one process. -/
theorem Ok.proc (h : Ok s) (p : P)
    (hline : ∃ l, Represents s'.input l ∧ s'.committed = s'.taken.map Prod.snd ++ l.queue)
    (hothers : ∀ q, q ≠ p → s'.phase q = s.phase q ∧ s'.calls q = s.calls q ∧
      s'.takenBy q = s.takenBy q)
    (hown : s'.takenBy p =
      ((s'.calls p).reverse.map ReadCall.consumed).flatten ++ (s'.phase p).got)
    (hcalls : ∀ c ∈ s'.calls p, c.Ok) (hphase : (s'.phase p).Ok)
    (hasleep : ∀ q, (s'.phase q).Asleep → s'.input.r = s'.input.w)
    (halive : s'.killed = s.killed) : Ok s' := by
  refine ⟨hline, fun q => ?_, fun q => ?_, fun q => ?_, hasleep, fun q => ?_⟩
  · by_cases hq : q = p
    · rw [hq]
      exact hown
    · obtain ⟨hph, hcs, htaken⟩ := hothers q hq
      rw [hph, hcs, htaken]
      exact h.own q
  · by_cases hq : q = p
    · rw [hq]
      exact hcalls
    · rw [(hothers q hq).2.1]
      exact h.calls q
  · by_cases hq : q = p
    · rw [hq]
      exact hphase
    · rw [(hothers q hq).1]
      exact h.phase q
  · rw [halive]
    exact h.alive q

/-- A process changes its phase only: it starts a call, sleeps or comes back. -/
theorem Ok.setPhase (h : Ok s) {ph : Phase} (hgot : ph.got = (s.phase p).got) (hph : ph.Ok)
    (hasleep : ph.Asleep → s.input.r = s.input.w) : Ok (s.setPhase p ph) := by
  apply h.proc p
  · exact h.line
  · intro q hq
    exact ⟨update_of_ne hq .., rfl, rfl⟩
  · show s.takenBy p = _ ++ (update s.phase p ph p).got
    rw [update_self, hgot]
    exact h.own p
  · exact h.calls p
  · show (update s.phase p ph p).Ok
    rwa [update_self]
  · intro q hq
    change (update s.phase p ph q).Asleep at hq
    by_cases hqp : q = p
    · rw [hqp, update_self] at hq
      exact hasleep hq
    · rw [update_of_ne hqp] at hq
      exact h.asleep q hq
  · rfl

theorem takenBy_take_self (s : ConsState P) (p : P) :
    (s.take p).takenBy p = s.takenBy p ++ [s.input.buf (ringSlot s.input.r)] := by
  simp [ConsState.takenBy, ConsState.take]

theorem takenBy_take_of_ne (s : ConsState P) (hq : q ≠ p) :
    (s.take p).takenBy q = s.takenBy q := by
  simp [ConsState.takenBy, ConsState.take, hq.symm]

omit [DecidableEq P] in
theorem putBack_take (s : ConsState P) (p : P) : (s.take p).putBack = s := by
  simp [ConsState.take, ConsState.putBack]

/-- The state from which a call returns, or goes on, with what it took. -/
theorem Ok.take_line (h : Ok s) (hne : s.input.r ≠ s.input.w) (p : P) :
    ∃ l, Represents (s.take p).input l ∧
      (s.take p).committed = (s.take p).taken.map Prod.snd ++ l.queue := by
  obtain ⟨l, hrep, hcommitted⟩ := h.line
  cases hqueue : l.queue with
  | nil => exact absurd (hrep.queue_empty_iff.mpr hqueue) hne
  | cons c queue =>
    obtain ⟨hcell, hrep'⟩ := hrep.take hqueue
    refine ⟨_, hrep', ?_⟩
    show s.committed = (s.taken ++ [(p, s.input.buf (ringSlot s.input.r))]).map Prod.snd ++ queue
    rw [hcommitted, hqueue, hcell]
    simp

theorem Ok.nobody_asleep (h : Ok s) (hne : s.input.r ≠ s.input.w) (q : P) :
    ¬(s.phase q).Asleep :=
  fun hasleep => hne (h.asleep q hasleep)

/-- A call returns: `mid` is the state with what it took last. -/
theorem Ok.finish (h : Ok s) {mid : ConsState P} {call : ReadCall}
    (hline : ∃ l, Represents mid.input l ∧ mid.committed = mid.taken.map Prod.snd ++ l.queue)
    (hphase : mid.phase = s.phase) (hcalls : mid.calls = s.calls) (halive : mid.killed = s.killed)
    (hothers : ∀ q, q ≠ p → mid.takenBy q = s.takenBy q)
    (hown : mid.takenBy p = ((s.calls p).reverse.map ReadCall.consumed).flatten ++ call.consumed)
    (hok : call.Ok) (hasleep : mid.input.r = mid.input.w ∨ ∀ q, ¬(s.phase q).Asleep) :
    Ok (mid.finish p call) := by
  have hcallsp : (mid.finish p call).calls p = call :: s.calls p := by
    show update mid.calls p (call :: mid.calls p) p = _
    rw [update_self, hcalls]
  have hphasep : (mid.finish p call).phase p = .idle := update_self ..
  apply h.proc p
  · exact hline
  · intro q hq
    refine ⟨?_, ?_, hothers q hq⟩
    · show update mid.phase p .idle q = _
      rw [update_of_ne hq, hphase]
    · show update mid.calls p _ q = _
      rw [update_of_ne hq, hcalls]
  · rw [hcallsp, hphasep]
    show mid.takenBy p = _
    rw [hown]
    simp [Phase.got]
  · intro c hc
    rw [hcallsp] at hc
    rcases List.mem_cons.mp hc with rfl | hc
    · exact hok
    · exact h.calls p c hc
  · rw [hphasep]
    trivial
  · intro q hq
    change (update mid.phase p .idle q).Asleep at hq
    rcases hasleep with heq | hnone
    · exact heq
    · by_cases hqp : q = p
      · rw [hqp, update_self] at hq
        exact hq.elim
      · rw [update_of_ne hqp, hphase] at hq
        exact absurd hq (hnone q)
  · exact halive

theorem consumed_of_ne_eof {call : ReadCall} (h : call.stop ≠ .eof) :
    call.consumed = call.bytes := by
  rw [ReadCall.consumed, if_neg fun hno => h hno.1, List.append_nil]

/-- The turn that finds its buffer full. -/
theorem Ok.finish_full (h : Ok s) (hp : s.phase p = .reading target 0 got) :
    Ok (s.finish p ⟨target, got, .full⟩) := by
  have hpart := h.phase p
  have hown := h.own p
  rw [hp] at hpart hown
  have hlength : got.length = target := hpart.left
  have hok : ReadCall.Ok ⟨target, got, .full⟩ := by
    refine ⟨hpart.noEof, hlength.le, fun _ => ⟨hlength, hpart.noNewline⟩, ?_, ?_, ?_⟩
    · intro hstop
      cases hstop
    · intro hstop
      cases hstop
    · intro hstop
      cases hstop
  apply h.finish h.line rfl rfl rfl (fun _ _ => rfl) _ hok
  · by_cases heq : s.input.r = s.input.w
    · exact .inl heq
    · exact .inr (h.nobody_asleep heq)
  · rw [consumed_of_ne_eof (by simp)]
    exact hown

/-- The turn that finds a control-D: it stays for the next call if this one has bytes. -/
theorem Ok.finish_eof (h : Ok s) (hp : s.phase p = .reading target n got) (hn : n ≠ 0)
    (hne : s.input.r ≠ s.input.w) (hc : s.input.buf (ringSlot s.input.r) = ctrlD) :
    Ok ((if n < target then (s.take p).putBack else s.take p).finish p ⟨target, got, .eof⟩) := by
  have hpart := h.phase p
  have hown := h.own p
  rw [hp] at hpart hown
  have hleft := hpart.left
  have hok : ReadCall.Ok ⟨target, got, .eof⟩ := by
    refine ⟨hpart.noEof, ?_, ?_, ?_, fun _ => ⟨?_, hpart.noNewline⟩, ?_⟩
    · show got.length ≤ target
      omega
    · intro hstop
      cases hstop
    · intro hstop
      cases hstop
    · show got.length < target
      omega
    · intro hstop
      cases hstop
  by_cases hlt : n < target
  · have hgot : got ≠ [] := by
      rintro rfl
      rw [List.length_nil] at hleft
      omega
    rw [if_pos hlt, putBack_take]
    apply h.finish h.line rfl rfl rfl (fun _ _ => rfl) _ hok (.inr (h.nobody_asleep hne))
    rw [ReadCall.consumed, if_neg fun hno => hgot hno.2, List.append_nil]
    exact hown
  · have hgot : got = [] := List.length_eq_zero_iff.mp (by omega)
    rw [if_neg hlt]
    apply h.finish (h.take_line hne p) rfl rfl rfl (fun q hq => takenBy_take_of_ne s hq) _ hok
      (.inr (h.nobody_asleep hne))
    rw [takenBy_take_self, hc, hown, ReadCall.consumed, if_pos ⟨rfl, hgot⟩, hgot]
    simp [Phase.got]

/-- The turn that takes a newline. -/
theorem Ok.finish_newline (h : Ok s) (hp : s.phase p = .reading target n got) (hn : n ≠ 0)
    (hne : s.input.r ≠ s.input.w) (hc : s.input.buf (ringSlot s.input.r) = newline) :
    Ok ((s.take p).finish p ⟨target, got ++ [newline], .newline⟩) := by
  have hpart := h.phase p
  have hown := h.own p
  rw [hp] at hpart hown
  have hleft := hpart.left
  have hok : ReadCall.Ok ⟨target, got ++ [newline], .newline⟩ := by
    refine ⟨?_, ?_, ?_, fun _ => ⟨got, rfl, hpart.noNewline⟩, ?_, ?_⟩
    · intro hmem
      rcases List.mem_append.mp hmem with hold | hnew
      · exact hpart.noEof hold
      · exact absurd (List.mem_singleton.mp hnew) (by decide)
    · show (got ++ [newline]).length ≤ target
      rw [List.length_append, List.length_singleton]
      omega
    · intro hstop
      cases hstop
    · intro hstop
      cases hstop
    · intro hstop
      cases hstop
  apply h.finish (h.take_line hne p) rfl rfl rfl (fun q hq => takenBy_take_of_ne s hq) _ hok
    (.inr (h.nobody_asleep hne))
  rw [takenBy_take_self, hc, hown, consumed_of_ne_eof (by simp), List.append_assoc]
  rfl

/-- The turn that takes another character and goes on. -/
theorem Ok.goes_on (h : Ok s) (hp : s.phase p = .reading target n got) (hn : n ≠ 0)
    (hne : s.input.r ≠ s.input.w) (hc : s.input.buf (ringSlot s.input.r) = c) (heof : c ≠ ctrlD)
    (hnl : c ≠ newline) :
    Ok ((s.take p).setPhase p (.reading target (n - 1) (got ++ [c]))) := by
  have hpart := h.phase p
  have hown := h.own p
  rw [hp] at hpart hown
  have hleft := hpart.left
  have hphasep : ((s.take p).setPhase p (.reading target (n - 1) (got ++ [c]))).phase p =
      .reading target (n - 1) (got ++ [c]) := update_self ..
  apply h.proc p
  · exact h.take_line hne p
  · intro q hq
    exact ⟨update_of_ne hq .., rfl, takenBy_take_of_ne s hq⟩
  · rw [hphasep]
    show (s.take p).takenBy p = _
    rw [takenBy_take_self, hc, hown, List.append_assoc]
    rfl
  · exact h.calls p
  · rw [hphasep]
    refine ⟨?_, ?_, ?_⟩
    · rw [List.length_append, List.length_singleton]
      omega
    · intro hmem
      rcases List.mem_append.mp hmem with hold | hnew
      · exact hpart.noNewline hold
      · exact hnl (List.mem_singleton.mp hnew).symm
    · intro hmem
      rcases List.mem_append.mp hmem with hold | hnew
      · exact hpart.noEof hold
      · exact heof (List.mem_singleton.mp hnew).symm
  · intro q hq
    by_cases hqp : q = p
    · rw [hqp, hphasep] at hq
      exact hq.elim
    · change (update s.phase p _ q).Asleep at hq
      rw [update_of_ne hqp] at hq
      exact absurd hq (h.nobody_asleep hne q)
  · rfl

theorem Ok.turn (h : Ok s) (hp : s.phase p = .reading target n got) :
    Ok (s.turn p target n got) := by
  have hpart := h.phase p
  rw [hp] at hpart
  rw [ConsState.turn]
  by_cases hn : n = 0
  · subst hn
    rw [if_pos rfl]
    exact h.finish_full hp
  rw [if_neg hn]
  by_cases hempty : s.input.r = s.input.w
  · rw [if_pos hempty, if_neg (by rw [h.alive p]; exact Bool.false_ne_true)]
    have hsleep : Ok (s.setPhase p (.asleep target n got)) := by
      apply h.setPhase
      · rw [hp]
        rfl
      · exact hpart
      · exact fun _ => hempty
    exact hsleep.setLock none
  rw [if_neg hempty]
  by_cases heof : s.input.buf (ringSlot s.input.r) = ctrlD
  · have hfinish := h.finish_eof hp hn hempty heof
    dsimp only
    rw [if_pos heof]
    by_cases hlt : n < target
    · rw [if_pos hlt] at hfinish ⊢
      exact hfinish
    · rw [if_neg hlt] at hfinish ⊢
      exact hfinish
  dsimp only
  rw [if_neg heof]
  by_cases hnl : s.input.buf (ringSlot s.input.r) = newline
  · rw [if_pos hnl, hnl]
    exact h.finish_newline hp hn hempty hnl
  · rw [if_neg hnl]
    exact h.goes_on hp hn hempty rfl heof hnl

/-! ## Runs -/

theorem Ok.step (h : Ok s) {e : Event P} (hspares : e.Spares) (hstep : ConsStep s e s') :
    Ok s' := by
  cases e with
  | enter =>
    obtain ⟨-, hsome⟩ := Option.ite_none_right_eq_some.mp hstep
    cases hsome
    exact h.setLock _
  | key c =>
    obtain ⟨-, hsome⟩ := Option.ite_none_right_eq_some.mp hstep
    cases hsome
    exact h.key c
  | leave =>
    obtain ⟨-, hsome⟩ := Option.ite_none_right_eq_some.mp hstep
    cases hsome
    exact h.setLock none
  | consoleread p n =>
    cases hp : s.phase p with
    | idle =>
      simp only [ConsStep, consNext, hp] at hstep
      obtain ⟨-, hsome⟩ := Option.ite_none_right_eq_some.mp hstep
      cases hsome
      apply Ok.setLock
      apply h.setPhase
      · rw [hp]
        rfl
      · exact ⟨Nat.zero_add n, List.not_mem_nil, List.not_mem_nil⟩
      · exact False.elim
    | reading target n got | asleep target n got
    | woken target n got => simp [ConsStep, consNext, hp] at hstep
  | turn p =>
    cases hp : s.phase p with
    | reading target n got =>
      simp only [ConsStep, consNext, hp] at hstep
      obtain ⟨-, hsome⟩ := Option.ite_none_right_eq_some.mp hstep
      cases hsome
      exact h.turn hp
    | idle | asleep target n got | woken target n got => simp [ConsStep, consNext, hp] at hstep
  | resume p =>
    cases hp : s.phase p with
    | woken target n got =>
      have hpart := h.phase p
      rw [hp] at hpart
      simp only [ConsStep, consNext, hp] at hstep
      obtain ⟨-, hsome⟩ := Option.ite_none_right_eq_some.mp hstep
      cases hsome
      apply Ok.setLock
      apply h.setPhase
      · rw [hp]
        rfl
      · exact hpart
      · exact False.elim
    | idle | reading target n got | asleep target n got => simp [ConsStep, consNext, hp] at hstep
  | kill p => exact hspares.elim

theorem ok_of_reachable {buf : Fin INPUT_BUF → Byte} {i : BitVec 32}
    (hs : ReachableBy ConsStep (fun _ e => e.Spares) (ConsState.boot buf i : ConsState P) s) :
    Ok s :=
  hs.invariant (ok_boot buf i) fun _ _ _ _ h hspares hstep => h.step hspares hstep

end

end Xv6Threads.Console
