/-
# `grep`

The matcher of `grep.c` decides the language of its pattern. The loop of `grep` over the
buffer prints the lines that match however the input arrives, as long as each read brings a
newline: what a read without one leaves in the buffer is thrown away.
Strings are lists of their bytes, without the NUL.
-/

import Mathlib.Computability.Language
import Mathlib.Data.BitVec
import Mathlib.Data.List.Induction

namespace Xv6Threads.Grep

open scoped Computability

abbrev Byte : Type := BitVec 8

@[reducible] def CARET : Byte := 0x5e
@[reducible] def DOT : Byte := 0x2e
@[reducible] def STAR : Byte := 0x2a
@[reducible] def DOLLAR : Byte := 0x24
@[reducible] def NEWLINE : Byte := 0x0a

/-! ## The matcher -/

/-- The loop of `matchstar`, where `here` is `matchhere` of the rest of the pattern. -/
def matchstar (here : List Byte → Bool) (c : Byte) : List Byte → Bool
  | [] => here []
  | t :: text => here (t :: text) || ((t == c || c == DOT) && matchstar here c text)

/-- The last two tests of `matchhere`: a character of the pattern against the text. -/
def matchone (here : List Byte → Bool) (c : Byte) : List Byte → Bool
  | [] => false
  | t :: text => (c == DOT || c == t) && here text

def matchhere : List Byte → List Byte → Bool
  | [] => fun _ => true
  | [c] => fun text => if c = DOLLAR then text.isEmpty else matchone (fun _ => true) c text
  | c :: d :: re => fun text =>
    if d = STAR then matchstar (matchhere re) c text else matchone (matchhere (d :: re)) c text

/-- The loop of `match`. -/
def matchfrom (re : List Byte) : List Byte → Bool
  | [] => matchhere re []
  | t :: text => matchhere re (t :: text) || matchfrom re text

/-- `match`. -/
def grepMatch : List Byte → List Byte → Bool
  | [], text => matchfrom [] text
  | c :: re, text => if c = CARET then matchhere re text else matchfrom (c :: re) text

/-! ## The language of a pattern -/

inductive Item
  | star (c : Byte)
  | one (c : Byte)

/-- The items of a pattern behind its `^`. -/
def items : List Byte → List Item
  | [] => []
  | [c] => if c = DOLLAR then [] else [.one c]
  | c :: d :: re => if d = STAR then .star c :: items re else .one c :: items (d :: re)

/-- The pattern ends in a `$` that anchors. -/
def endAnchored : List Byte → Bool
  | [] => false
  | [c] => c = DOLLAR
  | _ :: d :: re => if d = STAR then endAnchored re else endAnchored (d :: re)

def single (c : Byte) : Language Byte := {w | ∃ t, w = [t] ∧ (c = DOT ∨ c = t)}

def Item.lang : Item → Language Byte
  | .star c => (single c)∗
  | .one c => single c

def langOf (is : List Item) : Language Byte := (is.map Item.lang).prod

/-- Some substring of the text, at its start or end where the pattern is anchored, is in the
language of the pattern. -/
def Occurs (atStart : Bool) (re text : List Byte) : Prop :=
  ∃ before w after, text = before ++ w ++ after ∧ w ∈ langOf (items re) ∧
    (atStart = true → before = []) ∧ (endAnchored re = true → after = [])

section

variable {c : Byte} {L : Language Byte} {anchored : Bool} {text : List Byte}

/-- The text starts with a word of the language, and ends there if it has to. -/
def Starts (L : Language Byte) (anchored : Bool) (text : List Byte) : Prop :=
  ∃ w after, text = w ++ after ∧ w ∈ L ∧ (anchored = true → after = [])

theorem mem_kstar_single {w : List Byte} : w ∈ (single c)∗ ↔ ∀ t ∈ w, c = DOT ∨ c = t := by
  rw [Language.mem_kstar]
  constructor
  · rintro ⟨ws, rfl, hws⟩ t ht
    obtain ⟨v, hv, htv⟩ := List.mem_flatten.mp ht
    obtain ⟨u, rfl, hu⟩ := hws v hv
    rwa [List.mem_singleton.mp htv]
  · intro hw
    refine ⟨w.map fun t => [t], (List.flatMap_singleton' w).symm, fun v hv => ?_⟩
    obtain ⟨t, ht, rfl⟩ := List.mem_map.mp hv
    exact ⟨t, rfl, hw t ht⟩

theorem starts_mul {M : Language Byte} : Starts (L * M) anchored text ↔
    ∃ w after, text = w ++ after ∧ w ∈ L ∧ Starts M anchored after := by
  constructor
  · rintro ⟨w, after, rfl, hw, hend⟩
    obtain ⟨a, ha, b, hb, rfl⟩ := Language.mem_mul.mp hw
    exact ⟨a, b ++ after, List.append_assoc .., ha, b, after, rfl, hb, hend⟩
  · rintro ⟨a, _, rfl, ha, b, after, rfl, hb, hend⟩
    exact ⟨a ++ b, after, (List.append_assoc ..).symm, Language.append_mem_mul ha hb, hend⟩

theorem matchone_iff {here : List Byte → Bool} (hhere : ∀ s, here s = true ↔ Starts L anchored s) :
    matchone here c text = true ↔ Starts (single c * L) anchored text := by
  rw [starts_mul]
  cases text with
  | nil =>
    refine iff_of_false Bool.false_ne_true ?_
    rintro ⟨w, after, hnil, ⟨t, rfl, -⟩, -⟩
    cases hnil
  | cons t text =>
    rw [matchone, Bool.and_eq_true, hhere]
    constructor
    · rintro ⟨hc, hrest⟩
      exact ⟨[t], text, rfl, ⟨t, rfl, by simpa using hc⟩, hrest⟩
    · rintro ⟨w, after, hsplit, ⟨u, rfl, hu⟩, hrest⟩
      cases hsplit
      exact ⟨by simpa using hu, hrest⟩

theorem star_char_iff {t : Byte} : (t == c || c == DOT) = true ↔ c = DOT ∨ c = t := by
  rw [Bool.or_eq_true, beq_iff_eq, beq_iff_eq, or_comm, eq_comm (a := t)]

theorem matchstar_iff {here : List Byte → Bool} (hhere : ∀ s, here s = true ↔ Starts L anchored s) :
    matchstar here c text = true ↔ Starts ((single c)∗ * L) anchored text := by
  rw [starts_mul]
  simp only [mem_kstar_single]
  induction text with
  | nil =>
    rw [matchstar, hhere]
    constructor
    · exact fun h => ⟨[], [], rfl, List.forall_mem_nil _, h⟩
    · rintro ⟨w, after, hnil, -, h⟩
      rwa [(List.append_eq_nil_iff.mp hnil.symm).2] at h
  | cons t text ih =>
    rw [matchstar, Bool.or_eq_true, Bool.and_eq_true, hhere, ih]
    constructor
    · rintro (h | ⟨hc, w, after, rfl, hw, h⟩)
      · exact ⟨[], t :: text, rfl, List.forall_mem_nil _, h⟩
      · exact ⟨t :: w, after, rfl, List.forall_mem_cons.mpr ⟨star_char_iff.mp hc, hw⟩, h⟩
    · rintro ⟨w, after, hsplit, hw, h⟩
      cases w with
      | nil =>
        rw [hsplit]
        exact .inl h
      | cons u w =>
        cases hsplit
        obtain ⟨hu, hw⟩ := List.forall_mem_cons.mp hw
        exact .inr ⟨star_char_iff.mpr hu, w, after, rfl, hw, h⟩

theorem starts_one : Starts 1 anchored text ↔ (anchored = true → text = []) := by
  constructor
  · rintro ⟨w, after, rfl, hw, hend⟩
    rwa [(Language.mem_one w).mp hw]
  · exact fun h => ⟨[], text, rfl, Language.nil_mem_one, h⟩

theorem matchhere_iff (re text : List Byte) :
    matchhere re text = true ↔ Starts (langOf (items re)) (endAnchored re) text := by
  induction re using List.twoStepInduction generalizing text with
  | nil => exact iff_of_true rfl (starts_one.mpr Bool.false_ne_true.elim)
  | singleton c =>
    unfold matchhere items endAnchored
    by_cases hc : c = DOLLAR
    · rw [if_pos hc, if_pos hc, List.isEmpty_iff]
      exact (starts_one.trans (by simp [hc])).symm
    · rw [if_neg hc, if_neg hc, decide_eq_false hc]
      exact matchone_iff fun s => iff_of_true rfl (starts_one.mpr Bool.false_ne_true.elim)
  | cons_cons c d re ih ihd =>
    unfold matchhere items endAnchored
    by_cases hd : d = STAR
    · rw [if_pos hd, if_pos hd, if_pos hd]
      exact matchstar_iff (ih ·)
    · rw [if_neg hd, if_neg hd, if_neg hd]
      exact matchone_iff (ihd d ·)

theorem matchfrom_iff (re text : List Byte) :
    matchfrom re text = true ↔ Occurs false re text := by
  induction text with
  | nil =>
    rw [matchfrom, matchhere_iff]
    constructor
    · rintro ⟨w, after, hsplit, hw, hend⟩
      exact ⟨[], w, after, hsplit, hw, Bool.false_ne_true.elim, hend⟩
    · rintro ⟨before, w, after, hsplit, hw, -, hend⟩
      obtain ⟨hbefore, hafter⟩ := List.append_eq_nil_iff.mp hsplit.symm
      rw [(List.append_eq_nil_iff.mp hbefore).2] at hw
      exact ⟨[], [], rfl, hw, fun _ => rfl⟩
  | cons t text ih =>
    rw [matchfrom, Bool.or_eq_true, matchhere_iff, ih]
    constructor
    · rintro (⟨w, after, hsplit, hw, hend⟩ | ⟨before, w, after, rfl, hw, -, hend⟩)
      · exact ⟨[], w, after, hsplit, hw, Bool.false_ne_true.elim, hend⟩
      · exact ⟨t :: before, w, after, rfl, hw, Bool.false_ne_true.elim, hend⟩
    · rintro ⟨before, w, after, hsplit, hw, -, hend⟩
      cases before with
      | nil => exact .inl ⟨w, after, hsplit, hw, hend⟩
      | cons u before =>
        cases hsplit
        exact .inr ⟨before, w, after, rfl, hw, Bool.false_ne_true.elim, hend⟩

end

/-- `match` returns for every pattern and text, and finds exactly the texts with a substring
in the language of the pattern, at the start of the text behind a `^`. -/
theorem grep_match_language (re text : List Byte) :
    (grepMatch (CARET :: re) text = true ↔ Occurs true re text) ∧
      (re.head? ≠ some CARET → (grepMatch re text = true ↔ Occurs false re text)) := by
  constructor
  · rw [grepMatch, if_pos rfl, matchhere_iff]
    constructor
    · rintro ⟨w, after, hsplit, hw, hend⟩
      exact ⟨[], w, after, hsplit, hw, fun _ => rfl, hend⟩
    · rintro ⟨before, w, after, hsplit, hw, hstart, hend⟩
      rw [hstart rfl] at hsplit
      exact ⟨w, after, hsplit, hw, hend⟩
  · intro hhead
    cases re with
    | nil => exact matchfrom_iff [] text
    | cons c re =>
      have hc : c ≠ CARET := fun hc => hhead (congrArg some hc)
      rw [grepMatch, if_neg hc, matchfrom_iff]

/-- `a*b$` in `xaab`. -/
theorem grep_match_language_small :
    Occurs false [0x61, STAR, 0x62, DOLLAR] [0x78, 0x61, 0x61, 0x62] :=
  ((grep_match_language _ _).2 (by decide)).mp (by decide)

/-! ## The buffer -/

/-- A byte in front of the first line, or of the rest if there is no line. -/
def push (b : Byte) : List (List Byte) × List Byte → List (List Byte) × List Byte
  | ([], rest) => ([], b :: rest)
  | (l :: ls, rest) => ((b :: l) :: ls, rest)

/-- The lines that successive calls of `strchr` cut off, and what is left at `p`. -/
def linesOf : List Byte → List (List Byte) × List Byte
  | [] => ([], [])
  | b :: bs => if b = NEWLINE then ([] :: (linesOf bs).1, (linesOf bs).2) else push b (linesOf bs)

/-- The lines among these that `grep` writes. -/
def written (pattern : List Byte) (lines : List (List Byte)) : List Byte :=
  (lines.filter fun l => grepMatch pattern l).flatMap fun l => l ++ [NEWLINE]

/-- What a turn of `grep` keeps of a buffer. If there was no newline, `p == buf` and `m` is
set to 0. -/
def kept (buf : List Byte) : List Byte := if (linesOf buf).1 = [] then [] else (linesOf buf).2

/-- The turns of `grep` with what the calls of `read` return, from a buffer of `m` bytes. -/
def grepLoop (pattern : List Byte) : List Byte → List (List Byte) → List Byte
  | _, [] => []
  | m, chunk :: chunks =>
    written pattern (linesOf (m ++ chunk)).1 ++ grepLoop pattern (kept (m ++ chunk)) chunks

/-- Each `read` returns something, and no more than `sizeof(buf)-m-1` bytes. -/
def Fits : List Byte → List (List Byte) → Prop
  | _, [] => True
  | m, chunk :: chunks =>
    chunk ≠ [] ∧ m.length + chunk.length ≤ 1023 ∧ Fits (kept (m ++ chunk)) chunks

section

variable {m chunk : List Byte} {chunks : List (List Byte)}

theorem linesOf_join (bs : List Byte) :
    ((linesOf bs).1.flatMap fun l => l ++ [NEWLINE]) ++ (linesOf bs).2 = bs := by
  induction bs with
  | nil => rfl
  | cons b bs ih =>
    rw [linesOf]
    by_cases hb : b = NEWLINE
    · rw [if_pos hb, hb, List.flatMap_cons, List.append_assoc, ih]
      rfl
    · rw [if_neg hb]
      rcases hlines : linesOf bs with ⟨_ | ⟨l, ls⟩, rest⟩ <;> rw [hlines] at ih
      · exact congrArg (b :: ·) ih
      · exact congrArg (b :: ·) ih

theorem linesOf_rest (bs : List Byte) : NEWLINE ∉ (linesOf bs).2 := by
  induction bs with
  | nil => exact List.not_mem_nil
  | cons b bs ih =>
    rw [linesOf]
    by_cases hb : b = NEWLINE
    · rwa [if_pos hb]
    · rw [if_neg hb]
      rcases hlines : linesOf bs with ⟨_ | ⟨l, ls⟩, rest⟩
      · rw [hlines] at ih
        exact fun hmem => (List.mem_cons.mp hmem).elim (hb ·.symm) ih
      · rwa [hlines] at ih

theorem linesOf_eq_nil_iff (bs : List Byte) : (linesOf bs).1 = [] ↔ NEWLINE ∉ bs := by
  constructor
  · intro hnil
    have hjoin := linesOf_join bs
    rw [hnil] at hjoin
    rw [← hjoin]
    exact linesOf_rest bs
  · intro hno
    cases hlines : (linesOf bs).1 with
    | nil => rfl
    | cons l ls =>
      have hjoin := linesOf_join bs
      rw [hlines] at hjoin
      exact absurd (hjoin ▸ by simp) hno

/-- Bytes that arrive later continue what was left. -/
theorem linesOf_append (a b : List Byte) : linesOf (a ++ b) =
    ((linesOf a).1 ++ (linesOf ((linesOf a).2 ++ b)).1, (linesOf ((linesOf a).2 ++ b)).2) := by
  induction a with
  | nil => rfl
  | cons x a ih =>
    rw [List.cons_append, linesOf, linesOf]
    by_cases hx : x = NEWLINE
    · rw [if_pos hx, if_pos hx, ih]
      rfl
    · rw [if_neg hx, if_neg hx, ih]
      rcases linesOf a with ⟨_ | ⟨l, ls⟩, rest⟩
      · show push x (linesOf (rest ++ b)) = linesOf (x :: (rest ++ b))
        rw [linesOf, if_neg hx]
      · rfl

theorem kept_no_newline (buf : List Byte) : NEWLINE ∉ kept buf := by
  unfold kept
  split
  · exact List.not_mem_nil
  · exact linesOf_rest buf

theorem kept_of_newline (h : NEWLINE ∈ chunk) : kept (m ++ chunk) = (linesOf (m ++ chunk)).2 :=
  if_neg fun hnil => (linesOf_eq_nil_iff _).mp hnil (List.mem_append_right m h)

/-- Nothing is lost while every chunk has a newline. -/
theorem grepLoop_eq (pattern : List Byte) (hm : NEWLINE ∉ m)
    (hchunks : ∀ chunk ∈ chunks, NEWLINE ∈ chunk) :
    grepLoop pattern m chunks = written pattern (linesOf (m ++ chunks.flatten)).1 := by
  induction chunks generalizing m with
  | nil =>
    rw [List.flatten_nil, List.append_nil, (linesOf_eq_nil_iff m).mpr hm]
    rfl
  | cons chunk chunks ih =>
    obtain ⟨hchunk, hrest⟩ := List.forall_mem_cons.mp hchunks
    rw [grepLoop, ih (kept_no_newline _) hrest, kept_of_newline hchunk, List.flatten_cons,
      ← List.append_assoc, linesOf_append (m ++ chunk)]
    simp [written]

theorem written_nil_length (lines : List (List Byte)) :
    (written [] lines).length = (lines.flatMap fun l => l ++ [NEWLINE]).length := by
  have hall (l : List Byte) : grepMatch [] l = true := by
    cases l <;> rfl
  rw [written, List.filter_eq_self.mpr fun l _ => hall l]

/-- The empty pattern prints all that is not lost, and a chunk without a newline is lost. -/
theorem grepLoop_length (hm : NEWLINE ∉ m) (hfit : Fits m chunks) :
    (grepLoop [] m chunks).length ≤ m.length + chunks.flatten.length ∧
      ((∃ chunk ∈ chunks, NEWLINE ∉ chunk) →
        (grepLoop [] m chunks).length < m.length + chunks.flatten.length) := by
  induction chunks generalizing m with
  | nil => exact ⟨Nat.zero_le _, fun ⟨_, hmem, _⟩ => by cases hmem⟩
  | cons chunk chunks ih =>
    obtain ⟨hne, -, hrest⟩ := hfit
    obtain ⟨hle, hlt⟩ := ih (kept_no_newline _) hrest
    have hpos : 0 < chunk.length := List.length_pos_iff.mpr hne
    rw [grepLoop, List.flatten_cons, List.length_append, List.length_append, written_nil_length]
    by_cases hchunk : NEWLINE ∈ chunk
    · have hjoin := congrArg List.length (linesOf_join (m ++ chunk))
      rw [kept_of_newline hchunk] at hle hlt ⊢
      rw [List.length_append, List.length_append] at hjoin
      refine ⟨by omega, fun ⟨x, hx, hno⟩ => ?_⟩
      rcases List.mem_cons.mp hx with rfl | hx
      · exact absurd hchunk hno
      · have hless := hlt ⟨x, hx, hno⟩
        omega
    · have hnil : (linesOf (m ++ chunk)).1 = [] :=
        (linesOf_eq_nil_iff _).mpr fun hmem => (List.mem_append.mp hmem).elim hm hchunk
      have hkept : kept (m ++ chunk) = [] := if_pos hnil
      rw [hkept, List.length_nil] at hle
      rw [hnil, hkept, List.flatMap_nil, List.length_nil]
      exact ⟨by omega, fun _ => by omega⟩

end

/-- For input that ends in a newline and any way in which `read` can deliver it, `grep` prints
the matching lines for every pattern exactly when every `read` brings a newline. -/
theorem grep_lines_iff (chunks : List (List Byte)) (hfit : Fits [] chunks)
    (hend : (linesOf chunks.flatten).2 = []) :
    (∀ pattern, grepLoop pattern [] chunks = written pattern (linesOf chunks.flatten).1) ↔
      ∀ chunk ∈ chunks, NEWLINE ∈ chunk := by
  constructor
  · intro h chunk hmem
    by_contra hno
    have hless := (grepLoop_length List.not_mem_nil hfit).2 ⟨chunk, hmem, hno⟩
    have hjoin := congrArg List.length (linesOf_join chunks.flatten)
    rw [hend, List.append_nil] at hjoin
    rw [h, written_nil_length, hjoin, List.length_nil, Nat.zero_add] at hless
    exact lt_irrefl _ hless
  · exact fun h pattern => grepLoop_eq pattern List.not_mem_nil h

/-- Two lines in two reads, the second line cut in the middle. -/
theorem grep_lines_iff_small :
    grepLoop [0x62] [] [[0x61, NEWLINE, 0x62], [0x62, NEWLINE]] = [0x62, 0x62, NEWLINE] :=
  ((grep_lines_iff [[0x61, NEWLINE, 0x62], [0x62, NEWLINE]] (by simp [Fits, linesOf, push, kept])
    (by decide)).mpr (by decide) [0x62]).trans (by decide)

/-- The line `ab` in two reads is printed without its first byte. -/
theorem grep_loses_first_read :
    grepLoop [0x62] [] [[0x61], [0x62, NEWLINE]] = [0x62, NEWLINE] ∧
      written [0x62] (linesOf [0x61, 0x62, NEWLINE]).1 = [0x61, 0x62, NEWLINE] := by
  decide

end Xv6Threads.Grep
