/-
# The command parser of the shell

The parser of `sh.c` with `nulterminate`. Words stay where they are in the line: the nodes of
the tree only say where they begin and end, and `nulterminate` writes a NUL behind each. What
it writes over is what ended the word, so it never writes into one.

Places are counted from the beginning of the line. The parser moves a place, `*ps`, and stops in
a panic, or without a result when it is not given enough fuel.
-/

import Mathlib.Data.List.GetD
import Mathlib.Data.List.Basic
import Xv6Threads.Lib.Command
import Xv6Threads.Lib.Transition

namespace Xv6Threads.Shell

open Lib
open Function (update update_of_ne update_self)

@[reducible] def MAXARGS : ℕ := 10
@[reducible] def O_RDONLY : ℕ := 0
@[reducible] def O_WRONLY : ℕ := 1
@[reducible] def O_CREATE : ℕ := 0x200
@[reducible] def NUL : Char := '\x00'

def whitespace : List Char := [' ', '\t', '\r', '\n', '\x0b']

def symbols : List Char := ['<', '|', '>', '&', ';', '(', ')']

/-! ## Trees -/

/-- From `q` up to `eq` in the line. -/
structure Word where
  q : ℕ
  eq : ℕ

structure Redir where
  file : Word
  mode : ℕ
  fd : ℕ

inductive Cmd
  | exec (argv : List Word)
  | redir (cmd : Cmd) (r : Redir)
  | pipe (left right : Cmd)
  | list (left right : Cmd)
  | back (cmd : Cmd)

/-- The arguments and file names of a tree. -/
def Cmd.words : Cmd → List Word
  | .exec argv => argv
  | .redir cmd r => cmd.words ++ [r.file]
  | .pipe left right => left.words ++ right.words
  | .list left right => left.words ++ right.words
  | .back cmd => cmd.words

/-- `*eq = 0`. -/
def cut (buf : ℕ → Char) (w : Word) : ℕ → Char := update buf w.eq NUL

def nulterminate : Cmd → (ℕ → Char) → ℕ → Char
  | .exec argv, buf => argv.foldl cut buf
  | .redir cmd r, buf => cut (nulterminate cmd buf) r.file
  | .pipe left right, buf => nulterminate right (nulterminate left buf)
  | .list left right, buf => nulterminate right (nulterminate left buf)
  | .back cmd, buf => nulterminate cmd buf

/-! ## Tokens -/

/-- Not all of these are panics: `fuel` is a parse that needs more of it. -/
inductive Stop
  | fuel
  | missingFile
  | missingParen
  | parseblock
  -- the panic "syntax" of `parseexec`, and that of `parsecmd`
  | badToken
  | leftovers
  | tooManyArgs
  deriving DecidableEq

abbrev Parser (α : Type) : Type := Command ℕ Stop α

structure Token where
  tok : Char
  word : Word

def endsBlank (c : Char) : Bool := decide (c ∉ whitespace)

def endsWord (c : Char) : Bool := decide (c ∈ whitespace ∨ c ∈ symbols)

section

variable (line : List Char)

/-- `*s`. -/
def charAt (s : ℕ) : Char := line.getD s NUL

/-- `while(s < es && !p(*s)) s++`. -/
def skip (p : Char → Bool) (s : ℕ) : ℕ := s + (line.drop s).findIdx p

/-- The `switch` of `gettoken`: the token that begins at `q`, and its end. -/
def scan (q : ℕ) : Char × ℕ :=
  let c := charAt line q
  if c = NUL then (c, q)
  else if c ∈ ['|', '(', ')', ';', '&', '<'] then (c, q + 1)
  else if c = '>' then
    if charAt line (q + 1) = '>' then ('+', q + 2) else ('>', q + 1)
  else ('a', skip line endsWord q)

def gettoken : Parser Token := fun s =>
  let q := skip line endsBlank s
  .ok (⟨(scan line q).1, q, (scan line q).2⟩, skip line endsBlank (scan line q).2)

def peek (toks : List Char) : Parser Bool := fun s =>
  let s := skip line endsBlank s
  .ok (decide (charAt line s ≠ NUL ∧ charAt line s ∈ toks), s)

/-! ## The parser -/

/-- `redircmd` for a token of `parseredirs`. -/
def redirection (tok : Char) (file : Word) : Redir :=
  if tok = '<' then ⟨file, O_RDONLY, 0⟩ else ⟨file, O_WRONLY ||| O_CREATE, 1⟩

/-- The redirections are collected, the latest last, and wrapped around a tree in the end:
`parseexec` fills in the arguments of a node that it has wrapped already. -/
def parseredirs : ℕ → List Redir → Parser (List Redir)
  | 0, _ => Command.fail .fuel
  | fuel + 1, redirs => do
    if ← peek line ['<', '>'] then
      let t ← gettoken line
      let file ← gettoken line
      if file.tok = 'a' then parseredirs fuel (redirs ++ [redirection t.tok file.word])
      else Command.fail .missingFile
    else return redirs

/-- The loop of `parseexec`. -/
def parseargs : ℕ → List Word → List Redir → Parser Cmd
  | 0, _, _ => Command.fail .fuel
  | fuel + 1, argv, redirs => do
    if ← peek line ['|', ')', '&', ';'] then return redirs.foldl .redir (.exec argv)
    else
      let t ← gettoken line
      if t.tok = NUL then return redirs.foldl .redir (.exec argv)
      else if t.tok ≠ 'a' then Command.fail .badToken
      else if MAXARGS ≤ argv.length + 1 then Command.fail .tooManyArgs
      else
        let redirs ← parseredirs line fuel redirs
        parseargs fuel (argv ++ [t.word]) redirs

/-- The loop of `parseline`. -/
def parsebacks : ℕ → Cmd → Parser Cmd
  | 0, _ => Command.fail .fuel
  | fuel + 1, cmd => do
    if ← peek line ['&'] then
      let _ ← gettoken line
      parsebacks fuel (.back cmd)
    else return cmd

mutual

def parseline : ℕ → Parser Cmd
  | 0 => Command.fail .fuel
  | fuel + 1 => do
    let cmd ← parsepipe fuel
    let cmd ← parsebacks line fuel cmd
    if ← peek line [';'] then
      let _ ← gettoken line
      let rest ← parseline fuel
      return .list cmd rest
    else return cmd

def parsepipe : ℕ → Parser Cmd
  | 0 => Command.fail .fuel
  | fuel + 1 => do
    let cmd ← parseexec fuel
    if ← peek line ['|'] then
      let _ ← gettoken line
      let rest ← parsepipe fuel
      return .pipe cmd rest
    else return cmd

def parseblock : ℕ → Parser Cmd
  | 0 => Command.fail .fuel
  | fuel + 1 => do
    if ← peek line ['('] then
      let _ ← gettoken line
      let cmd ← parseline fuel
      if ← peek line [')'] then
        let _ ← gettoken line
        let redirs ← parseredirs line fuel []
        return redirs.foldl .redir cmd
      else Command.fail .missingParen
    else Command.fail .parseblock

def parseexec : ℕ → Parser Cmd
  | 0 => Command.fail .fuel
  | fuel + 1 => do
    if ← peek line ['('] then parseblock fuel
    else
      let redirs ← parseredirs line fuel []
      parseargs line fuel [] redirs

end

/-- The tree, and the buffer that the line was in. -/
def parsecmd (fuel : ℕ) : Parser (Cmd × (ℕ → Char)) := do
  let cmd ← parseline line fuel
  let _ ← peek line []
  Command.check (fun s => s = line.length) .leftovers
  return (cmd, nulterminate cmd (charAt line))

/-! ## What the words are -/

/-- A word goes on as long as it can. -/
def IsWord (w : Word) : Prop := w.eq = skip line endsWord w.q

/-- What a parser returns has only words at its leaves. -/
def FindsWords (m : Parser Cmd) : Prop :=
  ∀ s, Ends (fun _ => True) m s fun cmd _ => ∀ w ∈ cmd.words, IsWord line w

end

variable {line toks : List Char} {s fuel : ℕ} {cmd : Cmd} {redirs : List Redir}
variable {α : Type} {E : Stop → Prop} {Q : α → ℕ → Prop}

theorem scan_word {q : ℕ} (h : (scan line q).1 = 'a') : IsWord line ⟨q, (scan line q).2⟩ := by
  unfold scan at h ⊢
  dsimp only at h ⊢
  split_ifs at h ⊢ with hnul hop hgreater hagain
  · rw [hnul] at h
    cases h
  · rw [show charAt line q = 'a' from h] at hop
    simp at hop
  · cases h
  · cases h
  · rfl

theorem gettoken_bind {f : Token → Parser α}
    (h : ∀ t s, (t.tok = 'a' → IsWord line t.word) → Ends E (f t) s Q) :
    Ends E (gettoken line >>= f) s Q :=
  Ends.seq (Ends.of_ok rfl (h _ _ scan_word))

theorem peek_bind {f : Bool → Parser α} (hyes : ∀ s, Ends E (f true) s Q)
    (hno : ∀ s, Ends E (f false) s Q) : Ends E (peek line toks >>= f) s Q := by
  apply Ends.seq
  apply Ends.of_ok rfl
  by_cases hfound : charAt line (skip line endsBlank s) ≠ NUL ∧
      charAt line (skip line endsBlank s) ∈ toks
  · rw [decide_eq_true hfound]
    exact hyes _
  · rw [decide_eq_false hfound]
    exact hno _

theorem parseredirs_ends (hredirs : ∀ r ∈ redirs, IsWord line r.file) (s : ℕ) :
    Ends (fun _ => True) (parseredirs line fuel redirs) s fun redirs _ =>
      ∀ r ∈ redirs, IsWord line r.file := by
  induction fuel generalizing redirs s with
  | zero => exact Ends.fail trivial
  | succ fuel ih =>
    apply peek_bind
    · intro s
      apply gettoken_bind
      intro t s _
      apply gettoken_bind
      intro file s hfile
      split_ifs with hword
      · apply ih
        apply List.forall_mem_append.mpr ⟨hredirs, List.forall_mem_singleton.mpr ?_⟩
        rw [redirection]
        split_ifs
        · exact hfile hword
        · exact hfile hword
      · exact Ends.fail trivial
    · exact fun s => Ends.pure hredirs

theorem words_foldl_redir (hcmd : ∀ w ∈ cmd.words, IsWord line w)
    (hredirs : ∀ r ∈ redirs, IsWord line r.file) :
    ∀ w ∈ (redirs.foldl Cmd.redir cmd).words, IsWord line w := by
  induction redirs generalizing cmd with
  | nil => exact hcmd
  | cons r redirs ih =>
    obtain ⟨hr, hrest⟩ := List.forall_mem_cons.mp hredirs
    exact ih (List.forall_mem_append.mpr ⟨hcmd, List.forall_mem_singleton.mpr hr⟩) hrest

theorem parseargs_findsWords {argv : List Word} (hargv : ∀ w ∈ argv, IsWord line w)
    (hredirs : ∀ r ∈ redirs, IsWord line r.file) :
    FindsWords line (parseargs line fuel argv redirs) := by
  intro s
  induction fuel generalizing argv redirs s with
  | zero => exact Ends.fail trivial
  | succ fuel ih =>
    have hdone := words_foldl_redir (show ∀ w ∈ (Cmd.exec argv).words, _ from hargv) hredirs
    apply peek_bind
    · exact fun s => Ends.pure hdone
    · intro s
      apply gettoken_bind
      intro t s ht
      split_ifs with hnul hword
      · exact Ends.pure hdone
      · exact Ends.fail trivial
      · exact Ends.fail trivial
      · apply (parseredirs_ends hredirs s).bind
        intro redirs s hredirs
        apply ih _ hredirs
        exact List.forall_mem_append.mpr
          ⟨hargv, List.forall_mem_singleton.mpr (ht (not_not.mp hword))⟩

theorem parsebacks_findsWords (hcmd : ∀ w ∈ cmd.words, IsWord line w) :
    FindsWords line (parsebacks line fuel cmd) := by
  intro s
  induction fuel generalizing cmd s with
  | zero => exact Ends.fail trivial
  | succ fuel ih =>
    apply peek_bind
    · exact fun s => gettoken_bind fun t s _ => ih (show ∀ w ∈ (Cmd.back cmd).words, _ from hcmd) s
    · exact fun s => Ends.pure hcmd

/-- The end of `parseline` and of `parsepipe`: more follows if the operator does. -/
theorem FindsWords.peek_then {m : Parser Cmd} {node : Cmd → Cmd → Cmd} (h : FindsWords line m)
    (hnode : ∀ cmd rest, (node cmd rest).words = cmd.words ++ rest.words)
    (hcmd : ∀ w ∈ cmd.words, IsWord line w) :
    FindsWords line do
      if ← peek line toks then
        let _ ← gettoken line
        let rest ← m
        return node cmd rest
      else return cmd := by
  intro s
  apply peek_bind
  · intro s
    apply gettoken_bind
    intro t s _
    apply (h s).bind
    intro rest s hrest
    apply Ends.pure
    rw [hnode]
    exact List.forall_mem_append.mpr ⟨hcmd, hrest⟩
  · exact fun s => Ends.pure hcmd

theorem FindsWords.block (h : FindsWords line (parseline line fuel)) :
    FindsWords line (parseblock line (fuel + 1)) := by
  intro s
  rw [parseblock]
  apply peek_bind
  · intro s
    apply gettoken_bind
    intro t s _
    apply (h s).bind
    intro cmd s hcmd
    apply peek_bind
    · intro s
      apply gettoken_bind
      intro t s _
      apply (parseredirs_ends (List.forall_mem_nil _) s).bind
      intro redirs s hredirs
      exact Ends.pure (words_foldl_redir hcmd hredirs)
    · exact fun s => Ends.fail trivial
  · exact fun s => Ends.fail trivial

theorem parse_findsWords (line : List Char) (fuel : ℕ) :
    FindsWords line (parseline line fuel) ∧ FindsWords line (parsepipe line fuel) ∧
      FindsWords line (parseblock line fuel) ∧ FindsWords line (parseexec line fuel) := by
  induction fuel with
  | zero =>
    have hnone : FindsWords line (Command.fail .fuel) := fun s => Ends.fail trivial
    exact ⟨hnone, hnone, hnone, hnone⟩
  | succ fuel ih =>
    obtain ⟨hline, hpipe, hblock, hexec⟩ := ih
    refine ⟨fun s => ?_, fun s => ?_, hline.block, fun s => ?_⟩
    · rw [parseline]
      apply (hpipe s).bind
      intro cmd s hcmd
      apply (parsebacks_findsWords hcmd s).bind
      intro cmd s hcmd
      exact hline.peek_then (fun _ _ => rfl) hcmd s
    · rw [parsepipe]
      apply (hexec s).bind
      intro cmd s hcmd
      exact hpipe.peek_then (fun _ _ => rfl) hcmd s
    · rw [parseexec]
      apply peek_bind fun s => hblock s
      intro s
      apply (parseredirs_ends (List.forall_mem_nil _) s).bind
      intro redirs s hredirs
      exact parseargs_findsWords (List.forall_mem_nil _) hredirs s

theorem parsecmd_ends (line : List Char) (fuel s : ℕ) :
    Ends (fun _ => True) (parsecmd line fuel) s fun r _ =>
      (∀ w ∈ r.1.words, IsWord line w) ∧ r.2 = nulterminate r.1 (charAt line) := by
  apply ((parse_findsWords line fuel).1 s).bind
  intro cmd s hcmd
  have hcheck : ∀ s, Ends (fun _ => True) (do
      Command.check (fun s => s = line.length) Stop.leftovers
      return (cmd, nulterminate cmd (charAt line))) s fun r _ =>
        (∀ w ∈ r.1.words, IsWord line w) ∧ r.2 = nulterminate r.1 (charAt line) :=
    fun s => Ends.check_bind (fun _ => Ends.pure ⟨hcmd, rfl⟩) fun _ => trivial
  exact peek_bind hcheck hcheck

/-! ## What `nulterminate` leaves -/

theorem nulterminate_eq (cmd : Cmd) (buf : ℕ → Char) :
    nulterminate cmd buf = cmd.words.foldl cut buf := by
  induction cmd generalizing buf with
  | exec argv => rfl
  | redir cmd r ih =>
    rw [nulterminate, ih, Cmd.words, List.foldl_append]
    rfl
  | pipe left right ihl ihr | list left right ihl ihr =>
    rw [nulterminate, ihl, ihr, Cmd.words, List.foldl_append]
  | back cmd ih => exact ih buf

theorem foldl_cut_apply (ws : List Word) (buf : ℕ → Char) (i : ℕ) :
    ws.foldl cut buf i = if ∃ w ∈ ws, w.eq = i then NUL else buf i := by
  induction ws generalizing buf with
  | nil => rw [if_neg (by simp), List.foldl_nil]
  | cons w ws ih =>
    rw [List.foldl_cons, ih, cut]
    by_cases hi : w.eq = i
    · simp [hi]
    · simp [hi, update_of_ne (Ne.symm hi)]

/-- The bytes from `q` on, read as a string. -/
def IsCString (buf : ℕ → Char) (q : ℕ) (cs : List Char) : Prop :=
  NUL ∉ cs ∧ buf (q + cs.length) = NUL ∧ ∀ i, (h : i < cs.length) → buf (q + i) = cs[i]

/-- The text from `q` up to `eq`. -/
def Word.text (line : List Char) (w : Word) : List Char := (line.drop w.q).take (w.eq - w.q)

theorem IsWord.length_text {w : Word} (h : IsWord line w) :
    w.q + (w.text line).length = w.eq := by
  rw [Word.text, h, skip, Nat.add_sub_cancel_left, List.length_take,
    Nat.min_eq_left List.findIdx_le_length]

theorem skip_inside {p : Char → Bool} {q i : ℕ} (h : q + i < skip line p q) :
    q + i < line.length ∧ p (charAt line (q + i)) = false := by
  have hi : i < (line.drop q).findIdx p := Nat.lt_of_add_lt_add_left h
  have hlt : i < (line.drop q).length := Nat.lt_of_lt_of_le hi List.findIdx_le_length
  have hinside := List.not_of_lt_findIdx hi
  rw [List.length_drop] at hlt
  refine ⟨by omega, ?_⟩
  rwa [charAt, List.getD_eq_getElem _ _ (by omega), ← List.getElem_drop]

theorem skip_end {p : Char → Bool} {q : ℕ} (h : skip line p q < line.length) :
    p (charAt line (skip line p q)) = true := by
  unfold skip at h ⊢
  have hlt : (line.drop q).findIdx p < (line.drop q).length := by
    rw [List.length_drop]
    omega
  rw [charAt, List.getD_eq_getElem _ _ h, ← List.getElem_drop (h := hlt)]
  exact List.findIdx_getElem

/-- No word ends inside a word. -/
theorem IsWord.apart {w v : Word} (hw : IsWord line w) (hv : IsWord line v) {i : ℕ}
    (hi : w.q + i < w.eq) : v.eq ≠ w.q + i := by
  intro hend
  rw [hw] at hi
  obtain ⟨hlt, hinside⟩ := skip_inside hi
  rw [← hend, hv] at hlt hinside
  rw [skip_end hlt] at hinside
  cases hinside

/-- Whatever stood behind a word, `nulterminate` makes a string of exactly its text. -/
theorem nulterminate_cuts_words (hline : NUL ∉ line) {s s' : ℕ} {buf : ℕ → Char}
    (h : parsecmd line fuel s = .ok ((cmd, buf), s')) {w : Word} (hw : w ∈ cmd.words) :
    IsCString buf w.q (w.text line) := by
  obtain ⟨hwords, hbuf⟩ := (parsecmd_ends line fuel s).ok h
  have hword := hwords w hw
  rw [show buf = _ from hbuf, nulterminate_eq]
  refine ⟨fun hnul => hline (List.mem_of_mem_drop (List.mem_of_mem_take hnul)), ?_, ?_⟩
  · rw [hword.length_text, foldl_cut_apply, if_pos ⟨w, hw, rfl⟩]
  · intro i hi
    have hinside : w.q + i < w.eq := by
      rw [← hword.length_text]
      omega
    have hapart : ¬∃ v ∈ cmd.words, v.eq = w.q + i := fun ⟨v, hv, hend⟩ =>
      hword.apart (hwords v hv) hinside hend
    rw [foldl_cut_apply, if_neg hapart]
    simp [Word.text, charAt, (skip_inside (hword ▸ hinside)).1]

/-- In `echo hi>f` the operator that is overwritten stands between two words. -/
theorem nulterminate_cuts_words_tight :
    ∃ cmd buf, parsecmd "echo hi>f".toList 8 0 = .ok ((cmd, buf), 9) ∧
      cmd.words.map (Word.text "echo hi>f".toList) = ["echo".toList, "hi".toList, "f".toList] ∧
      ∀ w ∈ cmd.words, IsCString buf w.q (w.text "echo hi>f".toList) := by
  obtain ⟨⟨cmd, buf⟩, hparse, hwords⟩ := ok_of_result
    (m := parsecmd "echo hi>f".toList 8 0) (r := 9)
    (P := fun x => x.1.words.map (Word.text "echo hi>f".toList) =
      ["echo".toList, "hi".toList, "f".toList]) (by decide +kernel)
  refine ⟨cmd, buf, hparse, hwords, fun w hw => ?_⟩
  exact nulterminate_cuts_words (by decide +kernel) hparse hw

end Xv6Threads.Shell
