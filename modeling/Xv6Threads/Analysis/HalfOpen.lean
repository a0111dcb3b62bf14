/-
# Files that are still being opened

`sys_open` gives its descriptor to the caller and its peer before it assigns the
fields of the file. This module follows runs in which nobody uses a descriptor
during that window, from any state whose tables are shared in pairs and whose files
are counted and assigned. In such runs a file reached through a descriptor has the
fields its maker gave it. The window is real: a peer that reads in it ends in the
last panic of `fileread`.
-/

import Xv6Threads.Analysis.References
import Xv6Threads.Kernel.OpenSpec
import Xv6Threads.Lib.Cells

namespace Xv6Threads.Opening

open Lib
open Function (update update_eq_self update_of_ne update_self)

variable {st : Stage} {x : OpenFile} {m : Maker}

/-! ## Tables of pairs -/

/-- Sharing as `clone` sets it up for a first thread: every entry of a peer list names
one process, which names its owner back. -/
structure PeersPaired (peers : Slot → PeerList) (partner : Slot → Option Slot) : Prop where
  uniform : UniformLists peers partner
  symmetric : Mutual partner
  irrefl : ∀ q, partner q ≠ some q

section Entries

variable {partner : Slot → Option Slot} {tables : FdTables} {p q : Slot} {fd n : Fd}
variable {f : FileIdx} {v : Option FileIdx}

theorem setPair_entry (hagree : Agree partner tables) (p q : Slot) (n fd : Fd)
    (v : Option FileIdx) :
    setPair partner p (update (tables p) n v) tables q fd = tables q fd ∨
      (fd = n ∧ setPair partner p (update (tables p) n v) tables q fd = v ∧
        tables q n = tables p n) := by
  by_cases hq : q = p ∨ partner p = some q
  · have hsame : tables q = tables p := by
      rcases hq with rfl | hq
      · rfl
      · exact (hagree p q hq).symm
    rw [setPair, if_pos hq, hsame]
    by_cases hfd : fd = n
    · rw [hfd, update_self]
      exact .inr ⟨rfl, rfl, rfl⟩
    · exact .inl (update_of_ne hfd ..)
  · exact .inl (by rw [setPair, if_neg hq])

/-- Where an entry comes from after one was opened. -/
theorem entry_of_gain (hagree : Agree partner tables)
    (h : setPair partner p (update (tables p) n v) tables q fd = some f) :
    tables q fd = some f ∨ v = some f := by
  rcases setPair_entry hagree p q n fd v with hold | ⟨-, hnew, -⟩
  · exact .inl (hold ▸ h)
  · exact .inr (hnew ▸ h)

/-- Entries other than the one written stay. -/
theorem entry_kept (hagree : Agree partner tables) (h : tables q fd = some f)
    (hn : tables p n ≠ some f) :
    setPair partner p (update (tables p) n v) tables q fd = some f := by
  rcases setPair_entry hagree p q n fd v with hold | ⟨rfl, -, hsame⟩
  · rw [hold, h]
  · exact absurd (hsame.symm.trans h) hn

theorem entry_iff_of_gain {g : FileIdx} (hagree : Agree partner tables) (hfree : tables p n = none)
    (hg : g ≠ f) :
    setPair partner p (update (tables p) n (some f)) tables q fd = some g ↔
      tables q fd = some g := by
  constructor
  · intro h
    rcases entry_of_gain hagree h with hold | hnew
    · exact hold
    · exact absurd (Option.some.inj hnew).symm hg
  · exact fun h => entry_kept hagree h (by simp [hfree])

end Entries

/-! ## Counting -/

/-- How many processes have allocated a file and not published it. -/
def OpenState.pending (s : OpenState) (f : FileIdx) : ℕ :=
  (Finset.univ.filter fun p => (s.phase p).allocates = some f).card

/-- Partners have equal tables, and there is a reference for every descriptor and
every file on its way to one. -/
structure CountOk (partner : Slot → Option Slot) (s : OpenState) : Prop where
  agree : Agree partner s.tables
  refs : ∀ f, pairWeight partner (held f) s.tables + 2 * s.pending f ≤ 2 * (s.files f).ref

theorem pending_change {s s' : OpenState} {p : Slot} {ph : Phase}
    (h : s'.phase = update s.phase p ph) (f : FileIdx) :
    s'.pending f + (if (s.phase p).allocates = some f then 1 else 0) =
      s.pending f + (if ph.allocates = some f then 1 else 0) := by
  have hcount := card_filter_change_one (a := p) (p := fun q => (s'.phase q).allocates = some f)
    (q := fun q => (s.phase q).allocates = some f) fun q hq => by
      rw [h, update_of_ne hq]
  simpa [h, OpenState.pending] using hcount

section Count

variable {peers : Slot → PeerList} {partner : Slot → Option Slot} {s s' : OpenState}
variable {p q : Slot} {fd : Fd} {f : FileIdx}

theorem CountOk.ref_of_entry (hi : CountOk partner s) (hpeers : PeersPaired peers partner)
    (h : s.tables q fd = some f) : 0 < (s.files f).ref := by
  have hheld := one_le_held h
  have hweight := two_mul_le_pairWeight (w := held f) hpeers.symmetric (hpeers.irrefl q) hi.agree
  have hrefs := hi.refs f
  omega

theorem CountOk.ref_of_allocates (hi : CountOk partner s) (h : (s.phase q).allocates = some f) :
    0 < (s.files f).ref := by
  have hpending : 0 < s.pending f := Finset.card_pos.mpr ⟨q, by simpa using h⟩
  have hrefs := hi.refs f
  omega

end Count

/-! ## The window -/

/-- What `sys_open` has assigned by each stage. -/
def Assigned (ip : InodeIdx) (omode : BitVec 32) (x : OpenFile) : Stage → Prop
  | .published | .unlocked | .ended => True
  | .typed => x.type = .inode
  | .pointed => x.type = .inode ∧ x.ip = some ip
  | .rewound => x.type = .inode ∧ x.ip = some ip ∧ x.off = 0
  | .readable => x.type = .inode ∧ x.ip = some ip ∧ x.off = 0 ∧ x.readable = readableOf omode

/-- The file has the fields of some maker. -/
def OpenState.Settled (s : OpenState) (f : FileIdx) : Prop :=
  ∃ m, s.maker f = some m ∧ m.Gave (s.files f)

/-- A file that is allocated has no descriptor yet; one that is being opened has one,
and a single process that opens it; every other file with a descriptor is settled. -/
structure WindowOk (s : OpenState) : Prop where
  fresh : ∀ p f, (s.phase p).allocates = some f → ∀ q fd, s.tables q fd ≠ some f
  one : ∀ p q f, (s.phase p).allocates = some f → (s.phase q).allocates = some f → p = q
  published : ∀ p f, (s.phase p).opens = some f → ∃ fd, s.tables p fd = some f
  unique : ∀ p q f, (s.phase p).opens = some f → (s.phase q).opens = some f → p = q
  allocated : ∀ p f ip omode, s.phase p = .allocated f ip omode →
    s.maker f = some (.opened ip omode 0)
  staged : ∀ p f ip omode st, s.phase p = .opening f ip omode st →
    s.maker f = some (.opened ip omode 0) ∧ Assigned ip omode (s.files f) st
  settled : ∀ q fd f, s.tables q fd = some f → ¬s.BeingOpened f → s.Settled f

section Window

variable {s s' : OpenState} {p q : Slot} {f g : FileIdx} {ip : InodeIdx} {omode : BitVec 32}
variable {ph : Phase}

theorem opens_of_opening (h : s.phase p = .opening f ip omode st) : (s.phase p).opens = some f := by
  rw [h]
  rfl

theorem allocates_of_allocated (h : s.phase p = .allocated f ip omode) :
    (s.phase p).allocates = some f := by
  rw [h]
  rfl

theorem OpenState.Settled.congr (h : s.Settled g) (hfiles : s'.files g = s.files g)
    (hmaker : s'.maker g = s.maker g) : s'.Settled g := by
  rw [OpenState.Settled, hfiles, hmaker]
  exact h

theorem Maker.gave_ref (h : m.Gave x) (r : ℕ) : m.Gave { x with ref := r } := by
  cases m with
  | opened ip omode off => exact h
  | piped pipe r w => exact h

theorem Maker.gave_move (h : m.Gave x) (k : ℕ) : (m.move k).Gave { x with off := x.off + k } := by
  cases m with
  | opened ip omode off =>
    obtain ⟨htype, hip, hoff, hread, hwrite⟩ := h
    exact ⟨htype, hip, by rw [← hoff], hread, hwrite⟩
  | piped pipe r w => exact h

/-- One process moves, and one file changes. -/
structure Change (s s' : OpenState) (p : Slot) (f : FileIdx) (ph : Phase) : Prop where
  phase : s'.phase = Function.update s.phase p ph
  files : ∀ g, g ≠ f → s'.files g = s.files g
  maker : ∀ g, g ≠ f → s'.maker g = s.maker g
  entries : ∀ q fd g, g ≠ f → (s'.tables q fd = some g ↔ s.tables q fd = some g)

def Phase.At (ph : Phase) (f : FileIdx) : Prop := ph.allocates = some f ∨ ph.opens = some f

theorem Phase.not_at_idle : ¬Phase.idle.At f := by
  rintro (h | h) <;> cases h

/-- The process is at no other file, and no other process is at the file. -/
structure Alone (s : OpenState) (p : Slot) (f : FileIdx) (ph : Phase) : Prop where
  before : ∀ g, (s.phase p).At g → g = f
  after : ∀ g, ph.At g → g = f
  others : ∀ q, q ≠ p → ¬(s.phase q).At f

theorem Change.phase_of_ne (h : Change s s' p f ph) (hq : q ≠ p) : s'.phase q = s.phase q := by
  rw [h.phase, update_of_ne hq]

theorem Change.phase_self (h : Change s s' p f ph) : s'.phase p = ph := by
  rw [h.phase, update_self]

/-- What has to be known about the one file for the window to stay in order. -/
theorem WindowOk.change (hi : WindowOk s) (hc : Change s s' p f ph) (ha : Alone s p f ph)
    (hfresh : ph.allocates = some f → ∀ q fd, s'.tables q fd ≠ some f)
    (hpublished : ph.opens = some f → ∃ fd, s'.tables p fd = some f)
    (hallocated : ∀ ip omode, ph = .allocated f ip omode → s'.maker f = some (.opened ip omode 0))
    (hstaged : ∀ ip omode st, ph = .opening f ip omode st →
      s'.maker f = some (.opened ip omode 0) ∧ Assigned ip omode (s'.files f) st)
    (hsettled : ph.opens ≠ some f → ∀ q fd, s'.tables q fd = some f → s'.Settled f) :
    WindowOk s' := by
  have halloc : ∀ {q g}, q ≠ p → (s'.phase q).allocates = some g →
      (s.phase q).allocates = some g ∧ g ≠ f := by
    intro q g hq h
    rw [hc.phase_of_ne hq] at h
    exact ⟨h, fun hg => ha.others q hq (.inl (hg ▸ h))⟩
  have hopen : ∀ {q g}, q ≠ p → (s'.phase q).opens = some g →
      (s.phase q).opens = some g ∧ g ≠ f := by
    intro q g hq h
    rw [hc.phase_of_ne hq] at h
    exact ⟨h, fun hg => ha.others q hq (.inr (hg ▸ h))⟩
  constructor
  case fresh =>
    intro q g hq
    by_cases hqp : q = p
    · rw [hqp, hc.phase_self] at hq
      obtain rfl := ha.after g (.inl hq)
      exact hfresh hq
    · obtain ⟨hold, hg⟩ := halloc hqp hq
      intro r fd h
      exact hi.fresh q g hold r fd ((hc.entries r fd g hg).mp h)
  case one =>
    apply unique_of_ne hi.one (fun q hq => by rw [hc.phase_of_ne hq])
    intro g hg
    rw [hc.phase_self] at hg
    obtain rfl := ha.after g (.inl hg)
    exact fun q hq h => ha.others q hq (.inl h)
  case published =>
    intro q g hq
    by_cases hqp : q = p
    · rw [hqp, hc.phase_self] at hq
      obtain rfl := ha.after g (.inr hq)
      rw [hqp]
      exact hpublished hq
    · obtain ⟨hold, hg⟩ := hopen hqp hq
      obtain ⟨fd, hfd⟩ := hi.published q g hold
      exact ⟨fd, (hc.entries q fd g hg).mpr hfd⟩
  case unique =>
    apply unique_of_ne hi.unique (fun q hq => by rw [hc.phase_of_ne hq])
    intro g hg
    rw [hc.phase_self] at hg
    obtain rfl := ha.after g (.inr hg)
    exact fun q hq h => ha.others q hq (.inr h)
  case allocated =>
    intro q g ip omode hq
    by_cases hqp : q = p
    · rw [hqp, hc.phase_self] at hq
      obtain rfl := ha.after g (.inl (by rw [hq]; rfl))
      exact hallocated ip omode hq
    · obtain ⟨-, hg⟩ := halloc hqp (allocates_of_allocated hq)
      rw [hc.phase_of_ne hqp] at hq
      rw [hc.maker g hg]
      exact hi.allocated q g ip omode hq
  case staged =>
    intro q g ip omode st hq
    by_cases hqp : q = p
    · rw [hqp, hc.phase_self] at hq
      obtain rfl := ha.after g (.inr (by rw [hq]; rfl))
      exact hstaged ip omode st hq
    · obtain ⟨-, hg⟩ := hopen hqp (opens_of_opening hq)
      rw [hc.phase_of_ne hqp] at hq
      rw [hc.maker g hg, hc.files g hg]
      exact hi.staged q g ip omode st hq
  case settled =>
    intro q fd g hq hclosed
    by_cases hg : g = f
    · subst hg
      refine hsettled ?_ q fd hq
      exact fun h => hclosed ⟨p, by rw [hc.phase_self, h]⟩
    · have hbefore : ¬s.BeingOpened g := by
        rintro ⟨r, hr⟩
        have hrp : r ≠ p := by
          rintro rfl
          exact hg (ha.before g (.inr hr))
        exact hclosed ⟨r, by rw [hc.phase_of_ne hrp, hr]⟩
      refine (hi.settled q fd g ((hc.entries q fd g hg).mp hq) hbefore).congr ?_ ?_
      · exact hc.files g hg
      · exact hc.maker g hg

theorem WindowOk.change_idle (hi : WindowOk s) (hc : Change s s' p f .idle)
    (ha : Alone s p f .idle) (hsettled : ∀ q fd, s'.tables q fd = some f → s'.Settled f) :
    WindowOk s' := by
  apply hi.change hc ha
  case hfresh | hpublished =>
    intro h
    cases h
  case hallocated =>
    intro _ _ h
    cases h
  case hstaged =>
    intro _ _ _ h
    cases h
  case hsettled => exact fun _ => hsettled

/-- The count stays in order if the one file is paid for. -/
theorem CountOk.change {partner : Slot → Option Slot} (hi : CountOk partner s)
    (hc : Change s s' p f ph) (ha : Alone s p f ph) (hagree : Agree partner s'.tables)
    (hweight : ∀ g, g ≠ f →
      pairWeight partner (held g) s'.tables = pairWeight partner (held g) s.tables)
    (hpaid : pairWeight partner (held f) s'.tables + 2 * (if ph.allocates = some f then 1 else 0) +
        2 * (s.files f).ref ≤
      pairWeight partner (held f) s.tables +
        2 * (if (s.phase p).allocates = some f then 1 else 0) + 2 * (s'.files f).ref) :
    CountOk partner s' := by
  refine ⟨hagree, ?_⟩
  intro g
  have hcount := pending_change hc.phase g
  have hold := hi.refs g
  by_cases hg : g = f
  · subst hg
    omega
  · rw [if_neg (fun h => hg (ha.before g (.inl h))), if_neg (fun h => hg (ha.after g (.inl h)))]
      at hcount
    rw [hweight g hg, hc.files g hg]
    omega

end Window

/-! ## Every step -/

structure OpenOk (partner : Slot → Option Slot) (s : OpenState) : Prop where
  count : CountOk partner s
  window : WindowOk s

section Steps

variable {peers : Slot → PeerList} {partner : Slot → Option Slot} {s s' : OpenState}
variable {p q : Slot} {n : Fd} {f g : FileIdx} {ip : InodeIdx} {omode : BitVec 32}

/-- An entry nobody counts is taken. -/
theorem OpenOk.allocated (hi : OpenOk partner s) (hpeers : PeersPaired peers partner)
    (hp : s.phase p = .idle) (hfree : (s.files f).ref = 0)
    (hc : Change s s' p f (.allocated f ip omode)) (htables : s'.tables = s.tables)
    (href : (s'.files f).ref = 1) (hmaker : s'.maker f = some (.opened ip omode 0)) :
    OpenOk partner s' := by
  have hentry : ∀ q fd, s.tables q fd ≠ some f := by
    intro q fd h
    have hpos := hi.count.ref_of_entry hpeers h
    omega
  have ha : Alone s p f (.allocated f ip omode) := by
    constructor
    case before =>
      rw [hp]
      exact fun _ h => absurd h Phase.not_at_idle
    case after =>
      rintro _ (h | h) <;> cases h
      rfl
    case others =>
      rintro q _ (h | h)
      · have hpos := hi.count.ref_of_allocates h
        omega
      · obtain ⟨fd, hfd⟩ := hi.window.published q f h
        exact hentry q fd hfd
  constructor
  case count =>
    apply hi.count.change hc ha
    case hagree => exact htables ▸ hi.count.agree
    case hweight => exact fun g _ => by rw [htables]
    case hpaid =>
      rw [htables, href, hfree]
      simp [hp, Phase.allocates]
  case window =>
    apply hi.window.change hc ha
    case hfresh => exact fun _ => htables ▸ hentry
    case hpublished =>
      intro h
      cases h
    case hallocated =>
      intro ip' omode' h
      cases h
      exact hmaker
    case hstaged =>
      intro _ _ _ h
      cases h
    case hsettled => exact fun _ q fd h => absurd (htables ▸ h) (hentry q fd)

/-- A process that allocated a file is alone with it. -/
theorem OpenOk.alone_of_allocated {ph : Phase} (hi : OpenOk partner s)
    (hp : s.phase p = .allocated f ip omode) (halloc : ph.allocates = none)
    (hopen : ph.opens = some f ∨ ph.opens = none) : Alone s p f ph := by
  have hallocates := allocates_of_allocated hp
  constructor
  case before =>
    rw [hp]
    rintro g (h | h) <;> cases h
    rfl
  case after =>
    rintro g (h | h)
    · exact absurd (h.symm.trans halloc) (Option.some_ne_none g)
    · rcases hopen with hopen | hopen
      · exact Option.some.inj (h.symm.trans hopen)
      · exact absurd (h.symm.trans hopen) (Option.some_ne_none g)
  case others =>
    rintro q hq (h | h)
    · exact hq (hi.window.one q p f h hallocates)
    · obtain ⟨fd, hfd⟩ := hi.window.published q f h
      exact hi.window.fresh p f hallocates q fd hfd

/-- The descriptor is published: the file was counted already. -/
theorem OpenOk.published (hi : OpenOk partner s) (hpeers : PeersPaired peers partner)
    (hp : s.phase p = .allocated f ip omode) (hfree : s.tables p n = none)
    (hphase : s'.phase = update s.phase p (.opening f ip omode .published))
    (htables : s'.tables = setPair partner p (update (s.tables p) n (some f)) s.tables)
    (hfiles : s'.files = s.files) (hmaker : s'.maker = s.maker) : OpenOk partner s' := by
  have hagree := hi.count.agree
  have ha : Alone s p f (.opening f ip omode .published) :=
    hi.alone_of_allocated hp rfl (.inl rfl)
  have hc : Change s s' p f (.opening f ip omode .published) := by
    refine ⟨hphase, fun g _ => by rw [hfiles], fun g _ => by rw [hmaker], ?_⟩
    rw [htables]
    exact fun q fd g hg => entry_iff_of_gain hagree hfree hg
  have hweight := pairWeight_update hpeers.symmetric (hpeers.irrefl p) hagree n (some f)
  simp only [hfree, reduceCtorEq, if_false, Nat.add_zero, Option.some.injEq] at hweight
  constructor
  case count =>
    apply hi.count.change hc ha
    case hagree => exact htables ▸ hagree.setPair hpeers.symmetric _
    case hweight =>
      intro g hg
      rw [htables, hweight, if_neg (Ne.symm hg), Nat.add_zero]
    case hpaid =>
      rw [htables, hweight, if_pos rfl, hfiles, if_pos (allocates_of_allocated hp),
        if_neg (fun h => by cases h)]
  case window =>
    apply hi.window.change hc ha
    case hfresh =>
      intro h
      cases h
    case hpublished =>
      intro _
      refine ⟨n, ?_⟩
      rw [htables, setPair_self, update_self]
    case hallocated =>
      intro _ _ h
      cases h
    case hstaged =>
      intro ip' omode' st h
      cases h
      rw [hmaker]
      exact ⟨hi.window.allocated p f ip omode hp, trivial⟩
    case hsettled => exact fun h => absurd rfl h

/-- No descriptor was free, and the file is given back. -/
theorem OpenOk.dropped (hi : OpenOk partner s) (hp : s.phase p = .allocated f ip omode)
    (hclose : fileclose (s.files f) = .ok x) (hc : Change s s' p f .idle)
    (htables : s'.tables = s.tables) (hfile : s'.files f = x) :
    OpenOk partner s' := by
  have ha : Alone s p f .idle := hi.alone_of_allocated hp rfl (.inr rfl)
  have href := (fileclose_ok hclose).1
  constructor
  case count =>
    apply hi.count.change hc ha
    case hagree => exact htables ▸ hi.count.agree
    case hweight => exact fun g _ => by rw [htables]
    case hpaid =>
      rw [htables, hfile, if_pos (allocates_of_allocated hp), if_neg (fun h => by cases h)]
      omega
  case window =>
    apply hi.window.change_idle hc ha
    intro q fd h
    exact absurd (htables ▸ h) (hi.window.fresh p f (allocates_of_allocated hp) q fd)

/-- A step of `sys_open` on the file it has published. -/
theorem OpenOk.assigned {ph : Phase} (hi : OpenOk partner s)
    (hp : s.phase p = .opening f ip omode st) (hphase : s'.phase = update s.phase p ph)
    (htables : s'.tables = s.tables) (hfiles : s'.files = update s.files f x)
    (hmaker : s'.maker = s.maker) (href : x.ref = (s.files f).ref)
    (hnext : (∃ st', ph = .opening f ip omode st' ∧ Assigned ip omode x st') ∨
      ph = .idle ∧ (Maker.opened ip omode 0).Gave x) : OpenOk partner s' := by
  have hopens := opens_of_opening hp
  have hmade := (hi.window.staged p f ip omode st hp).1
  obtain ⟨n, hn⟩ := hi.window.published p f hopens
  have hfile : s'.files f = x := by rw [hfiles, update_self]
  have hc : Change s s' p f ph := by
    refine ⟨hphase, fun g hg => by rw [hfiles, update_of_ne hg],
      fun g _ => by rw [hmaker], fun q fd g _ => by rw [htables]⟩
  have halloc : ph.allocates = none := by
    rcases hnext with ⟨st', rfl, -⟩ | ⟨rfl, -⟩
    · rfl
    · rfl
  have ha : Alone s p f ph := by
    constructor
    case before =>
      rw [hp]
      rintro g (h | h) <;> cases h
      rfl
    case after =>
      rcases hnext with ⟨st', rfl, -⟩ | ⟨rfl, -⟩
      · rintro g (h | h) <;> cases h
        rfl
      · exact fun _ h => absurd h Phase.not_at_idle
    case others =>
      rintro q hq (h | h)
      · exact hi.window.fresh q f h p n hn
      · exact hq (hi.window.unique q p f h hopens)
  constructor
  case count =>
    apply hi.count.change hc ha
    case hagree => exact htables ▸ hi.count.agree
    case hweight => exact fun g _ => by rw [htables]
    case hpaid =>
      rw [htables, hfile, href, halloc, hp]
      exact le_rfl
  case window =>
    apply hi.window.change hc ha
    case hfresh =>
      rw [halloc]
      intro h
      cases h
    case hpublished => exact fun _ => ⟨n, htables ▸ hn⟩
    case hallocated =>
      rintro ip' omode' rfl
      cases halloc
    case hstaged =>
      rintro ip' omode' st' rfl
      rw [hmaker, hfile]
      rcases hnext with ⟨st'', hst, hassigned⟩ | ⟨hidle, -⟩
      · cases hst
        exact ⟨hmade, hassigned⟩
      · cases hidle
    case hsettled =>
      intro hdone _ _ _
      rcases hnext with ⟨st', rfl, -⟩ | ⟨-, hgave⟩
      · exact absurd rfl hdone
      · exact ⟨_, hmaker ▸ hmade, hfile ▸ hgave⟩

/-- Each assignment brings the file to the next stage, and the last settles it. -/
theorem OpenOk.advanced (hi : OpenOk partner s) (hp : s.phase p = .opening f ip omode st) :
    OpenOk partner (advance s p f ip omode st) := by
  have hold := (hi.window.staged p f ip omode st hp).2
  have hkept : s.files = update s.files f (s.files f) :=
    (update_eq_self f s.files).symm
  cases st with
  | published => exact hi.assigned hp rfl rfl hkept rfl rfl (.inl ⟨.unlocked, rfl, trivial⟩)
  | unlocked => exact hi.assigned hp rfl rfl hkept rfl rfl (.inl ⟨.ended, rfl, trivial⟩)
  | ended => exact hi.assigned hp rfl rfl rfl rfl rfl (.inl ⟨.typed, rfl, rfl⟩)
  | typed => exact hi.assigned hp rfl rfl rfl rfl rfl (.inl ⟨.pointed, rfl, hold, rfl⟩)
  | pointed =>
    exact hi.assigned hp rfl rfl rfl rfl rfl (.inl ⟨.rewound, rfl, hold.1, hold.2, rfl⟩)
  | rewound =>
    exact hi.assigned hp rfl rfl rfl rfl rfl
      (.inl ⟨.readable, rfl, hold.1, hold.2.1, hold.2.2, rfl⟩)
  | readable =>
    exact hi.assigned hp rfl rfl rfl rfl rfl
      (.inr ⟨rfl, hold.1, hold.2.1, hold.2.2.1, hold.2.2.2, rfl⟩)

/-- A caller is alone with a file that has a descriptor and is not being opened. -/
theorem OpenOk.alone_of_call (hi : OpenOk partner s) (hp : s.phase p = .idle) {fd : Fd}
    (hentry : s.tables q fd = some f) (hopened : ¬s.BeingOpened f) : Alone s p f .idle := by
  constructor
  case before =>
    rw [hp]
    exact fun _ h => absurd h Phase.not_at_idle
  case after => exact fun _ h => absurd h Phase.not_at_idle
  case others =>
    rintro r _ (h | h)
    · exact hi.window.fresh r f h q fd hentry
    · exact hopened ⟨r, h⟩

/-- A call changes the file it reaches, its tables and nothing else. -/
theorem OpenOk.called (hi : OpenOk partner s) (hp : s.phase p = .idle) {fd : Fd}
    (hentry : s.tables q fd = some f) (hopened : ¬s.BeingOpened f)
    (hphase : s'.phase = s.phase) (hfiles : ∀ g, g ≠ f → s'.files g = s.files g)
    (hmaker : ∀ g, g ≠ f → s'.maker g = s.maker g)
    (hentries : ∀ r i g, g ≠ f → (s'.tables r i = some g ↔ s.tables r i = some g))
    (hagree : Agree partner s'.tables)
    (hweight : ∀ g, g ≠ f →
      pairWeight partner (held g) s'.tables = pairWeight partner (held g) s.tables)
    (hpaid : pairWeight partner (held f) s'.tables + 2 * (s.files f).ref ≤
      pairWeight partner (held f) s.tables + 2 * (s'.files f).ref)
    (hsettled : s.Settled f → ∀ r i, s'.tables r i = some f → s'.Settled f) :
    OpenOk partner s' := by
  have ha := hi.alone_of_call hp hentry hopened
  have hc : Change s s' p f .idle := by
    refine ⟨?_, hfiles, hmaker, hentries⟩
    rw [hphase, ← hp, update_eq_self]
  constructor
  case count =>
    apply hi.count.change hc ha hagree hweight
    have hnone : Phase.idle.allocates ≠ some f := fun h => by cases h
    rw [hp, if_neg hnone]
    omega
  case window =>
    exact hi.window.change_idle hc ha (hsettled (hi.window.settled q fd f hentry hopened))

theorem OpenOk.moved {fd : Fd} (hi : OpenOk partner s) (hp : s.phase p = .idle)
    (hentry : s.tables p fd = some f) (hopened : ¬s.BeingOpened f) (k : ℕ) :
    OpenOk partner (s.moved f { s.files f with off := (s.files f).off + k }) := by
  apply hi.called hp hentry hopened
  case hphase => rfl
  case hfiles => exact fun g hg => update_of_ne hg ..
  case hmaker => exact fun g hg => update_of_ne hg ..
  case hentries => exact fun _ _ _ _ => Iff.rfl
  case hagree => exact hi.count.agree
  case hweight => exact fun _ _ => rfl
  case hpaid => simp [OpenState.moved, OpenState.setFile, OpenState.setMaker]
  case hsettled =>
    rintro ⟨m, hm, hgave⟩ _ _ _
    refine ⟨m.move k, ?_, ?_⟩
    · simp [OpenState.moved, OpenState.setFile, OpenState.setMaker, hm]
    · simpa [OpenState.moved, OpenState.setFile, OpenState.setMaker] using Maker.gave_move hgave k

theorem OpenOk.duped {fd : Fd} (hi : OpenOk partner s) (hpeers : PeersPaired peers partner)
    (hp : s.phase p = .idle) (hentry : s.tables p fd = some f) (hopened : ¬s.BeingOpened f)
    (hfree : s.tables p n = none) :
    OpenOk partner { s.setFile f { s.files f with ref := (s.files f).ref + 1 } with
      tables := setPair partner p (update (s.tables p) n (some f)) s.tables } := by
  have hagree := hi.count.agree
  have hweight := pairWeight_update hpeers.symmetric (hpeers.irrefl p) hagree n (some f)
  simp only [hfree, reduceCtorEq, if_false, Nat.add_zero, Option.some.injEq] at hweight
  apply hi.called hp hentry hopened
  case hphase => rfl
  case hfiles => exact fun g hg => update_of_ne hg ..
  case hmaker => exact fun _ _ => rfl
  case hentries => exact fun r i g hg => entry_iff_of_gain hagree hfree hg
  case hagree => exact hagree.setPair hpeers.symmetric _
  case hweight =>
    intro g hg
    rw [hweight, if_neg (Ne.symm hg), Nat.add_zero]
  case hpaid =>
    rw [hweight, if_pos rfl]
    simp only [OpenState.setFile, update_self]
    omega
  case hsettled =>
    rintro ⟨m, hm, hgave⟩ _ _ _
    refine ⟨m, hm, ?_⟩
    simpa [OpenState.setFile] using Maker.gave_ref hgave _

theorem OpenOk.closed (hi : OpenOk partner s) (hpeers : PeersPaired peers partner)
    (hp : s.phase p = .idle) (hentry : s.tables p n = some f) (hopened : ¬s.BeingOpened f)
    (hclose : fileclose (s.files f) = .ok x) :
    OpenOk partner { s.setFile f x with
      tables := setPair partner p (update (s.tables p) n none) s.tables } := by
  have hagree := hi.count.agree
  have hweight := pairWeight_update hpeers.symmetric (hpeers.irrefl p) hagree n none
  simp only [hentry, reduceCtorEq, if_false, Nat.add_zero, Option.some.injEq] at hweight
  have hkept := hagree.setPair (p := p) hpeers.symmetric (update (s.tables p) n none)
  obtain ⟨href, hmore⟩ := fileclose_ok hclose
  apply hi.called hp hentry hopened
  case hphase => rfl
  case hfiles => exact fun g hg => update_of_ne hg ..
  case hmaker => exact fun _ _ => rfl
  case hentries =>
    intro r i g hg
    constructor
    · exact fun h => (entry_of_gain hagree h).resolve_right fun h => by cases h
    · refine fun h => entry_kept hagree h ?_
      rw [hentry]
      exact fun h => hg (Option.some.inj h).symm
  case hagree => exact hkept
  case hweight =>
    intro g hg
    have hsame := hweight g
    rwa [if_neg (Ne.symm hg), Nat.add_zero] at hsame
  case hpaid =>
    have hless := hweight f
    rw [if_pos rfl] at hless
    simp only [OpenState.setFile, update_self]
    omega
  case hsettled =>
    rintro ⟨m, hm, hgave⟩ r i h
    -- a descriptor that is left still has its reference
    have hleft : 0 < x.ref := by
      have hheld := one_le_held h
      have htwo := two_mul_le_pairWeight (w := held f) hpeers.symmetric (hpeers.irrefl r) hkept
      have hless := hweight f
      have hrefs := hi.count.refs f
      rw [if_pos rfl] at hless
      dsimp only at hheld
      omega
    refine ⟨m, hm, ?_⟩
    simp only [OpenState.setFile, update_self]
    rw [hmore hleft]
    exact Maker.gave_ref hgave _

theorem OpenOk.step {e : OpenEvent} (hi : OpenOk partner s) (hpeers : PeersPaired peers partner)
    (hgood : UsesOpened s e) (h : OpenStep peers s e s') : OpenOk partner s' := by
  cases openStep_effect h with
  | same => exact hi
  | allocated hp hfree =>
    refine hi.allocated hpeers hp hfree ⟨rfl, ?_, ?_, fun _ _ _ _ => Iff.rfl⟩ rfl ?_ ?_
    · exact fun g hg => update_of_ne hg ..
    · exact fun g hg => update_of_ne hg ..
    · simp [OpenState.setFile, OpenState.setMaker, OpenState.setPhase]
    · exact update_self ..
  | published hp halloc =>
    obtain ⟨hfree, htables⟩ := fdalloc_paired hpeers.uniform hpeers.symmetric
      (hpeers.irrefl _) hi.count.agree halloc
    exact hi.published hpeers hp hfree rfl htables rfl rfl
  | dropped hp hclose =>
    refine hi.dropped hp hclose ⟨rfl, ?_, fun _ _ => rfl, fun _ _ _ _ => Iff.rfl⟩ rfl ?_
    · exact fun g hg => update_of_ne hg ..
    · exact update_self ..
  | advanced hp => exact hi.advanced hp
  | moved hp hfd => exact hi.moved hp (argfd_some hfd) (hgood _ hfd) _
  | duped hp hfd halloc =>
    obtain ⟨hfree, rfl⟩ := fdalloc_paired hpeers.uniform hpeers.symmetric
      (hpeers.irrefl _) hi.count.agree halloc
    exact hi.duped hpeers hp (argfd_some hfd) (hgood _ hfd) hfree
  | closed hp hfd hclose hprop =>
    have hentry := argfd_some hfd
    obtain rfl := closeOfileClone_paired hpeers.uniform hpeers.symmetric
      (hpeers.irrefl _) hi.count.agree (by simp [hentry]) hprop
    exact hi.closed hpeers hp hentry (hgood _ hfd) hclose

end Steps

/-! ## Runs -/

/-- A state to start from: nobody is inside `sys_open`, partners have equal tables,
files are counted, and those with a descriptor have the fields of their makers. -/
structure Start (partner : Slot → Option Slot) (s : OpenState) : Prop where
  idle : ∀ p, s.phase p = .idle
  agree : Agree partner s.tables
  refs : ∀ f, pairWeight partner (held f) s.tables ≤ 2 * (s.files f).ref
  settled : ∀ q fd f, s.tables q fd = some f → s.Settled f

/-- The pairs of the kernel model are the pairs of this one. -/
theorem peersPaired_of_reachable {k : Kernel} (h : ReachableBy Step KeepsRefs boot k) :
    PeersPaired k.ofilePeers (ofileField.partner k) := by
  have hi := tablesOk_of_reachable (fun _ _ hgood => hgood.1) h
  exact ⟨hi.ok.uniform, hi.paired.symmetric, hi.ok.irrefl⟩

/-- The kernel's states are states to start from. -/
theorem start_of_reachable {k : Kernel} {s : OpenState} (h : ReachableBy Step KeepsRefs boot k)
    (hidle : ∀ p, s.phase p = .idle) (htables : s.tables = k.ofiles)
    (hfiles : ∀ f, (s.files f).toFile = k.ftable f)
    (hsettled : ∀ q fd f, s.tables q fd = some f → s.Settled f) :
    Start (ofileField.partner k) s where
  idle := hidle
  agree := htables ▸ (tablesOk_of_reachable (fun _ _ hgood => hgood.1) h).agree
  refs f := by
    have href : (s.files f).ref = (k.ftable f).ref := congrArg File.ref (hfiles f)
    rw [htables, href]
    exact refsOk_of_reachable h f
  settled := hsettled

theorem Start.openOk {partner : Slot → Option Slot} {s : OpenState} (h : Start partner s) :
    OpenOk partner s := by
  have hidle : ∀ p f, (s.phase p).allocates ≠ some f ∧ (s.phase p).opens ≠ some f := by
    intro p f
    rw [h.idle p]
    constructor
    · intro h
      cases h
    · intro h
      cases h
  constructor
  case count =>
    refine ⟨h.agree, ?_⟩
    intro f
    have hnone : s.pending f = 0 := by
      rw [OpenState.pending, Finset.card_eq_zero, Finset.filter_eq_empty_iff]
      exact fun p _ => (hidle p f).1
    have hrefs := h.refs f
    omega
  case window =>
    constructor
    case fresh => exact fun p f hp => absurd hp (hidle p f).1
    case one => exact fun p _ f hp => absurd hp (hidle p f).1
    case published => exact fun p f hp => absurd hp (hidle p f).2
    case unique => exact fun p _ f hp => absurd hp (hidle p f).2
    case allocated => exact fun p f _ _ hp => absurd (allocates_of_allocated hp) (hidle p f).1
    case staged => exact fun p f _ _ _ hp => absurd (opens_of_opening hp) (hidle p f).2
    case settled => exact fun q fd f hq _ => h.settled q fd f hq

theorem Maker.gave_type (h : m.Gave x) : x.type = .inode ∨ x.type = .pipe := by
  cases m with
  | opened ip omode off => exact .inl h.1
  | piped pipe r w => exact .inr h.1

theorem fileread_ne_panic (h : x.type = .inode ∨ x.type = .pipe) (r : ℤ) :
    fileread x r ≠ .error .fileread := by
  rw [fileread]
  split_ifs
  · intro h
    cases h
  · rcases h with h | h
    · rw [h]
      intro h
      cases h
    · rw [h]
      intro h
      cases h

theorem filewrite_ne_panic (h : x.type = .inode ∨ x.type = .pipe) (n i : ℕ) (r : ℤ) :
    filewrite x n i r ≠ .error .filewrite := by
  rw [filewrite]
  by_cases hw : x.writable = false
  · rw [if_pos hw]
    intro h
    cases h
  · rw [if_neg hw]
    rcases h with h | h
    · rw [h]
      intro h
      cases h
    · rw [h]
      intro h
      cases h

section Claim

variable {peers : Slot → PeerList} {partner : Slot → Option Slot} {s₀ s : OpenState}

theorem openOk_of_reachableBy (hpeers : PeersPaired peers partner) (hstart : Start partner s₀)
    (h : ReachableBy (OpenStep peers) UsesOpened s₀ s) : OpenOk partner s :=
  h.invariant hstart.openOk fun _ _ _ _ hi hgood hstep => hi.step hpeers hgood hstep

/-- In a run in which no call goes through the descriptor of a file that is still being
opened, the file such a call would reach has the fields its maker gave it, and neither
`fileread` nor `filewrite` gets to its last panic. -/
theorem reached_files_settled (hpeers : PeersPaired peers partner) (hstart : Start partner s₀)
    (h : ReachableBy (OpenStep peers) UsesOpened s₀ s) {p : Slot} {fd : ℤ} {n : Fd} {f : FileIdx}
    (hfd : argfd s.tables p fd = some (n, f)) (hopened : ¬s.BeingOpened f) :
    s.Settled f ∧ ((s.files f).type = .inode ∨ (s.files f).type = .pipe) ∧
      (∀ r, call peers s p fd (.read r) ≠ .error .fileread) ∧
      ∀ k i r, call peers s p fd (.write k i r) ≠ .error .filewrite := by
  have hi := openOk_of_reachableBy hpeers hstart h
  have hsettled := hi.window.settled p n f (argfd_some hfd) hopened
  obtain ⟨m, -, hgave⟩ := hsettled
  have htype := Maker.gave_type hgave
  refine ⟨hi.window.settled p n f (argfd_some hfd) hopened, htype, ?_, ?_⟩
  · intro r hcall
    simp only [call, hfd] at hcall
    cases hread : fileread (s.files f) r with
    | error e =>
      rw [hread] at hcall
      cases hcall
      exact fileread_ne_panic htype r hread
    | ok y =>
      rw [hread] at hcall
      cases hcall
  · intro k i r hcall
    simp only [call, hfd] at hcall
    cases hwrite : filewrite (s.files f) k i r with
    | error e =>
      rw [hwrite] at hcall
      cases hcall
      exact filewrite_ne_panic htype k i r hwrite
    | ok y =>
      rw [hwrite] at hcall
      cases hcall

end Claim

/-- `init` and its first thread. -/
def twoSharers (q : Slot) : Option Slot := if q = 0 then some 1 else if q = 1 then some 0 else none

/-- No file is open. -/
def nothingOpen : OpenState := ⟨fun _ _ => none, fun _ => {}, fun _ => .idle, fun _ => none⟩

theorem peersPaired_twoSharers : PeersPaired (fun q _ => twoSharers q) twoSharers := by
  refine ⟨fun _ _ => rfl, ?_, ?_⟩
  · rw [Mutual]
    decide
  · decide

theorem start_nothingOpen (partner : Slot → Option Slot) : Start partner nothingOpen where
  idle _ := rfl
  agree _ _ _ := rfl
  refs f := by simp [pairWeight, held, nothingOpen]
  settled _ _ _ h := nomatch h

/-- A thread uses the file `init` has opened. -/
theorem reached_files_settled_thread : ∃ s : OpenState,
    ReachableBy (OpenStep fun q _ => twoSharers q) UsesOpened nothingOpen s ∧
      argfd s.tables 1 0 = some (0, 0) ∧ s.Settled 0 := by
  have hrun : ∃ s : OpenState,
      ReachableBy (OpenStep fun q _ => twoSharers q) UsesOpened nothingOpen s ∧
        argfd s.tables 1 0 = some (0, 0) ∧ ¬s.BeingOpened 0 :=
    exists_reachableBy
      (openEvents 0 5 0) (by decide +kernel)
  obtain ⟨s, hreach, hfd, hopened⟩ := hrun
  exact ⟨s, hreach, hfd,
    (reached_files_settled peersPaired_twoSharers (start_nothingOpen _) hreach hfd hopened).1⟩

/-- The thread reads a descriptor that `init` has just published, of a file whose entry
an earlier open left readable. -/
theorem thread_reads_half_open_file : ∃ s : OpenState,
    Reachable (OpenStep fun q _ => twoSharers q) nothingOpen s ∧
      argfd s.tables 1 0 = some (0, 0) ∧ (s.files 0).type = .none ∧ s.phase 1 = .idle ∧
      ∀ r, call (fun q _ => twoSharers q) s 1 0 (.read r) = .error .fileread := by
  have hrun : ∃ s : OpenState, Reachable (OpenStep fun q _ => twoSharers q) nothingOpen s ∧
      argfd s.tables 1 0 = some (0, 0) ∧ (s.files 0).type = .none ∧ s.phase 1 = .idle ∧
        (s.files 0).readable = true :=
    exists_reachableBy
      (openEvents 0 5 0 ++ [.call 0 0 .close, .filealloc 0 5 0, .fdalloc 0]) (by decide +kernel)
  obtain ⟨s, hreach, hfd, htype, hidle, hreadable⟩ := hrun
  refine ⟨s, hreach, hfd, htype, hidle, ?_⟩
  intro r
  simp [call, hfd, fileread, hreadable, htype, Except.map]

end Xv6Threads.Opening
