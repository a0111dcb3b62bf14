/-
# Uses of buffers and their contents

Two more groups of facts hold in every state the cache reaches, besides those of
the ring. The counters and sleep locks match the uses under way. What is valid is
current, unless its holder is changing it, and what is not dirty is on disk.
-/

import Xv6Threads.Bio.Ring
import Xv6Threads.Lib.PairedCells

namespace Xv6Threads.Bio

open Xv6Threads.Lib Xv6Threads.Log
open Function (update update_of_ne update_self)

variable {U : Type} {disk : BlockAddr → Block} {l : List (Fin NBUF)}
variable {s s' : Cache U} {u v : U} {a : BlockAddr} {b c : Fin NBUF} {x : Buf U} {ph : Phase}

theorem Phase.buf_of_lock {ph : Phase} (h : ph.lock = some b) : ph.buf = some b := by
  cases ph with
  | locked _ _ => exact h
  | holding _ _ _ => exact h
  | _ => cases h

/-! ## Contents -/

/-- The contents last given to a block, or those the disk had at the start. -/
def Cache.current (disk : BlockAddr → Block) (s : Cache U) (a : BlockAddr) : Block :=
  (s.given a).getD (disk a)

structure ContentsOk (disk : BlockAddr → Block) (s : Cache U) : Prop where
  holding : ∀ u a b ch, s.phase u = .holding a b ch → (s.buf b).valid = true
  dirty : ∀ b, (s.buf b).dirty = true → (s.buf b).valid = true
  data : ∀ b, (s.buf b).valid = true → (∀ u a, s.phase u ≠ .holding a b true) →
    (s.buf b).data = s.current disk (s.buf b).addr
  synced : ∀ a, (∀ b, (s.buf b).addr = a → (s.buf b).dirty = false) → s.disk a = s.current disk a

theorem contentsOk_init : ContentsOk disk (Cache.init U disk) where
  holding _ _ _ _ h := nomatch h
  dirty _ h := nomatch h
  data _ h := nomatch h
  synced _ _ := rfl

/-! ## Uses -/

section Uses

variable [Fintype U]

/-- The uses between `bget` and the end of `brelse` for a buffer. -/
def Cache.users (s : Cache U) (b : Fin NBUF) : Finset U :=
  Finset.univ.filter fun u => (s.phase u).buf = some b

structure UsersOk (s : Cache U) : Prop where
  refs : ∀ b, (s.buf b).refcnt = (s.users b).card
  lock : ∀ b u, (s.buf b).lock = some u ↔ (s.phase u).lock = some b
  addr : ∀ u a b, (s.phase u).addr = some a → (s.phase u).buf = some b → (s.buf b).addr = a

theorem usersOk_init (disk : BlockAddr → Block) : UsersOk (Cache.init U disk) where
  refs _ := by simp [Cache.init, Cache.users, Phase.buf]
  lock _ _ := by simp [Cache.init, Phase.lock]
  addr _ _ _ h := nomatch h

theorem UsersOk.refcnt_pos (hi : UsersOk s) (hu : (s.phase u).buf = some b) :
    0 < (s.buf b).refcnt := by
  rw [hi.refs]
  apply Finset.card_pos.mpr
  exact ⟨u, by simpa [Cache.users] using hu⟩

/-- Nobody is at a buffer with no references. -/
theorem UsersOk.not_at (hi : UsersOk s) (hb : (s.buf b).refcnt = 0) (v : U) :
    (s.phase v).buf ≠ some b := by
  intro hv
  have hpos := hi.refcnt_pos hv
  omega

/-- Whoever has the lock of a buffer has it alone. -/
theorem UsersOk.lock_unique (hi : UsersOk s) (hu : (s.phase u).lock = some b)
    (hv : (s.phase v).lock = some b) : v = u := by
  have h := (hi.lock b v).mpr hv
  rw [(hi.lock b u).mpr hu] at h
  exact (Option.some.inj h).symm

structure CacheOk (disk : BlockAddr → Block) (s : Cache U) : Prop where
  ring : ∃ l, RingOk s l
  users : UsersOk s
  contents : ContentsOk disk s

/-- The disk has the current contents of a block whose locked buffer is clean. -/
theorem CacheOk.synced (hi : CacheOk disk s) (hu : (s.phase u).lock = some b)
    (hclean : (s.buf b).dirty = false) :
    s.disk (s.buf b).addr = s.current disk (s.buf b).addr := by
  obtain ⟨l, hring⟩ := hi.ring
  apply hi.contents.synced
  intro c hc
  by_cases hcb : c = b
  · rw [hcb, hclean]
  · exact (hring.untouched (hi.users.refcnt_pos (Phase.buf_of_lock hu)) hcb hc).dirty

/-- A valid buffer is current while a use that changes nothing has its lock. -/
theorem CacheOk.data (hi : CacheOk disk s) (hu : s.phase u = .locked a b)
    (hvalid : (s.buf b).valid = true) :
    (s.buf b).data = s.current disk (s.buf b).addr := by
  apply hi.contents.data b hvalid
  intro v a' hv
  have hlock : (s.phase u).lock = some b := by rw [hu]; rfl
  have hvu : v = u := hi.users.lock_unique hlock (by rw [hv]; rfl)
  rw [hvu, hu] at hv
  cases hv

end Uses

/-! ## Steps -/

variable [DecidableEq U]

/-- `bwrite` by the holder of the lock. -/
theorem bwrite_eq (hlock : (s.buf b).lock = some u) :
    bwrite s u b = .ok { s with
      buf := update s.buf b { s.buf b with valid := true, dirty := false }
      disk := update s.disk (s.buf b).addr (s.buf b).data
      given := update s.given (s.buf b).addr (some (s.buf b).data) } := by
  rw [bwrite, if_neg (not_not.mpr hlock), iderw]
  simp [Cache.setBuf, Cache.give, hlock]

/-- A step of one use, at one buffer. -/
structure Touched (s s' : Cache U) (u : U) (b : Fin NBUF) (x : Buf U) (ph : Phase) : Prop where
  buf : s'.buf = update s.buf b x
  phase : s'.phase = update s.phase u ph
  before : ∀ c, (s.phase u).buf = some c → c = b
  after : ∀ c, ph.buf = some c → c = b

/-- A use already at its buffer stays at it, or leaves it for none. -/
theorem Touched.of_at (hbuf : s'.buf = update s.buf b x)
    (hphase : s'.phase = update s.phase u ph) (hu : (s.phase u).buf = some b)
    (hph : ph.buf = some b ∨ ph.buf = none) : Touched s s' u b x ph where
  buf := hbuf
  phase := hphase
  before c hc := Option.some.inj (hc.symm.trans hu)
  after c hc := by
    rcases hph with hph | hph
    · exact Option.some.inj (hc.symm.trans hph)
    · exact absurd (hc.symm.trans hph) (Option.some_ne_none c)

/-- A use that begins. -/
theorem Touched.of_idle (hbuf : s'.buf = update s.buf b x)
    (hphase : s'.phase = update s.phase u (.waiting a b)) (hu : s.phase u = .idle) :
    Touched s s' u b x (.waiting a b) where
  buf := hbuf
  phase := hphase
  before c hc := by
    rw [hu] at hc
    cases hc
  after c hc := (Option.some.inj hc).symm

theorem Touched.buf_self (h : Touched s s' u b x ph) : s'.buf b = x := by
  rw [h.buf, update_self]

theorem Touched.buf_of_ne (h : Touched s s' u b x ph) (hc : c ≠ b) : s'.buf c = s.buf c := by
  rw [h.buf, update_of_ne hc]

theorem Touched.addr_eq (h : Touched s s' u b x ph) (hx : x.addr = (s.buf b).addr)
    (c : Fin NBUF) : (s'.buf c).addr = (s.buf c).addr := by
  by_cases hc : c = b
  · rw [hc, h.buf_self, hx]
  · rw [h.buf_of_ne hc]

theorem Touched.phase_self (h : Touched s s' u b x ph) : s'.phase u = ph := by
  rw [h.phase, update_self]

theorem Touched.phase_of_ne (h : Touched s s' u b x ph) (hv : v ≠ u) :
    s'.phase v = s.phase v := by
  rw [h.phase, update_of_ne hv]

/-- Steps that leave flags, data and addresses alone, and nobody with a change
to write. -/
theorem ContentsOk.kept (hi : ContentsOk disk s) (ht : Touched s s' u b x ph)
    (hvalid : x.valid = (s.buf b).valid) (hdirty : x.dirty = (s.buf b).dirty)
    (hdata : x.data = (s.buf b).data) (haddr : x.addr = (s.buf b).addr)
    (hdisk : s'.disk = s.disk) (hgiven : s'.given = s.given)
    (hu : ∀ a b, s.phase u ≠ .holding a b true) (hph : ∀ a b ch, ph ≠ .holding a b ch) :
    ContentsOk disk s' := by
  have hbuf : ∀ c, (s'.buf c).valid = (s.buf c).valid ∧ (s'.buf c).dirty = (s.buf c).dirty ∧
      (s'.buf c).data = (s.buf c).data ∧ (s'.buf c).addr = (s.buf c).addr := by
    intro c
    by_cases hc : c = b
    · rw [hc, ht.buf_self]
      exact ⟨hvalid, hdirty, hdata, haddr⟩
    · rw [ht.buf_of_ne hc]
      exact ⟨rfl, rfl, rfl, rfl⟩
  have hcurrent : s'.current disk = s.current disk := by
    funext a
    rw [Cache.current, Cache.current, hgiven]
  constructor
  case holding =>
    intro v a c ch hv
    rw [(hbuf c).1]
    have hvu : v ≠ u := by
      rintro rfl
      rw [ht.phase_self] at hv
      exact hph a c ch hv
    rw [ht.phase_of_ne hvu] at hv
    exact hi.holding v a c ch hv
  case dirty =>
    intro c hc
    rw [(hbuf c).2.1] at hc
    rw [(hbuf c).1]
    exact hi.dirty c hc
  case data =>
    intro c hc hnone
    rw [(hbuf c).1] at hc
    rw [(hbuf c).2.2.1, (hbuf c).2.2.2, hcurrent]
    apply hi.data c hc
    intro v a' hv
    by_cases hvu : v = u
    · exact hu a' c (hvu ▸ hv)
    · exact hnone v a' (by rw [ht.phase_of_ne hvu, hv])
  case synced =>
    intro a' hclean
    rw [hdisk, hcurrent]
    apply hi.synced a'
    intro c hc
    rw [← (hbuf c).2.1]
    exact hclean c ((hbuf c).2.2.2.trans hc)

variable [Fintype U]

theorem UsersOk.touched (hi : UsersOk s) (ht : Touched s s' u b x ph)
    (hrefs : x.refcnt + (if (s.phase u).buf = some b then 1 else 0) =
      (s.buf b).refcnt + (if ph.buf = some b then 1 else 0))
    (hlock : ∀ v, x.lock = some v ↔
      if v = u then ph.lock = some b else (s.phase v).lock = some b)
    (haddr : ∀ v a, v ≠ u → (s.phase v).addr = some a → (s.phase v).buf = some b → x.addr = a)
    (hself : ∀ a, ph.addr = some a → x.addr = a) : UsersOk s' := by
  constructor
  case refs =>
    intro c
    have hcount : (s'.users c).card + (if (s.phase u).buf = some c then 1 else 0) =
        (s.users c).card + (if (s'.phase u).buf = some c then 1 else 0) := by
      refine card_filter_change_one (p := fun v => (s'.phase v).buf = some c)
        (q := fun v => (s.phase v).buf = some c) ?_
      intro v hv
      rw [ht.phase_of_ne hv]
    rw [ht.phase_self] at hcount
    by_cases hc : c = b
    · rw [hc] at hcount ⊢
      rw [ht.buf_self]
      have hold := hi.refs b
      omega
    · have hu : (s.phase u).buf ≠ some c := fun h => hc (ht.before c h)
      have hph : ph.buf ≠ some c := fun h => hc (ht.after c h)
      rw [if_neg hu, if_neg hph] at hcount
      rw [ht.buf_of_ne hc, hi.refs]
      exact hcount.symm
  case lock =>
    intro c v
    by_cases hc : c = b
    · rw [hc, ht.buf_self, hlock]
      by_cases hv : v = u
      · rw [if_pos hv, hv, ht.phase_self]
      · rw [if_neg hv, ht.phase_of_ne hv]
    · rw [ht.buf_of_ne hc, hi.lock]
      by_cases hv : v = u
      · rw [hv, ht.phase_self]
        constructor
        · exact fun h => absurd (ht.before c (Phase.buf_of_lock h)) hc
        · exact fun h => absurd (ht.after c (Phase.buf_of_lock h)) hc
      · rw [ht.phase_of_ne hv]
  case addr =>
    intro v a' c hva hvc
    by_cases hv : v = u
    · rw [hv, ht.phase_self] at hva hvc
      rw [ht.after c hvc, ht.buf_self]
      exact hself a' hva
    · rw [ht.phase_of_ne hv] at hva hvc
      by_cases hc : c = b
      · rw [hc, ht.buf_self]
        exact haddr v a' hv hva (hc ▸ hvc)
      · rw [ht.buf_of_ne hc]
        exact hi.addr v a' c hva hvc

/-- The lock of a buffer stays with whom it was. -/
theorem UsersOk.lock_kept (hi : UsersOk s) (hph : ph.lock = (s.phase u).lock) (v : U) :
    (s.buf b).lock = some v ↔
      if v = u then ph.lock = some b else (s.phase v).lock = some b := by
  rw [hi.lock]
  split_ifs with hv
  · rw [hv, hph]
  · rfl

/-- A step inside a use, with the lock held before and after. -/
theorem UsersOk.inside (hi : UsersOk s) (ht : Touched s s' u b x ph)
    (hu : (s.phase u).lock = some b) (hph : ph.lock = some b)
    (haddr : ph.addr = (s.phase u).addr) (hrefcnt : x.refcnt = (s.buf b).refcnt)
    (hlock : x.lock = (s.buf b).lock) (hxaddr : x.addr = (s.buf b).addr) : UsersOk s' := by
  have hat := Phase.buf_of_lock hu
  apply hi.touched ht
  case hrefs => rw [if_pos hat, if_pos (Phase.buf_of_lock hph), hrefcnt]
  case hlock => exact hlock ▸ hi.lock_kept (hph.trans hu.symm)
  case haddr =>
    intro v a' _ hva hvb
    rw [hxaddr]
    exact hi.addr v a' b hva hvb
  case hself =>
    intro a' ha
    rw [hxaddr]
    exact hi.addr u a' b (haddr ▸ ha) hat

/-- A buffer given to another block, by a use that has yet to lock it. -/
theorem ContentsOk.recycled (hi : ContentsOk disk s) (husers : UsersOk s)
    (ht : Touched s s' u b x ph) (hfree : (s.buf b).refcnt = 0) (hclean : (s.buf b).dirty = false)
    (hvalid : x.valid = false) (hdirty : x.dirty = false)
    (hdisk : s'.disk = s.disk) (hgiven : s'.given = s.given)
    (hu : s.phase u = .idle) (hph : ∀ a b ch, ph ≠ .holding a b ch) :
    ContentsOk disk s' := by
  have hcurrent : s'.current disk = s.current disk := by
    funext a
    rw [Cache.current, Cache.current, hgiven]
  constructor
  case holding =>
    intro v a c ch hv
    have hvu : v ≠ u := by
      rintro rfl
      rw [ht.phase_self] at hv
      exact hph a c ch hv
    rw [ht.phase_of_ne hvu] at hv
    have hc : c ≠ b := by
      rintro rfl
      exact husers.not_at hfree v (by rw [hv]; rfl)
    rw [ht.buf_of_ne hc]
    exact hi.holding v a c ch hv
  case dirty =>
    intro c hc
    by_cases hcb : c = b
    · rw [hcb, ht.buf_self, hdirty] at hc
      cases hc
    · rw [ht.buf_of_ne hcb] at hc ⊢
      exact hi.dirty c hc
  case data =>
    intro c hc hnone
    by_cases hcb : c = b
    · rw [hcb, ht.buf_self, hvalid] at hc
      cases hc
    · rw [ht.buf_of_ne hcb] at hc ⊢
      rw [hcurrent]
      apply hi.data c hc
      intro v a' hv
      have hvu : v ≠ u := by
        rintro rfl
        rw [hu] at hv
        cases hv
      exact hnone v a' (by rw [ht.phase_of_ne hvu, hv])
  case synced =>
    intro a' hall
    rw [hdisk, hcurrent]
    apply hi.synced a'
    intro c hc
    by_cases hcb : c = b
    · rw [hcb, hclean]
    · rw [← ht.buf_of_ne hcb]
      exact hall c (by rw [ht.buf_of_ne hcb, hc])

/-- What the holder of a buffer may do to it. -/
theorem ContentsOk.held {ch : Bool} (hi : ContentsOk disk s) (hring : RingOk s l)
    (husers : UsersOk s) (ht : Touched s s' u b x (.holding a b ch))
    (hu : (s.phase u).lock = some b) (haddr : x.addr = (s.buf b).addr) (hvalid : x.valid = true)
    (hdisk : ∀ a', a' ≠ (s.buf b).addr → s'.disk a' = s.disk a')
    (hgiven : ∀ a', a' ≠ (s.buf b).addr → s'.given a' = s.given a')
    (hdata : ch = false → x.data = s'.current disk (s.buf b).addr)
    (hclean : x.dirty = false → s'.disk (s.buf b).addr = s'.current disk (s.buf b).addr) :
    ContentsOk disk s' := by
  have hcurrent : ∀ a', a' ≠ (s.buf b).addr → s'.current disk a' = s.current disk a' := by
    intro a' ha'
    rw [Cache.current, Cache.current, hgiven a' ha']
  have hother : ∀ v c a' ch', s'.phase v = .holding a' c ch' → c ≠ b →
      s.phase v = .holding a' c ch' := by
    intro v c a' ch' hv hc
    have hvu : v ≠ u := by
      rintro rfl
      rw [ht.phase_self] at hv
      cases hv
      exact hc rfl
    rw [← ht.phase_of_ne hvu, hv]
  constructor
  case holding =>
    intro v a' c ch' hv
    by_cases hc : c = b
    · rw [hc, ht.buf_self, hvalid]
    · rw [ht.buf_of_ne hc]
      exact hi.holding v a' c ch' (hother v c a' ch' hv hc)
  case dirty =>
    intro c hc
    by_cases hcb : c = b
    · rw [hcb, ht.buf_self, hvalid]
    · rw [ht.buf_of_ne hcb] at hc ⊢
      exact hi.dirty c hc
  case data =>
    intro c hc hnone
    by_cases hcb : c = b
    · subst hcb
      rw [ht.buf_self, haddr]
      apply hdata
      by_contra hch
      rw [Bool.not_eq_false] at hch
      exact hnone u a (by rw [ht.phase_self, hch])
    · rw [ht.buf_of_ne hcb] at hc ⊢
      -- a second buffer of the block would be untouched, hence not valid
      have hne : (s.buf c).addr ≠ (s.buf b).addr := by
        intro heq
        have hfresh := hring.untouched (husers.refcnt_pos (Phase.buf_of_lock hu)) hcb heq
        rw [hfresh.valid] at hc
        cases hc
      rw [hcurrent _ hne]
      apply hi.data c hc
      intro v a' hv
      have hvu : v ≠ u := by
        rintro rfl
        have hlock : (s.phase v).lock = some c := by rw [hv]; rfl
        rw [hu] at hlock
        exact hcb (Option.some.inj hlock).symm
      exact hnone v a' (by rw [ht.phase_of_ne hvu, hv])
  case synced =>
    intro a' hall
    by_cases ha' : a' = (s.buf b).addr
    · subst ha'
      apply hclean
      rw [← ht.buf_self]
      exact hall b (by rw [ht.buf_self, haddr])
    · rw [hdisk a' ha', hcurrent a' ha']
      apply hi.synced a'
      intro c hc
      have hcb : c ≠ b := by
        rintro rfl
        exact ha' hc.symm
      rw [← ht.buf_of_ne hcb]
      exact hall c (by rw [ht.buf_of_ne hcb, hc])

end Xv6Threads.Bio
