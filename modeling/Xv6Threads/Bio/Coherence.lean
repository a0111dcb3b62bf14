/-
# Coherence of the buffer cache

Each step of the cache keeps the facts about the ring, the uses and the contents,
so every state reached has them. The contents `bread` returns follow: the buffer
is the only one of its block that was ever filled, and it is either current or
about to be read from a disk that is.
-/

import Xv6Threads.Bio.Uses

namespace Xv6Threads.Bio

open Xv6Threads.Lib Xv6Threads.Log
open Function (update update_eq_self update_of_ne update_self)

variable {U : Type} [DecidableEq U] [Fintype U] {disk : BlockAddr → Block} {l : List (Fin NBUF)}
variable {s s' : Cache U} {u v : U} {a : BlockAddr} {b c : Fin NBUF} {x : Buf U} {ph : Phase}

/-! ## What the steps do -/

/-- The effects of a step. -/
inductive CacheEffect (s : Cache U) : CacheEvent U → Cache U → Prop
  | hit {u : U} {a : BlockAddr} {b : Fin NBUF} {l₁ l₂ : List (Fin NBUF)}
      (hu : s.phase u = .idle) (hring : RingOk s (l₁ ++ b :: l₂)) (ha : (s.buf b).addr = a)
      (hfirst : ∀ c ∈ l₁, (s.buf c).addr ≠ a) :
      CacheEffect s (.bget u a)
        ((s.setBuf b { s.buf b with refcnt := (s.buf b).refcnt + 1 }).setPhase u (.waiting a b))
  | recycled {u : U} {a : BlockAddr} {b : Fin NBUF} (hu : s.phase u = .idle)
      (hmiss : ∀ c, (s.buf c).addr ≠ a) (hfree : (s.buf b).refcnt = 0)
      (hclean : (s.buf b).dirty = false) :
      CacheEffect s (.bget u a)
        ((s.setBuf b
          { s.buf b with addr := a, valid := false, dirty := false, refcnt := 1 }).setPhase u
            (.waiting a b))
  | acquired {u : U} {a : BlockAddr} {b : Fin NBUF} (hu : s.phase u = .waiting a b)
      (hlock : (s.buf b).lock = none) :
      CacheEffect s (.acquiresleep u)
        ((s.setBuf b { s.buf b with lock := some u }).setPhase u (.locked a b))
  | cached {u : U} {a : BlockAddr} {b : Fin NBUF} (hu : s.phase u = .locked a b)
      (hvalid : (s.buf b).valid = true) :
      CacheEffect s (.bread u) (s.setPhase u (.holding a b false))
  | fetched {u : U} {a : BlockAddr} {b : Fin NBUF} (hu : s.phase u = .locked a b)
      (hvalid : (s.buf b).valid = false) (hclean : (s.buf b).dirty = false) :
      CacheEffect s (.bread u)
        ((s.setBuf b
          { s.buf b with valid := true, data := s.disk (s.buf b).addr }).setPhase u
            (.holding a b false))
  | changed {u : U} {a : BlockAddr} {b : Fin NBUF} {ch : Bool} {data : Block}
      (hu : s.phase u = .holding a b ch) :
      CacheEffect s (.change u data)
        ((s.setBuf b { s.buf b with data := data }).setPhase u (.holding a b true))
  | logged {u : U} {a : BlockAddr} {b : Fin NBUF} {ch : Bool} (hu : s.phase u = .holding a b ch) :
      CacheEffect s (.logWrite u) ((logWrite s b).setPhase u (.holding a b false))
  | written {u : U} {a : BlockAddr} {b : Fin NBUF} {ch : Bool} (hu : s.phase u = .holding a b ch) :
      CacheEffect s (.bwrite u)
        { s with
          buf := update s.buf b { s.buf b with valid := true, dirty := false }
          disk := update s.disk (s.buf b).addr (s.buf b).data
          given := update s.given (s.buf b).addr (some (s.buf b).data)
          phase := update s.phase u (.holding a b false) }
  | unlocked {u : U} {a : BlockAddr} {b : Fin NBUF} (hu : s.phase u = .holding a b false) :
      CacheEffect s (.releasesleep u)
        ((s.setBuf b { s.buf b with lock := none }).setPhase u (.leaving b))
  | left {u : U} {b : Fin NBUF} (hu : s.phase u = .leaving b)
      (hmore : (s.buf b).refcnt - 1 ≠ 0) :
      CacheEffect s (.brelse u)
        ((s.setBuf b { s.buf b with refcnt := (s.buf b).refcnt - 1 }).setPhase u .idle)
  | last {u : U} {b : Fin NBUF} (hu : s.phase u = .leaving b)
      (hlast : (s.buf b).refcnt - 1 = 0) :
      CacheEffect s (.brelse u)
        { s with
          buf := update s.buf b { s.buf b with refcnt := (s.buf b).refcnt - 1 }
          links := (s.links.unlink (some b)).pushFront none (some b)
          phase := update s.phase u .idle }

/-- `bread` once the buffer is locked. -/
theorem CacheOk.bread_effect (hi : CacheOk disk s) (hu : s.phase u = .locked a b) :
    ∃ s', CacheStep s (.bread u) s' ∧ CacheEffect s (.bread u) s' := by
  have hlock : (s.buf b).lock = some u := (hi.users.lock b u).mpr (by rw [hu]; rfl)
  cases hvalid : (s.buf b).valid with
  | true =>
    refine ⟨_, ?_, .cached hu hvalid⟩
    simp [CacheStep, cacheNext, hu, bread, hvalid, Except.toOption]
  | false =>
    have hclean : (s.buf b).dirty = false := by
      by_contra hdirty
      rw [Bool.not_eq_false] at hdirty
      rw [hi.contents.dirty b hdirty] at hvalid
      cases hvalid
    refine ⟨_, ?_, .fetched hu hvalid hclean⟩
    simp [CacheStep, cacheNext, hu, bread, hvalid, iderw, hlock, hclean, Except.toOption]

theorem CacheOk.effect {e : CacheEvent U} (hi : CacheOk disk s) (h : CacheStep s e s') :
    CacheEffect s e s' := by
  cases e with
  | bget u a =>
    obtain ⟨l, hring⟩ := hi.ring
    rw [CacheStep, cacheNext] at h
    split_ifs at h with hu
    cases hget : bget s a with
    | error f =>
      rw [hget] at h
      cases h
    | ok r =>
      rw [hget] at h
      cases h
      obtain ⟨b, t⟩ := r
      rcases hring.bget_ok hget with
        ⟨l₁, l₂, rfl, ha, hfirst, rfl⟩ | ⟨hmiss, hfree, hclean, rfl⟩
      · exact .hit hu hring ha hfirst
      · exact .recycled hu hmiss hfree hclean
  | acquiresleep u =>
    rw [CacheStep, cacheNext] at h
    split at h
    · rename_i a b hu
      split_ifs at h with hlock
      cases h
      exact .acquired hu hlock
    · cases h
  | bread u =>
    have hlocked : ∃ a b, s.phase u = .locked a b := by
      rw [CacheStep, cacheNext] at h
      split at h
      · rename_i a b hu
        exact ⟨a, b, hu⟩
      · cases h
    obtain ⟨a, b, hu⟩ := hlocked
    obtain ⟨t, hstep, heffect⟩ := hi.bread_effect hu
    rw [CacheStep, hstep] at h
    rwa [← Option.some.inj h]
  | change u data =>
    rw [CacheStep, cacheNext] at h
    split at h
    · rename_i a b ch hu
      cases h
      exact .changed hu
    · cases h
  | logWrite u =>
    rw [CacheStep, cacheNext] at h
    split at h
    · rename_i a b ch hu
      cases h
      exact .logged hu
    · cases h
  | bwrite u =>
    rw [CacheStep, cacheNext] at h
    split at h
    · rename_i a b ch hu
      rw [bwrite_eq ((hi.users.lock b u).mpr (by rw [hu]; rfl))] at h
      cases h
      exact .written hu
    · cases h
  | releasesleep u =>
    rw [CacheStep, cacheNext] at h
    split at h
    · rename_i a b hu
      have hlock : (s.buf b).lock = some u := (hi.users.lock b u).mpr (by rw [hu]; rfl)
      rw [brelseLock, if_neg (not_not.mpr hlock)] at h
      cases h
      exact .unlocked hu
    · cases h
  | brelse u =>
    rw [CacheStep, cacheNext] at h
    split at h
    · rename_i b hu
      cases h
      rw [brelse]
      simp only [Cache.setBuf, update_self]
      split_ifs with hlast
      · exact .last hu hlast
      · exact .left hu hlast
    · cases h

/-! ## Every step -/

theorem CacheOk.hit {l₁ l₂ : List (Fin NBUF)} (hi : CacheOk disk s) (hu : s.phase u = .idle)
    (hring : RingOk s (l₁ ++ b :: l₂)) (hfirst : ∀ c ∈ l₁, (s.buf c).addr ≠ (s.buf b).addr)
    (ht : Touched s s' u b { s.buf b with refcnt := (s.buf b).refcnt + 1 }
      (.waiting (s.buf b).addr b))
    (hlinks : s'.links = s.links) (hdisk : s'.disk = s.disk) (hgiven : s'.given = s.given) :
    CacheOk disk s' := by
  constructor
  case ring =>
    exact ⟨_, hring.hit hlinks hfirst (ht.addr_eq rfl) fun _ hc => ht.buf_of_ne hc⟩
  case users =>
    apply hi.users.touched ht
    case hrefs => simp [hu, Phase.buf]
    case hlock => exact hi.users.lock_kept (by rw [hu]; rfl)
    case haddr => exact fun v a' _ => hi.users.addr v a' b
    case hself => exact fun _ h => Option.some.inj h
  case contents =>
    apply hi.contents.kept ht rfl rfl rfl rfl hdisk hgiven
    · rw [hu]
      exact fun _ _ => Phase.noConfusion
    · exact fun _ _ _ => Phase.noConfusion

theorem CacheOk.recycled (hi : CacheOk disk s) (hu : s.phase u = .idle)
    (hmiss : ∀ c, (s.buf c).addr ≠ a) (hfree : (s.buf b).refcnt = 0)
    (hclean : (s.buf b).dirty = false)
    (ht : Touched s s' u b
      { s.buf b with addr := a, valid := false, dirty := false, refcnt := 1 } (.waiting a b))
    (hlinks : s'.links = s.links) (hdisk : s'.disk = s.disk) (hgiven : s'.given = s.given) :
    CacheOk disk s' := by
  constructor
  case ring =>
    obtain ⟨l, hring⟩ := hi.ring
    refine ⟨l, hring.recycled hlinks ?_ fun _ hc => ht.buf_of_ne hc⟩
    rw [ht.buf_self]
    exact hmiss
  case users =>
    apply hi.users.touched ht
    case hrefs => simp [hu, hfree, Phase.buf]
    case hlock => exact hi.users.lock_kept (by rw [hu]; rfl)
    case haddr => exact fun v _ _ _ hv => absurd hv (hi.users.not_at hfree v)
    case hself => exact fun _ h => Option.some.inj h
  case contents =>
    apply hi.contents.recycled hi.users ht hfree hclean rfl rfl hdisk hgiven hu
    exact fun _ _ _ => Phase.noConfusion

/-- A use that stays at its buffer leaves the ring as it is. -/
theorem RingOk.touched (hi : RingOk s l) (husers : UsersOk s) (ht : Touched s s' u b x ph)
    (hu : (s.phase u).buf = some b) (hlinks : s'.links = s.links)
    (haddr : x.addr = (s.buf b).addr) : RingOk s' l := by
  apply hi.kept hlinks (ht.addr_eq haddr)
  · intro c hc
    apply ht.buf_of_ne
    rintro rfl
    have hpos := husers.refcnt_pos hu
    rw [hc.refcnt] at hpos
    exact absurd hpos (Nat.lt_irrefl 0)

/-- What the holder of a buffer does keeps all three groups. -/
theorem CacheOk.held {ch : Bool} (hi : CacheOk disk s) (ht : Touched s s' u b x (.holding a b ch))
    (hu : (s.phase u).lock = some b) (ha : (s.phase u).addr = some a)
    (hlinks : s'.links = s.links) (hrefcnt : x.refcnt = (s.buf b).refcnt)
    (hlock : x.lock = (s.buf b).lock) (haddr : x.addr = (s.buf b).addr) (hvalid : x.valid = true)
    (hdisk : ∀ a', a' ≠ (s.buf b).addr → s'.disk a' = s.disk a')
    (hgiven : ∀ a', a' ≠ (s.buf b).addr → s'.given a' = s.given a')
    (hdata : ch = false → x.data = s'.current disk (s.buf b).addr)
    (hclean : x.dirty = false → s'.disk (s.buf b).addr = s'.current disk (s.buf b).addr) :
    CacheOk disk s' := by
  obtain ⟨l, hring⟩ := hi.ring
  constructor
  case ring => exact ⟨l, hring.touched hi.users ht (Phase.buf_of_lock hu) hlinks haddr⟩
  case users => exact hi.users.inside ht hu rfl ha.symm hrefcnt hlock haddr
  case contents =>
    exact hi.contents.held hring hi.users ht hu haddr hvalid hdisk hgiven hdata hclean

theorem CacheOk.acquired (hi : CacheOk disk s) (hu : s.phase u = .waiting a b)
    (hlock : (s.buf b).lock = none)
    (ht : Touched s s' u b { s.buf b with lock := some u } (.locked a b))
    (hlinks : s'.links = s.links) (hdisk : s'.disk = s.disk) (hgiven : s'.given = s.given) :
    CacheOk disk s' := by
  have hat : (s.phase u).buf = some b := by rw [hu]; rfl
  obtain ⟨l, hring⟩ := hi.ring
  constructor
  case ring => exact ⟨l, hring.touched hi.users ht hat hlinks rfl⟩
  case users =>
    apply hi.users.touched ht
    case hrefs => simp [hu, Phase.buf]
    case hlock =>
      intro v
      split_ifs with hv
      · simp [hv, Phase.lock]
      · rw [← hi.users.lock, hlock]
        simpa using fun h : u = v => hv h.symm
    case haddr => exact fun v a' _ => hi.users.addr v a' b
    case hself =>
      intro a' ha'
      exact hi.users.addr u a' b (by rw [hu]; exact ha') hat
  case contents =>
    apply hi.contents.kept ht rfl rfl rfl rfl hdisk hgiven
    · rw [hu]
      exact fun _ _ => Phase.noConfusion
    · exact fun _ _ _ => Phase.noConfusion

theorem CacheOk.unlocked (hi : CacheOk disk s) (hu : s.phase u = .holding a b false)
    (ht : Touched s s' u b { s.buf b with lock := none } (.leaving b))
    (hlinks : s'.links = s.links) (hdisk : s'.disk = s.disk) (hgiven : s'.given = s.given) :
    CacheOk disk s' := by
  obtain ⟨l, hring⟩ := hi.ring
  constructor
  case ring => exact ⟨l, hring.touched hi.users ht (by rw [hu]; rfl) hlinks rfl⟩
  case users =>
    apply hi.users.touched ht
    case hrefs => simp [hu, Phase.buf]
    case hlock =>
      intro v
      split_ifs with hv
      · simp [Phase.lock]
      · constructor
        · intro h
          cases h
        · intro h
          exact absurd (hi.users.lock_unique (by rw [hu]; rfl) h) hv
    case haddr => exact fun v a' _ => hi.users.addr v a' b
    case hself =>
      intro _ h
      cases h
  case contents =>
    apply hi.contents.kept ht rfl rfl rfl rfl hdisk hgiven
    · rw [hu]
      intro a' b' h
      cases h
    · exact fun _ _ _ => Phase.noConfusion

/-- A use leaves its buffer, whatever becomes of the ring. -/
theorem CacheOk.left (hi : CacheOk disk s) (hu : s.phase u = .leaving b)
    (ht : Touched s s' u b { s.buf b with refcnt := (s.buf b).refcnt - 1 } .idle)
    (hdisk : s'.disk = s.disk) (hgiven : s'.given = s.given) (hring : ∃ l, RingOk s' l) :
    CacheOk disk s' := by
  have hat : (s.phase u).buf = some b := by rw [hu]; rfl
  have hpos := hi.users.refcnt_pos hat
  constructor
  case ring => exact hring
  case users =>
    apply hi.users.touched ht
    case hrefs =>
      rw [if_pos hat, if_neg (fun h => by cases h)]
      exact Nat.sub_add_cancel hpos
    case hlock => exact hi.users.lock_kept (by rw [hu]; rfl)
    case haddr => exact fun v a' _ => hi.users.addr v a' b
    case hself =>
      intro _ h
      cases h
  case contents =>
    apply hi.contents.kept ht rfl rfl rfl rfl hdisk hgiven
    · rw [hu]
      exact fun _ _ => Phase.noConfusion
    · exact fun _ _ _ => Phase.noConfusion

theorem CacheOk.step {e : CacheEvent U} (hi : CacheOk disk s) (h : CacheStep s e s') :
    CacheOk disk s' := by
  cases hi.effect h with
  | hit hu hring ha hfirst =>
    subst ha
    exact hi.hit hu hring hfirst (.of_idle rfl rfl hu) rfl rfl rfl
  | recycled hu hmiss hfree hclean =>
    exact hi.recycled hu hmiss hfree hclean (.of_idle rfl rfl hu) rfl rfl rfl
  | acquired hu hlock =>
    exact hi.acquired hu hlock (.of_at rfl rfl (by rw [hu]; rfl) (.inl rfl)) rfl rfl rfl
  | cached hu hvalid =>
    rename_i u a b
    have hlock : (s.phase u).lock = some b := by rw [hu]; rfl
    refine hi.held (x := s.buf b) (.of_at ?_ rfl (Phase.buf_of_lock hlock) (.inl rfl)) hlock
      (by rw [hu]; rfl) rfl rfl rfl rfl hvalid (fun _ _ => rfl) (fun _ _ => rfl) ?_ ?_
    · exact (update_eq_self b s.buf).symm
    · exact fun _ => hi.data hu hvalid
    · exact hi.synced hlock
  | fetched hu hvalid hclean =>
    rename_i u a b
    have hlock : (s.phase u).lock = some b := by rw [hu]; rfl
    exact hi.held (.of_at rfl rfl (Phase.buf_of_lock hlock) (.inl rfl)) hlock
      (by rw [hu]; rfl) rfl rfl rfl rfl rfl (fun _ _ => rfl) (fun _ _ => rfl)
      (fun _ => hi.synced hlock hclean) fun _ => hi.synced hlock hclean
  | changed hu =>
    rename_i u a b ch data
    have hlock : (s.phase u).lock = some b := by rw [hu]; rfl
    exact hi.held (.of_at rfl rfl (Phase.buf_of_lock hlock) (.inl rfl)) hlock
      (by rw [hu]; rfl) rfl rfl rfl rfl (hi.contents.holding u a b ch hu) (fun _ _ => rfl)
      (fun _ _ => rfl) (fun h => by cases h) (hi.synced hlock)
  | logged hu =>
    rename_i u a b ch
    have hlock : (s.phase u).lock = some b := by rw [hu]; rfl
    refine hi.held (.of_at rfl rfl (Phase.buf_of_lock hlock) (.inl rfl)) hlock
      (by rw [hu]; rfl) rfl rfl rfl rfl (hi.contents.holding u a b ch hu) (fun _ _ => rfl)
      (fun _ hne => update_of_ne hne ..) ?_ fun h => by cases h
    intro _
    simp [Cache.current, logWrite, Cache.give, Cache.setBuf, Cache.setPhase]
  | written hu =>
    rename_i u a b ch
    have hlock : (s.phase u).lock = some b := by rw [hu]; rfl
    refine hi.held (.of_at rfl rfl (Phase.buf_of_lock hlock) (.inl rfl)) hlock
      (by rw [hu]; rfl) rfl rfl rfl rfl rfl (fun _ hne => update_of_ne hne ..)
      (fun _ hne => update_of_ne hne ..) ?_ ?_
    · simp [Cache.current]
    · simp [Cache.current]
  | unlocked hu =>
    exact hi.unlocked hu (.of_at rfl rfl (by rw [hu]; rfl) (.inl rfl)) rfl rfl rfl
  | @left u b hu hmore =>
    obtain ⟨l, hring⟩ := hi.ring
    have hat : (s.phase u).buf = some b := by rw [hu]; rfl
    refine hi.left hu (.of_at rfl rfl hat (.inr rfl)) rfl rfl ?_
    exact ⟨l, hring.touched hi.users (.of_at rfl rfl hat (.inr rfl)) hat rfl rfl⟩
  | @last u b hu hlast =>
    obtain ⟨l, hring⟩ := hi.ring
    have hat : (s.phase u).buf = some b := by rw [hu]; rfl
    refine hi.left hu (.of_at rfl rfl hat (.inr rfl)) rfl rfl ?_
    obtain ⟨l₁, l₂, rfl⟩ := List.append_of_mem (hring.mem b)
    refine ⟨b :: (l₁ ++ l₂), hring.moved (hi.users.refcnt_pos hat) rfl ?_
      fun _ hc => update_of_ne hc ..⟩
    exact Touched.addr_eq (.of_at rfl rfl hat (.inr rfl)) rfl

/-- Only a buffer that is neither in use nor dirty is given another block. -/
theorem CacheOk.addr_kept {e : CacheEvent U} (hi : CacheOk disk s) (h : CacheStep s e s')
    (b : Fin NBUF) (hb : 0 < (s.buf b).refcnt ∨ (s.buf b).dirty = true) :
    (s'.buf b).addr = (s.buf b).addr := by
  have hset : ∀ {c : Fin NBUF} {x : Buf U}, x.addr = (s.buf c).addr →
      (update s.buf c x b).addr = (s.buf b).addr := by
    intro c x hx
    by_cases hbc : b = c
    · rw [hbc, update_self, hx]
    · rw [update_of_ne hbc]
  cases hi.effect h with
  | recycled hu hmiss hfree hclean =>
    rename_i u a c
    have hbc : b ≠ c := by
      rintro rfl
      rcases hb with hb | hb
      · omega
      · rw [hclean] at hb
        cases hb
    exact congrArg Buf.addr (update_of_ne hbc ..)
  | cached hu hvalid => rfl
  | _ => exact hset rfl

theorem cacheOk_of_reachable (h : Reachable CacheStep (Cache.init U disk) s) : CacheOk disk s := by
  have hinit : CacheOk disk (Cache.init U disk) :=
    ⟨⟨_, ringOk_init disk⟩, usersOk_init disk, contentsOk_init⟩
  exact h.invariant hinit fun _ _ _ _ hi _ hstep => hi.step hstep

/-- The ring holds the buffers, each once; a block of a device other than 0 has at
most one of them; a buffer counts its uses; one that is in use or dirty keeps its
block; and `bread` comes back with what the block was last given, or with what the
disk had. -/
theorem bcache_coherent (h : Reachable CacheStep (Cache.init U disk) s) :
    (∃ l : List (Fin NBUF), l.Perm (List.finRange NBUF) ∧
      s.links.Represents none (l.map some)) ∧
    (∀ b c, (s.buf b).addr = (s.buf c).addr → (s.buf b).addr.dev ≠ 0 → b = c) ∧
    (∀ b, (s.buf b).refcnt = (s.users b).card) ∧
    (∀ e s' b, CacheStep s e s' → 0 < (s.buf b).refcnt ∨ (s.buf b).dirty = true →
      (s'.buf b).addr = (s.buf b).addr) ∧
    ∀ u a b, s.phase u = .locked a b → ∃ s', CacheStep s (.bread u) s' ∧
      s'.phase u = .holding a b false ∧ (s'.buf b).addr = a ∧
      (s'.buf b).data = (s.given a).getD (disk a) := by
  have hi := cacheOk_of_reachable h
  obtain ⟨l, hring⟩ := hi.ring
  refine ⟨⟨l, hring.perm, hring.ring⟩, ?_, hi.users.refs, ?_, ?_⟩
  · intro b c haddr hdev
    by_contra hne
    have hzero := (hring.untouched_or (Ne.symm hne) haddr.symm).1
    rw [hzero] at hdev
    exact hdev rfl
  · exact fun e s' b hstep => hi.addr_kept hstep b
  · intro u a b hu
    have hlock : (s.phase u).lock = some b := by rw [hu]; rfl
    have haddr : (s.buf b).addr = a := hi.users.addr u a b (by rw [hu]; rfl) (by rw [hu]; rfl)
    obtain ⟨s', hstep, heffect⟩ := hi.bread_effect hu
    refine ⟨s', hstep, ?_⟩
    cases heffect with
    | cached hu' hvalid =>
      rw [hu] at hu'
      cases hu'
      refine ⟨update_self .., haddr, ?_⟩
      rw [← haddr]
      exact hi.data hu hvalid
    | fetched hu' hvalid hclean =>
      rw [hu] at hu'
      cases hu'
      refine ⟨update_self .., ?_, ?_⟩
      · simp [Cache.setPhase, Cache.setBuf, haddr]
      · rw [← haddr]
        simpa [Cache.setPhase, Cache.setBuf, Cache.current] using hi.synced hlock hclean

/-- A block is changed and logged in one use and read in another. -/
theorem bcache_coherent_reread : ∃ s : Cache (Fin 2),
    Reachable CacheStep (Cache.init (Fin 2) fun _ _ => 0) s ∧
      ∃ s' b, CacheStep s (.bread 1) s' ∧ s.given ⟨1, 7⟩ ≠ none ∧
        (s'.buf b).data = (s.given ⟨1, 7⟩).getD fun _ => 0 := by
  have hrun : ∃ s : Cache (Fin 2), Reachable CacheStep (Cache.init (Fin 2) fun _ _ => 0) s ∧
      s.phase 1 = .locked ⟨1, 7⟩ 0 ∧ (s.given ⟨1, 7⟩).isSome = true :=
    exists_reachableBy
      [.bget 0 ⟨1, 7⟩, .acquiresleep 0, .bread 0, .change 0 fun _ => 1, .bget 1 ⟨1, 7⟩,
        .logWrite 0, .releasesleep 0, .acquiresleep 1] (by decide +kernel)
  obtain ⟨s, hreach, hlocked, hgiven⟩ := hrun
  obtain ⟨-, -, -, -, hread⟩ := bcache_coherent hreach
  obtain ⟨s', hstep, -, -, hdata⟩ := hread 1 _ _ hlocked
  exact ⟨s, hreach, s', 0, hstep, Option.isSome_iff_ne_none.mp hgiven, hdata⟩

end Xv6Threads.Bio
