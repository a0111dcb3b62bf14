/-
# Path walking

`namex` takes a path apart with `skipelem` and follows its elements through directories. What
it should compute is said on the disk alone: the elements are the non-empty parts between
slashes, and following them is a fold over the maps that the directories are. The walk takes
references to inodes on its way and gives them back, so the cache is balanced whenever it
returns: it holds one reference more for the inode that was returned, and no other.
-/

import Mathlib.Data.Multiset.Count
import Xv6Threads.Fs.Bindings

namespace Xv6Threads.Fs

open Lib Command

/-! ## Elements of a path -/

/-- The non-empty parts between slashes, each cut to `DIRSIZ` bytes. -/
def components (path : List Byte) : List (List Byte) :=
  ((path.splitOnP fun b => decide (b = slash)).filter fun part => decide (part ≠ [])).map
    fun part => part.take DIRSIZ

/-- The names that repeated calls of `skipelem` produce. -/
def skipelems : ℕ → List Byte → List (List Byte)
  | 0, _ => []
  | fuel + 1, path =>
    match skipelem path with
    | none => []
    | some (name, rest) => name :: skipelems fuel rest

section

variable {path name rest : List Byte}

theorem components_slash (path : List Byte) : components (slash :: path) = components path := by
  rw [components, List.splitOnP_cons_eq_if_modifyHead, if_pos (decide_eq_true rfl)]
  rfl

theorem components_dropWhile (path : List Byte) :
    components (path.dropWhile fun b => decide (b = slash)) = components path := by
  induction path with
  | nil => rfl
  | cons b path ih =>
    by_cases hb : b = slash
    · rw [List.dropWhile_cons_of_pos (by simpa using hb), ih, hb, components_slash]
    · rw [List.dropWhile_cons_of_neg (by simpa using hb)]

/-- A path that starts with a part. -/
theorem components_part {part : List Byte} (hpart : part ≠ []) (hno : ∀ b ∈ part, b ≠ slash)
    (hrest : rest = [] ∨ rest.head? = some slash) :
    components (part ++ rest) = part.take DIRSIZ :: components rest := by
  have hfalse : ∀ b ∈ part, decide (b = slash) = false := by
    intro b hb
    exact decide_eq_false (hno b hb)
  rcases hrest with rfl | hslash
  · rw [List.append_nil, components, List.splitOnP_eq_singleton hfalse,
      List.filter_cons_of_pos (by simpa using hpart)]
    rfl
  · obtain ⟨tail, rfl⟩ : ∃ tail, rest = slash :: tail := by
      cases rest with
      | nil => cases hslash
      | cons b tail =>
        rw [List.head?_cons, Option.some.injEq] at hslash
        exact ⟨tail, by rw [hslash]⟩
    rw [components_slash, components,
      List.splitOnP_append_cons_of_forall_mem hfalse slash (decide_eq_true rfl),
      List.filter_cons_of_pos (by simpa using hpart)]
    rfl

theorem components_of_skipelem_none (h : skipelem path = none) : components path = [] := by
  rw [← components_dropWhile]
  unfold skipelem at h
  cases hdrop : path.dropWhile fun b => decide (b = slash) with
  | nil => rfl
  | cons c s =>
    rw [hdrop] at h
    cases h

theorem head?_dropWhile_ne (path : List Byte) :
    (path.dropWhile fun b => decide (b ≠ slash)) = [] ∨
      (path.dropWhile fun b => decide (b ≠ slash)).head? = some slash := by
  induction path with
  | nil => exact .inl rfl
  | cons b path ih =>
    by_cases hb : b = slash
    · right
      rw [List.dropWhile_cons_of_neg (by simpa using hb), List.head?_cons, hb]
    · rw [List.dropWhile_cons_of_pos (by simpa using hb)]
      exact ih

theorem components_cons {c : Byte} (s : List Byte) (hc : c ≠ slash) :
    components (c :: s) = ((c :: s).takeWhile fun b => decide (b ≠ slash)).take DIRSIZ ::
      components ((c :: s).dropWhile fun b => decide (b ≠ slash)) := by
  have hpart : ((c :: s).takeWhile fun b => decide (b ≠ slash)) ≠ [] := by
    rw [List.takeWhile_cons_of_pos (by simpa using hc)]
    exact List.cons_ne_nil _ _
  have hno : ∀ b ∈ (c :: s).takeWhile (fun b => decide (b ≠ slash)), b ≠ slash := by
    intro b hb
    simpa using List.all_eq_true.mp List.all_takeWhile b hb
  have happend := components_part hpart hno (head?_dropWhile_ne (c :: s))
  rwa [List.takeWhile_append_dropWhile] at happend

theorem ne_slash_of_dropWhile {c : Byte} {s : List Byte}
    (h : (path.dropWhile fun b => decide (b = slash)) = c :: s) : c ≠ slash := by
  intro hc
  have hhead := List.head?_dropWhile_not (fun b => decide (b = slash)) path
  rw [h, List.head?_cons] at hhead
  simp [hc] at hhead

/-- What `skipelem` returns: the first element, and a shorter path with the others. -/
theorem components_of_skipelem_some (h : skipelem path = some (name, rest)) :
    components path = name :: components rest ∧ rest.length < path.length ∧
      (rest = [] ↔ components rest = []) := by
  have hlength : (path.dropWhile fun b => decide (b = slash)).length ≤ path.length :=
    (List.dropWhile_sublist _).length_le
  rw [← components_dropWhile path]
  unfold skipelem at h
  cases hdrop : path.dropWhile fun b => decide (b = slash) with
  | nil =>
    rw [hdrop] at h
    cases h
  | cons c s =>
    have hc := ne_slash_of_dropWhile hdrop
    rw [hdrop] at h hlength
    cases h
    refine ⟨?_, ?_, ?_⟩
    · rw [components_dropWhile, components_cons s hc]
    · have hrest : ((c :: s).dropWhile fun b => decide (b ≠ slash)).length ≤ s.length := by
        rw [List.dropWhile_cons_of_pos (by simpa using hc)]
        exact (List.dropWhile_sublist _).length_le
      have hskip : (((c :: s).dropWhile fun b => decide (b ≠ slash)).dropWhile
          fun b => decide (b = slash)).length ≤
            ((c :: s).dropWhile fun b => decide (b ≠ slash)).length :=
        (List.dropWhile_sublist _).length_le
      rw [List.length_cons] at hlength
      exact Nat.lt_of_le_of_lt (hskip.trans hrest) hlength
    · cases hrest : ((c :: s).dropWhile fun b => decide (b ≠ slash)).dropWhile
          fun b => decide (b = slash) with
      | nil => exact iff_of_true rfl rfl
      | cons c' s' =>
        rw [components_cons s' (ne_slash_of_dropWhile hrest)]
        exact iff_of_false (List.cons_ne_nil _ _) (List.cons_ne_nil _ _)

theorem skipelems_eq {fuel : ℕ} (hfuel : path.length < fuel) :
    skipelems fuel path = components path := by
  induction fuel generalizing path with
  | zero => exact absurd hfuel (Nat.not_lt_zero _)
  | succ fuel ih =>
    rw [skipelems]
    cases hskip : skipelem path with
    | none => rw [components_of_skipelem_none hskip]
    | some x =>
      obtain ⟨hcomp, hlt, -⟩ := components_of_skipelem_some hskip
      rw [hcomp]
      have hless : x.2.length < fuel := by omega
      rw [← ih hless]

end

/-! ## Following names -/

section

variable (L : Layout) (d : Image)

def Layout.isDirectory (i : ℕ) : Prop := (L.inode d i).type = T_DIR

instance : DecidablePred (L.isDirectory d) := fun i =>
  inferInstanceAs (Decidable ((L.inode d i).type = T_DIR))

/-- What a name leads to in an inode: nothing if that is no directory. -/
def Layout.child (i : ℕ) (name : List Byte) : Option ℕ :=
  if L.isDirectory d i then bindings ((L.inode d i).content d) (key name) else none

def Layout.follow (i : ℕ) (names : List (List Byte)) : Option ℕ := names.foldlM (L.child d) i

/-- All names but the last, which must lead to a directory. -/
def Layout.followParent (i : ℕ) (names : List (List Byte)) : Option ℕ :=
  if names = [] then none
  else (L.follow d i names.dropLast).filter fun j => decide (L.isDirectory d j)

/-- Both walks in one, as `namex` makes them. -/
def Layout.walk (parent : Bool) : ℕ → List (List Byte) → Option ℕ
  | i, [] => if parent then none else some i
  | i, name :: names =>
    if L.isDirectory d i then
      if parent = true ∧ names = [] then some i
      else (bindings ((L.inode d i).content d) (key name)).bind fun j => walk parent j names
    else none

variable {L d}

theorem walk_eq_follow (i : ℕ) (names : List (List Byte)) :
    L.walk d false i names = L.follow d i names := by
  induction names generalizing i with
  | nil => rfl
  | cons name names ih =>
    rw [Layout.walk, Layout.follow, List.foldlM_cons, Layout.child]
    by_cases hdir : L.isDirectory d i
    · rw [if_pos hdir, if_pos hdir, if_neg (by simp)]
      exact congrArg _ (funext fun j => ih j)
    · rw [if_neg hdir, if_neg hdir]
      rfl

theorem walk_eq_followParent (i : ℕ) (names : List (List Byte)) :
    L.walk d true i names = L.followParent d i names := by
  induction names generalizing i with
  | nil => rfl
  | cons name names ih =>
    rw [Layout.walk, Layout.followParent, if_neg (List.cons_ne_nil _ _)]
    cases names with
    | nil =>
      by_cases hdir : L.isDirectory d i
      · rw [if_pos hdir, if_pos ⟨rfl, rfl⟩]
        show some i = (some i).filter _
        rw [Option.filter_some, if_pos (by simpa using hdir)]
      · rw [if_neg hdir]
        show none = (some i).filter _
        rw [Option.filter_some, if_neg (by simpa using hdir)]
    | cons name' names =>
      rw [List.dropLast_cons_cons, Layout.follow, List.foldlM_cons, Layout.child]
      by_cases hdir : L.isDirectory d i
      · rw [if_pos hdir, if_pos hdir, if_neg (by simp)]
        cases hnext : bindings ((L.inode d i).content d) (key name) with
        | none => rfl
        | some j =>
          have hrest := ih j
          rw [Layout.followParent, if_neg (List.cons_ne_nil _ _)] at hrest
          exact hrest
      · rw [if_neg hdir, if_neg hdir]
        rfl

end

/-! ## A state to walk in -/

/-- An allocated inode that has a link or a user, so that no `iput` of a walk frees it. -/
structure Live (L : Layout) (s : FsState) (i : ℕ) : Prop where
  lt : i < L.ninodes
  type : (L.inode s.disk i).type ≠ 0
  kept : (L.inode s.disk i).nlink ≠ 0 ∨ ∃ ip, 0 < (s.icache ip).ref ∧ (s.icache ip).inum = i

/-- Between calls: the cache agrees with the disk, nothing is locked, directories are finite
maps, and what the cache holds or a directory names is allocated. -/
structure Walkable (L : Layout) (s : FsState) : Prop where
  synced : Synced L s
  ref : ∀ ip, 0 ≤ (s.icache ip).ref
  unlocked : ∀ ip, (s.icache ip).locked = false
  held : ∀ ip, 0 < (s.icache ip).ref → Live L s (s.icache ip).inum
  root : Live L s ROOTINO
  directory : ∀ i < L.ninodes, L.isDirectory s.disk i → (L.inode s.disk i).Directory s.disk
  bound : ∀ i < L.ninodes, L.isDirectory s.disk i → ∀ name j,
    bindings ((L.inode s.disk i).content s.disk) name = some j → Live L s j

/-- Room for the two inodes that a walk holds at a time. -/
def TwoFree (s : FsState) : Prop :=
  ∃ ip jp, ip ≠ jp ∧ (s.icache ip).ref = 0 ∧ (s.icache jp).ref = 0

/-- A state during a walk that began in `s₀`: it holds the references `refs` and perhaps a
lock, and has changed nothing else but free cache entries and copies of inodes. -/
structure Walking (L : Layout) (s₀ : FsState) (refs : Multiset Ip) (lock : Option Ip)
    (s : FsState) : Prop where
  rest : s = { s₀ with icache := s.icache }
  synced : Synced L s
  ref : ∀ ip, (s.icache ip).ref = (s₀.icache ip).ref + refs.count ip
  same : ∀ ip, 0 < (s₀.icache ip).ref →
    (s.icache ip).dev = (s₀.icache ip).dev ∧ (s.icache ip).inum = (s₀.icache ip).inum
  locked : ∀ ip, (s.icache ip).locked = decide (lock = some ip)
  live : ∀ ip, 0 < (s.icache ip).ref → Live L s₀ (s.icache ip).inum
  linked : ∀ ip, (s₀.icache ip).ref = 0 → 0 < (s.icache ip).ref →
    (L.inode s₀.disk (s.icache ip).inum).nlink ≠ 0

/-- How a walk ends: with nothing, or with a reference to the inode found. -/
def Walked (L : Layout) (s₀ : FsState) (target : Option ℕ) (r : Option Ip) (s : FsState) : Prop :=
  target = none ∧ r = none ∧ Walking L s₀ 0 none s ∨
    ∃ i ip, target = some i ∧ r = some ip ∧ (s.icache ip).inum = i ∧ Walking L s₀ {ip} none s

section

variable {L : Layout} {s₀ s s' : FsState} {refs : Multiset Ip} {lock : Option Ip} {ip np : Ip}
variable {i : ℕ} {E : Panic → Prop}

theorem Walkable.walking (h : Walkable L s₀) : Walking L s₀ 0 none s₀ where
  rest := rfl
  synced := h.synced
  ref ip := by simp
  same _ _ := ⟨rfl, rfl⟩
  locked ip := by simpa using h.unlocked ip
  live := h.held
  linked ip hzero hpos := absurd hzero hpos.ne'

theorem Walking.disk (h : Walking L s₀ refs lock s) : s.disk = s₀.disk := by rw [h.rest]

theorem Walking.pos (hw : Walkable L s₀) (h : Walking L s₀ (ip ::ₘ refs) lock s) :
    0 < (s.icache ip).ref := by
  have hnonneg := hw.ref ip
  rw [h.ref ip, Multiset.count_cons_self]
  omega

/-- One entry changes. -/
theorem Walking.mapIp (h : Walking L s₀ refs lock s) {f : Inode → Inode} {refs' : Multiset Ip}
    {lock' : Option Ip} (hsynced : Synced L (s.mapIp ip f))
    (href : (f (s.icache ip)).ref = (s₀.icache ip).ref + refs'.count ip)
    (hrefs : ∀ jp, jp ≠ ip → refs'.count jp = refs.count jp)
    (hsame : 0 < (s₀.icache ip).ref → (f (s.icache ip)).dev = (s.icache ip).dev ∧
      (f (s.icache ip)).inum = (s.icache ip).inum)
    (hlock : (f (s.icache ip)).locked = decide (lock' = some ip))
    (hlocks : ∀ jp, jp ≠ ip → (lock' = some jp ↔ lock = some jp))
    (hlive : 0 < (f (s.icache ip)).ref → Live L s₀ (f (s.icache ip)).inum)
    (hlinked : (s₀.icache ip).ref = 0 → 0 < (f (s.icache ip)).ref →
      (L.inode s₀.disk (f (s.icache ip)).inum).nlink ≠ 0) :
    Walking L s₀ refs' lock' (s.mapIp ip f) := by
  refine ⟨?_, hsynced, fun jp => ?_, fun jp hpos => ?_, fun jp => ?_, fun jp => ?_, fun jp => ?_⟩
  · rw [h.rest]
    rfl
  all_goals
    by_cases hjp : jp = ip
    · subst hjp
      rw [mapIp_self]
      first
        | exact href
        | exact hlock
        | exact hlive
        | exact hlinked
        | exact ⟨(hsame hpos).1.trans (h.same jp hpos).1, (hsame hpos).2.trans (h.same jp hpos).2⟩
    · rw [mapIp_of_ne hjp]
      first
        | exact h.same jp hpos
        | exact h.live jp
        | exact h.linked jp
        | (rw [hrefs jp hjp]; exact h.ref jp)
        | (rw [h.locked jp]; exact decide_eq_decide.mpr (hlocks jp hjp).symm)

/-- An entry in use changes and stays with its inode. -/
theorem Walking.mapIp_same (h : Walking L s₀ refs lock s) {f : Inode → Inode}
    {refs' : Multiset Ip} {lock' : Option Ip} (hpos : 0 < (s.icache ip).ref)
    (hinum : (f (s.icache ip)).inum = (s.icache ip).inum)
    (hdev : (f (s.icache ip)).dev = (s.icache ip).dev) (hsynced : Synced L (s.mapIp ip f))
    (href : (f (s.icache ip)).ref = (s₀.icache ip).ref + refs'.count ip)
    (hrefs : ∀ jp, jp ≠ ip → refs'.count jp = refs.count jp)
    (hlock : (f (s.icache ip)).locked = decide (lock' = some ip))
    (hlocks : ∀ jp, jp ≠ ip → (lock' = some jp ↔ lock = some jp)) :
    Walking L s₀ refs' lock' (s.mapIp ip f) := by
  apply h.mapIp hsynced href hrefs (fun _ => ⟨hdev, hinum⟩) hlock hlocks
  · intro _
    rw [hinum]
    exact h.live ip hpos
  · intro hzero _
    rw [hinum]
    exact h.linked ip hzero hpos

/-- One more reference to an entry in use. -/
theorem Walking.hold (h : Walking L s₀ refs lock s) (hpos : 0 < (s.icache ip).ref) :
    Walking L s₀ (ip ::ₘ refs) lock (s.mapIp ip fun x => { x with ref := x.ref + 1 }) := by
  apply h.mapIp_same hpos rfl rfl
  · exact h.synced.mapIp_same rfl rfl rfl rfl fun _ => hpos
  · show (s.icache ip).ref + 1 = _
    rw [h.ref ip, Multiset.count_cons_self]
    omega
  · intro jp hjp
    exact Multiset.count_cons_of_ne hjp refs
  · exact h.locked ip
  · exact fun jp _ => Iff.rfl

theorem Walking.got (hw : Walkable L s₀) (h : Walking L s₀ refs lock s) (hlive : Live L s₀ i)
    (hg : Got s ROOTDEV i np s') : Walking L s₀ (np ::ₘ refs) lock s' := by
  rcases hg with ⟨⟨href, -, -⟩, rfl⟩ | ⟨⟨href, hmiss⟩, rfl⟩
  · exact h.hold href
  · have hnonneg := hw.ref np
    have hcount := h.ref np
    have hzero : (s₀.icache np).ref = 0 := by omega
    have hnone : refs.count np = 0 := by omega
    apply h.mapIp
    · apply h.synced.mapIp
      · intro _
        exact ⟨rfl, fun jp _ hpos => hmiss jp hpos (h.synced.dev hpos)⟩
      · intro _ hvalid
        cases hvalid
    · rw [hzero, Multiset.count_cons_self, hnone]
      rfl
    · intro jp hjp
      exact Multiset.count_cons_of_ne hjp refs
    · intro hpos
      exact absurd hzero hpos.ne'
    · exact h.locked np
    · exact fun jp _ => Iff.rfl
    · exact fun _ => hlive
    · intro _ _
      rcases hlive.kept with hlink | ⟨kp, hpos, hinum⟩
      · exact hlink
      · -- a user of the inode would have been found
        have hheld : 0 < (s.icache kp).ref := by
          rw [h.ref kp]
          omega
        have hsame := (h.same kp hpos).2.trans hinum
        exact absurd hsame (hmiss kp hheld (h.synced.dev hheld))

theorem Walking.ilock_ends (hw : Walkable L s₀) (h : Walking L s₀ (ip ::ₘ refs) none s) :
    Ends E (Fs.ilock L ip) s fun _ s' => Walking L s₀ (ip ::ₘ refs) (some ip) s' ∧
      (s'.icache ip).inum = (s.icache ip).inum ∧
      (s'.icache ip).din = L.inode s₀.disk (s.icache ip).inum := by
  have hpos := h.pos hw
  have hlive := h.live ip hpos
  have hlocks : ∀ jp, jp ≠ ip → (some ip = some jp ↔ none = some jp) := by
    intro jp hjp
    simp [hjp.symm]
  apply ilock_rule
  · intro hbad
    exact absurd hpos hbad
  · intro hlocked
    rw [h.locked ip] at hlocked
    cases hlocked
  · intro _ _ hvalid
    refine ⟨?_, by rw [mapIp_self], ?_⟩
    · apply h.mapIp_same hpos rfl rfl
      · exact h.synced.mapIp_same rfl rfl rfl rfl id
      · exact h.ref ip
      · exact fun _ _ => rfl
      · simp
      · exact hlocks
    · rw [mapIp_self, ← h.disk]
      exact h.synced.din hpos hvalid
  · intro _ _ _ htype
    refine ⟨?_, by rw [mapIp_self], ?_⟩
    · apply h.mapIp_same hpos rfl rfl
      · apply h.synced.mapIp
        · intro _
          exact ⟨h.synced.dev hpos, fun jp hne hr' heq => hne (h.synced.unique hr' hpos heq)⟩
        · intro _ _
          exact ⟨hlive.lt, rfl, htype⟩
      · exact h.ref ip
      · exact fun _ _ => rfl
      · simp
      · exact hlocks
    · rw [mapIp_self, ← h.disk]
  · intro _ _ _ htype
    rw [h.disk] at htype
    exact absurd htype hlive.type

theorem Walking.iunlock_ends (hw : Walkable L s₀) (h : Walking L s₀ (ip ::ₘ refs) (some ip) s) :
    Ends E (Fs.iunlock ip) s fun _ s' => Walking L s₀ (ip ::ₘ refs) none s' ∧
      ∀ jp, (s'.icache jp).inum = (s.icache jp).inum := by
  have hpos := h.pos hw
  apply iunlock_rule
  · intro hbad
    exact absurd ⟨(h.locked ip).trans (decide_eq_true rfl), hpos⟩ hbad
  · intro _ _
    refine ⟨?_, ?_⟩
    · apply h.mapIp_same hpos rfl rfl
      · exact h.synced.mapIp_same rfl rfl rfl rfl id
      · exact h.ref ip
      · exact fun _ _ => rfl
      · simp
      · intro jp hjp
        simp [hjp.symm]
    · intro jp
      by_cases hjp : jp = ip
      · rw [hjp, mapIp_self]
      · rw [mapIp_of_ne hjp]

/-- No `iput` of a walk frees an inode: it has a link or another user. -/
theorem Walking.iput_ends (hw : Walkable L s₀) (h : Walking L s₀ (ip ::ₘ refs) none s) :
    Ends E (Fs.iput L ip) s fun _ s' => Walking L s₀ refs none s' ∧
      ∀ jp, (s'.icache jp).inum = (s.icache jp).inum := by
  have hpos := h.pos hw
  have hcount := h.ref ip
  rw [Multiset.count_cons_self] at hcount
  apply iput_rule
  · intro hlocked
    rw [h.locked ip] at hlocked
    cases hlocked
  · intro _ _
    refine ⟨?_, ?_⟩
    · apply h.mapIp_same hpos rfl rfl
      · exact h.synced.mapIp_same rfl rfl rfl rfl fun _ => hpos
      · show (s.icache ip).ref - 1 = _
        rw [hcount]
        omega
      · intro jp hjp
        exact (Multiset.count_cons_of_ne hjp refs).symm
      · exact h.locked ip
      · exact fun jp _ => Iff.rfl
    · intro jp
      by_cases hjp : jp = ip
      · rw [hjp, mapIp_self]
      · rw [mapIp_of_ne hjp]
  · intro _ hvalid hnlink hone
    have hnonneg := hw.ref ip
    have hzero : (s₀.icache ip).ref = 0 := by omega
    rw [h.synced.din hpos hvalid, h.disk] at hnlink
    exact absurd hnlink (h.linked ip hzero hpos)

theorem Walking.iunlockput_ends (hw : Walkable L s₀)
    (h : Walking L s₀ (ip ::ₘ refs) (some ip) s) :
    Ends E (Fs.iunlockput L ip) s fun _ s' => Walking L s₀ refs none s' ∧
      ∀ jp, (s'.icache jp).inum = (s.icache jp).inum := by
  apply Ends.bind (h.iunlock_ends hw)
  rintro - s₁ ⟨h₁, hinum₁⟩
  apply (h₁.iput_ends hw).mono
  rintro - s₂ ⟨h₂, hinum₂⟩
  exact ⟨h₂, fun jp => (hinum₂ jp).trans (hinum₁ jp)⟩

theorem Walking.canGet (hfree : TwoFree s₀) (h : Walking L s₀ {ip} lock s) (dev : ℕ) :
    CanGet s dev i := by
  obtain ⟨jp, kp, hne, hjp, hkp⟩ := hfree
  have hentry : ∀ a, (s₀.icache a).ref = 0 → a ≠ ip → CanGet s dev i := by
    intro a hzero ha
    refine ⟨a, .inl ?_⟩
    rw [h.ref a, hzero, Multiset.count_singleton, if_neg ha]
    rfl
  by_cases hip : jp = ip
  · exact hentry kp hkp fun hk => hne (hip.trans hk.symm)
  · exact hentry jp hjp hip

/-! ## The loop of `namex` -/

theorem Walking.namexLoop_ends (hw : Walkable L s₀)
    (hfull : ¬TwoFree s₀ → E .igetNoInodes) (parent : Bool)
    {fuel : ℕ} {path : List Byte} (name : List Byte) (hfuel : path.length < fuel)
    (h : Walking L s₀ (ip ::ₘ 0) none s) :
    Ends E (Fs.namexLoop L parent fuel path name ip) s fun r s' =>
      Walked L s₀ (L.walk s₀.disk parent (s.icache ip).inum (components path)) (r.map Prod.fst) s' ∧
      (parent = true → ∀ x, r = some x → (components path).getLast? = some x.2) := by
  induction fuel generalizing s path name ip with
  | zero => exact absurd hfuel (Nat.not_lt_zero _)
  | succ fuel ih =>
    have hpos := h.pos hw
    rw [namexLoop]
    cases hskip : skipelem path with
    | none =>
      rw [components_of_skipelem_none hskip]
      cases parent with
      | true =>
        apply Ends.bind (h.iput_ends hw)
        rintro - s' ⟨h', -⟩
        exact Ends.pure ⟨.inl ⟨rfl, rfl, h'⟩, fun _ x hx => by cases hx⟩
      | false =>
        exact Ends.pure ⟨.inr ⟨_, ip, rfl, rfl, rfl, h⟩, fun hno => by cases hno⟩
    | some x =>
      obtain ⟨hcomp, hlt, hnil⟩ := components_of_skipelem_some hskip
      rw [hcomp]
      apply Ends.bind (h.ilock_ends hw)
      rintro - s₁ ⟨h₁, hinum₁, hdin₁⟩
      apply Ends.read_bind
      rw [hdin₁, Layout.walk]
      by_cases hdir : L.isDirectory s₀.disk (s.icache ip).inum
      · have htype : (L.inode s₀.disk (s.icache ip).inum).type = T_DIR := hdir
        rw [if_neg (not_not.mpr htype), if_pos hdir]
        by_cases hlast : parent = true ∧ x.2 = []
        · rw [if_pos hlast, if_pos ⟨hlast.1, hnil.mp hlast.2⟩]
          apply Ends.bind (h₁.iunlock_ends hw)
          rintro - s₂ ⟨h₂, hinum₂⟩
          apply Ends.pure
          refine ⟨.inr ⟨_, ip, rfl, rfl, (hinum₂ ip).trans hinum₁, h₂⟩, ?_⟩
          rintro - y hy
          cases hy
          rw [hnil.mp hlast.2]
          rfl
        · have hmore : ¬(parent = true ∧ components x.2 = []) :=
            fun hno => hlast ⟨hno.1, hnil.mpr hno.2⟩
          rw [if_neg hlast, if_neg hmore]
          have hdirectory : (s₁.icache ip).din.Directory s₁.disk := by
            rw [hdin₁, h₁.disk]
            exact hw.directory _ (h.live ip hpos).lt hdir
          apply Ends.seq
          apply hdirectory.dirlookup_ends
          · intro i _ hno
            exact hfull fun hfree => hno (h₁.canGet hfree _)
          · intro hnone
            rw [hdin₁, h₁.disk] at hnone
            apply Ends.bind (h₁.iunlockput_ends hw)
            rintro - s₂ ⟨h₂, -⟩
            rw [hnone]
            exact Ends.pure ⟨.inl ⟨rfl, rfl, h₂⟩, fun _ y hy => by cases hy⟩
          · intro i j hbound _ _ np s₂ hgot
            rw [hdin₁, h₁.disk] at hbound
            rw [h₁.synced.dev (h₁.pos hw)] at hgot
            have hlive := hw.bound _ (h.live ip hpos).lt hdir _ _ hbound
            -- the next inode is held before this one is released
            have h₂ := h₁.got hw hlive hgot
            rw [Multiset.cons_swap] at h₂
            apply Ends.bind (h₂.iunlockput_ends hw)
            rintro - s₃ ⟨h₃, hinum₃⟩
            apply (ih x.1 (by omega) h₃).mono
            rintro r s' ⟨hwalked, hname⟩
            rw [hinum₃ np, hgot.inum] at hwalked
            rw [hbound]
            refine ⟨hwalked, fun hparent y hy => ?_⟩
            have hsome := hname hparent y hy
            rw [List.getLast?_cons, hsome]
            rfl
      · have htype : (L.inode s₀.disk (s.icache ip).inum).type ≠ T_DIR := hdir
        rw [if_pos htype, if_neg hdir]
        apply Ends.bind (h₁.iunlockput_ends hw)
        rintro - s₂ ⟨h₂, -⟩
        exact Ends.pure ⟨.inl ⟨rfl, rfl, h₂⟩, fun _ y hy => by cases hy⟩

/-- Where a path starts: at the root, or in the current directory. -/
def startOf (s : FsState) (cwd : Ip) (path : List Byte) : ℕ :=
  if path.head? = some slash then ROOTINO else (s.icache cwd).inum

theorem Walkable.namex_ends (hw : Walkable L s) (hfull : ¬TwoFree s → E .igetNoInodes)
    {cwd : Ip} {path : List Byte} (hcwd : path.head? ≠ some slash → 0 < (s.icache cwd).ref)
    (parent : Bool) :
    Ends E (namex L cwd parent path) s fun r s' =>
      Walked L s (L.walk s.disk parent (startOf s cwd path) (components path)) (r.map Prod.fst) s' ∧
      (parent = true → ∀ x, r = some x → (components path).getLast? = some x.2) := by
  have hstart : Ends E (namexStart cwd path) s fun ip s' =>
      Walking L s (ip ::ₘ 0) none s' ∧ (s'.icache ip).inum = startOf s cwd path := by
    unfold namexStart startOf
    by_cases hroot : path.head? = some slash
    · rw [if_pos hroot, if_pos hroot]
      apply iget_got
      · intro hno
        apply hfull
        rintro ⟨jp, -, -, hjp, -⟩
        exact hno ⟨jp, .inl hjp⟩
      · intro ip s' hgot
        exact ⟨hw.walking.got hw hw.root hgot, hgot.inum⟩
    · rw [if_neg hroot, if_neg hroot]
      apply Ends.seq
      apply idup_ends
      apply Ends.pure
      exact ⟨hw.walking.hold (hcwd hroot), by rw [mapIp_self]⟩
  apply Ends.bind hstart
  rintro ip s₁ ⟨h₁, hinum⟩
  rw [← hinum]
  exact h₁.namexLoop_ends hw hfull parent [] (Nat.lt_succ_self _)

/-- The elements that `skipelem` finds are the components of the path. `namei` returns the
inode that they lead to from the root or the current directory, or nothing as soon as one
is missing or leads on from something that is no directory; `nameiparent` stops in the
directory before the last one and returns its name. Either holds a reference to the inode it
returns, and nothing else has changed. Only if fewer than two entries of the cache are free
can they panic. -/
theorem path_walk (hw : Walkable L s) (cwd : Ip) (path : List Byte)
    (hcwd : path.head? ≠ some slash → 0 < (s.icache cwd).ref) :
    skipelems (path.length + 1) path = components path ∧
    Ends (fun e => e = .igetNoInodes ∧ ¬TwoFree s) (namei L cwd path) s
      (Walked L s (L.follow s.disk (startOf s cwd path) (components path))) ∧
    Ends (fun e => e = .igetNoInodes ∧ ¬TwoFree s) (nameiparent L cwd path) s fun r s' =>
      Walked L s (L.followParent s.disk (startOf s cwd path) (components path))
        (r.map Prod.fst) s' ∧ ∀ x, r = some x → (components path).getLast? = some x.2 := by
  refine ⟨skipelems_eq (Nat.lt_succ_self _), ?_, ?_⟩
  · apply Ends.bind (hw.namex_ends (fun hfull => ⟨rfl, hfull⟩) hcwd false)
    rintro r s' ⟨hwalked, -⟩
    rw [walk_eq_follow] at hwalked
    exact Ends.pure hwalked
  · apply (hw.namex_ends (fun hfull => ⟨rfl, hfull⟩) hcwd true).mono
    rintro r s' ⟨hwalked, hname⟩
    rw [walk_eq_followParent] at hwalked
    exact ⟨hwalked, hname rfl⟩

end

/-! ## A disk with many inodes -/

/-- Sixty-four inodes and one data block. -/
def wideLayout : Layout where
  size := 12
  ninodes := 64
  inodestart := 2
  bmapstart := 10
  datastart := 11
  inodes_pos := le_rfl
  inodes_fit := by decide
  map_fits := by decide
  data_le := by decide
  size_lt := fiveBlocks.size_lt
  ninodes_lt := by decide

/-- The root directory has one entry, `a`, which is inode 2; all other inodes are devices. -/
def wideDisk : Image := fun b t =>
  if b = 11 then
    if t.val = 0 then 2 else if t.val = 2 then 0x61 else 0
  else if b = 2 ∧ t.val / 64 = 1 then
    if t.val = 64 then 1 else if t.val = 70 then 1 else if t.val = 72 then 16
    else if t.val = 76 then 11 else 0
  else if t.val % 64 = 0 then 3
  else if t.val % 64 = 6 then 1
  else 0

section

variable {s : FsState}

theorem wide_root : (wideLayout.inode wideDisk 1).type = T_DIR ∧
    (wideLayout.inode wideDisk 1).size.toNat = 16 ∧
    (wideLayout.inode wideDisk 1).block wideDisk 0 ≠ 0 ∧
    dirSlot ((wideLayout.inode wideDisk 1).content wideDisk) 0 = some ([0x61], 2) := by
  decide +kernel

theorem wide_inodes : ∀ i < 64, ((wideLayout.inode wideDisk i).type = T_DIR → i = 1) ∧
    (wideLayout.inode wideDisk i).type ≠ 0 ∧ (wideLayout.inode wideDisk i).nlink ≠ 0 := by
  decide +kernel

theorem wide_directory : (wideLayout.inode wideDisk 1).Directory wideDisk := by
  obtain ⟨htype, hsize, hblock, -⟩ := wide_root
  refine ⟨htype, ?_, ?_, ?_⟩
  · intro o ho
    rw [hsize] at ho
    rwa [Nat.div_eq_of_lt (show o < 512 by omega)]
  · rw [hsize]
    exact Nat.dvd_refl 16
  · rw [length_content, hsize]
    intro i hi j hj
    change i < 1 at hi
    change j < 1 at hj
    omega

theorem wide_live (hdisk : s.disk = wideDisk) {i : ℕ} (hi : i < 64) : Live wideLayout s i := by
  obtain ⟨-, htype, hlink⟩ := wide_inodes i hi
  refine ⟨hi, ?_, .inl ?_⟩
  · rw [hdisk]
    exact htype
  · rw [hdisk]
    exact hlink

theorem wide_bound {name : List Byte} {j : ℕ}
    (h : bindings ((wideLayout.inode wideDisk 1).content wideDisk) name = some j) : j = 2 := by
  rw [wide_directory.bindings_eq_some, wide_root.2.1] at h
  obtain ⟨k, hk, hslot⟩ := h
  have hzero : k = 0 := by
    change k < 1 at hk
    omega
  rw [hzero, wide_root.2.2.2] at hslot
  cases hslot
  rfl

theorem wide_walkable (hdisk : s.disk = wideDisk) (hsynced : Synced wideLayout s)
    (href : ∀ ip, 0 ≤ (s.icache ip).ref) (hunlocked : ∀ ip, (s.icache ip).locked = false)
    (hheld : ∀ ip, 0 < (s.icache ip).ref → (s.icache ip).inum < 64) : Walkable wideLayout s := by
  refine ⟨hsynced, href, hunlocked, fun ip hpos => wide_live hdisk (hheld ip hpos),
    wide_live hdisk (by decide), ?_, ?_⟩
  · intro i hi hdir
    rw [hdisk] at hdir ⊢
    rw [(wide_inodes i hi).1 hdir]
    exact wide_directory
  · intro i hi hdir name j hbound
    rw [hdisk] at hdir hbound
    rw [(wide_inodes i hi).1 hdir] at hbound
    rw [wide_bound hbound]
    exact wide_live hdisk (by decide)

end

/-- The path `//a/` in a state with an empty cache. -/
theorem path_walk_wide : ∃ r s', namei wideLayout 0 [0x2f, 0x2f, 0x61, 0x2f]
      (FsState.boot wideDisk []) = .ok (r, s') ∧
    Walked wideLayout (FsState.boot wideDisk []) (some 2) r s' := by
  have hsynced : Synced wideLayout (FsState.boot wideDisk []) :=
    ⟨fun h => absurd h (lt_irrefl 0), fun h => absurd h (lt_irrefl 0),
      fun h => absurd h (lt_irrefl 0), fun h => absurd h (lt_irrefl 0),
      fun h => absurd h (lt_irrefl 0)⟩
  have hw : Walkable wideLayout (FsState.boot wideDisk []) :=
    wide_walkable rfl hsynced (fun _ => le_rfl) (fun _ => rfl) fun ip h => absurd h (lt_irrefl 0)
  have hfree : TwoFree (FsState.boot wideDisk []) := ⟨0, 1, by decide, rfl, rfl⟩
  obtain ⟨-, hnamei, -⟩ := path_walk hw 0 [0x2f, 0x2f, 0x61, 0x2f] fun hno => absurd rfl hno
  obtain ⟨r, s', hok, hwalked⟩ := (hnamei.weaken fun _ hfault => hfault.2 hfree).returns
  have htarget : wideLayout.follow (FsState.boot wideDisk []).disk
      (startOf (FsState.boot wideDisk []) 0 [0x2f, 0x2f, 0x61, 0x2f])
      (components [0x2f, 0x2f, 0x61, 0x2f]) = some 2 := by decide +kernel
  rw [htarget] at hwalked
  exact ⟨r, s', hok, hwalked⟩

/-- Every entry of the cache is in use, none of them for the root. -/
def fullCache : FsState where
  disk := wideDisk
  icache := fun ip => { dev := ROOTDEV, inum := ip.val + 2, ref := 1 }
  outstanding := 1

/-- With no free entry in the cache `namei` of the root panics. -/
theorem namei_with_full_cache : Walkable wideLayout fullCache ∧
    wideLayout.follow wideDisk (startOf fullCache 0 [0x2f]) (components [0x2f]) = some ROOTINO ∧
    namei wideLayout 0 [0x2f] fullCache = .error .igetNoInodes := by
  have hsynced : Synced wideLayout fullCache := by
    refine ⟨fun _ h => ?_, fun _ h => ?_, fun _ h => ?_, fun _ => rfl, fun {ip jp} _ _ heq => ?_⟩
    · cases h
    · cases h
    · cases h
    · have hval : ip.val + 2 = jp.val + 2 := heq
      apply Fin.ext
      omega
  refine ⟨wide_walkable rfl hsynced (fun _ => Int.one_nonneg) (fun _ => rfl) ?_, rfl, ?_⟩
  · intro ip _
    have hlt : ip.val < 50 := ip.isLt
    show ip.val + 2 < 64
    omega
  · exact eq_error_of_errorOf (by decide +kernel)

end Xv6Threads.Fs
