/-
# What a page directory refers to

A directory is read as a whole: the page tables its entries name, and for every page of
the address space the entry for it, if that is present. Every frame the allocator has
given out has one owner: a directory, as itself, as one of its page tables or as one of
its user pages; a caller that has not stored it yet; or somebody outside user memory.
The kernel's own mappings, which are the same in every directory, own nothing.
-/

import Xv6Threads.Lib.Ownership
import Xv6Threads.Vm.Entries

namespace Xv6Threads.Vm

open Lib

/-- The pages below `KERNBASE`. -/
@[reducible] def UPAGES : ℕ := 0x80000

def pdeOf (s : PMem) (d i : ℕ) : Word := wordAt (s.mem d) (4 * i)

/-- The page table for entry `i` of directory `d`. -/
def tableOf (s : PMem) (d i : ℕ) : Option ℕ :=
  if present (pdeOf s d i) then some (frame (pdeOf s d i)) else none

/-- The entry for page `k` in directory `d`, if it is present. -/
def pteOf (s : PMem) (d k : ℕ) : Option Word :=
  (tableOf s d (k / 1024)).bind fun t =>
    let pte := wordAt (s.mem t) (4 * (k % 1024))
    if present pte then some pte else none

/-- The user pages of `d` that are present are those below `sz`. -/
structure Matches (s : PMem) (d : ℕ) (sz : Word) : Prop where
  size : sz.toNat ≤ KERNBASE
  pages : ∀ j < UPAGES, (pteOf s d j).isSome = true ↔ j * PGSIZE < sz.toNat

/-- What a directory can refer to. -/
inductive Place
  | dir
  | table (i : ℕ)
  | page (k : ℕ)
  deriving DecidableEq

/-- Directory `d` refers to frame `f` in a place. -/
def Refers (s : PMem) (d : ℕ) : Place → ℕ → Prop
  | .dir, f => f = d
  | .table i, f => i < NPDENTRIES ∧ tableOf s d i = some f
  | .page k, f => k < UPAGES ∧ ∃ pte, pteOf s d k = some pte ∧ frame pte = f

/-- The frames `kfree` accepts. -/
def Layout.Allocatable (L : Layout) (f : ℕ) : Prop := L.kend ≤ f ∧ f < PHYSTOP / PGSIZE

/-- The directories in `D` own their frames, `other` are the frames in use elsewhere, and
`loose` those a running function holds. -/
structure Sound (L : Layout) (D other loose : Set ℕ) (s : PMem) : Prop where
  owned : Owned (· ∈ other) (fun f => L.Allocatable f ∧ f ∉ other) (· ∉ s.free)
    (fun (x : ℕ × Place) f => x.1 ∈ D ∧ Refers s x.1 x.2 f) loose
  nodup : s.free.Nodup
  range : ∀ f ∈ s.free, L.Allocatable f

section

variable {L : Layout} {D other loose : Set ℕ} {s s' : PMem} {d d' f g i k t : ℕ} {w : Word}

theorem Layout.Allocatable.lt (h : L.Allocatable f) : f < 2 ^ 20 := by
  have hstop := h.2
  change f < 0xE000000 / 4096 at hstop
  omega

theorem Layout.Allocatable.pos (h : L.Allocatable f) : 0 < f := by
  have htext := L.text
  have horder := L.order
  have hend := h.1
  omega

theorem refers_dir (s : PMem) (d : ℕ) : Refers s d .dir d := rfl

/-! ## Distinct frames -/

namespace Sound

theorem not_free (h : Sound L D other loose s) (hd : d ∈ D) {p : Place} (hf : Refers s d p f) :
    f ∉ s.free :=
  h.owned.marked_of_ref (p := (d, p)) ⟨hd, hf⟩

theorem allocatable (h : Sound L D other loose s) (hd : d ∈ D) {p : Place}
    (hf : Refers s d p f) : L.Allocatable f :=
  (h.owned.inPool (p := (d, p)) ⟨hd, hf⟩).1

theorem not_loose (h : Sound L D other loose s) (hd : d ∈ D) {p : Place}
    (hf : Refers s d p f) : f ∉ loose :=
  fun hloose => h.owned.looseFree (p := (d, p)) hloose ⟨hd, hf⟩

theorem unique (h : Sound L D other loose s) (hd : d ∈ D) (hd' : d' ∈ D) {p q : Place}
    (hf : Refers s d p f) (hf' : Refers s d' q f) : d = d' ∧ p = q := by
  have heq := h.owned.once (p := (d, p)) (q := (d', q)) ⟨hd, hf⟩ ⟨hd', hf'⟩
  exact ⟨congrArg Prod.fst heq, congrArg Prod.snd heq⟩

/-- A user page is no part of its directory. -/
theorem page_outside (h : Sound L D other loose s) (hd : d ∈ D) (hf : Refers s d (.page k) f) :
    f ≠ d ∧ ∀ i < NPDENTRIES, tableOf s d i ≠ some f := by
  constructor
  · rintro rfl
    cases (h.unique hd hd hf (refers_dir s f)).2
  · intro i hi ht
    cases (h.unique hd hd hf (q := .table i) ⟨hi, ht⟩).2

theorem page_inj (h : Sound L D other loose s) (hd : d ∈ D) {j : ℕ}
    (hf : Refers s d (.page j) f) (hf' : Refers s d (.page k) f) : j = k :=
  Place.page.inj (h.unique hd hd hf hf').2

end Sound

/-! ## Memories that look the same to a directory -/

/-- The pages that hold directory `d` are the same. -/
structure SameView (d : ℕ) (s s' : PMem) : Prop where
  dir : s'.mem d = s.mem d
  tables : ∀ i < NPDENTRIES, ∀ t, tableOf s d i = some t → s'.mem t = s.mem t

theorem SameView.of_refers (h : ∀ p f, Refers s d p f → s'.mem f = s.mem f) : SameView d s s' :=
  ⟨h .dir d (refers_dir s d), fun i hi t ht => h (.table i) t ⟨hi, ht⟩⟩

theorem SameView.tableOf (h : SameView d s s') (i : ℕ) : tableOf s' d i = tableOf s d i := by
  rw [Vm.tableOf, Vm.tableOf, pdeOf, pdeOf, h.dir]

theorem SameView.pteOf (h : SameView d s s') (hk : k < 2 ^ 20) : pteOf s' d k = pteOf s d k := by
  rw [Vm.pteOf, Vm.pteOf, h.tableOf]
  cases ht : Vm.tableOf s d (k / 1024) with
  | none => rfl
  | some t =>
    have hindex : k / 1024 < 1024 := by omega
    simp only [Option.bind_some, h.tables (k / 1024) hindex t ht]

theorem SameView.refers (h : SameView d s s') (p : Place) (f : ℕ) :
    Refers s' d p f ↔ Refers s d p f := by
  cases p with
  | dir => exact Iff.rfl
  | table i => rw [Refers, Refers, h.tableOf]
  | page k =>
    refine and_congr_right fun hk => ?_
    have hk' : k < 2 ^ 20 := hk.trans (by decide)
    rw [h.pteOf hk']

/-- Only pages outside the directories changed. -/
theorem Sound.of_sameView (h : Sound L D other loose s) (hfree : s'.free = s.free)
    (hsame : ∀ d ∈ D, SameView d s s') : Sound L D other loose s' where
  owned := by
    apply h.owned.congr
    · intro f _
      rw [hfree]
    · intro x f
      exact and_congr_right fun hx => (hsame x.1 hx).refers x.2 f
  nodup := hfree ▸ h.nodup
  range := hfree ▸ h.range

theorem sameView_fill (hd : g ≠ d) (ht : ∀ i < NPDENTRIES, tableOf s d i ≠ some g) (p : Page) :
    SameView d s (s.fill g p) where
  dir := Function.update_of_ne hd.symm _ _
  tables i hi t htable := by
    apply Function.update_of_ne
    intro heq
    exact ht i hi (heq ▸ htable)

/-- A page that is no directory and no page table can be changed freely. -/
theorem Sound.fill (h : Sound L D other loose s)
    (hg : ∀ d ∈ D, ¬Refers s d .dir g ∧ ∀ i, ¬Refers s d (.table i) g) (p : Page) :
    Sound L D other loose (s.fill g p) := by
  refine h.of_sameView rfl fun d hd => sameView_fill (hg d hd).1 ?_ p
  intro i hi htable
  exact (hg d hd).2 i ⟨hi, htable⟩

theorem Sound.fill_loose (h : Sound L D other loose s) (hg : g ∈ loose) (p : Page) :
    Sound L D other loose (s.fill g p) :=
  h.fill (fun _ hd => ⟨fun hr => h.not_loose hd hr hg, fun _ hr => h.not_loose hd hr hg⟩) p

theorem Sound.fill_page (h : Sound L D other loose s) (hd : d ∈ D)
    (hg : Refers s d (.page k) g) (p : Page) : Sound L D other loose (s.fill g p) := by
  apply h.fill
  intro d' hd'
  constructor
  · intro hr
    cases (h.unique hd hd' hg hr).2
  · intro i hr
    cases (h.unique hd hd' hg hr).2

/-! ## Writing an entry -/

theorem mem_put_self (s : PMem) (g i : ℕ) (w : Word) :
    (s.put g i w).mem g = putWord (s.mem g) (4 * i) w :=
  Function.update_self ..

theorem mem_put_of_ne (hg : f ≠ g) : (s.put g i w).mem f = s.mem f :=
  Function.update_of_ne hg ..

theorem wordAt_put (s : PMem) (g i : ℕ) (w : Word) (j : ℕ) :
    wordAt ((s.put g i w).mem g) (4 * j) = if j = i then w else wordAt (s.mem g) (4 * j) := by
  rw [mem_put_self]
  split
  next heq => rw [heq, wordAt_putWord]
  next hne => exact wordAt_putWord_of_disjoint (by omega)

theorem tableOf_put_dir (s : PMem) (d i : ℕ) (w : Word) (j : ℕ) :
    tableOf (s.put d i w) d j =
      if j = i then (if present w then some (frame w) else none) else tableOf s d j := by
  rw [tableOf, pdeOf, wordAt_put]
  split
  next => rfl
  next => rfl

theorem tableOf_put_of_ne (hd : d ≠ g) (j : ℕ) : tableOf (s.put g i w) d j = tableOf s d j := by
  rw [tableOf, tableOf, pdeOf, pdeOf, mem_put_of_ne hd]

/-- A table of one directory is no page that another directory is made of. -/
theorem Sound.sameView_put (h : Sound L D other loose s) (hd : d ∈ D) {p : Place}
    (hg : Refers s d p g) (hd' : d' ∈ D) (hne : d' ≠ d) : SameView d' s (s.put g i w) := by
  apply sameView_fill
  · rintro rfl
    exact hne (h.unique hd hd' hg (refers_dir s g)).1.symm
  · intro j hj htable
    exact hne (h.unique hd hd' hg (q := .table j) ⟨hj, htable⟩).1.symm

theorem Sound.table_ne_dir (h : Sound L D other loose s) (hd : d ∈ D) (hi : i < NPDENTRIES)
    (ht : tableOf s d i = some t) : t ≠ d := by
  rintro rfl
  cases (h.unique hd hd (p := .table i) (q := .dir) ⟨hi, ht⟩ rfl).2

theorem Sound.table_inj (h : Sound L D other loose s) (hd : d ∈ D) {j : ℕ}
    (hi : i < NPDENTRIES) (hj : j < NPDENTRIES) (ht : tableOf s d i = some t)
    (ht' : tableOf s d j = some t) : i = j := by
  cases (h.unique hd hd (p := .table i) (q := .table j) ⟨hi, ht⟩ ⟨hj, ht'⟩).2
  rfl

/-- An entry of the directory written where there was none: the new table is empty, so no
page is mapped by it. -/
theorem pteOf_addTable (h : Sound L D other loose s) (hd : d ∈ D)
    (hnone : tableOf s d i = none) (ht : frame w ∈ loose) (hzero : s.mem (frame w) = fun _ => 0)
    (hw : present w = true) (hk : k < 2 ^ 20) : pteOf (s.put d i w) d k = pteOf s d k := by
  have hne : frame w ≠ d := by
    rintro heq
    exact h.not_loose hd (refers_dir s d) (heq ▸ ht)
  rw [pteOf, pteOf, tableOf_put_dir]
  by_cases heq : k / 1024 = i
  · rw [if_pos heq, if_pos hw, heq, hnone]
    simp [mem_put_of_ne hne, hzero]
  · rw [if_neg heq]
    cases htable : tableOf s d (k / 1024) with
    | none => rfl
    | some t =>
      have hindex : k / 1024 < NPDENTRIES := by
        change k / 1024 < 1024
        omega
      simp only [Option.bind_some, mem_put_of_ne (h.table_ne_dir hd hindex htable)]

theorem Sound.addTable (h : Sound L D other loose s) (hd : d ∈ D) (hi : i < NPDENTRIES)
    (hnone : tableOf s d i = none) (ht : frame w ∈ loose) (hzero : s.mem (frame w) = fun _ => 0)
    (hw : present w = true) : Sound L D other (loose \ {frame w}) (s.put d i w) where
  owned := by
    apply h.owned.attach ht (p := (d, .table i))
    · rintro c ⟨-, -, hc⟩
      rw [hnone] at hc
      cases hc
    · rintro ⟨d', p⟩ c
      by_cases hd' : d' = d
      · subst hd'
        cases p with
        | dir => simp [Refers]
        | table j =>
          simp only [Refers, tableOf_put_dir, hw, if_true, Prod.mk.injEq, Place.table.injEq,
            true_and]
          split
          next heq => simp [heq, hnone, hi, hd, eq_comm]
          next hne => simp [hne]
        | page k =>
          have hpte (hk : k < UPAGES) := pteOf_addTable h hd hnone ht hzero hw
            (hk.trans (by decide))
          simp only [Refers, Prod.mk.injEq, reduceCtorEq, and_false, false_and, or_false]
          refine and_congr_right fun _ => and_congr_right fun hk => ?_
          rw [hpte hk]
      · have hother : (d', p) ≠ (d, Place.table i) := fun heq => hd' (congrArg Prod.fst heq)
        simp only [hother, false_and, or_false]
        refine and_congr_right fun hmem => ?_
        exact (h.sameView_put hd (refers_dir s d) hmem hd').refers p c
  nodup := h.nodup
  range := h.range

/-! ## Writing the entry of a page -/

theorem pteOf_put (h : Sound L D other loose s) (hd : d ∈ D) {m : ℕ} (hm : m < 2 ^ 20)
    (ht : tableOf s d (m / 1024) = some t) (hk : k < 2 ^ 20) :
    pteOf (s.put t (m % 1024) w) d k =
      if k = m then (if present w then some w else none) else pteOf s d k := by
  have hindex (n : ℕ) (hn : n < 2 ^ 20) : n / 1024 < NPDENTRIES := by
    change n / 1024 < 1024
    omega
  have hne := h.table_ne_dir hd (hindex m hm) ht
  rw [pteOf, pteOf, tableOf_put_of_ne hne.symm]
  by_cases hkm : k = m
  · subst hkm
    rw [ht, if_pos rfl]
    simp only [Option.bind_some, wordAt_put, if_true]
  · rw [if_neg hkm]
    cases htable : tableOf s d (k / 1024) with
    | none => rfl
    | some t' =>
      simp only [Option.bind_some]
      by_cases htt : t' = t
      · subst htt
        have hsame := h.table_inj hd (hindex k hk) (hindex m hm) htable ht
        have hoff : k % 1024 ≠ m % 1024 := by omega
        rw [wordAt_put, if_neg hoff]
      · rw [mem_put_of_ne htt]

/-- What the directory refers to once the entry for page `m` is `w`. -/
theorem refers_put (h : Sound L D other loose s) (hd : d ∈ D) {m : ℕ} (hm : m < 2 ^ 20)
    (ht : tableOf s d (m / 1024) = some t) (p : Place) (f : ℕ) :
    Refers (s.put t (m % 1024) w) d p f ↔
      if p = .page m then m < UPAGES ∧ present w = true ∧ frame w = f else Refers s d p f := by
  have hindex : m / 1024 < NPDENTRIES := by
    change m / 1024 < 1024
    omega
  have hne := h.table_ne_dir hd hindex ht
  cases p with
  | dir => simp [Refers]
  | table i => simp [Refers, tableOf_put_of_ne hne.symm]
  | page k =>
    by_cases hkm : k = m
    · subst hkm
      rw [if_pos rfl, Refers, pteOf_put h hd hm ht hm, if_pos rfl]
      cases hw : present w <;> simp
    · rw [if_neg (by simp [hkm]), Refers, Refers]
      refine and_congr_right fun hk => ?_
      rw [pteOf_put h hd hm ht (hk.trans (by decide)), if_neg hkm]

/-- The same for the whole set of directories. -/
theorem owner_put (h : Sound L D other loose s) (hd : d ∈ D) {m : ℕ} (hm : m < 2 ^ 20)
    (ht : tableOf s d (m / 1024) = some t) (x : ℕ × Place) (f : ℕ) :
    (x.1 ∈ D ∧ Refers (s.put t (m % 1024) w) x.1 x.2 f) ↔
      if x = (d, .page m) then m < UPAGES ∧ present w = true ∧ frame w = f
      else x.1 ∈ D ∧ Refers s x.1 x.2 f := by
  obtain ⟨d', p⟩ := x
  by_cases hd' : d' = d
  · subst hd'
    simp only [refers_put h hd hm ht, Prod.mk.injEq, true_and, hd]
  · rw [if_neg fun heq => hd' (congrArg Prod.fst heq)]
    have hindex : m / 1024 < NPDENTRIES := by
      change m / 1024 < 1024
      omega
    refine and_congr_right fun hmem => ?_
    exact (h.sameView_put hd (p := .table (m / 1024)) ⟨hindex, ht⟩ hmem hd').refers p f

section

variable {m : ℕ} (h : Sound L D other loose s) (hd : d ∈ D)
  (ht : tableOf s d (m / 1024) = some t)

include h hd ht

/-- A loose frame becomes a user page. -/
theorem Sound.addPage (hm : m < UPAGES) (hnone : pteOf s d m = none) (hw : present w = true)
    (hf : frame w ∈ loose) : Sound L D other (loose \ {frame w}) (s.put t (m % 1024) w) where
  owned := by
    apply h.owned.attach hf (p := (d, .page m))
    · rintro c ⟨-, -, pte, hpte, -⟩
      rw [hnone] at hpte
      cases hpte
    · intro x c
      rw [owner_put h hd (hm.trans (by decide)) ht]
      by_cases hx : x = (d, .page m)
      · subst hx
        simp [hm, hw, Refers, hnone, eq_comm]
      · simp [hx]
  nodup := h.nodup
  range := h.range

/-- The kernel's pages have no owner. -/
theorem Sound.setKernel (hm : m < 2 ^ 20) (hkern : UPAGES ≤ m) :
    Sound L D other loose (s.put t (m % 1024) w) where
  owned := by
    apply h.owned.congr (fun _ _ => Iff.rfl)
    intro x c
    rw [owner_put h hd hm ht]
    split
    next heq =>
      subst heq
      have hnot : ¬m < UPAGES := Nat.not_lt.mpr hkern
      simp [hnot, Refers]
    next => exact Iff.rfl
  nodup := h.nodup
  range := h.range

/-- Other flags for a page. -/
theorem Sound.setFlags (hm : m < UPAGES)
    (hframe : (if present w then some (frame w) else none) = (pteOf s d m).map frame) :
    Sound L D other loose (s.put t (m % 1024) w) where
  owned := by
    apply h.owned.congr (fun _ _ => Iff.rfl)
    intro x c
    rw [owner_put h hd (hm.trans (by decide)) ht]
    split
    next heq =>
      subst heq
      cases hw : present w <;> cases hpte : pteOf s d m <;> simp_all [Refers]
    next => exact Iff.rfl
  nodup := h.nodup
  range := h.range

/-- A user page becomes a loose frame. -/
theorem Sound.dropPage {pte : Word} (hm : m < UPAGES) (hpte : pteOf s d m = some pte) :
    Sound L D other (insert (frame pte) loose) (s.put t (m % 1024) 0) where
  owned := by
    have hset : insert (frame pte) loose =
        loose ∪ {c | ∃ x : ℕ × Place, x = (d, .page m) ∧ (x.1 ∈ D ∧ Refers s x.1 x.2 c)} := by
      ext c
      simp [Refers, hpte, hd, hm, or_comm, eq_comm]
    rw [hset]
    apply h.owned.detach
    intro x c
    rw [owner_put h hd (hm.trans (by decide)) ht]
    split
    next heq => simp [heq]
    next hne => simp [hne]
  nodup := h.nodup
  range := h.range

end

/-! ## The allocator -/

theorem Sound.not_free_of_loose (h : Sound L D other loose s) (hf : f ∈ loose) : f ∉ s.free :=
  h.owned.marked_of_loose hf

theorem Sound.allocatable_of_loose (h : Sound L D other loose s) (hf : f ∈ loose) :
    L.Allocatable f :=
  (h.owned.looseInPool hf).1

theorem Sound.kalloc (h : Sound L D other loose s) {rest : List ℕ} (hfree : s.free = f :: rest)
    (fails : List Bool) :
    Sound L D other (insert f loose) { s with free := rest, fails := fails } where
  owned := by
    have hf : f ∈ s.free := hfree ▸ List.mem_cons_self
    have hrange := h.range f hf
    have hother : f ∉ other := fun ho => (h.owned.markedIff (.inl ho)).mpr (.inl ho) hf
    apply h.owned.claim ⟨hrange, hother⟩ (fun hmarked => hmarked hf)
    intro c _
    have hnodup := h.nodup
    rw [hfree, List.nodup_cons] at hnodup
    simp only [hfree, List.mem_cons, not_or]
    by_cases hc : c = f
    · subst hc
      simp [hnodup.1]
    · simp [hc]
  nodup := by
    have hnodup := h.nodup
    rw [hfree, List.nodup_cons] at hnodup
    exact hnodup.2
  range c hc := h.range c (by rw [hfree]; exact List.mem_cons_of_mem _ hc)

theorem Sound.kfree (h : Sound L D other loose s) (hf : f ∈ loose) (p : Page) :
    Sound L D other (loose \ {f}) { s.fill f p with free := f :: s.free } where
  owned := by
    apply (h.fill_loose hf p).owned.release hf (h.owned.looseInPool hf).2
    intro c _
    simp [PMem.fill, and_comm]
  nodup := List.nodup_cons.mpr ⟨h.not_free_of_loose hf, h.nodup⟩
  range c hc := by
    rcases List.mem_cons.mp hc with rfl | hc
    · exact h.allocatable_of_loose hf
    · exact h.range c hc

/-- Which frames are free is determined by the owners of the others. -/
theorem Sound.free_iff (h : Sound L D other loose s) (h' : Sound L D other loose s')
    (hsame : ∀ d ∈ D, ∀ p f, Refers s' d p f ↔ Refers s d p f) (f : ℕ) :
    f ∈ s'.free ↔ f ∈ s.free := by
  by_cases hf : f ∈ other ∨ (L.Allocatable f ∧ f ∉ other)
  · have hmarked : (f ∉ s'.free) ↔ (f ∉ s.free) := by
      rw [h'.owned.markedIff hf, h.owned.markedIff hf]
      refine or_congr_right (or_congr_right ?_)
      exact exists_congr fun x => and_congr_right fun hx => hsame x.1 hx x.2 f
    exact not_iff_not.mp hmarked
  · rw [not_or, not_and_not_right] at hf
    have hnot : ¬L.Allocatable f := fun ha => hf.1 (hf.2 ha)
    exact ⟨fun hin => absurd (h'.range f hin) hnot, fun hin => absurd (h.range f hin) hnot⟩

/-- Before there is any directory. What is not free is in use elsewhere. -/
theorem sound_start (L : Layout) (mem : ℕ → Page) (fails : List Bool) {free : List ℕ}
    (hnodup : free.Nodup) (hrange : ∀ f ∈ free, L.Allocatable f) :
    Sound L ∅ {f | L.Allocatable f ∧ f ∉ free} ∅ ⟨mem, free, fails⟩ where
  owned :=
    { inPool := fun h => h.1.elim
      once := fun h => h.1.elim
      looseInPool := fun h => h.elim
      looseFree := fun h => h.elim
      markedIff := by
        intro f hf
        have halloc : L.Allocatable f := hf.elim (fun h => h.1) (fun h => h.1)
        simp [halloc] }
  nodup := hnodup
  range := hrange

end

end Xv6Threads.Vm
