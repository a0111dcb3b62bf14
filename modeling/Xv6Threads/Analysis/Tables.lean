/-
# Shared descriptor tables

Processes that share files keep a table each, and every descriptor call repeats
its write in the tables its arrays lead to. As long as processes share in pairs,
this writes the two tables of a pair and no other, so a pair acts as one table
with two owners. The module shows which calls leave that shape, and that in all
other runs a thread and the process that cloned it with `CLONE_FILES` have equal
tables.
-/

import Mathlib.Algebra.BigOperators.Fin
import Xv6Threads.Analysis.Sharing
import Xv6Threads.Lib.PairedCells

namespace Xv6Threads

open Lib
open Function (update update_eq_self update_eq_self_iff update_idem update_of_ne update_self)

variable {np : Slot} {fd : Fd} {ofile : Fd → Option FileIdx} {f : FileIdx} {ft ft' : Ftable}
variable {ic ic' : Icache}
variable {s s' : Kernel}

/-! ## What steps do to files and directories -/

/-- Two states that agree on descriptors, directories and who shares them. -/
structure SameFs (s s' : Kernel) : Prop where
  ofile : ∀ q, (s'.procs q).ofile = (s.procs q).ofile
  cwd : ∀ q, (s'.procs q).cwd = (s.procs q).cwd
  cwdGen : ∀ q, (s'.procs q).cwdGen = (s.procs q).cwdGen
  ofileClone : ∀ q, (s'.procs q).ofileClone = (s.procs q).ofileClone
  cwdClone : ∀ q, (s'.procs q).cwdClone = (s.procs q).cwdClone
  live : ∀ q, (s'.procs q).Live ↔ (s.procs q).Live
  ftable : s'.ftable = s.ftable
  icache : s'.icache = s.icache

theorem SameFs.ofiles (h : SameFs s s') : s'.ofiles = s.ofiles := by
  funext q
  exact h.ofile q

theorem IsTouch.sameFs {p : Slot} (h : IsTouch s p s') : SameFs s s' := by
  obtain ⟨st, ch, k, ht⟩ := id h
  refine ⟨?_, ?_, ?_, ?_, ?_, h.sameTree.live, ht.ftable, ht.icache⟩
  all_goals
    intro q
    rw [ht.procs]

theorem SpawnFailed.sameFs (h : SpawnFailed s np s') : SameFs s s' := by
  have hlive := h.live_iff
  have hrest := h.rest_eq
  obtain ⟨_, _, _, _, _, _, -, rfl⟩ := h
  refine ⟨?_, ?_, ?_, ?_, ?_, hlive, hrest.2.2.2.2.1, hrest.2.2.2.2.2.1⟩
  all_goals
    intro q
    by_cases hq : q = np
    · rw [hq]
      simp
    · simp [Kernel.setProc_procs_of_ne _ _ _ hq]

theorem Reaped.sameFs {q z : Slot} (h : Reaped s q z s') : SameFs s s' := by
  obtain ⟨_, hfreed⟩ := h.freed
  refine ⟨?_, ?_, ?_, ?_, ?_, h.live_iff, h.ftable, h.icache⟩
  all_goals
    intro r
    by_cases hr : r = z
    · rw [hr, hfreed]
    · rw [h.kept r hr]

theorem SameFs.trans {s₁ : Kernel} (h : SameFs s s₁) (h' : SameFs s₁ s') : SameFs s s' where
  ofile q := (h'.ofile q).trans (h.ofile q)
  cwd q := (h'.cwd q).trans (h.cwd q)
  cwdGen q := (h'.cwdGen q).trans (h.cwdGen q)
  ofileClone q := (h'.ofileClone q).trans (h.ofileClone q)
  cwdClone q := (h'.cwdClone q).trans (h.cwdClone q)
  live q := (h'.live q).trans (h.live q)
  ftable := h'.ftable.trans h.ftable
  icache := h'.icache.trans h.icache

theorem sameFs_setProc {p : Slot} {d : Option PageAddr} {sz : ℕ}
    (hprocs : s'.procs = update s.procs p { s.procs p with pgdir := d, sz := sz })
    (hftable : s'.ftable = s.ftable) (hicache : s'.icache = s.icache) : SameFs s s' := by
  have hproc : ∀ q, ∃ d sz, s'.procs q = { s.procs q with pgdir := d, sz := sz } := by
    intro q
    rw [hprocs]
    by_cases hq : q = p
    · exact ⟨d, sz, by rw [hq, update_self]⟩
    · exact ⟨_, _, by rw [update_of_ne hq]⟩
  refine ⟨?_, ?_, ?_, ?_, ?_, ?_, hftable, hicache⟩
  all_goals
    intro q
    obtain ⟨_, _, hq⟩ := hproc q
    rw [hq]
  rfl

/-- The steps that change descriptors, directories or sharing. -/
inductive FsChange (s : Kernel) : Event → Kernel → Prop
  | same {e : Event} {s' : Kernel} (h : SameFs s s') : FsChange s e s'
  | walked {e : Event} {p : Slot} {w : Walk} {s' : Kernel} (hp : (s.procs p).state = .running)
      (h : LookupDropped s p w s'.icache) (hsame : SameFs { s with icache := s'.icache } s') :
      FsChange s e s'
  | spawned {p np : Slot} {c : Call} {flags : BitVec 32} {env : SpawnEnv} {child : Proc}
      {s' : Kernel} (hp : (s.procs p).state = .running)
      (hc : flags = 0 ∨ c = .clone flags env) (h : Spawned s p np flags env child s') :
      FsChange s (.call p c) s'
  | exited {p : Slot} {st : Slot → ProcState} {s' : Kernel} (hp : (s.procs p).state = .running)
      (h : Exited s p st s') : FsChange s (.call p .exit) s'
  | filed {p : Slot} {c : Call} {s' : Kernel} {r : Option ℤ} (hp : (s.procs p).state = .running)
      (hc : c.isFile = true) (hrun : syscall s p c = .ok (s', r)) : FsChange s (.call p c) s'
  | moved {e : Event} {p : Slot} {w : Walk} {s' : Kernel} (hp : (s.procs p).state = .running)
      (h : Moved s p w s') : FsChange s e s'

theorem step_fs {e : Event} (h : Step s e s') : FsChange s e s' := by
  cases step_effect h with
  | touched h _ | slept hq h _ | spawnFailed hcut h => exact .same h.sameFs
  | forked hen h hfork => exact .spawned hen.1 (.inl rfl) h
  | cloned hen h hclone => exact .spawned hen.1 (.inr rfl) h
  | exited hen h => exact .exited hen.1 h
  | waited hq hc htouch hstate hscan h hpgdir hfree
  | joined hq hc htouch hstate helig h hpgdirs hret => exact .same (htouch.sameFs.trans h.sameFs)
  | filed hen hc hrun => exact .filed hen.1 hc hrun
  | @walked p _ _ ic hen hlookup =>
    exact .walked hen.1 hlookup (isTouch_refl { s with icache := ic } p).sameFs
  | moved hen h => exact .moved hen.1 h
  | @execed p _ _ hen h =>
    obtain ⟨d, old, mem, sz, -, -, -, -, -, hprocs⟩ := h.image
    exact .walked hen.1 h.icache (sameFs_setProc hprocs h.ftable rfl)
  | resized hen h =>
    obtain rfl := h.shape
    exact .same (sameFs_setProc rfl rfl rfl)

/-! ## Propagation inside a pair -/

section Propagation

variable {peers : Slot → PeerList} {partner : Slot → Option Slot} {p : Slot}

theorem uniform_peerNbr (h : UniformLists peers partner) : Uniform (peerNbr peers) partner := by
  intro q
  refine ⟨?_, ?_⟩
  · rw [peerNbr]
    exact List.ne_nil_of_mem (List.mem_map.mpr ⟨0, List.mem_finRange 0, rfl⟩)
  · intro x hx
    obtain ⟨i, -, rfl⟩ := List.mem_map.mp hx
    exact h q i

/-- A propagation that finds partners equal reaches the caller's partner, and
then the caller itself, and ends there. -/
theorem propagate_paired {β : Type} [DecidableEq β] (huni : UniformLists peers partner)
    (hmutual : Mutual partner) (hself : partner p ≠ some p) {v : β} {cells cells' : Slot → β}
    (hmiss : ∀ r, partner p = some r → cells r ≠ v)
    (h : propagate peers v p cells = .ok cells') :
    (partner p = none → cells' = cells) ∧
      ∀ r, partner p = some r → cells' = update (update cells r v) p v := by
  have hnbr := uniform_peerNbr huni
  rw [propagate] at h
  refine ⟨?_, ?_⟩
  · intro hnone
    rw [flood_of_partner_none hnbr NPROC hnone] at h
    exact (Except.ok.inj h).symm
  · intro r hr
    have hrp : r ≠ p := fun hrp => hself (by rw [hr, hrp])
    have hflood : flood (peerNbr peers) v (NPROC + 1) p cells = _ :=
      flood_of_mutual hnbr 62 hr (hmutual p r hr) hrp (hmiss r hr)
    rw [hflood] at h
    exact (Except.ok.inj h).symm

/-- Writing one entry of the caller's table and propagating the column amounts
to writing the entry in the pair's table. -/
theorem setColumn_paired (huni : UniformLists peers partner) (hmutual : Mutual partner)
    (hself : partner p ≠ some p) {tables : FdTables} (hagree : Agree partner tables)
    {v : Option FileIdx} (hv : tables p fd ≠ v) {column : Slot → Option FileIdx}
    (h : propagate peers v p (fun q => setFd tables p fd v q fd) = .ok column) :
    setColumn (setFd tables p fd v) fd column =
      setPair partner p (update (tables p) fd v) tables := by
  have hcells : (fun q => setFd tables p fd v q fd) =
      update (fun q => tables q fd) p v := by
    funext q
    by_cases hq : q = p
    · rw [hq, setFd, update_self, update_self, update_self]
    · rw [setFd, update_of_ne hq, update_of_ne hq]
  have hmiss : ∀ r, partner p = some r → update (fun q => tables q fd) p v r ≠ v := by
    intro r hr
    have hrp : r ≠ p := fun hrp => hself (by rw [hr, hrp])
    rw [update_of_ne hrp, ← hagree p r hr]
    exact hv
  rw [hcells] at h
  obtain ⟨hnone, hsome⟩ := propagate_paired huni hmutual hself hmiss h
  funext q
  by_cases hq : q = p
  · subst hq
    have hcol : column q = v := by
      cases hp : partner q with
      | none => rw [hnone hp, update_self]
      | some r => rw [hsome r hp, update_self]
    rw [setColumn, setFd, update_self, hcol, update_idem, setPair_self]
  · rw [setColumn, setFd, update_of_ne hq]
    cases hp : partner p with
    | none =>
      rw [hnone hp, update_of_ne hq, update_eq_self, setPair_of_none hp,
        update_of_ne hq]
    | some r =>
      rw [hsome r hp, update_of_ne hq]
      by_cases hqr : q = r
      · subst hqr
        rw [update_self, setPair, if_pos (.inr hp), hagree p q hp]
      · rw [update_of_ne hqr, update_of_ne hq, update_eq_self, setPair,
          if_neg]
        rintro (hqp | hpq)
        · exact hq hqp
        · exact hqr (Option.some.inj (hpq.symm.trans hp))

theorem freeFd_none (h : freeFd ofile = none) (fd : Fd) : ofile fd ≠ none := by
  intro hfd
  have := List.find?_eq_none.mp h fd (List.mem_finRange fd)
  simp [hfd] at this

theorem fdalloc_none {tables : FdTables} (h : fdalloc peers tables p f = .ok none) (fd : Fd) :
    tables p fd ≠ none := by
  rw [fdalloc] at h
  split at h
  · rename_i hfree
    exact freeFd_none hfree fd
  · split at h <;> cases h

theorem fdalloc_paired (huni : UniformLists peers partner) (hmutual : Mutual partner)
    (hself : partner p ≠ some p) {tables tables' : FdTables} (hagree : Agree partner tables)
    (h : fdalloc peers tables p f = .ok (some (tables', fd))) :
    tables p fd = none ∧
      tables' = setPair partner p (update (tables p) fd (some f)) tables := by
  obtain ⟨hnone, column, hcolumn, rfl⟩ := fdalloc_some h
  exact ⟨hnone, setColumn_paired huni hmutual hself hagree (by simp [hnone]) hcolumn⟩

theorem closeOfileClone_paired (huni : UniformLists peers partner) (hmutual : Mutual partner)
    (hself : partner p ≠ some p) {tables tables' : FdTables} (hagree : Agree partner tables)
    (hfd : tables p fd ≠ none)
    (h : closeOfileClone peers (setFd tables p fd none) p fd = .ok tables') :
    tables' = setPair partner p (update (tables p) fd none) tables := by
  rw [closeOfileClone] at h
  split at h
  · cases h
  · rename_i hcolumn
    cases h
    exact setColumn_paired huni hmutual hself hagree hfd hcolumn

end Propagation

/-! ## Descriptor calls as writes to pairs -/

/-- The reference counts of the open-file table. -/
def fileRefs (ft : Ftable) : FileIdx → ℕ := fun f => (ft f).ref

/-- What a descriptor call does, seen as operations on the table of the
caller's pair: it takes free entries for files that gain a reference, and
clears entries of files that lose one. -/
inductive PairWrites (partner : Slot → Option Slot) (p : Slot) (tables : FdTables)
    (refs : FileIdx → ℕ) : FdTables → (FileIdx → ℕ) → Prop
  | nothing : PairWrites partner p tables refs tables refs
  | gain {tables' : FdTables} {refs' : FileIdx → ℕ} {fd : Fd} {f : FileIdx}
      (prior : PairWrites partner p tables refs tables' refs') (hfree : tables' p fd = none) :
      PairWrites partner p tables refs
        (setPair partner p (update (tables' p) fd (some f)) tables')
        (update refs' f (refs' f + 1))
  | lose {tables' : FdTables} {refs' : FileIdx → ℕ} {fd : Fd} {f : FileIdx}
      (prior : PairWrites partner p tables refs tables' refs') (hheld : tables' p fd = some f)
      (hpos : 1 ≤ refs' f) :
      PairWrites partner p tables refs
        (setPair partner p (update (tables' p) fd none) tables')
        (update refs' f (refs' f - 1))

section PairWrites

variable {partner : Slot → Option Slot} {p : Slot} {tables tables' : FdTables}
variable {refs refs' : FileIdx → ℕ}

theorem PairWrites.agree (h : PairWrites partner p tables refs tables' refs')
    (hmutual : Mutual partner) (hagree : Agree partner tables) : Agree partner tables' := by
  induction h with
  | nothing => exact hagree
  | gain _ _ ih | lose _ _ _ ih => exact ih.setPair hmutual _

theorem PairWrites.others (h : PairWrites partner p tables refs tables' refs') {q : Slot}
    (hq : q ≠ p) (hqp : partner p ≠ some q) : tables' q = tables q := by
  have hout : ¬ (q = p ∨ partner p = some q) := fun h => h.elim hq hqp
  induction h with
  | nothing => rfl
  | gain _ _ ih | lose _ _ _ ih => rw [setPair, if_neg hout, ih]

end PairWrites

theorem fileRefs_update (ft : Ftable) (f : FileIdx) (x : File) :
    fileRefs (update ft f x) = update (fileRefs ft) f x.ref := by
  funext g
  by_cases hg : g = f
  · rw [hg, fileRefs, update_self, update_self]
  · rw [fileRefs, update_of_ne hg, update_of_ne hg]
    rfl

theorem fileRefs_update_kind (ft : Ftable) (f : FileIdx) (k : FileKind) :
    fileRefs (update ft f { ft f with kind := k }) = fileRefs ft := by
  rw [fileRefs_update]
  exact update_eq_self f (fileRefs ft)

theorem fileRefs_filealloc (h : filealloc ft = some (ft', f)) :
    fileRefs ft f = 0 ∧ fileRefs ft' = update (fileRefs ft) f (fileRefs ft f + 1) := by
  obtain ⟨hzero, rfl⟩ := filealloc_some h
  have hzero' : fileRefs ft f = 0 := hzero
  refine ⟨hzero, ?_⟩
  rw [fileRefs_update, hzero']

theorem fileRefs_fileclose (h : fileclose ft ic f = .ok (ft', ic')) :
    1 ≤ fileRefs ft f ∧ fileRefs ft' = update (fileRefs ft) f (fileRefs ft f - 1) := by
  rcases fileclose_ok h with ⟨hmore, rfl, -⟩ | ⟨hlast, rfl, -⟩
  · refine ⟨hmore.le, ?_⟩
    rw [fileRefs_update]
    rfl
  · have hlast' : fileRefs ft f = 1 := hlast
    refine ⟨hlast'.ge, ?_⟩
    rw [fileRefs_update, hlast']

/-- Allocating a file and closing it again. -/
theorem fileRefs_alloc_close {ft₁ ft₂ : Ftable} (halloc : filealloc ft = some (ft₁, f))
    (hclose : fileclose ft₁ ic f = .ok (ft₂, ic')) :
    fileRefs ft₂ = fileRefs ft := by
  obtain ⟨-, hft₁⟩ := fileRefs_filealloc halloc
  rw [(fileRefs_fileclose hclose).2, hft₁, update_self, update_idem,
    Nat.add_sub_cancel, update_eq_self]

/-- Allocating two files and closing both again. -/
theorem fileRefs_alloc_close_two {ft₁ ft₂ ft₃ ft₄ ft₅ : Ftable} {ic₃ ic₄ ic₅ : Icache}
    {f₀ f₁ : FileIdx} (halloc₀ : filealloc ft = some (ft₁, f₀))
    (halloc₁ : filealloc ft₁ = some (ft₂, f₁)) (hsame : fileRefs ft₃ = fileRefs ft₂)
    (hclose₀ : fileclose ft₃ ic₃ f₀ = .ok (ft₄, ic₄))
    (hclose₁ : fileclose ft₄ ic₄ f₁ = .ok (ft₅, ic₅)) : fileRefs ft₅ = fileRefs ft := by
  obtain ⟨hzero₀, hft₁⟩ := fileRefs_filealloc halloc₀
  obtain ⟨hzero₁, hft₂⟩ := fileRefs_filealloc halloc₁
  have hne : f₁ ≠ f₀ := by
    rintro rfl
    rw [hft₁, update_self] at hzero₁
    cases hzero₁
  rw [(fileRefs_fileclose hclose₁).2, (fileRefs_fileclose hclose₀).2, hsame, hft₂, hft₁]
  funext g
  by_cases hg₁ : g = f₁
  · simp [hg₁, hne]
  · by_cases hg₀ : g = f₀
    · simp [hg₀, hne.symm]
    · simp [hg₀, hg₁]

theorem PipeFailed.fileRefs_eq (h : PipeFailed ft ic ft' ic') : fileRefs ft' = fileRefs ft := by
  cases h with
  | none => rfl
  | one halloc hclose => exact fileRefs_alloc_close halloc hclose
  | two halloc₀ halloc₁ hclose₀ hclose₁ =>
    exact fileRefs_alloc_close_two halloc₀ halloc₁ rfl hclose₀ hclose₁

/-- Exactly one descriptor is free. -/
def Proc.OneFd (p : Proc) : Prop :=
  ∃ fd, p.ofile fd = none ∧ ∀ fd', p.ofile fd' = none → fd' = fd

instance (p : Proc) : Decidable p.OneFd :=
  inferInstanceAs (Decidable (∃ fd, p.ofile fd = none ∧ ∀ fd', p.ofile fd' = none → fd' = fd))

/-- A `pipe` by a process that shares its files does not run out of descriptors
half way. -/
def PipeFits (s : Kernel) : Event → Prop
  | .call p (.pipe argok page) =>
    argok = true → page = true →
      (∃ f g, f ≠ g ∧ (s.ftable f).ref = 0 ∧ (s.ftable g).ref = 0) →
      (∃ i, (s.procs p).ofileClone i ≠ none) → ¬ (s.procs p).OneFd
  | _ => True

instance (s : Kernel) (e : Event) : Decidable (PipeFits s e) := by
  unfold PipeFits
  split <;> infer_instance

section Files

variable {s s' : Kernel} {p : Slot}

/-- Tables are shared in pairs, the two of a pair are equal, and processes that
are gone have nothing open. -/
structure TablesOk (s : Kernel) : Prop where
  ok : ofileField.Ok s
  paired : ofileField.Paired s
  agree : Agree (ofileField.partner s) s.ofiles
  closed : ∀ q, ¬ (s.procs q).Live → ∀ fd, (s.procs q).ofile fd = none

theorem TablesOk.fdalloc (hi : TablesOk s) {tables tables' : FdTables}
    (hagree : Agree (ofileField.partner s) tables)
    (h : fdalloc s.ofilePeers tables p f = .ok (some (tables', fd))) :
    tables p fd = none ∧ tables' = setPair (ofileField.partner s) p
      (update (tables p) fd (some f)) tables :=
  fdalloc_paired hi.ok.uniform hi.paired.symmetric (hi.ok.irrefl p) hagree h

theorem PipeMade.fileRefs_eq {rf wf : FileIdx} (h : PipeMade ft ft' rf wf) :
    ∃ ft₁ ft₂, filealloc ft = some (ft₁, rf) ∧ filealloc ft₁ = some (ft₂, wf) ∧
      fileRefs ft' = fileRefs ft₂ := by
  obtain ⟨ft₁, ft₂, halloc₀, halloc₁, rfl⟩ := h.made
  refine ⟨ft₁, ft₂, halloc₀, halloc₁, ?_⟩
  rw [fileRefs_update, fileRefs_update]
  change update (update (fileRefs ft₂) rf (fileRefs ft₂ rf)) wf
    (fileRefs ft₂ wf) = fileRefs ft₂
  rw [update_eq_self, update_eq_self]

/-- The second descriptor is missing and the first is cleared again. Alone, the
caller ends up with the table it had; a process that shares had one descriptor
left. -/
theorem TablesOk.undo_second (hi : TablesOk s) {tables₁ : FdTables} {rf wf : FileIdx}
    (hfirst : Xv6Threads.fdalloc s.ofilePeers s.ofiles p rf = .ok (some (tables₁, fd)))
    (hsecond : Xv6Threads.fdalloc s.ofilePeers tables₁ p wf = .ok none) :
    (ofileField.partner s p = none → setFd tables₁ p fd none = s.ofiles) ∧
      (s.procs p).OneFd := by
  obtain ⟨hfree, rfl⟩ := hi.fdalloc hi.agree hfirst
  refine ⟨?_, fd, hfree, ?_⟩
  · intro hnone
    have hrow : update (s.ofiles p) fd none = s.ofiles p :=
      update_eq_self_iff.mpr hfree.symm
    rw [setPair_of_none hnone, setFd, update_self, update_idem,
      update_idem, hrow, update_eq_self]
  · intro fd' hfd'
    by_contra hne
    refine fdalloc_none hsecond fd' ?_
    rw [setPair_self, update_of_ne hne]
    exact hfd'

theorem TablesOk.pipe_writes {argok page : Bool} (hi : TablesOk s)
    (hfits : PipeFits s (.call p (.pipe argok page))) (h : PipeEnd s p argok page s') :
    PairWrites (ofileField.partner s) p s.ofiles (fileRefs s.ftable) s'.ofiles
      (fileRefs s'.ftable) := by
  cases h with
  | refused => exact .nothing
  | failed hfail =>
    change PairWrites _ p s.ofiles (fileRefs s.ftable) s.ofiles _
    rw [hfail.fileRefs_eq]
    exact .nothing
  | @undone ft _ ft₂ _ _ rf wf tables hargs hmade hfd hclose₀ hclose₁ =>
    have htables : tables = s.ofiles := by
      rcases hfd with ⟨-, rfl⟩ | ⟨tables₁, fd, hfirst, hsecond, rfl⟩
      · rfl
      · obtain ⟨hundo, hone⟩ := hi.undo_second hfirst hsecond
        cases hp : ofileField.partner s p with
        | none => exact hundo hp
        | some r =>
          have hpeer : ∃ i, (s.procs p).ofileClone i ≠ none :=
            ⟨0, fun h0 => Option.some_ne_none r (hp.symm.trans h0)⟩
          exact absurd hone (hfits hargs.1 hargs.2 ⟨_, _, hmade.two_free⟩ hpeer)
    obtain ⟨ft₁, ft₂, halloc₀, halloc₁, hkinds⟩ := hmade.fileRefs_eq
    have hrefs := fileRefs_alloc_close_two halloc₀ halloc₁ hkinds hclose₀ hclose₁
    change PairWrites _ p s.ofiles (fileRefs s.ftable) tables (fileRefs _)
    rw [htables, hrefs]
    exact .nothing
  | @done ft rf wf tables₁ tables₂ fd₀ fd₁ hmade hfd₀ hfd₁ =>
    obtain ⟨ft₁, ft₂, halloc₀, halloc₁, hkinds⟩ := hmade.fileRefs_eq
    obtain ⟨hfree₀, rfl⟩ := hi.fdalloc hi.agree hfd₀
    obtain ⟨hfree₁, rfl⟩ := hi.fdalloc (hi.agree.setPair hi.paired.symmetric _) hfd₁
    change PairWrites _ p s.ofiles (fileRefs s.ftable) (setPair _ p _ _) (fileRefs ft)
    rw [hkinds, (fileRefs_filealloc halloc₁).2, (fileRefs_filealloc halloc₀).2]
    exact .gain (.gain .nothing hfree₀) hfree₁

/-- Every descriptor call writes to the table of its caller's pair. -/
theorem TablesOk.writes {c : Call} {r : Option ℤ} (hi : TablesOk s)
    (hfits : PipeFits s (.call p c)) (hc : c.isFile = true)
    (hrun : syscall s p c = .ok (s', r)) :
    PairWrites (ofileField.partner s) p s.ofiles (fileRefs s.ftable) s'.ofiles
      (fileRefs s'.ftable) := by
  cases c with
  | «open» w accept =>
    obtain ⟨m, hopen, -⟩ := returned_eq_ok hrun
    rcases sysOpen_ok hopen with ⟨ic, -, rfl⟩ |
      ⟨ic, ip, ft, f, ft', ic', -, halloc, hclose, rfl⟩ |
      ⟨ic, ip, ft, f, tables, new, -, halloc, hfd, rfl⟩
    · exact .nothing
    · change PairWrites _ p s.ofiles (fileRefs s.ftable) s.ofiles (fileRefs ft')
      rw [fileRefs_alloc_close halloc hclose]
      exact .nothing
    · obtain ⟨hfree, rfl⟩ := hi.fdalloc hi.agree hfd
      change PairWrites _ p s.ofiles (fileRefs s.ftable) (setPair _ p _ _)
        (fileRefs (update ft f _))
      rw [fileRefs_update_kind, (fileRefs_filealloc halloc).2]
      exact .gain .nothing hfree
  | dup fd =>
    obtain ⟨m, hdup, -⟩ := returned_eq_ok hrun
    rcases sysDup_ok hdup with rfl | ⟨old, f, tables, new, ft, -, hfd, hft, rfl⟩
    · exact .nothing
    · obtain ⟨hfree, rfl⟩ := hi.fdalloc hi.agree hfd
      rw [filedup] at hft
      split_ifs at hft
      cases hft
      change PairWrites _ p s.ofiles (fileRefs s.ftable) (setPair _ p _ _)
        (fileRefs (update s.ftable f _))
      rw [fileRefs_update]
      exact .gain .nothing hfree
  | pipe argok page =>
    obtain ⟨m, hpipe, -⟩ := returned_eq_ok hrun
    exact hi.pipe_writes hfits (sysPipe_ok hpipe)
  | close fd =>
    obtain ⟨m, hclose, -⟩ := returned_eq_ok hrun
    rcases sysClose_ok hclose with rfl | ⟨old, f, tables, ft, ic, hargfd, hfile, hfd, rfl⟩
    · exact .nothing
    · have hheld : s.ofiles p old = some f := argfd_some hargfd
      have htables := closeOfileClone_paired hi.ok.uniform hi.paired.symmetric (hi.ok.irrefl p)
        hi.agree (by simp [hheld]) hfd
      obtain ⟨hpos, hrefs⟩ := fileRefs_fileclose hfile
      change PairWrites _ p s.ofiles (fileRefs s.ftable) tables (fileRefs ft)
      rw [htables, hrefs]
      exact .lose .nothing hheld hpos
  | _ => cases hc

end Files

/-! ## Tables in the abstract -/

/-- What matters of the kernel to shared tables: who is alive, who is paired
with whom, what is open, and the reference counts. -/
structure TableState where
  live : Slot → Prop
  partner : Slot → Option Slot
  tables : FdTables
  refs : FileIdx → ℕ

def Kernel.tableState (s : Kernel) : TableState :=
  ⟨fun q => (s.procs q).Live, ofileField.partner s, s.ofiles, fileRefs s.ftable⟩

/-- How many descriptors of a table refer to `f`. -/
def held (f : FileIdx) (table : Fd → Option FileIdx) : ℕ :=
  ∑ fd, if table fd = some f then 1 else 0

/-- The operations on shared tables: a process writes to the table of its pair;
a new process takes a copy with references of its own, or becomes the other
half of a pair; a process leaves, and where `closes` allows it gives up the
references of its whole table. -/
inductive TableStep (closes : Slot → Prop) (a : TableState) : TableState → Prop
  | idle : TableStep closes a a
  | writes {p : Slot} {tables : FdTables} {refs : FileIdx → ℕ} (hp : a.live p)
      (h : PairWrites a.partner p a.tables a.refs tables refs) :
      TableStep closes a ⟨a.live, a.partner, tables, refs⟩
  | copied {p np : Slot} (hnp : ¬ a.live np) :
      TableStep closes a ⟨fun q => a.live q ∨ q = np, a.partner,
        update a.tables np (a.tables p), fun f => a.refs f + held f (a.tables p)⟩
  | shared {p np : Slot} (hp : a.live p) (hnp : ¬ a.live np) (hfresh : a.partner p = none) :
      TableStep closes a ⟨fun q => a.live q ∨ q = np, linkPartner a.partner p np,
        update a.tables np (a.tables p), a.refs⟩
  | left {p : Slot} {refs : FileIdx → ℕ}
      (hrefs : refs = a.refs ∨ closes p ∧ ∀ f, refs f + held f (a.tables p) = a.refs f) :
      TableStep closes a ⟨fun q => a.live q ∧ q ≠ p, unlinkPartner a.partner p,
        update a.tables p fun _ => none, refs⟩

/-- Pairs are mutual and alive, have equal tables, and processes that are gone
have nothing open. -/
structure TableState.Ok (a : TableState) : Prop where
  symmetric : Mutual a.partner
  irrefl : ∀ q, a.partner q ≠ some q
  dead : ∀ q, ¬ a.live q → a.partner q = none
  agree : Agree a.partner a.tables
  closed : ∀ q, ¬ a.live q → a.tables q = fun _ => none

theorem TableState.Ok.step {closes : Slot → Prop} {a a' : TableState} (hi : a.Ok)
    (h : TableStep closes a a') : Agree a'.partner a'.tables ∧
      ∀ q, ¬ a'.live q → a'.tables q = fun _ => none := by
  cases h with
  | idle => exact ⟨hi.agree, hi.closed⟩
  | @writes p _ _ hp h =>
    refine ⟨h.agree hi.symmetric hi.agree, ?_⟩
    intro q hq
    refine (h.others ?_ ?_).trans (hi.closed q hq)
    · rintro rfl
      exact hq hp
    · intro hpq
      have hback := hi.symmetric p q hpq
      rw [hi.dead q hq] at hback
      cases hback
  | @copied p np hnp =>
    refine ⟨?_, ?_⟩
    · have := hi.agree.setPair (p := np) hi.symmetric (a.tables p)
      rwa [setPair_of_none (hi.dead np hnp)] at this
    · intro q hq
      rw [not_or] at hq
      exact (update_of_ne hq.2 ..).trans (hi.closed q hq.1)
  | @shared p np hp hnp hfresh =>
    refine ⟨hi.agree.link hi.symmetric hfresh (hi.dead np hnp), ?_⟩
    intro q hq
    rw [not_or] at hq
    exact (update_of_ne hq.2 ..).trans (hi.closed q hq.1)
  | @left p _ hrefs =>
    refine ⟨hi.agree.unlink hi.symmetric _, ?_⟩
    intro q hq
    by_cases hqp : q = p
    · rw [hqp]
      exact update_self ..
    · exact (update_of_ne hqp ..).trans
        (hi.closed q fun hlive => hq ⟨hlive, hqp⟩)

/-! ## The kernel's tables -/

section Refinement

variable {s s' : Kernel} {e : Event}

theorem tableState_eq (hlists : ∀ q, (s'.procs q).ofileClone = (s.procs q).ofileClone)
    (hlive : ∀ q, (s'.procs q).Live ↔ (s.procs q).Live) :
    s'.tableState = ⟨s.tableState.live, s.tableState.partner, s'.ofiles, fileRefs s'.ftable⟩ := by
  have hpartner : ofileField.partner s' = ofileField.partner s := PeerField.partner_congr hlists
  have hlive' : (fun q => (s'.procs q).Live) = fun q => (s.procs q).Live :=
    funext fun q => propext (hlive q)
  rw [Kernel.tableState, hlive', hpartner]
  rfl

theorem SameFs.tableState_eq (h : SameFs s s') : s'.tableState = s.tableState := by
  rw [Xv6Threads.tableState_eq h.ofileClone h.live, h.ofiles, h.ftable]
  rfl

theorem SameTree.tableState_eq (h : SameTree s s') :
    s'.tableState = ⟨s.tableState.live, s.tableState.partner, s'.ofiles, fileRefs s'.ftable⟩ :=
  Xv6Threads.tableState_eq h.ofileClone h.live

/-- Sharing tables is done by processes that share with nobody yet, and no
`pipe` runs out of descriptors half way where tables are shared. -/
def KeepsTables (s : Kernel) (e : Event) : Prop := ofileField.LinksFresh s e ∧ PipeFits s e

instance (s : Kernel) (e : Event) : Decidable (KeepsTables s e) :=
  inferInstanceAs (Decidable (_ ∧ _))

/-- The process exits in this step and closes what it has open. -/
def ClosesAll (s : Kernel) (e : Event) (p : Slot) : Prop :=
  e = .call p .exit ∧ (s.procs p).cloneFiles = false

theorem TablesOk.tableState_ok (hi : TablesOk s) : s.tableState.Ok where
  symmetric := hi.paired.symmetric
  irrefl := hi.ok.irrefl
  dead := hi.ok.dead
  agree := hi.agree
  closed q hq := funext (hi.closed q hq)

theorem TablesOk.ofiles_spawned (hi : TablesOk s) {p : Slot} {flags : BitVec 32} {env : SpawnEnv}
    {child : Proc} (h : Spawned s p np flags env child s') :
    s'.ofiles = update s.ofiles np (s.ofiles p) := by
  funext q
  by_cases hq : q = np
  · rw [hq, update_self]
    change (s'.procs np).ofile = (s.procs p).ofile
    rw [h.child_eq, h.ofile]
    funext fd
    rw [inheritOfile, hi.closed np (fun hlive => hlive.1 h.free) fd, Option.or_none]
  · obtain ⟨_, _, hproc⟩ := h.other_eq hq
    rw [update_of_ne hq]
    change (s'.procs q).ofile = _
    rw [hproc]
    rfl

theorem dupFiles_refs {fds : List Fd} (h : dupFiles ofile fds ft = .ok ft') (f : FileIdx) :
    fileRefs ft' f =
      fileRefs ft f + (fds.map fun fd => if ofile fd = some f then 1 else 0).sum := by
  induction fds generalizing ft with
  | nil =>
    cases h
    rfl
  | cons fd rest ih =>
    unfold dupFiles at h
    split at h
    · rename_i hfd
      rw [ih h]
      simp [hfd]
    · rename_i g hfd
      split at h
      · cases h
      · rename_i ft₁ hdup
        rw [filedup] at hdup
        split_ifs at hdup
        cases hdup
        rw [ih h, fileRefs_update, List.map_cons, List.sum_cons, hfd]
        by_cases hg : g = f
        · subst hg
          rw [update_self, if_pos rfl, ← Nat.add_assoc]
          rfl
        · rw [update_of_ne (Ne.symm hg), if_neg (by simpa using hg), zero_add]

theorem closeFiles_refs {fds : List Fd} (h : closeFiles ofile fds ft ic = .ok (ft', ic'))
    (f : FileIdx) :
    fileRefs ft' f + (fds.map fun fd => if ofile fd = some f then 1 else 0).sum =
      fileRefs ft f := by
  induction fds generalizing ft ic with
  | nil =>
    obtain ⟨rfl, -⟩ := Prod.mk.inj (Except.ok.inj h)
    rfl
  | cons fd rest ih =>
    unfold closeFiles at h
    split at h
    · rename_i hfd
      rw [← ih h]
      simp [hfd]
    · rename_i g hfd
      split at h
      · cases h
      · rename_i ft₁ ic₁ hclose
        obtain ⟨hpos, hrefs⟩ := fileRefs_fileclose hclose
        have hrest := ih h
        rw [hrefs] at hrest
        rw [List.map_cons, List.sum_cons, hfd]
        by_cases hg : g = f
        · subst hg
          rw [update_self] at hrest
          rw [if_pos rfl]
          omega
        · rw [update_of_ne (Ne.symm hg)] at hrest
          rw [if_neg (by simpa using hg), zero_add]
          exact hrest

theorem held_eq (f : FileIdx) (table : Fd → Option FileIdx) :
    held f table =
      ((List.finRange NOFILE).map fun fd => if table fd = some f then 1 else 0).sum :=
  Fin.sum_univ_def _

theorem TablesOk.spawned_step {closes : Slot → Prop} (hi : TablesOk s) {p : Slot}
    {flags : BitVec 32} {env : SpawnEnv} {child : Proc} (hp : (s.procs p).Live)
    (hfresh : flagFiles flags = true → ofileField.partner s p = none)
    (h : Spawned s p np flags env child s') :
    TableStep closes s.tableState s'.tableState := by
  have hnp : ¬ (s.procs np).Live := fun hlive => hlive.1 h.free
  have hlive : (fun q => (s'.procs q).Live) = fun q => (s.procs q).Live ∨ q = np :=
    funext fun q => propext (h.live_iff q)
  have htables := hi.ofiles_spawned h
  rcases h.files with ⟨hflag, hft⟩ | ⟨hflag, hdup⟩
  · have hpartner := (hi.ok.linked hflag hp h h.live_iff).2
    rw [Kernel.tableState.eq_1 s', hlive, hpartner, htables, hft]
    exact .shared hp hnp (hfresh hflag)
  · have hpartner : ofileField.partner s' = ofileField.partner s :=
      PeerField.partner_congr (PeerField.get_of_not_shared hflag h)
    have hrefs : fileRefs s'.ftable = fun f => fileRefs s.ftable f + held f (s.ofiles p) := by
      funext f
      rw [dupFiles_refs hdup, held_eq]
      rfl
    rw [Kernel.tableState.eq_1 s', hlive, hpartner, htables, hrefs]
    exact .copied hnp

theorem TablesOk.exited_step (hi : TablesOk s) {p : Slot} {st : Slot → ProcState}
    (h : Exited s p st s') :
    TableStep (ClosesAll s (.call p .exit)) s.tableState s'.tableState := by
  have hlive : (fun q => (s'.procs q).Live) = fun q => (s.procs q).Live ∧ q ≠ p :=
    funext fun q => propext (h.live_iff q)
  have hpartner := (hi.ok.left h h.live_iff).2
  have htables : s'.ofiles = update s.ofiles p fun _ => none := by
    funext q
    change (s'.procs q).ofile = _
    rw [h.procs]
    by_cases hq : q = p
    · simp [hq]
    · simp [hq, Kernel.ofiles]
  rw [Kernel.tableState.eq_1 s', hlive, hpartner, htables]
  apply TableStep.left
  obtain ⟨ic, ⟨-, hft, -⟩ | ⟨hclone, hclose⟩, -⟩ := h.tables
  · exact .inl (by rw [hft]; rfl)
  · refine .inr ⟨⟨rfl, hclone⟩, ?_⟩
    intro f
    rw [held_eq]
    exact closeFiles_refs hclose f

/-- Every step is an operation on shared tables. -/
theorem TablesOk.step_table (hi : TablesOk s) (hgood : KeepsTables s e) (hstep : Step s e s') :
    TableStep (ClosesAll s e) s.tableState s'.tableState := by
  cases step_fs hstep with
  | same h =>
    rw [h.tableState_eq]
    exact .idle
  | walked hp h hsame =>
    rw [hsame.tableState_eq]
    exact .idle
  | @spawned p np c flags env child _ hp hc h =>
    refine hi.spawned_step (live_of_running hp) ?_ h
    intro hflag
    rcases hc with rfl | rfl
    · cases hflag
    · exact hgood.1 hflag h.canClone 0
  | exited hp h => exact hi.exited_step h
  | filed hp hc hrun =>
    rw [(fileShape_of_isFile hc hrun).sameTree.tableState_eq]
    exact .writes (live_of_running hp) (hi.writes hgood.2 hc hrun)
  | moved hp h =>
    have htables : s'.ofiles = s.ofiles := funext h.ofile_eq
    rw [h.sameTree.tableState_eq, htables, h.ftable]
    exact .idle

theorem tablesOk_boot : TablesOk boot where
  ok := ofileField.ok_boot
  paired := PeerField.paired_boot
  agree q r h := by
    rw [PeerField.partner_boot] at h
    cases h
  closed q _ fd := by
    by_cases h0 : q = 0
    · rw [h0]
      rfl
    · rw [boot_procs_of_ne h0]

theorem TablesOk.step (hi : TablesOk s) (hpids : PidsOk s) (hgood : KeepsTables s e)
    (hstep : Step s e s') : TablesOk s' := by
  obtain ⟨hok, hchange⟩ := hi.ok.step hstep
  obtain ⟨hagree, hclosed⟩ := hi.tableState_ok.step (hi.step_table hgood hstep)
  exact ⟨hok, hi.paired.step hi.ok hpids hgood.1 hchange, hagree,
    fun q hq fd => congrFun (hclosed q hq) fd⟩

end Refinement

theorem tablesOk_of_reachable {good : Kernel → Event → Prop} {s : Kernel}
    (hgood : ∀ s e, good s e → KeepsTables s e) (h : ReachableBy Step good boot s) :
    TablesOk s := by
  refine h.invariant tablesOk_boot ?_
  intro s e s' hreach hi hg hstep
  exact hi.step (pidsOk_of_reachable hreach.reachable) (hgood s e hg) hstep

/-- A living thread cloned with `CLONE_FILES` and the living process that
cloned it have the same descriptors open. -/
theorem tables_equal_of_keeps_tables {s : Kernel} (h : ReachableBy Step KeepsTables boot s)
    {x : CloneEvent} (hx : x ∈ s.clones) (hflag : flagFiles x.flags = true) {p t : Slot}
    (hp : (s.procs p).Live) (ht : (s.procs t).Live) (hcreator : (s.procs p).pid = x.creator)
    (hchild : (s.procs t).pid = x.child) (fd : Fd) :
    (s.procs p).ofile fd = (s.procs t).ofile fd := by
  have hi := tablesOk_of_reachable (fun _ _ hgood => hgood) h
  have hpartner := hi.paired.related x hx hflag p t hp ht hcreator hchild
  exact congrFun (hi.agree p t hpartner) fd

/-- Init clones a thread that shares its files and then opens a file. -/
theorem tables_equal_of_keeps_tables_opened :
    ∃ s, ReachableBy Step KeepsTables boot s ∧ (s.procs 0).ofile 0 = some 0 ∧
      (s.procs 0).ofile 0 = (s.procs 1).ofile 0 := by
  have hrun : ∃ s, ReachableBy Step KeepsTables boot s ∧
      ((s.procs 0).ofile 0 = some 0 ∧ (s.procs 0).Live ∧ (s.procs 1).Live ∧
        ∃ x ∈ s.clones, flagFiles x.flags = true ∧ (s.procs 0).pid = x.creator ∧
          (s.procs 1).pid = x.child) :=
    exists_reachableBy
      [.dispatch 0, .call 0 (.clone 4 ⟨true, some 1, 8⟩), .call 0 (.open ⟨true, []⟩ true)]
      (by decide +kernel)
  obtain ⟨s, hreach, hopen, hp, ht, x, hx, hflag, hcreator, hchild⟩ := hrun
  exact ⟨s, hreach, hopen,
    tables_equal_of_keeps_tables hreach hx hflag hp ht hcreator hchild 0⟩

/-- Init clones two threads that share its files and then opens a file. Its
array was full of the first thread, so the second does not get the file. -/
theorem second_thread_misses_open :
    ∃ s, Reachable Step boot s ∧ ∃ x ∈ s.clones, flagFiles x.flags = true ∧
      (s.procs 0).Live ∧ (s.procs 2).Live ∧ (s.procs 0).pid = x.creator ∧
      (s.procs 2).pid = x.child ∧ (s.procs 0).ofile 0 ≠ (s.procs 2).ofile 0 := by
  exact exists_reachableBy
    [.dispatch 0, .call 0 (.clone 4 ⟨true, some 1, 8⟩), .call 0 (.clone 4 ⟨true, some 2, 8⟩),
      .call 0 (.open ⟨true, []⟩ true)]
    (by decide +kernel)

end Xv6Threads
