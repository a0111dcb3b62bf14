/-
# What the file system calls do

Inversion lemmas for the calls of `sysfile.c` and for `exec`.
-/

import Xv6Threads.Kernel.SpawnSpec
import Xv6Threads.Kernel.Sysfile

namespace Xv6Threads

open Lib
open Function (update update_of_ne update_self)

variable {ft ft' : Ftable} {f rf wf : FileIdx} {ic ic' : Icache} {p : Slot} {fd r : ℤ}
variable {s s' : Kernel} {page : Bool}

/-- The state that a call left behind. -/
theorem state_of_ok {ε σ α : Type} {s s' : σ} {r r' : α}
    (h : (.ok (s, r) : Except ε (σ × α)) = .ok (s', r')) : s' = s :=
  (Prod.mk.inj (Except.ok.inj h)).1.symm

/-! ## Descriptors and open files -/

theorem filealloc_some (h : filealloc ft = some (ft', f)) :
    (ft f).ref = 0 ∧ ft' = update ft f { ft f with ref := 1 } := by
  rw [filealloc] at h
  split at h
  · cases h
  · rename_i g hfind
    cases h
    exact ⟨by simpa using List.find?_some hfind, rfl⟩

/-- `fileclose`, by whether the last reference goes. -/
theorem fileclose_ok (h : fileclose ft ic f = .ok (ft', ic')) :
    (1 < (ft f).ref ∧ ft' = update ft f { ft f with ref := (ft f).ref - 1 } ∧ ic' = ic) ∨
    ((ft f).ref = 1 ∧ ft' = update ft f { kind := .none, ref := 0 } ∧
      ic' = match (ft f).kind with
        | .inode ip => iput ic ip
        | _ => ic) := by
  rw [fileclose] at h
  split_ifs at h with hnone hmore
  · cases h
    exact .inl ⟨by omega, rfl, rfl⟩
  · cases h
    exact .inr ⟨by omega, rfl, rfl⟩

theorem argfd_some {tables : FdTables} {old : Fd} (h : argfd tables p fd = some (old, f)) :
    tables p old = some f := by
  rw [argfd] at h
  split_ifs at h with hrange
  obtain ⟨g, hg, heq⟩ := Option.map_eq_some_iff.mp h
  cases heq
  exact hg

/-! ## Propagation -/

section Propagation

variable {β : Type} [DecidableEq β] {peers : Slot → PeerList} {v : β} {cells cells' : Slot → β}
variable {tables tables' : FdTables} {d : Fd}

/-- One level for each process and one for the call itself is enough. -/
theorem propagate_isOk (peers : Slot → PeerList) (v : β) (p : Slot)
    (cells : Slot → β) : ∃ cells', propagate peers v p cells = .ok cells' := by
  have hcard : (missing v cells).card < NPROC + 1 := by
    have := Finset.card_le_univ (missing v cells)
    rw [Fintype.card_fin] at this
    omega
  obtain ⟨cells', hflood⟩ := flood_isSome (peerNbr peers) v p hcard
  exact ⟨cells', by rw [propagate, hflood]⟩

theorem propagate_ok (h : propagate peers v p cells = .ok cells') :
    flood (peerNbr peers) v (NPROC + 1) p cells = some cells' := by
  rw [propagate] at h
  split at h
  · cases h
  · rename_i hflood
    cases h
    exact hflood

theorem propagate_spec (h : propagate peers v p cells = .ok cells') :
    FloodSpec (peerNbr peers) v p cells cells' := flood_spec (propagate_ok h)

theorem freeFd_some {ofile : Fd → Option FileIdx} {fd : Fd} (h : freeFd ofile = some fd) :
    ofile fd = none := by
  simpa using List.find?_some h

theorem fdalloc_some {tables tables' : FdTables} {fd : Fd}
    (h : fdalloc peers tables p f = .ok (some (tables', fd))) :
    tables p fd = none ∧ ∃ column,
      propagate peers (some f) p (fun q => setFd tables p fd (some f) q fd) = .ok column ∧
      tables' = setColumn (setFd tables p fd (some f)) fd column := by
  rw [fdalloc] at h
  split at h
  · cases h
  · rename_i hfree
    split at h
    · cases h
    · rename_i hopen
      cases h
      rw [openOfileClone] at hopen
      split at hopen
      · cases hopen
      · rename_i column hcolumn
        cases hopen
        exact ⟨freeFd_some hfree, column, hcolumn, rfl⟩

theorem setColumn_spec {x : Option FileIdx} {column : Slot → Option FileIdx}
    (h : FloodSpec (peerNbr peers) x p (fun q => tables q d) column) (q : Slot) (e : Fd) :
    setColumn tables d column q e = tables q e ∨ e = d ∧ setColumn tables d column q e = x ∧
      Relation.TransGen (FloodEdge (peerNbr peers)) p q := by
  rw [setColumn]
  by_cases he : e = d
  · rw [he, update_self]
    exact (h q).imp_right fun hset => ⟨rfl, hset⟩
  · rw [update_of_ne he]
    exact .inl rfl

theorem closeOfileClone_isOk (peers : Slot → PeerList) (tables : FdTables) (p : Slot) (fd : Fd) :
    ∃ tables', closeOfileClone peers tables p fd = .ok tables' := by
  obtain ⟨column, hprop⟩ := propagate_isOk peers (none : Option FileIdx) p (fun q => tables q fd)
  exact ⟨setColumn tables fd column, by rw [closeOfileClone, hprop]⟩

theorem pwdClone_isOk (peers : Slot → PeerList) (cwds : Slot → Option InodeIdx) (p : Slot)
    (ip : InodeIdx) : ∃ cwds', pwdClone peers cwds p ip = .ok cwds' :=
  propagate_isOk peers (some ip) p cwds

end Propagation

/-- Whatever the arrays are, the three propagations return within one level of recursion for
each process and one for the call. What they change is the entry of the descriptor, to `f` or
to no file, or the directory, to `ip`, of processes that the arrays lead to. -/
theorem propagation_bounded (peers : Slot → PeerList) (tables : FdTables)
    (cwds : Slot → Option InodeIdx) (p : Slot) (fd : Fd) (f : FileIdx) (ip : InodeIdx) :
    (∃ tables', openOfileClone peers tables p f fd = .ok tables' ∧
      ∀ q e, tables' q e = tables q e ∨ e = fd ∧ tables' q e = some f ∧
        Relation.TransGen (FloodEdge (peerNbr peers)) p q) ∧
    (∃ tables', closeOfileClone peers tables p fd = .ok tables' ∧
      ∀ q e, tables' q e = tables q e ∨ e = fd ∧ tables' q e = none ∧
        Relation.TransGen (FloodEdge (peerNbr peers)) p q) ∧
    ∃ cwds', pwdClone peers cwds p ip = .ok cwds' ∧
      ∀ q, cwds' q = cwds q ∨ cwds' q = some ip ∧
        Relation.TransGen (FloodEdge (peerNbr peers)) p q := by
  obtain ⟨opened, hopened⟩ := propagate_isOk peers (some f) p fun q => tables q fd
  obtain ⟨closed, hclosed⟩ := propagate_isOk peers (none : Option FileIdx) p fun q => tables q fd
  obtain ⟨moved, hmoved⟩ := propagate_isOk peers (some ip) p cwds
  refine ⟨⟨setColumn tables fd opened, ?_, ?_⟩, ⟨setColumn tables fd closed, ?_, ?_⟩,
    moved, hmoved, propagate_spec hmoved⟩
  · rw [openOfileClone, hopened]
  · exact setColumn_spec (propagate_spec hopened)
  · rw [closeOfileClone, hclosed]
  · exact setColumn_spec (propagate_spec hclosed)

/-! ## Calls -/

/-- A path lookup whose result, if there was one, was put back. -/
def LookupDropped (s : Kernel) (p : Slot) (w : Walk) (ic : Icache) : Prop :=
  namei s.icache (s.procs p).cwd w = .ok (ic, none) ∨
    ∃ ic₀ ip, namei s.icache (s.procs p).cwd w = .ok (ic₀, some ip) ∧ ic = iput ic₀ ip

theorem sysDup_ok (h : sysDup s p fd = .ok (s', r)) :
    s' = s ∨ ∃ old f tables new ft, argfd s.ofiles p fd = some (old, f) ∧
      fdalloc s.ofilePeers s.ofiles p f = .ok (some (tables, new)) ∧
      filedup s.ftable f = .ok ft ∧ s' = { s.setOfiles tables with ftable := ft } := by
  rw [sysDup] at h
  split at h
  · exact .inl (state_of_ok h)
  · rename_i old f harg
    split at h
    · cases h
    · exact .inl (state_of_ok h)
    · rename_i tables new halloc
      split at h
      · cases h
      · rename_i ft hdup
        exact .inr ⟨old, f, tables, new, ft, harg, halloc, hdup,
          state_of_ok h⟩

theorem sysClose_ok (h : sysClose s p fd = .ok (s', r)) :
    s' = s ∨ ∃ old f tables ft ic, argfd s.ofiles p fd = some (old, f) ∧
      fileclose s.ftable s.icache f = .ok (ft, ic) ∧
      closeOfileClone s.ofilePeers (setFd s.ofiles p old none) p old = .ok tables ∧
      s' = { s.setOfiles tables with ftable := ft, icache := ic } := by
  rw [sysClose] at h
  split at h
  · exact .inl (state_of_ok h)
  · rename_i old f harg
    split at h
    · cases h
    · rename_i ft ic hclose
      split at h
      · cases h
      · rename_i tables hprop
        exact .inr ⟨old, f, tables, ft, ic, harg, hclose, hprop,
          state_of_ok h⟩

theorem sysOpen_ok {w : Walk} {accept : Bool} (h : sysOpen s p w accept = .ok (s', r)) :
    (∃ ic, LookupDropped s p w ic ∧ s' = { s with icache := ic }) ∨
    (∃ ic ip ft f ft' ic', namei s.icache (s.procs p).cwd w = .ok (ic, some ip) ∧
      filealloc s.ftable = some (ft, f) ∧ fileclose ft ic f = .ok (ft', ic') ∧
      s' = { s with ftable := ft', icache := iput ic' ip }) ∨
    (∃ ic ip ft f tables new, namei s.icache (s.procs p).cwd w = .ok (ic, some ip) ∧
      filealloc s.ftable = some (ft, f) ∧
      fdalloc s.ofilePeers s.ofiles p f = .ok (some (tables, new)) ∧
      s' = { s.setOfiles tables with
        ftable := update ft f { ft f with kind := .inode ip }
        icache := ic }) := by
  rw [sysOpen] at h
  split at h
  · cases h
  · rename_i ic hnamei
    exact .inl ⟨ic, .inl hnamei, state_of_ok h⟩
  · rename_i ic ip hnamei
    have hdropped : LookupDropped s p w (iput ic ip) := .inr ⟨ic, ip, hnamei, rfl⟩
    split at h
    · cases h
    · split_ifs at h with haccept
      · split at h
        · exact .inl ⟨_, hdropped, state_of_ok h⟩
        · rename_i ft f halloc
          split at h
          · cases h
          · split at h
            · cases h
            · rename_i ft' ic' hclose
              exact .inr (.inl ⟨ic, ip, ft, f, ft', ic', hnamei, halloc, hclose,
                state_of_ok h⟩)
          · rename_i tables new hfd
            exact .inr (.inr ⟨ic, ip, ft, f, tables, new, hnamei, halloc, hfd,
              state_of_ok h⟩)
      · exact .inl ⟨_, hdropped, state_of_ok h⟩

/-- A `pipealloc` that failed gave back what it had taken. -/
inductive PipeFailed (ft : Ftable) (ic : Icache) : Ftable → Icache → Prop
  | none : PipeFailed ft ic ft ic
  | one {ft₁ ft' : Ftable} {f : FileIdx} {ic' : Icache} (halloc : filealloc ft = some (ft₁, f))
      (hclose : fileclose ft₁ ic f = .ok (ft', ic')) : PipeFailed ft ic ft' ic'
  | two {ft₁ ft₂ ft₃ ft' : Ftable} {f₀ f₁ : FileIdx} {ic₃ ic' : Icache}
      (halloc₀ : filealloc ft = some (ft₁, f₀)) (halloc₁ : filealloc ft₁ = some (ft₂, f₁))
      (hclose₀ : fileclose ft₂ ic f₀ = .ok (ft₃, ic₃))
      (hclose₁ : fileclose ft₃ ic₃ f₁ = .ok (ft', ic')) : PipeFailed ft ic ft' ic'

/-- A `pipealloc` that succeeded. -/
structure PipeMade (ft : Ftable) (ft' : Ftable) (rf wf : FileIdx) : Prop where
  made : ∃ ft₁ ft₂, filealloc ft = some (ft₁, rf) ∧ filealloc ft₁ = some (ft₂, wf) ∧
    ft' = update (update ft₂ rf { ft₂ rf with kind := .pipe }) wf
      { ft₂ wf with kind := .pipe }

theorem filealloc_ne {ft₁ ft₂ : Ftable} {f₀ f₁ : FileIdx}
    (halloc₀ : filealloc ft = some (ft₁, f₀)) (halloc₁ : filealloc ft₁ = some (ft₂, f₁)) :
    f₀ ≠ f₁ := by
  rintro rfl
  obtain ⟨-, rfl⟩ := filealloc_some halloc₀
  have hzero := (filealloc_some halloc₁).1
  rw [update_self] at hzero
  cases hzero

theorem PipeMade.two_free (h : PipeMade ft ft' rf wf) :
    rf ≠ wf ∧ (ft rf).ref = 0 ∧ (ft wf).ref = 0 := by
  obtain ⟨ft₁, ft₂, halloc₀, halloc₁, -⟩ := h.made
  have hne := filealloc_ne halloc₀ halloc₁
  obtain ⟨hzero₀, rfl⟩ := filealloc_some halloc₀
  obtain ⟨hzero₁, -⟩ := filealloc_some halloc₁
  rw [update_of_ne hne.symm] at hzero₁
  exact ⟨hne, hzero₀, hzero₁⟩

theorem pipealloc_none (h : pipealloc ft ic page = .ok (ft', ic', none)) :
    PipeFailed ft ic ft' ic' := by
  rw [pipealloc] at h
  split at h
  · cases h
    exact .none
  · rename_i ft₁ f₀ halloc₀
    split at h
    · split at h
      · cases h
      · rename_i hclose
        cases h
        exact .one halloc₀ hclose
    · rename_i ft₂ f₁ halloc₁
      split_ifs at h with hpage
      · simp at h
      · split at h
        · cases h
        · rename_i hclose₀
          split at h
          · cases h
          · rename_i hclose₁
            cases h
            exact .two halloc₀ halloc₁ hclose₀ hclose₁

theorem pipealloc_some (h : pipealloc ft ic page = .ok (ft', ic', some (rf, wf))) :
    page = true ∧ PipeMade ft ft' rf wf ∧ ic' = ic := by
  rw [pipealloc] at h
  split at h
  · simp at h
  · rename_i ft₁ f₀ halloc₀
    split at h
    · split at h
      · cases h
      · simp at h
    · rename_i ft₂ f₁ halloc₁
      split_ifs at h with hpage
      · cases h
        exact ⟨hpage, ⟨ft₁, ft₂, halloc₀, halloc₁, rfl⟩, rfl⟩
      · split at h
        · cases h
        · split at h
          · cases h
          · simp at h

theorem pipeUndo_ok {tables : FdTables} (h : pipeUndo s tables ft ic rf wf = .ok (s', r)) :
    ∃ ft₁ ic₁ ft₂ ic₂, fileclose ft ic rf = .ok (ft₁, ic₁) ∧
      fileclose ft₁ ic₁ wf = .ok (ft₂, ic₂) ∧
      s' = { s.setOfiles tables with ftable := ft₂, icache := ic₂ } := by
  rw [pipeUndo] at h
  split at h
  · cases h
  · rename_i ft₁ ic₁ hclose₀
    split at h
    · cases h
    · rename_i ft₂ ic₂ hclose₁
      exact ⟨ft₁, ic₁, ft₂, ic₂, hclose₀, hclose₁, state_of_ok h⟩

/-- How `sys_pipe` can end. In `undone` the tables are the caller's own with
the first descriptor cleared again, if there was one. -/
inductive PipeEnd (s : Kernel) (p : Slot) (argok page : Bool) : Kernel → Prop
  | refused : PipeEnd s p argok page s
  | failed {ft : Ftable} {ic : Icache} (h : PipeFailed s.ftable s.icache ft ic) :
      PipeEnd s p argok page { s with ftable := ft, icache := ic }
  | undone {ft ft₁ ft₂ : Ftable} {ic₁ ic₂ : Icache} {rf wf : FileIdx} {tables : FdTables}
      (hargs : argok = true ∧ page = true) (hmade : PipeMade s.ftable ft rf wf)
      (hfd : fdalloc s.ofilePeers s.ofiles p rf = .ok none ∧ tables = s.ofiles ∨
        ∃ tables₁ fd, fdalloc s.ofilePeers s.ofiles p rf = .ok (some (tables₁, fd)) ∧
          fdalloc s.ofilePeers tables₁ p wf = .ok none ∧ tables = setFd tables₁ p fd none)
      (hclose₀ : fileclose ft s.icache rf = .ok (ft₁, ic₁))
      (hclose₁ : fileclose ft₁ ic₁ wf = .ok (ft₂, ic₂)) :
      PipeEnd s p argok page { s.setOfiles tables with ftable := ft₂, icache := ic₂ }
  | done {ft : Ftable} {rf wf : FileIdx} {tables₁ tables₂ : FdTables} {fd₀ fd₁ : Fd}
      (hmade : PipeMade s.ftable ft rf wf)
      (hfd₀ : fdalloc s.ofilePeers s.ofiles p rf = .ok (some (tables₁, fd₀)))
      (hfd₁ : fdalloc s.ofilePeers tables₁ p wf = .ok (some (tables₂, fd₁))) :
      PipeEnd s p argok page { s.setOfiles tables₂ with ftable := ft, icache := s.icache }

theorem sysPipe_ok {argok : Bool} (h : sysPipe s p argok page = .ok (s', r)) :
    PipeEnd s p argok page s' := by
  rw [sysPipe] at h
  split_ifs at h with hargok
  · split at h
    · cases h
    · rename_i ft ic halloc
      rw [state_of_ok h]
      exact .failed (pipealloc_none halloc)
    · rename_i ft ic rf wf halloc
      obtain ⟨hpage, hmade, rfl⟩ := pipealloc_some halloc
      split at h
      · cases h
      · rename_i hfd
        obtain ⟨ft₁, ic₁, ft₂, ic₂, hclose₀, hclose₁, rfl⟩ := pipeUndo_ok h
        exact .undone ⟨hargok, hpage⟩ hmade (.inl ⟨hfd, rfl⟩) hclose₀ hclose₁
      · rename_i tables₁ fd₀ hfd₀
        split at h
        · cases h
        · rename_i hfd₁
          obtain ⟨ft₁, ic₁, ft₂, ic₂, hclose₀, hclose₁, rfl⟩ := pipeUndo_ok h
          exact .undone ⟨hargok, hpage⟩ hmade (.inr ⟨tables₁, fd₀, hfd₀, hfd₁, rfl⟩) hclose₀ hclose₁
        · rename_i tables₂ fd₁ hfd₁
          rw [state_of_ok h]
          exact .done hmade hfd₀ hfd₁
  · rw [state_of_ok h]
    exact .refused

/-- A successful `chdir`: the reference on the old directory is dropped, and
peers follow unless the directory is the old one. -/
structure Moved (s : Kernel) (p : Slot) (w : Walk) (s' : Kernel) : Prop where
  moved : ∃ ic ip old cwds,
    namei s.icache (s.procs p).cwd w = .ok (ic, some ip) ∧ (s.procs p).cwd = some old ∧
    (old = ip ∧ cwds = (fun q => (s.procs q).cwd) ∨
      old ≠ ip ∧ pwdClone s.cwdPeers (fun q => (s.procs q).cwd) p ip = .ok cwds) ∧
    s'.icache = iput ic old ∧
    ∀ q, s'.procs q =
      { s.procs q with
        cwd := if q = p then some ip else cwds q
        cwdGen := if q = p ∨ cwds q ≠ (s.procs q).cwd then (iput ic old ip).gen
          else (s.procs q).cwdGen }
  initproc : s'.initproc = s.initproc
  nextpid : s'.nextpid = s.nextpid
  ftable : s'.ftable = s.ftable
  pgdirs : s'.pgdirs = s.pgdirs
  ctl : s'.ctl = s.ctl
  clones : s'.clones = s.clones

theorem sysChdir_ok {w : Walk} {isDir : Bool} (h : sysChdir s p w isDir = .ok (s', r)) :
    (∃ ic, LookupDropped s p w ic ∧ s' = { s with icache := ic }) ∨ Moved s p w s' := by
  rw [sysChdir] at h
  split at h
  · cases h
  · rename_i ic hnamei
    exact .inl ⟨ic, .inl hnamei, state_of_ok h⟩
  · rename_i ic ip hnamei
    split at h
    · cases h
    · split_ifs at h with hdir
      · split at h
        · cases h
        · rename_i old hold
          dsimp only at h
          right
          by_cases hsame : old = ip
          · simp only [if_pos hsame, Except.ok.injEq, Prod.mk.injEq] at h
            rw [← h.1]
            refine ⟨⟨ic, ip, old, _, hnamei, hold, .inl ⟨hsame, rfl⟩, rfl, ?_⟩, rfl, rfl, rfl, rfl,
              rfl, rfl⟩
            intro q
            by_cases hq : q = p
            · subst hq
              simp
            · simp [Kernel.setProc_procs_of_ne _ _ _ hq, hq]
          · simp only [if_neg hsame] at h
            cases hprop : pwdClone s.cwdPeers (fun q => (s.procs q).cwd) p ip with
            | error f =>
              have hprop' : pwdClone (Kernel.cwdPeers { s with icache := iput ic old })
                  (fun q => (s.procs q).cwd) p ip = .error f := hprop
              simp [hprop'] at h
            | ok cwds =>
              have hprop' : pwdClone (Kernel.cwdPeers { s with icache := iput ic old })
                  (fun q => (s.procs q).cwd) p ip = .ok cwds := hprop
              simp only [hprop', Except.ok.injEq, Prod.mk.injEq] at h
              rw [← h.1]
              refine ⟨⟨ic, ip, old, cwds, hnamei, hold, .inr ⟨hsame, hprop⟩, rfl, ?_⟩, rfl, rfl,
                rfl, rfl, rfl, rfl⟩
              intro q
              by_cases hq : q = p
              · subst hq
                simp [Kernel.setCwds]
              · simp [Kernel.setProc_procs_of_ne _ _ _ hq, Kernel.setCwds, hq]
      · exact .inl ⟨_, .inr ⟨ic, ip, hnamei, rfl⟩, state_of_ok h⟩

theorem commitImage_ok {d : PageAddr} {mem : AddrSpace} {sz : ℕ}
    (h : commitImage s p d mem sz = .ok s') :
    ∃ old, (s.procs p).pgdir = some old ∧
      update s.pgdirs d (some mem) old ≠ none ∧
      s' = { s.setProc p { s.procs p with pgdir := some d, sz := sz } with
        pgdirs := update (update s.pgdirs d (some mem)) old none } := by
  rw [commitImage] at h
  dsimp only at h
  split at h
  · cases h
  · rename_i pgdirs hfree
    obtain ⟨old, oldmem, hold, hmem, rfl⟩ := freevm_ok hfree
    have hmem' : update s.pgdirs d (some mem) old = some oldmem := hmem
    exact ⟨old, hold, by simp [hmem'], (Except.ok.inj h).symm⟩

/-- `exec` replaced the image of `p`: the new directory holds what the loader
built, and the old one is gone. -/
structure Execed (s : Kernel) (p : Slot) (env : ExecEnv) (s' : Kernel) : Prop where
  elf : env.elf = true
  image : ∃ d old mem sz, env.pgdir = some d ∧ loadImage env = .ok (some (mem, sz)) ∧
    (s.procs p).pgdir = some old ∧ update s.pgdirs d (some mem) old ≠ none ∧
    s'.pgdirs = update (update s.pgdirs d (some mem)) old none ∧
    s'.procs = update s.procs p { s.procs p with pgdir := some d, sz := sz }
  icache : LookupDropped s p env.walk s'.icache
  initproc : s'.initproc = s.initproc
  nextpid : s'.nextpid = s.nextpid
  ftable : s'.ftable = s.ftable
  ctl : s'.ctl = s.ctl
  clones : s'.clones = s.clones

theorem exec_ok {env : ExecEnv} (h : exec s p env = .ok (s', r)) :
    (∃ ic, LookupDropped s p env.walk ic ∧ s' = { s with icache := ic }) ∨
      Execed s p env s' := by
  rw [exec] at h
  split at h
  · cases h
  · rename_i ic hnamei
    exact .inl ⟨ic, .inl hnamei, state_of_ok h⟩
  · rename_i ic ip hnamei
    have hdropped : LookupDropped s p env.walk (iput ic ip) := .inr ⟨ic, ip, hnamei, rfl⟩
    split at h
    · cases h
    · dsimp only at h
      split at h
      · rename_i d helf hd
        split at h
        · cases h
        · exact .inl ⟨_, hdropped, state_of_ok h⟩
        · rename_i mem sz hload
          split at h
          · cases h
          · rename_i s₁ hcommit
            obtain ⟨old, hold, hmem, rfl⟩ := commitImage_ok hcommit
            rw [state_of_ok h]
            exact .inr ⟨helf, ⟨d, old, mem, sz, hd, hload, hold, hmem, rfl, rfl⟩, hdropped, rfl,
              rfl, rfl, rfl, rfl⟩
      · exact .inl ⟨_, hdropped, state_of_ok h⟩

/-- `sbrk` changed the pages of the caller's directory and perhaps its size. -/
structure Resized (s : Kernel) (p : Slot) (n : BitVec 32) (budget : ℕ) (d : PageAddr)
    (mem mem' : AddrSpace) (sz' : ℕ) (s' : Kernel) : Prop where
  pgdir : (s.procs p).pgdir = some d
  memory : s.pgdirs d = some mem
  grown : (0 < n.toInt ∧ ∃ sz₁,
      allocuvm budget mem (s.procs p).sz (((s.procs p).sz + n.toNat) % 2 ^ 32) = .ok (mem', sz₁) ∧
      sz' = if sz₁ = 0 then (s.procs p).sz else sz₁) ∨
    (n.toInt < 0 ∧ ∃ sz₁,
      deallocuvm mem (s.procs p).sz (((s.procs p).sz + n.toNat) % 2 ^ 32) = (mem', sz₁) ∧
      sz' = if sz₁ = 0 then (s.procs p).sz else sz₁)
  shape : s' = (s.setMem d mem').setProc p { s.procs p with sz := sz' }

theorem growproc_ok {n : BitVec 32} {budget : ℕ} (h : growproc s p n budget = .ok (s', r)) :
    s' = s ∨ ∃ d mem mem' sz', Resized s p n budget d mem mem' sz' s' := by
  rw [growproc] at h
  split at h
  · cases h
  · rename_i d mem hspace
    obtain ⟨hd, hmem⟩ := addrSpace_ok hspace
    have hkept : ∀ mem', s.setMem d mem' =
        (s.setMem d mem').setProc p { s.procs p with sz := (s.procs p).sz } := fun mem' => by
      simp [Kernel.setMem, Kernel.setProc]
    dsimp only at h
    by_cases hpos : 0 < n.toInt
    · rw [if_pos hpos] at h
      split at h
      · cases h
      · rename_i mem' sz₁ halloc
        refine .inr ⟨d, mem, mem', if sz₁ = 0 then (s.procs p).sz else sz₁, hd, hmem,
          .inl ⟨hpos, sz₁, halloc, rfl⟩, ?_⟩
        split_ifs at h with hzero
        · rw [if_pos hzero, ← hkept]
          exact state_of_ok h
        · rw [if_neg hzero]
          exact state_of_ok h
    rw [if_neg hpos] at h
    by_cases hneg : n.toInt < 0
    · rw [if_pos hneg] at h
      generalize hdealloc : deallocuvm mem (s.procs p).sz
        (((s.procs p).sz + n.toNat) % 2 ^ 32) = res at h
      obtain ⟨mem', sz₁⟩ := res
      refine .inr ⟨d, mem, mem', if sz₁ = 0 then (s.procs p).sz else sz₁, hd, hmem,
        .inr ⟨hneg, sz₁, hdealloc, rfl⟩, ?_⟩
      dsimp only at h
      split_ifs at h with hzero
      · rw [if_pos hzero, ← hkept]
        exact state_of_ok h
      · rw [if_neg hzero]
        exact state_of_ok h
    · rw [if_neg hneg] at h
      exact .inl (state_of_ok h)

theorem sysSbrk_ok {n : BitVec 32} {budget : ℕ} (h : sysSbrk s p n budget = .ok (s', r)) :
    s' = s ∨ ∃ d mem mem' sz', Resized s p n budget d mem mem' sz' s' := by
  rw [sysSbrk] at h
  split at h
  · cases h
  · rename_i s₁ r₁ hgrow
    rw [state_of_ok h]
    exact growproc_ok hgrow

end Xv6Threads
