/-
# How calls can fail to return

For each function, the faults it can end in. Propagation to peers is not among
the causes: its recursion never gets deeper than there are processes.
-/

import Xv6Threads.Kernel.FileSpec
import Xv6Threads.Kernel.VmSpec

namespace Xv6Threads

open Lib
open Function (update update_of_ne update_self)

variable {ic : Icache} {f : Fault} {w : Walk} {ft : Ftable} {s : Kernel} {p q np : Slot}
variable {budget : ℕ} {mem : AddrSpace} {env : SpawnEnv} {flags : BitVec 32}

/-! ## Inodes and files -/

theorem iget_error {dev inum : ℕ} (h : iget ic dev inum = .error f) : f = .igetNoInodes := by
  rw [iget] at h
  split at h
  · exact (Except.error.inj h).symm
  · split_ifs at h

theorem ilock_error {ip : InodeIdx} (h : ilock ic ip = .error f) : f = .ilock := by
  rw [ilock] at h
  split_ifs at h
  exact (Except.error.inj h).symm

/-- The faults of a path lookup. -/
def lookupFaults : List Fault := [.igetNoInodes, .ilock, .nullDeref]

theorem namexLoop_error {ip : InodeIdx} {comps : List (Option ℕ)}
    (h : namexLoop ic ip comps = .error f) : f ∈ lookupFaults := by
  induction comps generalizing ic ip with
  | nil => cases h
  | cons comp rest ih =>
    unfold namexLoop at h
    split at h
    · rename_i hlock
      cases h
      simp [lookupFaults, ilock_error hlock]
    · split at h
      · cases h
      · split at h
        · rename_i hget
          cases h
          simp [lookupFaults, iget_error hget]
        · exact ih h

theorem namei_error {cwd : Option InodeIdx} (h : namei ic cwd w = .error f) : f ∈ lookupFaults := by
  unfold namei at h
  split_ifs at h
  · split at h
    · rename_i hget
      cases h
      simp [lookupFaults, iget_error hget]
    · exact namexLoop_error h
  · split at h
    · cases h
      simp [lookupFaults]
    · exact namexLoop_error h

theorem filedup_error {i : FileIdx} (h : filedup ft i = .error f) :
    f = .filedup ∧ (ft i).ref = 0 := by
  rw [filedup] at h
  split_ifs at h with hnone
  exact ⟨(Except.error.inj h).symm, by omega⟩

theorem fileclose_error {i : FileIdx} (h : fileclose ft ic i = .error f) :
    f = .fileclose ∧ (ft i).ref = 0 := by
  rw [fileclose] at h
  split_ifs at h with hnone
  exact ⟨(Except.error.inj h).symm, by omega⟩

theorem dupFiles_error {ofile : Fd → Option FileIdx} {fds : List Fd}
    (h : dupFiles ofile fds ft = .error f) : f = .filedup := by
  induction fds generalizing ft with
  | nil => cases h
  | cons fd rest ih =>
    rw [dupFiles] at h
    split at h
    · exact ih h
    · split at h
      · rename_i hdup
        cases h
        exact (filedup_error hdup).1
      · exact ih h

theorem closeFiles_error {ofile : Fd → Option FileIdx} {fds : List Fd}
    (h : closeFiles ofile fds ft ic = .error f) : f = .fileclose := by
  induction fds generalizing ft ic with
  | nil => cases h
  | cons fd rest ih =>
    rw [closeFiles] at h
    split at h
    · exact ih h
    · split at h
      · rename_i hclose
        cases h
        exact (fileclose_error hclose).1
      · exact ih h

/-! ## Propagation -/

theorem fdalloc_isOk (peers : Slot → PeerList) (tables : FdTables) (p : Slot) (f : FileIdx) :
    ∃ r, fdalloc peers tables p f = .ok r := by
  rw [fdalloc]
  split
  · exact ⟨none, rfl⟩
  · rename_i fd hfd
    obtain ⟨column, hprop⟩ := propagate_isOk peers (some f) p
      (fun q => setFd tables p fd (some f) q fd)
    exact ⟨some (setColumn (setFd tables p fd (some f)) fd column, fd), by
      rw [openOfileClone, hprop]⟩

/-! ## File system calls -/

/-- Process `p` has a file open whose count is 0. -/
def Kernel.HoldsDead (s : Kernel) (p : Slot) : Prop :=
  ∃ fd f, (s.procs p).ofile fd = some f ∧ (s.ftable f).ref = 0

theorem sysDup_error {fd : ℤ} (h : sysDup s p fd = .error f) : f = .filedup ∧ s.HoldsDead p := by
  rw [sysDup] at h
  split at h
  · cases h
  · rename_i old g harg
    obtain ⟨r, hr⟩ := fdalloc_isOk s.ofilePeers s.ofiles p g
    rw [hr] at h
    cases r with
    | none => cases h
    | some res =>
      dsimp only at h
      split at h
      · rename_i hdup
        cases h
        obtain ⟨rfl, hzero⟩ := filedup_error hdup
        exact ⟨rfl, old, g, argfd_some harg, hzero⟩
      · cases h

theorem sysClose_error {fd : ℤ} (h : sysClose s p fd = .error f) :
    f = .fileclose ∧ s.HoldsDead p := by
  rw [sysClose] at h
  split at h
  · cases h
  · rename_i old g harg
    split at h
    · rename_i hclose
      cases h
      obtain ⟨rfl, hzero⟩ := fileclose_error hclose
      exact ⟨rfl, old, g, argfd_some harg, hzero⟩
    · obtain ⟨tables, htables⟩ :=
        closeOfileClone_isOk s.ofilePeers (setFd s.ofiles p old none) p old
      rw [htables] at h
      cases h

theorem fileclose_isOk {f : FileIdx} (h : (ft f).ref ≠ 0) (ic : Icache) :
    ∃ r, fileclose ft ic f = .ok r := by
  cases hclose : fileclose ft ic f with
  | error g => exact absurd (fileclose_error hclose).2 h
  | ok r => exact ⟨r, rfl⟩

/-- A file that was just allocated can be closed. -/
theorem filealloc_close_isOk {ft' : Ftable} {f : FileIdx} (h : filealloc ft = some (ft', f))
    (ic : Icache) : ∃ r, fileclose ft' ic f = .ok r := by
  obtain ⟨-, rfl⟩ := filealloc_some h
  exact fileclose_isOk (by rw [update_self]; exact Nat.one_ne_zero) ic

theorem sysOpen_error {accept : Bool} (h : sysOpen s p w accept = .error f) : f ∈ lookupFaults := by
  rw [sysOpen] at h
  split at h
  · rename_i hnamei
    cases h
    exact namei_error hnamei
  · cases h
  · rename_i ic ip hnamei
    split at h
    · rename_i hlock
      cases h
      simp [lookupFaults, ilock_error hlock]
    · split_ifs at h with haccept
      · split at h
        · cases h
        · rename_i ft g halloc
          obtain ⟨r, hr⟩ := fdalloc_isOk s.ofilePeers s.ofiles p g
          rw [hr] at h
          cases r with
          | none =>
            obtain ⟨closed, hclose⟩ := filealloc_close_isOk halloc ic
            rw [hclose] at h
            cases h
          | some res => cases h

/-- Two different open files can be closed one after the other. -/
theorem fileclose_two_isOk {f₀ f₁ : FileIdx} (hne : f₀ ≠ f₁) (h₀ : (ft f₀).ref ≠ 0)
    (h₁ : (ft f₁).ref ≠ 0) (ic : Icache) :
    ∃ ft₁ ic₁ r, fileclose ft ic f₀ = .ok (ft₁, ic₁) ∧ fileclose ft₁ ic₁ f₁ = .ok r := by
  obtain ⟨⟨ft₁, ic₁⟩, hclose₀⟩ := fileclose_isOk h₀ ic
  have hkept : ft₁ f₁ = ft f₁ := by
    rcases fileclose_ok hclose₀ with ⟨-, rfl, -⟩ | ⟨-, rfl, -⟩
    · exact update_of_ne hne.symm ..
    · exact update_of_ne hne.symm ..
  obtain ⟨r, hclose₁⟩ := fileclose_isOk (hkept ▸ h₁) ic₁
  exact ⟨ft₁, ic₁, r, hclose₀, hclose₁⟩

theorem filealloc_two {ft₁ ft₂ : Ftable} {f₀ f₁ : FileIdx}
    (halloc₀ : filealloc ft = some (ft₁, f₀)) (halloc₁ : filealloc ft₁ = some (ft₂, f₁)) :
    f₀ ≠ f₁ ∧ (ft₂ f₀).ref ≠ 0 ∧ (ft₂ f₁).ref ≠ 0 := by
  have hne := filealloc_ne halloc₀ halloc₁
  obtain ⟨-, rfl⟩ := filealloc_some halloc₀
  obtain ⟨-, rfl⟩ := filealloc_some halloc₁
  refine ⟨hne, ?_, ?_⟩
  · rw [update_of_ne hne, update_self]
    exact Nat.one_ne_zero
  · rw [update_self]
    exact Nat.one_ne_zero

theorem pipealloc_isOk (ft : Ftable) (ic : Icache) (page : Bool) :
    ∃ r, pipealloc ft ic page = .ok r := by
  rw [pipealloc]
  split
  · exact ⟨_, rfl⟩
  · rename_i ft₁ f₀ halloc₀
    dsimp only
    split
    · obtain ⟨closed, hclose⟩ := filealloc_close_isOk halloc₀ ic
      rw [hclose]
      exact ⟨_, rfl⟩
    · rename_i ft₂ f₁ halloc₁
      obtain ⟨hne, h₀, h₁⟩ := filealloc_two halloc₀ halloc₁
      cases page with
      | true => exact ⟨_, rfl⟩
      | false =>
        obtain ⟨ft₃, ic₃, r, hclose₀, hclose₁⟩ := fileclose_two_isOk hne h₀ h₁ ic
        rw [if_neg Bool.false_ne_true, hclose₀]
        dsimp only
        rw [hclose₁]
        exact ⟨_, rfl⟩

theorem PipeMade.pipeUndo_isOk {tables : FdTables} {ft₀ : Ftable} {rf wf : FileIdx}
    (h : PipeMade ft₀ ft rf wf) (ic : Icache) :
    ∃ r, pipeUndo s tables ft ic rf wf = .ok r := by
  obtain ⟨ft₁, ft₂, halloc₀, halloc₁, hft⟩ := h.made
  obtain ⟨hne, h₀, h₁⟩ := filealloc_two halloc₀ halloc₁
  have hrf : (ft rf).ref ≠ 0 := by
    rw [hft, update_of_ne hne, update_self]
    exact h₀
  have hwf : (ft wf).ref ≠ 0 := by
    rw [hft, update_self]
    exact h₁
  obtain ⟨ft₃, ic₃, r, hclose₀, hclose₁⟩ := fileclose_two_isOk hne hrf hwf ic
  rw [pipeUndo, hclose₀]
  dsimp only
  rw [hclose₁]
  exact ⟨_, rfl⟩

/-- `pipe` only closes files it allocated itself, so it always returns. -/
theorem sysPipe_isOk (s : Kernel) (p : Slot) (argok page : Bool) :
    ∃ r, sysPipe s p argok page = .ok r := by
  cases argok with
  | false => exact ⟨_, rfl⟩
  | true =>
    rw [sysPipe, if_pos rfl]
    obtain ⟨⟨ft, ic, ends⟩, halloc⟩ := pipealloc_isOk s.ftable s.icache page
    rw [halloc]
    cases ends with
    | none => exact ⟨_, rfl⟩
    | some ends =>
      obtain ⟨rf, wf⟩ := ends
      obtain ⟨-, hmade, rfl⟩ := pipealloc_some halloc
      dsimp only
      obtain ⟨r₀, hr₀⟩ := fdalloc_isOk s.ofilePeers s.ofiles p rf
      rw [hr₀]
      cases r₀ with
      | none => exact hmade.pipeUndo_isOk _
      | some res =>
        obtain ⟨tables, fd₀⟩ := res
        obtain ⟨r₁, hr₁⟩ := fdalloc_isOk s.ofilePeers tables p wf
        dsimp only
        rw [hr₁]
        cases r₁ with
        | none => exact hmade.pipeUndo_isOk _
        | some res => exact ⟨_, rfl⟩

theorem sysChdir_error {isDir : Bool} (h : sysChdir s p w isDir = .error f) : f ∈ lookupFaults := by
  rw [sysChdir] at h
  split at h
  · rename_i hnamei
    cases h
    exact namei_error hnamei
  · cases h
  · rename_i ic ip hnamei
    split at h
    · rename_i hlock
      cases h
      simp [lookupFaults, ilock_error hlock]
    · split_ifs at h
      split at h
      · cases h
        simp [lookupFaults]
      · rename_i old hold
        dsimp only at h
        by_cases hsame : old = ip
        · simp [hsame] at h
        · obtain ⟨cwds, hcwds⟩ := pwdClone_isOk
            (Kernel.cwdPeers { s with icache := iput ic old }) (fun q => (s.procs q).cwd) p ip
          simp [hsame, hcwds] at h

/-! ## Memory -/

theorem allocuvm_error {oldsz newsz : ℕ} (h : allocuvm budget mem oldsz newsz = .error f) :
    f = .remap := by
  rw [allocuvm] at h
  split_ifs at h
  split at h
  · rename_i hmap
    cases h
    rcases mapPages_cases hmap with ⟨h, -⟩ | h <;> cases h
    rfl
  · cases h
  · cases h

theorem loadSegs_error {sz : ℕ} {segs : List Segment} (h : loadSegs mem sz segs = .error f) :
    f = .remap := by
  induction segs generalizing mem sz with
  | nil => cases h
  | cons seg rest ih =>
    rw [loadSegs] at h
    split_ifs at h
    split at h
    · rename_i halloc
      cases h
      exact allocuvm_error halloc
    · split_ifs at h
      exact ih h

theorem loadImage_error {env : ExecEnv} (h : loadImage env = .error f) : f = .remap := by
  rw [loadImage] at h
  split at h
  · rename_i hload
    cases h
    exact loadSegs_error hload
  · cases h
  · split at h
    · rename_i halloc
      cases h
      exact allocuvm_error halloc
    · cases h

/-! ## Using memory that is gone -/

/-- The faults of following a pointer to a directory that was freed. -/
def Fault.Dangling (f : Fault) : Prop := f = .danglingPgdir ∨ f = .freevmNoPgdir

/-- The page directory of `q` exists. -/
def Kernel.HasMemory (s : Kernel) (q : Slot) : Prop :=
  ∃ d mem, (s.procs q).pgdir = some d ∧ s.pgdirs d = some mem

theorem addrSpace_of_hasMemory (h : s.HasMemory q) :
    ∃ res, s.addrSpace (s.procs q).pgdir = .ok res := by
  obtain ⟨d, mem, hd, hmem⟩ := h
  exact ⟨(d, mem), by simp [Kernel.addrSpace, hd, hmem]⟩

theorem addrSpace_error {d : Option PageAddr} (h : s.addrSpace d = .error f) :
    f = .nullDeref ∨ f = .danglingPgdir := by
  unfold Kernel.addrSpace at h
  split at h
  · exact .inl (Except.error.inj h).symm
  · split at h
    · exact .inr (Except.error.inj h).symm
    · cases h

/-- The faults of copying or resizing memory. With the memory of `q` in place,
none of them is about memory that is gone. -/
def MemoryFault (s : Kernel) (q : Slot) (f : Fault) : Prop :=
  f ∈ [Fault.nullDeref, .danglingPgdir, .remap, .copyuvm] ∧ (s.HasMemory q → ¬ f.Dangling)

theorem memoryFault_addrSpace (h : s.addrSpace (s.procs q).pgdir = .error f) :
    MemoryFault s q f := by
  refine ⟨?_, ?_⟩
  · rcases addrSpace_error h with rfl | rfl <;> simp
  · intro hmem
    obtain ⟨res, hres⟩ := addrSpace_of_hasMemory hmem
    rw [hres] at h
    cases h

theorem memoryFault_remap (s : Kernel) (q : Slot) : MemoryFault s q .remap := by
  simp [MemoryFault, Fault.Dangling]

theorem memoryFault_copyuvm (s : Kernel) (q : Slot) : MemoryFault s q .copyuvm := by
  simp [MemoryFault, Fault.Dangling]

theorem memoryFault_nullDeref (s : Kernel) (q : Slot) : MemoryFault s q .nullDeref := by
  simp [MemoryFault, Fault.Dangling]

theorem copyMemory_error (h : copyMemory s p np env = .error f) : MemoryFault s p f := by
  rw [copyMemory] at h
  dsimp only at h
  split at h
  · cases h
  · split at h
    · rename_i hspace
      cases h
      exact memoryFault_addrSpace hspace
    · split at h
      · rename_i hcopy
        cases h
        rcases copyPages_cases hcopy with (h | h) | h | ⟨h, -⟩ <;> cases h
        · exact memoryFault_remap s p
        · exact memoryFault_copyuvm s p
      · cases h
      · cases h

theorem MemoryFault.of_setProc {c : Proc} (hne : p ≠ np) (h : MemoryFault (s.setProc np c) p f) :
    MemoryFault s p f := by
  refine ⟨h.1, fun hmem => h.2 ?_⟩
  obtain ⟨d, mem, hd, hdmem⟩ := hmem
  exact ⟨d, mem, by rw [Kernel.setProc_procs_of_ne _ _ _ hne, hd], hdmem⟩

/-! ## Creating processes -/

/-- The faults of `fork` and `clone`, apart from running out of pids. -/
def SpawnFault (s : Kernel) (p : Slot) (f : Fault) : Prop :=
  MemoryFault s p f ∨
    f = .filedup ∧ ∃ g, dupFiles (s.procs p).ofile (List.finRange NOFILE) s.ftable = .error g

theorem SpawnFault.of_setProc {c : Proc} (hne : p ≠ np) (h : SpawnFault (s.setProc np c) p f) :
    SpawnFault s p f := by
  rcases h with hmem | ⟨rfl, g, hdup⟩
  · exact .inl (hmem.of_setProc hne)
  · rw [Kernel.setProc_procs_of_ne _ _ _ hne] at hdup
    exact .inr ⟨rfl, g, hdup⟩

theorem SpawnFault.of_allocated (hne : p ≠ np) (h : SpawnFault (s.allocated np) p f) :
    SpawnFault s p f :=
  SpawnFault.of_setProc
    (c := { s.procs np with isThread := false, state := .embryo, pid := s.nextpid }) hne h

theorem dupOfiles_error (h : dupOfiles s p np = .error f) :
    f = .filedup ∧ ∃ g, dupFiles (s.procs p).ofile (List.finRange NOFILE) s.ftable = .error g := by
  rw [dupOfiles] at h
  split at h
  · rename_i hdup
    cases h
    exact ⟨dupFiles_error hdup, _, hdup⟩
  · cases h

theorem dupCwd_error (h : dupCwd s p np = .error f) : f = .nullDeref := by
  rw [dupCwd] at h
  split at h
  · exact (Except.error.inj h).symm
  · cases h

theorem forkBody_error (hne : p ≠ np) (h : forkBody s p np env = .error f) : SpawnFault s p f := by
  rw [forkBody] at h
  split_ifs at h
  split at h
  · rename_i hmem
    cases h
    exact .inl ((copyMemory_error hmem).of_setProc hne)
  · cases h
  · rename_i hmem
    obtain ⟨d, copy, -, rfl⟩ := copyMemory_true hne hmem
    dsimp only at h
    split at h
    · rename_i hfiles
      cases h
      obtain ⟨rfl, g, hdup⟩ := dupOfiles_error hfiles
      rw [Kernel.setProc_procs_of_ne _ _ _ hne, Kernel.setProc_procs_of_ne _ _ _ hne] at hdup
      exact .inr ⟨rfl, g, hdup⟩
    · split at h
      · rename_i hcwd
        cases h
        rw [dupCwd_error hcwd]
        exact .inl (memoryFault_nullDeref s p)
      · cases h

theorem cloneFsPart_error (h : cloneFsPart s p np flags = .error f) : f = .nullDeref := by
  rw [cloneFsPart] at h
  split_ifs at h
  exact dupCwd_error h

theorem cloneFilesPart_error (h : cloneFilesPart s p np flags = .error f) :
    f = .filedup ∧ ∃ g, dupFiles (s.procs p).ofile (List.finRange NOFILE) s.ftable = .error g := by
  rw [cloneFilesPart] at h
  split_ifs at h
  exact dupOfiles_error h

theorem cloneParentOf_error (h : cloneParentOf s p flags = .error f) : f = .nullDeref := by
  rw [cloneParentOf] at h
  split_ifs at h
  split at h
  · exact (Except.error.inj h).symm
  · cases h

theorem cloneBody_error (hne : p ≠ np) (h : cloneBody s p np flags env = .error f) :
    SpawnFault s p f := by
  by_cases hstack : env.kstack = true
  · rw [cloneBody, if_pos hstack] at h
    dsimp only at h
    split at h
    · rename_i hmem
      cases h
      cases hvm : flagVm flags with
      | true => simp [hvm] at hmem
      | false =>
        simp only [hvm, Bool.false_eq_true, if_false] at hmem
        exact .inl ((copyMemory_error hmem).of_setProc hne)
    · cases h
    · rename_i hmem
      obtain ⟨pgdir, pgdirs, -, rfl⟩ := cloneMemory_ok hne hmem
      split at h
      · rename_i hfs
        cases h
        rw [cloneFsPart_error hfs]
        exact .inl (memoryFault_nullDeref s p)
      · rename_i hfs
        obtain ⟨ic, -, rfl⟩ := cloneFsPart_ok hne hfs
        split at h
        · rename_i hfiles
          cases h
          obtain ⟨rfl, g, hdup⟩ := cloneFilesPart_error hfiles
          rw [Kernel.setProc_procs_of_ne _ _ _ hne, Kernel.setProc_procs_self] at hdup
          exact .inr ⟨rfl, g, hdup⟩
        · split at h
          · rename_i hparent
            cases h
            rw [cloneParentOf_error hparent]
            exact .inl (memoryFault_nullDeref s p)
          · cases h
  · simp [cloneBody, hstack] at h

theorem spawn_error {body : Kernel → Slot → Except Fault (Kernel × Bool)}
    (hp : (s.procs p).state ≠ .unused)
    (hbody : ∀ {s np f}, p ≠ np → body s np = .error f → SpawnFault s p f)
    (h : spawn s body = .error f) : f = .pidOverflow ∨ SpawnFault s p f := by
  rw [spawn] at h
  split at h
  · rename_i halloc
    cases h
    rw [allocproc] at halloc
    split at halloc
    · cases halloc
    · split_ifs at halloc
      exact .inl (Except.error.inj halloc).symm
  · cases h
  · rename_i s₀ np halloc
    obtain ⟨hfree, -, rfl⟩ := allocproc_some halloc
    have hne : p ≠ np := fun heq => hp (heq ▸ hfree)
    split at h
    · rename_i hrun
      cases h
      exact .inr (.of_allocated hne (hbody hne hrun))
    · cases h
    · cases h

theorem fork_error (hp : (s.procs p).state ≠ .unused) (h : fork s p env = .error f) :
    f = .pidOverflow ∨ SpawnFault s p f :=
  spawn_error hp forkBody_error h

theorem clone_error (hp : (s.procs p).state ≠ .unused) (h : clone s p flags env = .error f) :
    f = .pidOverflow ∨ SpawnFault s p f :=
  spawn_error hp cloneBody_error h

theorem SpawnFault.not_dangling (hp : s.HasMemory p) (h : f = .pidOverflow ∨ SpawnFault s p f) :
    ¬ f.Dangling := by
  rcases h with rfl | hmem | ⟨rfl, -⟩
  · simp [Fault.Dangling]
  · exact hmem.2 hp
  · simp [Fault.Dangling]

/-! ## The other process calls -/

theorem exit_error (h : exit s p = .error f) :
    f = .initExiting ∨ f = .nullDeref ∨ f = .fileclose ∧
      ∃ g, closeFiles (s.procs p).ofile (List.finRange NOFILE) s.ftable s.icache = .error g := by
  rw [exit] at h
  split at h
  · rename_i hrelease
    cases h
    by_cases hinit : p = s.initproc
    · rw [exitRelease, if_pos hinit] at hrelease
      exact .inl (Except.error.inj hrelease).symm
    · rw [exitRelease, if_neg hinit] at hrelease
      dsimp only at hrelease
      split at hrelease
      · rename_i hclosed
        cases hrelease
        split_ifs at hclosed
        exact .inr (.inr ⟨closeFiles_error hclosed, _, hclosed⟩)
      · split_ifs at hrelease
        split at hrelease
        · exact .inr (.inl (Except.error.inj hrelease).symm)
        · cases hrelease
  · cases h

theorem sysSbrk_error {n : BitVec 32} (h : sysSbrk s p n budget = .error f) :
    MemoryFault s p f := by
  rw [sysSbrk] at h
  split at h
  · rename_i hgrow
    cases h
    rw [growproc] at hgrow
    split at hgrow
    · rename_i hspace
      cases hgrow
      exact memoryFault_addrSpace hspace
    · dsimp only at hgrow
      by_cases hpos : 0 < n.toInt
      · rw [if_pos hpos] at hgrow
        split at hgrow
        · rename_i halloc
          cases hgrow
          rw [allocuvm_error halloc]
          exact memoryFault_remap s p
        · split_ifs at hgrow
      · rw [if_neg hpos] at hgrow
        split_ifs at hgrow
  · cases h

theorem freevm_error {pgdirs : PageAddr → Option AddrSpace} {d : Option PageAddr}
    (h : freevm pgdirs d = .error f) :
    f.Dangling ∧ ∀ d' mem, d = some d' → pgdirs d' ≠ some mem := by
  unfold freevm at h
  split at h
  · refine ⟨.inr (Except.error.inj h).symm, ?_⟩
    intro d' mem hd
    cases hd
  · split at h
    · rename_i hnone
      refine ⟨.inl (Except.error.inj h).symm, ?_⟩
      intro d' mem hd hmem
      rw [Option.some.inj hd, hmem] at hnone
      cases hnone
    · cases h

/-- With its old directory in place, a process can install a new one. -/
theorem commitImage_error {d : PageAddr} {sz : ℕ} (h : commitImage s p d mem sz = .error f) :
    f.Dangling ∧ ¬ s.HasMemory p := by
  rw [commitImage] at h
  dsimp only at h
  split at h
  · rename_i hfree
    cases h
    obtain ⟨hdangling, hgone⟩ := freevm_error hfree
    refine ⟨hdangling, ?_⟩
    rintro ⟨old, oldmem, hold, holdmem⟩
    by_cases hd : old = d
    · exact hgone old mem hold (by simp [hd, Kernel.setProc, Kernel.setMem])
    · exact hgone old oldmem hold (by simp [hd, holdmem, Kernel.setProc, Kernel.setMem])
  · cases h

theorem exec_error {env : ExecEnv} (h : exec s p env = .error f) :
    f ∈ .remap :: lookupFaults ∨ f.Dangling ∧ ¬ s.HasMemory p := by
  rw [exec] at h
  split at h
  · rename_i hnamei
    cases h
    exact .inl (List.mem_cons_of_mem _ (namei_error hnamei))
  · cases h
  · split at h
    · rename_i hlock
      cases h
      simp [lookupFaults, ilock_error hlock]
    · dsimp only at h
      split at h
      · split at h
        · rename_i hload
          cases h
          simp [loadImage_error hload]
        · cases h
        · split at h
          · rename_i hcommit
            cases h
            obtain ⟨hdangling, hgone⟩ := commitImage_error hcommit
            exact .inr ⟨hdangling, hgone⟩
          · cases h
      · cases h

theorem waitIter_error (h : waitIter s q = .error f) :
    f.Dangling ∧
      ∃ z, waitScan s.procs q false (List.finRange NPROC) = .found z ∧ ¬ s.HasMemory z := by
  rw [waitIter] at h
  split at h
  · rename_i z hscan
    split at h
    · rename_i hreap
      cases h
      rw [reapWait] at hreap
      split at hreap
      · rename_i hfree
        cases hreap
        obtain ⟨hdangling, hgone⟩ := freevm_error hfree
        refine ⟨hdangling, z, hscan, ?_⟩
        rintro ⟨d, mem, hd, hmem⟩
        exact hgone d mem hd hmem
      · cases hreap
    · cases h
  · split_ifs at h

end Xv6Threads
