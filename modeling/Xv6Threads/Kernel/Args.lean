/-
# Arguments of system calls

`fetchint`, `fetchstr`, `argint`, `argptr` and `argstr` of `syscall.c`, and the loop of
`sys_exec` over the argument vector, with 32-bit arithmetic. Each function also reports the
addresses it reads. For a process that ends below `KERNBASE` none of the sums in the checks
wraps, so that what they accept lies in the process, and so does everything they read.
-/

import Xv6Threads.Vm.Space

namespace Xv6Threads.Args

open Xv6Threads.Vm (Word MAXARG)

/-- What the functions read of a process: its memory, `sz` and `tf->esp`. -/
structure User where
  mem : Word → BitVec 8
  sz : Word
  esp : Word

/-- The value of a call, or its failure, with the addresses read. -/
structure Fetched (α : Type) where
  value : Option α
  reads : List Word

def fetchint (u : User) (addr : Word) : Fetched Word :=
  if u.sz ≤ addr ∨ u.sz < addr + 4 then ⟨none, []⟩
  else
    ⟨some (u.mem (addr + 3) ++ u.mem (addr + 2) ++ u.mem (addr + 1) ++ u.mem addr),
      [addr, addr + 1, addr + 2, addr + 3]⟩

/-- The loop of `fetchstr`, with the number of bytes from `s` up to `ep`. -/
def scan (u : User) : ℕ → Word → Fetched Word
  | 0, _ => ⟨none, []⟩
  | n + 1, s =>
    if u.mem s = 0 then ⟨some s, [s]⟩
    else
      let rest := scan u n (s + 1)
      ⟨rest.value, s :: rest.reads⟩

/-- The length of the string at `addr`. -/
def fetchstr (u : User) (addr : Word) : Fetched Word :=
  if u.sz ≤ addr then ⟨none, []⟩
  else
    let found := scan u (u.sz.toNat - addr.toNat) addr
    ⟨found.value.map fun s => s - addr, found.reads⟩

def argint (u : User) (n : Word) : Fetched Word := fetchint u (u.esp + 4 + 4 * n)

/-- `size < 0`, `(uint)i >= curproc->sz` and `(uint)i+size > curproc->sz` are refused. -/
def argptr (u : User) (n size : Word) : Fetched Word :=
  let arg := argint u n
  match arg.value with
  | none => arg
  | some i =>
    if size.slt 0 ∨ u.sz ≤ i ∨ u.sz < i + size then ⟨none, arg.reads⟩ else arg

/-- The address and the length of the string. -/
def argstr (u : User) (n : Word) : Fetched (Word × Word) :=
  let arg := argint u n
  match arg.value with
  | none => ⟨none, arg.reads⟩
  | some addr =>
    let str := fetchstr u addr
    ⟨str.value.map fun k => (addr, k), arg.reads ++ str.reads⟩

/-- The entries of `argv` that the loop of `sys_exec` has stored, whether it found the end of
the vector, and the addresses it read. -/
structure Argv where
  stored : List Word
  complete : Bool
  reads : List Word

/-- The loop of `sys_exec` at entry `i`, with the number of entries that `argv` has left. -/
def argvLoop (u : User) (uargv : Word) : ℕ → Word → Argv
  | 0, _ => ⟨[], false, []⟩
  | n + 1, i =>
    let arg := fetchint u (uargv + 4 * i)
    match arg.value with
    | none => ⟨[], false, arg.reads⟩
    | some uarg =>
      if uarg = 0 then ⟨[0], true, arg.reads⟩
      else
        let str := fetchstr u uarg
        match str.value with
        -- `fetchstr` sets the entry before it looks for the end of the string
        | none => ⟨if u.sz ≤ uarg then [] else [uarg], false, arg.reads ++ str.reads⟩
        | some _ =>
          let rest := argvLoop u uargv n (i + 1)
          ⟨uarg :: rest.stored, rest.complete, arg.reads ++ str.reads ++ rest.reads⟩

/-- `sys_exec` up to the call of `exec`. -/
def sysExec (u : User) : Argv :=
  let path := argstr u 0
  match path.value with
  | none => ⟨[], false, path.reads⟩
  | some _ =>
    let arg := argint u 1
    match arg.value with
    | none => ⟨[], false, path.reads ++ arg.reads⟩
    | some uargv =>
      let rest := argvLoop u uargv MAXARG 0
      ⟨rest.stored, rest.complete, path.reads ++ arg.reads ++ rest.reads⟩

section

variable {u : User} {addr n p k size : Word}

def Fetched.Inside {α : Type} (u : User) (x : Fetched α) : Prop := ∀ a ∈ x.reads, a < u.sz

/-- A string of `k` bytes at `p`, with the byte that ends it. -/
structure User.Str (u : User) (p k : Word) : Prop where
  inside : p.toNat + k.toNat < u.sz.toNat
  ends : u.mem (p + k) = 0
  first : ∀ j < k, u.mem (p + j) ≠ 0

theorem fetchint_room (hsz : u.sz.toNat < KERNBASE) {v : Word}
    (h : (fetchint u addr).value = some v) : addr.toNat + 4 ≤ u.sz.toNat := by
  change u.sz.toNat < 2147483648 at hsz
  unfold fetchint at h
  split at h
  · cases h
  · rename_i hcheck
    bv_omega

theorem fetchint_inside (hsz : u.sz.toNat < KERNBASE) : (fetchint u addr).Inside u := by
  change u.sz.toNat < 2147483648 at hsz
  intro a ha
  unfold fetchint at ha
  split at ha
  · cases ha
  · rename_i hcheck
    simp only [List.mem_cons, List.not_mem_nil, or_false] at ha
    rcases ha with rfl | rfl | rfl | rfl <;> bv_omega

/-- Only the bytes left are read, and the first of them that is zero ends the string. -/
theorem scan_spec {count : ℕ} {s : Word} (hend : s.toNat + count = u.sz.toNat) :
    (scan u count s).Inside u ∧ ∀ e, (scan u count s).value = some e →
      s ≤ e ∧ e < u.sz ∧ u.mem e = 0 ∧ ∀ t, s ≤ t → t < e → u.mem t ≠ 0 := by
  induction count generalizing s with
  | zero =>
    refine ⟨fun a ha => ?_, fun e he => ?_⟩
    · cases ha
    · cases he
  | succ count ih =>
    have hs : s < u.sz := by bv_omega
    unfold scan
    by_cases hzero : u.mem s = 0
    · rw [if_pos hzero]
      refine ⟨fun a ha => ?_, fun e he => ?_⟩
      · rw [List.mem_singleton.mp ha]
        exact hs
      · cases he
        exact ⟨BitVec.le_refl _, hs, hzero, fun t ht hlt => by bv_omega⟩
    · rw [if_neg hzero]
      obtain ⟨hinside, hfound⟩ := ih (show (s + 1).toNat + count = u.sz.toNat by bv_omega)
      refine ⟨fun a ha => ?_, fun e he => ?_⟩
      · rcases List.mem_cons.mp ha with rfl | ha
        · exact hs
        · exact hinside a ha
      · obtain ⟨hle, hlt, hmem, hfirst⟩ := hfound e he
        refine ⟨by bv_omega, hlt, hmem, fun t ht hte => ?_⟩
        by_cases hts : t = s
        · rw [hts]
          exact hzero
        · exact hfirst t (by bv_omega) hte

theorem fetchstr_inside : (fetchstr u addr).Inside u := by
  unfold fetchstr
  by_cases hout : u.sz ≤ addr
  · rw [if_pos hout]
    intro a ha
    cases ha
  · rw [if_neg hout]
    exact (scan_spec (by bv_omega)).1

theorem fetchstr_str (h : (fetchstr u addr).value = some k) : u.Str addr k := by
  unfold fetchstr at h
  by_cases hout : u.sz ≤ addr
  · rw [if_pos hout] at h
    cases h
  · rw [if_neg hout] at h
    obtain ⟨e, he, rfl⟩ := Option.map_eq_some_iff.mp h
    obtain ⟨hle, hlt, hmem, hfirst⟩ := (scan_spec (by bv_omega)).2 e he
    have hsum : addr + (e - addr) = e := by bv_omega
    refine ⟨by bv_omega, by rwa [hsum], fun j hj => ?_⟩
    exact hfirst (addr + j) (by bv_omega) (by bv_omega)

theorem argptr_room (hsz : u.sz.toNat < KERNBASE) (h : (argptr u n size).value = some p) :
    0 ≤ size.toInt ∧ p.toNat + size.toInt ≤ u.sz.toNat := by
  change u.sz.toNat < 2147483648 at hsz
  unfold argptr at h
  dsimp only at h
  split at h
  · rename_i hnone
    rw [hnone] at h
    cases h
  · rename_i i hi
    split at h
    · cases h
    · rename_i hcheck
      rw [hi] at h
      cases h
      have hpos : ¬size.toInt < 0 := fun hneg => hcheck (.inl (by simpa [BitVec.slt] using hneg))
      have hint : size.toInt = size.toNat := by
        rw [BitVec.toInt_eq_toNat_cond] at hpos ⊢
        omega
      refine ⟨not_lt.mp hpos, ?_⟩
      rw [hint] at hpos ⊢
      rw [BitVec.toInt_eq_toNat_cond] at hint
      bv_omega

theorem argptr_inside (hsz : u.sz.toNat < KERNBASE) : (argptr u n size).Inside u := by
  have harg : (argint u n).Inside u := fetchint_inside hsz
  unfold argptr
  dsimp only
  split
  · exact harg
  · split
    · exact harg
    · exact harg

theorem argstr_inside (hsz : u.sz.toNat < KERNBASE) : (argstr u n).Inside u := by
  have harg : (argint u n).Inside u := fetchint_inside hsz
  unfold argstr
  dsimp only
  split
  · exact harg
  · exact List.forall_mem_append.mpr ⟨harg, fetchstr_inside⟩

theorem argstr_str (h : (argstr u n).value = some (p, k)) : u.Str p k := by
  unfold argstr at h
  dsimp only at h
  split at h
  · cases h
  · obtain ⟨k', hk, hpair⟩ := Option.map_eq_some_iff.mp h
    cases hpair
    exact fetchstr_str hk

/-- The loop stores no more entries than `argv` has left. -/
theorem argvLoop_spec (hsz : u.sz.toNat < KERNBASE) {uargv : Word} {left : ℕ} {i : Word} :
    (∀ a ∈ (argvLoop u uargv left i).reads, a < u.sz) ∧
      (argvLoop u uargv left i).stored.length ≤ left := by
  induction left generalizing i with
  | zero => exact ⟨List.forall_mem_nil _, le_rfl⟩
  | succ left ih =>
    have hint : (fetchint u (uargv + 4 * i)).Inside u := fetchint_inside hsz
    unfold argvLoop
    dsimp only
    split
    · exact ⟨hint, Nat.zero_le _⟩
    · split
      · exact ⟨hint, Nat.succ_le_succ (Nat.zero_le _)⟩
      · rename_i uarg _ _
        have hboth : ∀ a ∈ (fetchint u (uargv + 4 * i)).reads ++ (fetchstr u uarg).reads,
            a < u.sz := List.forall_mem_append.mpr ⟨hint, fetchstr_inside⟩
        split
        · refine ⟨hboth, ?_⟩
          dsimp only
          split <;> simp
        · exact ⟨List.forall_mem_append.mpr ⟨hboth, ih.1⟩, Nat.succ_le_succ ih.2⟩

theorem sysExec_spec (hsz : u.sz.toNat < KERNBASE) :
    (∀ a ∈ (sysExec u).reads, a < u.sz) ∧ (sysExec u).stored.length ≤ MAXARG := by
  have hpath : (argstr u 0).Inside u := argstr_inside hsz
  have harg : (argint u 1).Inside u := fetchint_inside hsz
  have hboth : ∀ a ∈ (argstr u 0).reads ++ (argint u 1).reads, a < u.sz :=
    List.forall_mem_append.mpr ⟨hpath, harg⟩
  unfold sysExec
  dsimp only
  split
  · exact ⟨hpath, Nat.zero_le _⟩
  · split
    · exact ⟨hboth, Nat.zero_le _⟩
    · obtain ⟨hreads, hlen⟩ := argvLoop_spec hsz
      exact ⟨List.forall_mem_append.mpr ⟨hboth, hreads⟩, hlen⟩

end

/-- What the argument functions accept lies in the process, whatever the arguments are, and
they read nothing outside of it, also when they fail. -/
theorem arguments_in_user_memory (u : User) (hsz : u.sz.toNat < KERNBASE) :
    (∀ addr v, (fetchint u addr).value = some v → addr.toNat + 4 ≤ u.sz.toNat) ∧
    (∀ n v, (argint u n).value = some v → (u.esp + 4 + 4 * n).toNat + 4 ≤ u.sz.toNat) ∧
    (∀ n size p, (argptr u n size).value = some p →
      0 ≤ size.toInt ∧ p.toNat + size.toInt ≤ u.sz.toNat) ∧
    (∀ addr k, (fetchstr u addr).value = some k → u.Str addr k) ∧
    (∀ n p k, (argstr u n).value = some (p, k) → u.Str p k) ∧
    (∀ addr, (fetchint u addr).Inside u ∧ (fetchstr u addr).Inside u) ∧
    (∀ n size, (argint u n).Inside u ∧ (argptr u n size).Inside u ∧ (argstr u n).Inside u) ∧
    (∀ a ∈ (sysExec u).reads, a < u.sz) ∧ (sysExec u).stored.length ≤ MAXARG :=
  ⟨fun _ _ => fetchint_room hsz, fun _ _ => fetchint_room hsz, fun _ _ _ => argptr_room hsz,
    fun _ _ => fetchstr_str, fun _ _ _ => argstr_str,
    fun _ => ⟨fetchint_inside hsz, fetchstr_inside⟩,
    fun _ _ => ⟨fetchint_inside hsz, argptr_inside hsz, argstr_inside hsz⟩, sysExec_spec hsz⟩

/-- A process of 64 bytes that calls `exec` with path `ls` and arguments `ls` and `x`. -/
def lsx : User :=
  ⟨fun a => [0, 0, 0, 0, 32, 0, 0, 0, 16, 0, 0, 0, 0, 0, 0, 0, 32, 0, 0, 0, 35, 0, 0, 0, 0, 0, 0, 0,
    0, 0, 0, 0, 0x6c, 0x73, 0, 0x78, 0].getD a.toNat 0, 64, 0⟩

theorem arguments_in_user_memory_lsx :
    ((argstr lsx 0).value = some (32, 2) ∧ lsx.Str 32 2) ∧ (sysExec lsx).stored = [32, 35, 0] ∧
      (sysExec lsx).complete = true ∧ ∀ a ∈ (sysExec lsx).reads, a < 64 := by
  have hpath : (argstr lsx 0).value = some (32, 2) := by decide
  obtain ⟨-, -, -, -, hstr, -, -, hreads, -⟩ := arguments_in_user_memory lsx (by decide)
  exact ⟨⟨hpath, hstr 0 32 2 hpath⟩, by decide, by decide, hreads⟩

end Xv6Threads.Args
