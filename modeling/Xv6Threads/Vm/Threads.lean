/-
# The user stack of a new thread

`sys_clone` checks four bytes at the address it is given for a stack, and `clone` stores
two words at the end of the page that starts there. The stores go through the page table
of the caller. Without `CLONE_VM` the thread runs on a copy that was made before them, and
does not see them.
-/

import Xv6Threads.Kernel.Args
import Xv6Threads.Vm.Loading

namespace Xv6Threads.Vm

open Lib Lib.Command

variable {stack arg : Word} {Q : Unit → PMem → Prop}

/-- The fields of a trap frame that `clone` sets or that system calls read. -/
structure Trapframe where
  eax : Word
  eip : Word
  esp : Word
  ebp : Word
  deriving DecidableEq

/-! ## System call arguments -/

/-- The byte at a user address. -/
def userMem (s : PMem) (d a : ℕ) : Option (BitVec 8) := (userByte s d a).map fun x => s.mem x.1 x.2

/-- The process as the argument functions see it. -/
def userOf (s : PMem) (p : Space) (tf : Trapframe) : Args.User :=
  ⟨fun a => (userMem s p.pgdir a.toNat).getD 0, p.sz, tf.esp⟩

/-- The arguments of `clone`, if the checks of `sys_clone` pass. -/
def cloneArgs (s : PMem) (p : Space) (tf : Trapframe) : Option (Word × Word × Word × Word) := do
  let f ← (Args.argptr (userOf s p tf) 0 4).value
  let arg ← (Args.argptr (userOf s p tf) 1 4).value
  let stack ← (Args.argptr (userOf s p tf) 2 4).value
  let flags ← (Args.argint (userOf s p tf) 3).value
  return (f, arg, stack, flags)

/-! ## `clone` -/

def writable (pte : Word) : Bool := pte &&& PTE_W != 0

/-- A byte stored by the kernel through the page table in use. -/
def storeByte (pgdir : ℕ) (va : Word) (b : BitVec 8) : VmM Unit := do
  match ← read fun s => pteOf s pgdir (va.toNat / PGSIZE) with
  | none => fail .pageFault
  | some pte => do
      check (fun _ => writable pte = true) .pageFault
      let page ← read fun s => s.mem (frame pte)
      setPage (frame pte) (pageWith page (va.toNat % PGSIZE) [b])

def storeBytes (pgdir : ℕ) : Word → List (BitVec 8) → VmM Unit
  | _, [] => return ()
  | va, b :: bs => do
      storeByte pgdir va b
      storeBytes pgdir (va + 1) bs

/-- The words that make the frame of the new thread, in the order of the stores. -/
def cloneStores (arg stack : Word) : List (Word × Word) :=
  let userStack := stack + BitVec.ofNat 32 PGSIZE - 4
  [(userStack, arg), (userStack - 4, 0xffffffff)]

def storeWords (pgdir : ℕ) : List (Word × Word) → VmM Unit
  | [] => return ()
  | (va, w) :: rest => do
      storeBytes pgdir va (bytesOf [w])
      storeWords pgdir rest

section

variable (L : Layout)

/-- What `clone` does to memory, with the memory and the trap frame of the new thread. The
kernel stack is the page `allocproc` takes. -/
def clone (p : Space) (tf : Trapframe) (f arg stack flags : Word) :
    VmM (Option (Space × Trapframe)) := do
  match ← kalloc with
  | none => return none
  | some kstack => do
      match ← (if flags.getLsbD 0 then return some p.pgdir else copyuvm L p.pgdir p.sz) with
      | none => do
          kfree L kstack
          return none
      | some pgdir => do
          storeWords p.pgdir (cloneStores arg stack)
          let userStack := stack + BitVec.ofNat 32 PGSIZE - 4 - 4
          return some (⟨pgdir, p.sz⟩, { tf with
            eax := 0, ebp := userStack, esp := userStack, eip := f })

def sysClone (p : Space) (tf : Trapframe) : VmM (Option (Space × Trapframe)) := do
  match ← read fun s => cloneArgs s p tf with
  | none => return none
  | some (f, arg, stack, flags) => clone L p tf f arg stack flags

end

/-! ## Where the stores go -/

/-- The four bytes at `va` are below `sz`. -/
def Within (sz va : Word) : Prop := va.toNat + 4 ≤ sz.toNat

instance (sz va : Word) : Decidable (Within sz va) := inferInstanceAs (Decidable (_ ≤ _))

theorem toNat_frame (hlt : stack.toNat < KERNBASE) :
    (stack + BitVec.ofNat 32 PGSIZE - 4).toNat = stack.toNat + 4092 ∧
      (stack + BitVec.ofNat 32 PGSIZE - 4 - 4).toNat = stack.toNat + 4088 := by
  change stack.toNat < 0x80000000 at hlt
  have hsum : (stack + BitVec.ofNat 32 PGSIZE).toNat = stack.toNat + 4096 := by
    rw [BitVec.toNat_add]
    show (stack.toNat + 4096) % 2 ^ 32 = _
    omega
  have hfirst : (stack + BitVec.ofNat 32 PGSIZE - 4).toNat = stack.toNat + 4092 := by
    rw [BitVec.toNat_sub, hsum]
    show (2 ^ 32 - 4 + (stack.toNat + 4096)) % 2 ^ 32 = _
    omega
  refine ⟨hfirst, ?_⟩
  rw [BitVec.toNat_sub, hfirst]
  show (2 ^ 32 - 4 + (stack.toNat + 4092)) % 2 ^ 32 = _
  omega

/-- `sys_clone` passes its arguments on to `clone`, and both words of the frame are in the
memory of the caller exactly when the whole page at `stack` is. -/
theorem clone_stores_within {L : Layout} {s : PMem} {p : Space} {tf : Trapframe}
    {f arg stack flags : Word} (hlt : p.sz.toNat < KERNBASE)
    (hargs : cloneArgs s p tf = some (f, arg, stack, flags)) :
    sysClone L p tf s = clone L p tf f arg stack flags s ∧
    ((∀ x ∈ cloneStores arg stack, Within p.sz x.1) ↔ stack.toNat + PGSIZE ≤ p.sz.toNat) := by
  have hcall : sysClone L p tf s = clone L p tf f arg stack flags s := by
    have hread : (read fun s => cloneArgs s p tf : VmM _) s =
        .ok (some (f, arg, stack, flags), s) := by
      rw [← hargs]
      rfl
    rw [sysClone, bind_ok hread]
  refine ⟨hcall, ?_⟩
  obtain ⟨f', -, hargs⟩ := Option.bind_eq_some_iff.mp hargs
  obtain ⟨arg', -, hargs⟩ := Option.bind_eq_some_iff.mp hargs
  obtain ⟨stack', hstack, hargs⟩ := Option.bind_eq_some_iff.mp hargs
  obtain ⟨flags', -, hargs⟩ := Option.bind_eq_some_iff.mp hargs
  cases hargs
  have hroom : (stack.toNat : ℤ) + 4 ≤ p.sz.toNat := (Args.argptr_room hlt hstack).2
  change p.sz.toNat < 0x80000000 at hlt
  obtain ⟨hfirst, hsecond⟩ := toNat_frame (show stack.toNat < 0x80000000 by omega)
  simp only [cloneStores, List.forall_mem_cons, Within, hfirst, hsecond]
  show _ ↔ _ + 4096 ≤ _
  constructor
  · rintro ⟨hword, -⟩
    omega
  · intro hpage
    exact ⟨by omega, by omega, fun x hx => absurd hx List.not_mem_nil⟩

/-- The memory of a caller whose stack argument is the last word of its only page. -/
def lastWord : PMem := smallMemory.put 302 3 4092

/-- The whole page at 0 is inside. -/
theorem clone_stores_within_page :
    cloneArgs smallMemory ⟨300, 4096⟩ ⟨0, 0, 0, 0⟩ = some (0, 0, 0, 0) ∧
      ∀ x ∈ cloneStores 0 0, Within 4096 x.1 := by
  have hargs : cloneArgs smallMemory ⟨300, 4096⟩ ⟨0, 0, 0, 0⟩ = some (0, 0, 0, 0) := by
    decide +kernel
  exact ⟨hargs, (clone_stores_within (L := smallLayout) (by decide) hargs).2.mpr (by decide)⟩

/-- The checks pass, and both words are stored in the page above. -/
theorem clone_stores_above :
    cloneArgs lastWord ⟨300, 4096⟩ ⟨0, 0, 0, 0⟩ = some (0, 0, 4092, 0) ∧
      ∀ x ∈ cloneStores 0 4092, 4096 ≤ x.1.toNat := by
  refine ⟨by decide +kernel, ?_⟩
  rw [cloneStores, List.forall_mem_cons, List.forall_mem_singleton]
  exact ⟨by decide, by decide⟩

/-! ## What the stores do -/

section

variable {L : Layout} {E : VmFault → Prop} {D other loose : Set ℕ}
variable {s s' s₀ : PMem} {d d' : ℕ} {va : Word}

/-- The kernel can write to the user pages. -/
def Writable (s : PMem) (d : ℕ) : Prop :=
  ∀ k < UPAGES, ∀ w, pteOf s d k = some w → writable w = true

theorem Writable.sameView (h : Writable s d) (hview : SameView d s s') : Writable s' d :=
  fun k hk w hw => h k hk w ((hview.pteOf (hk.trans (by decide))).symm.trans hw)

theorem storeByte_ends {b : BitVec 8} (hd : d ∈ D) (hk : va.toNat < KERNBASE)
    (hre : Refilled L D other loose s₀ s) (hpage : pteOf s₀ d (va.toNat / PGSIZE) ≠ none)
    (hfault : ¬Writable s₀ d → E .pageFault)
    (hdone : ∀ s', Refilled L D other loose s s' →
      Stored (userByte s₀ d) va.toNat [b] s.mem s'.mem → Q () s') :
    Ends E (storeByte d va b) s Q := by
  change va.toNat < 0x80000000 at hk
  have hkU : va.toNat / PGSIZE < UPAGES := by
    change va.toNat / 4096 < 0x80000
    omega
  have hsame := (hre.views d hd).pteOf (hkU.trans (by decide))
  apply Ends.read_bind
  cases hpte : pteOf s d (va.toNat / PGSIZE) with
  | none => exact absurd (hsame.symm.trans hpte) hpage
  | some w =>
    have hpte₀ := hsame.symm.trans hpte
    apply Ends.check_bind
    case hfail => exact fun hnot => hfault fun h => hnot (h _ hkU w hpte₀)
    intro _
    apply Ends.read_bind
    apply Ends.modify
    apply hdone _ (hre.sound.refilled hd ⟨hkU, w, hpte, rfl⟩ _)
    apply Stored.fill
    intro i hi
    obtain rfl : i = 0 := Nat.lt_one_iff.mp hi
    rw [Nat.add_zero, Nat.add_zero, userByte, hpte₀]
    rfl

theorem storeBytes_ends {bs : List (BitVec 8)} (hs₀ : Sound L D other loose s₀) (hd : d ∈ D)
    (hbelow : va.toNat + bs.length ≤ KERNBASE) (hre : Refilled L D other loose s₀ s)
    (hpages : ∀ i < bs.length, pteOf s₀ d ((va.toNat + i) / PGSIZE) ≠ none)
    (hfault : ¬Writable s₀ d → E .pageFault)
    (hdone : ∀ s', Refilled L D other loose s s' →
      Stored (userByte s₀ d) va.toNat bs s.mem s'.mem → Q () s') :
    Ends E (storeBytes d va bs) s Q := by
  induction bs generalizing s va with
  | nil => exact Ends.pure (hdone s (.refl hre.sound) .nil)
  | cons b bs ih =>
    change va.toNat + (bs.length + 1) ≤ 0x80000000 at hbelow
    have hnext : (va + 1).toNat = va.toNat + 1 := by
      rw [BitVec.toNat_add]
      show (va.toNat + 1) % 2 ^ 32 = _
      omega
    rw [storeBytes]
    apply Ends.seq
    apply storeByte_ends hd (by change _ < 0x80000000; omega) hre (hpages 0 (Nat.succ_pos _))
      hfault
    intro s₁ hre₁ hst₁
    apply ih (by change _ ≤ 0x80000000; omega) (hre.trans hre₁)
    · intro i hi
      have haddr : (va + 1).toNat + i = va.toNat + (i + 1) := by omega
      rw [haddr]
      exact hpages (i + 1) (Nat.succ_lt_succ hi)
    intro s' hre' hst'
    apply hdone s' (hre₁.trans hre')
    apply hst₁.append hst'
    · intro j _
      rw [hnext, List.length_singleton]
      omega
    · intro i hi j hj x hx hx'
      rw [List.length_singleton] at hi
      have heq := userByte_unique hs₀ hd hd ?_ ?_ hx hx'
      · omega
      · change _ / 4096 < 0x80000
        omega
      · change _ / 4096 < 0x80000
        omega

/-- The word at a user address. -/
def WordIs (s : PMem) (d : ℕ) (va w : Word) : Prop :=
  ∀ i < 4, userMem s d (va.toNat + i) = some (byteOf w i)

/-- Bytes that were not stored to. -/
theorem Stored.kept {va : ℕ} {bs : List (BitVec 8)} (hs : Sound L D other loose s) (hd : d ∈ D)
    (hre : Refilled L D other loose s s') (h : Stored (userByte s d) va bs s.mem s'.mem)
    (hbelow : va + bs.length ≤ KERNBASE) (hd' : d' ∈ D) {a : ℕ} (ha : a < KERNBASE)
    (hout : d' = d → a < va ∨ va + bs.length ≤ a) : userMem s' d' a = userMem s d' a := by
  change va + bs.length ≤ 0x80000000 at hbelow
  change a < 0x80000000 at ha
  rw [userMem, userMem, (hre.views d' hd').userByte (by show a / 4096 < _; omega)]
  cases hx : userByte s d' a with
  | none => rfl
  | some x =>
    simp only [Option.map_some, Option.some.injEq]
    apply h.others
    intro i hi heq
    have hsame := userByte_unique hs hd' hd ?_ ?_ hx heq
    · have hcases := hout hsame.1
      omega
    · change _ / 4096 < 0x80000
      omega
    · change _ / 4096 < 0x80000
      omega

theorem storeWord_ends {sz w : Word} (hs : Sound L D other loose s) (hd : d ∈ D)
    (hmatch : Matches s d sz) (hin : va.toNat + 4 ≤ sz.toNat)
    (hfault : ¬Writable s d → E .pageFault)
    (hdone : ∀ s', Refilled L D other loose s s' → WordIs s' d va w →
      (∀ d' ∈ D, ∀ a < KERNBASE, (d' = d → a < va.toNat ∨ va.toNat + 4 ≤ a) →
        userMem s' d' a = userMem s d' a) → Q () s') :
    Ends E (storeBytes d va (bytesOf [w])) s Q := by
  have hsize : sz.toNat ≤ 0x80000000 := hmatch.size
  have hlen : (bytesOf [w]).length = 4 := length_bytesOf [w]
  have hkU (i : ℕ) (hi : i < 4) : (va.toNat + i) / 4096 < UPAGES := by
    change _ < 0x80000
    omega
  have hpages (i : ℕ) (hi : i < 4) : ∃ v, pteOf s d ((va.toNat + i) / 4096) = some v :=
    Option.isSome_iff_exists.mp ((hmatch.pages _ (hkU i hi)).mpr (by show _ * 4096 < _; omega))
  have hmapped (i : ℕ) (hi : i < (bytesOf [w]).length) :
      pteOf s d ((va.toNat + i) / PGSIZE) ≠ none := by
    obtain ⟨v, hv⟩ := hpages i (hlen ▸ hi)
    exact fun hnone => absurd (hv.symm.trans hnone) (Option.some_ne_none v)
  apply storeBytes_ends hs hd (by rw [hlen]; exact hin.trans hmatch.size) (.refl hs) hmapped hfault
  intro s' hre hst
  apply hdone s' hre
  · intro i hi
    obtain ⟨v, hv⟩ := hpages i hi
    have hplace : userByte s d (va.toNat + i) = some (frame v, (va.toNat + i) % PGSIZE) := by
      show (pteOf s d ((va.toNat + i) / 4096)).map _ = _
      rw [hv]
      rfl
    rw [userMem, (hre.views d hd).userByte ((hkU i hi).trans (by decide)), hplace, Option.map_some,
      hst.bytes i (hlen ▸ hi) _ _ hplace]
    obtain rfl | rfl | rfl | rfl : i = 0 ∨ i = 1 ∨ i = 2 ∨ i = 3 := by omega
    all_goals rfl
  · intro d' hd' a ha hout
    exact hst.kept hs hd hre (by rw [hlen]; exact hin.trans hmatch.size) hd' ha
      (by rwa [hlen])

/-- The frame of a new thread: a return address that is none, and its argument. -/
def FrameIs (s : PMem) (d : ℕ) (arg stack : Word) : Prop :=
  WordIs s d (stack + BitVec.ofNat 32 PGSIZE - 4 - 4) 0xffffffff ∧
    WordIs s d (stack + BitVec.ofNat 32 PGSIZE - 4) arg

theorem frameIs_congr (hlt : stack.toNat + 4096 ≤ KERNBASE)
    (h : ∀ a, stack.toNat ≤ a → a < stack.toNat + 4096 → userMem s' d' a = userMem s d a) :
    FrameIs s' d' arg stack ↔ FrameIs s d arg stack := by
  change stack.toNat + 4096 ≤ 0x80000000 at hlt
  obtain ⟨hfirst, hsecond⟩ := toNat_frame (show stack.toNat < 0x80000000 by omega)
  apply and_congr
  · apply forall₂_congr
    intro i hi
    rw [hsecond, h _ (by omega) (by omega)]
  · apply forall₂_congr
    intro i hi
    rw [hfirst, h _ (by omega) (by omega)]

theorem cloneStores_ends {sz : Word} (hs : Sound L D other loose s) (hd : d ∈ D)
    (hmatch : Matches s d sz) (hstack : stack.toNat + PGSIZE ≤ sz.toNat)
    (hfault : ¬Writable s d → E .pageFault)
    (hdone : ∀ s', FrameIs s' d arg stack →
      (∀ d' ∈ D, d' ≠ d → ∀ a < KERNBASE, userMem s' d' a = userMem s d' a) → Q () s') :
    Ends E (storeWords d (cloneStores arg stack)) s Q := by
  have hsize : sz.toNat ≤ 0x80000000 := hmatch.size
  change stack.toNat + 4096 ≤ sz.toNat at hstack
  obtain ⟨hfirst, hsecond⟩ := toNat_frame (show stack.toNat < 0x80000000 by omega)
  rw [cloneStores, storeWords]
  apply Ends.seq
  apply storeWord_ends hs hd hmatch (by omega) hfault
  intro s₁ hre₁ hword₁ hkept₁
  rw [storeWords]
  apply Ends.seq
  have hview := hre₁.views d hd
  apply storeWord_ends hre₁.sound hd (hmatch.sameView hview) (by omega)
    fun hnot => hfault fun h => hnot (h.sameView hview)
  intro s₂ hre₂ hword₂ hkept₂
  apply Ends.pure
  apply hdone s₂ ⟨hword₂, ?_⟩
  · intro d' hd' hne a ha
    rw [hkept₂ d' hd' a ha fun h => absurd h hne, hkept₁ d' hd' a ha fun h => absurd h hne]
  · intro i hi
    rw [hkept₂ d hd _ (by change _ < 0x80000000; omega) (by omega)]
    exact hword₁ i hi

/-- The copy has the contents of the original. -/
theorem Copied.userMem {src k a : ℕ} (h : Copied L D other loose src d k s s')
    (hs : Sound L D other loose s) (ha : a / PGSIZE < k) : userMem s' d a = userMem s src a := by
  obtain ⟨w, f, hw, hf, hpte, hmem⟩ := h.pages (a / PGSIZE) ha
  rw [Vm.userMem, Vm.userMem, userByte, userByte, hw, hpte]
  simp only [Option.map_some, frame_entry (hs.range f hf).lt (isFlags_pteFlags w), hmem]

theorem clone_ends {Q : Option (Space × Trapframe) → PMem → Prop} {p : Space} {tf : Trapframe}
    {f flags : Word} (hs : Sound L D other loose s) (hd : p.pgdir ∈ D)
    (hmatch : Matches s p.pgdir p.sz) (hstack : stack.toNat + PGSIZE ≤ p.sz.toNat)
    (hfault : ¬Writable s p.pgdir → E .pageFault)
    (hfail : ∀ s', ¬(s.fails = [] ∧ 1026 + (p.sz.toNat + 4095) / 4096 ≤ s.free.length) →
      Q none s')
    (hdone : ∀ d s', (FrameIs s' d arg stack ↔
        flags.getLsbD 0 = true ∨ FrameIs s p.pgdir arg stack) →
      Q (some (⟨d, p.sz⟩, { tf with
        eax := 0, ebp := stack + BitVec.ofNat 32 PGSIZE - 4 - 4,
        esp := stack + BitVec.ofNat 32 PGSIZE - 4 - 4, eip := f })) s') :
    Ends E (clone L p tf f arg stack flags) s Q := by
  have hsize : p.sz.toNat ≤ 0x80000000 := hmatch.size
  have hpage : stack.toNat + 4096 ≤ p.sz.toNat := hstack
  apply Ends.seq
  apply kalloc_ends hs
  · intro hempty
    apply Ends.pure
    apply hfail
    rintro ⟨hfails, hfree⟩
    rw [hempty hfails, List.length_nil] at hfree
    omega
  · intro kstack rest hfree hs₁
    have hsame : SameView p.pgdir s { s with free := rest, fails := s.fails.tail } :=
      ⟨rfl, fun _ _ _ _ => rfl⟩
    apply Ends.seq
    by_cases hvm : flags.getLsbD 0 = true
    · rw [if_pos hvm]
      apply Ends.pure
      apply Ends.seq
      apply cloneStores_ends hs₁ hd (hmatch.sameView hsame) hstack
        fun hnot => hfault fun h => hnot (h.sameView hsame)
      intro s' hframe _
      exact Ends.pure (hdone p.pgdir s' (iff_of_true hframe (.inl hvm)))
    · rw [if_neg hvm]
      apply copyuvm_ends hs₁ hd (hmatch.sameView hsame)
      · intro s₂ hs₂ _ hfull
        apply Ends.seq
        apply kfree_ends hs₂ (Set.mem_insert kstack loose)
        intro s' _ _
        apply Ends.pure
        apply hfail
        rintro ⟨hfails, hlength⟩
        rw [hfree, List.length_cons] at hlength
        refine hfull ⟨(congrArg List.tail hfails : s.fails.tail = []), ?_⟩
        show _ ≤ rest.length
        omega
      · intro d s₂ hcopied
        have hnew : d ∉ D := fun hmem =>
          hs₁.not_free hmem (refers_dir _ d) (hcopied.fresh .dir d rfl)
        have hview := hsame.trans (hcopied.kept.sameView hs₁ hd)
        apply Ends.seq
        apply cloneStores_ends hcopied.sound (Set.mem_insert_of_mem d hd) (hmatch.sameView hview)
          hstack fun hnot => hfault fun h => hnot (h.sameView hview)
        intro s' _ hkept
        apply Ends.pure
        apply hdone d s'
        have hiff : FrameIs s' d arg stack ↔ FrameIs s p.pgdir arg stack := by
          apply frameIs_congr (hpage.trans hmatch.size)
          intro a hlo hhi
          rw [hkept d (Set.mem_insert d D) (fun heq => hnew (heq ▸ hd)) a
            (by change _ < 0x80000000; omega)]
          exact hcopied.userMem hs₁ (by change a / 4096 < _; omega)
        rw [hiff]
        exact ⟨.inr, fun h => h.resolve_left hvm⟩

theorem frame_addresses (stack : Word) :
    stack + BitVec.ofNat 32 PGSIZE - 4 - 4 = stack + 4088 ∧
      stack + BitVec.ofNat 32 PGSIZE - 4 = stack + 4092 ∧ stack + 4088 + 4 = stack + 4092 := by
  have hpage : BitVec.ofNat 32 PGSIZE = 4096#32 := rfl
  rw [hpage]
  refine ⟨?_, ?_, ?_⟩ <;> bv_omega

/-- A new thread starts at `f` with its argument on the stack exactly when it shares the
caller's memory, or both words were there already. -/
theorem clone_argument (hs : Sound L D other loose s) (p : Space) (hd : p.pgdir ∈ D)
    (hmatch : Matches s p.pgdir p.sz) (tf : Trapframe) (f arg stack flags : Word)
    (hstack : stack.toNat + PGSIZE ≤ p.sz.toNat) (np : Space) (tf' : Trapframe)
    (hclone : clone L p tf f arg stack flags s = .ok (some (np, tf'), s')) :
    tf'.eip = f ∧ tf'.esp = stack + 4088 ∧
      ((WordIs s' np.pgdir tf'.esp 0xffffffff ∧ WordIs s' np.pgdir (tf'.esp + 4) arg) ↔
        flags.getLsbD 0 = true ∨ WordIs s p.pgdir (stack + 4088) 0xffffffff ∧
          WordIs s p.pgdir (stack + 4092) arg) := by
  obtain ⟨hret, harg, hnext⟩ := frame_addresses stack
  have hends : Ends (fun _ => True) (clone L p tf f arg stack flags) s fun r s' =>
      ∀ np tf', r = some (np, tf') → tf'.eip = f ∧ tf'.esp = stack + 4088 ∧
        (FrameIs s' np.pgdir arg stack ↔
          flags.getLsbD 0 = true ∨ FrameIs s p.pgdir arg stack) := by
    apply clone_ends hs hd hmatch hstack fun _ => trivial
    · exact fun _ _ np tf' hnone => absurd hnone.symm (Option.some_ne_none (np, tf'))
    · rintro d s' hiff np tf' hsome
      cases hsome
      exact ⟨rfl, hret, hiff⟩
  obtain ⟨heip, hesp, hiff⟩ := hends.ok hclone np tf' rfl
  rw [FrameIs, FrameIs, hret, harg] at hiff
  rw [hesp, hnext]
  exact ⟨heip, rfl, hiff⟩

/-- The one page of the small memory can be written. -/
theorem writable_smallMemory : Writable smallMemory 300 := by
  obtain ⟨other, hs, hmatch⟩ := sound_smallMemory
  intro k hk w hw
  have hbelow : k * 4096 < 4096 := (hmatch.pages k hk).mp (hw ▸ rfl)
  obtain rfl : k = 0 := by omega
  have hpte : pteOf smallMemory 300 0 = some (addrOf 302 ||| UFLAGS ||| PTE_P) := by
    decide +kernel
  rw [hpte] at hw
  cases hw
  decide

/-- With `CLONE_VM` the small process starts a thread with argument 5. -/
theorem clone_argument_shared : ∃ np tf' s',
    clone smallLayout ⟨300, 4096⟩ ⟨0, 0, 0, 0⟩ 16 5 0 1 smallMemory = .ok (some (np, tf'), s') ∧
      WordIs s' np.pgdir tf'.esp 0xffffffff ∧ WordIs s' np.pgdir (tf'.esp + 4) 5 := by
  obtain ⟨other, hs, hmatch⟩ := sound_smallMemory
  have hends : Ends (fun _ => False) (clone smallLayout ⟨300, 4096⟩ ⟨0, 0, 0, 0⟩ 16 5 0 1)
      smallMemory fun r _ => ∃ x, r = some x := by
    apply clone_ends hs (Set.mem_singleton 300) hmatch (by decide)
    · exact fun hnot => hnot writable_smallMemory
    · exact fun _ hfull => absurd ⟨rfl, by decide +kernel⟩ hfull
    · exact fun d s' _ => ⟨_, rfl⟩
  obtain ⟨r, s', hclone, ⟨np, tf'⟩, rfl⟩ := hends.returns
  have hargument := clone_argument hs ⟨300, 4096⟩ (Set.mem_singleton 300) hmatch ⟨0, 0, 0, 0⟩
    16 5 0 1 (by decide) np tf' hclone
  exact ⟨np, tf', s', hclone, hargument.2.2.mpr (.inl rfl)⟩

/-- Without it the thread finds 0 instead. -/
theorem clone_argument_lost : ∃ np tf' s',
    clone smallLayout ⟨300, 4096⟩ ⟨0, 0, 0, 0⟩ 16 5 0 0 smallMemory = .ok (some (np, tf'), s') ∧
      tf'.esp = 4088 ∧ ¬(WordIs s' np.pgdir 4088 0xffffffff ∧ WordIs s' np.pgdir 4092 5) := by
  obtain ⟨other, hs, hmatch⟩ := sound_smallMemory
  have hends : Ends (fun _ => False) (clone smallLayout ⟨300, 4096⟩ ⟨0, 0, 0, 0⟩ 16 5 0 0)
      smallMemory fun r s' => ∃ np tf', r = some (np, tf') ∧ tf'.esp = 4088 ∧
        ¬FrameIs s' np.pgdir 5 0 := by
    apply clone_ends hs (Set.mem_singleton 300) hmatch (by decide)
    · exact fun hnot => hnot writable_smallMemory
    · exact fun _ hfull => absurd ⟨rfl, by decide +kernel⟩ hfull
    · intro d s' hiff
      refine ⟨_, _, rfl, rfl, ?_⟩
      rw [hiff]
      rintro (hshared | hframe)
      · exact absurd hshared (by decide)
      · exact absurd (hframe.2 0 (by decide)) (by decide +kernel)
  obtain ⟨r, s', hclone, np, tf', rfl, hesp, hnot⟩ := hends.returns
  exact ⟨np, tf', s', hclone, hesp, hnot⟩

end

end Xv6Threads.Vm
