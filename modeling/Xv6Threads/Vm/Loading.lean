/-
# `exec`

`exec` builds a directory of its own beside those in use: program segments, a guard page
and a stack page with the arguments on it. Where it fails the directory is freed again.
The guard page stops `copyout` when the arguments are larger than the stack page. Only an
argument so long that the stack pointer wraps around and comes to lie below the device
space makes `copyout` look for a page whose page table is missing.
-/

import Xv6Threads.Vm.Copyout
import Xv6Threads.Vm.Growth

namespace Xv6Threads.Vm

open Lib Lib.Command

variable {argv : List (List (BitVec 8))}

section

variable {L : Layout} {E : VmFault → Prop} {D other loose : Set ℕ}
variable {s s' s₀ s₁ : PMem} {d k m : ℕ} {sz : Word}
variable {load : ℕ → Option (List (BitVec 8))} {prog : List (Option Segment)}

/-- A directory under construction beside those of `D`. -/
structure Pending (L : Layout) (D other loose : Set ℕ) (d : ℕ) (s₀ s : PMem) : Prop where
  sound : Sound L (insert d D) other loose s
  kept : ∀ d' ∈ D, SameView d' s₀ s

/-- The same, with the user pages below `sz`. -/
structure Image (L : Layout) (D other loose : Set ℕ) (d : ℕ) (sz : Word) (s₀ s : PMem) : Prop
    extends Pending L D other loose d s₀ s where
  pages : Matches s d sz
  kernel : KernelPart s d
  used : Used s d

theorem Matches.sameView (h : Matches s d sz) (hview : SameView d s s') : Matches s' d sz :=
  ⟨h.size, fun k hk => by rw [hview.pteOf (hk.trans (by decide)), h.pages k hk]⟩

theorem Image.refilled (h : Image L D other loose d sz s₀ s)
    (hre : Refilled L (insert d D) other loose s s') : Image L D other loose d sz s₀ s' where
  sound := hre.sound
  kept d' hd' := (h.kept d' hd').trans (hre.views d' (Set.mem_insert_of_mem d hd'))
  pages := h.pages.sameView (hre.views d (Set.mem_insert d D))
  kernel := h.kernel.sameView (hre.views d (Set.mem_insert d D))
  used := h.used.sameView (hre.views d (Set.mem_insert d D))

theorem Image.grows (h : Image L D other loose d sz s₀ s) (hd : d ∉ D)
    (hs' : Sound L (insert d D) other loose s') (hgrows : Grows d s s') :
    Pending L D other loose d s₀ s' where
  sound := hs'
  kept d' hd' := (h.kept d' hd').trans (hgrows.sameView h.sound (Set.mem_insert d D)
    (Set.mem_insert_of_mem d hd') fun heq => hd (heq ▸ hd'))

theorem Image.added {newsz : Word} (h : Image L D other loose d sz s₀ s) (hd : d ∉ D)
    (hbig : newsz.toNat < KERNBASE) (hle : sz.toNat ≤ newsz.toNat)
    (hadded : Added L (insert d D) other loose d ((sz.toNat + 4095) / 4096)
      ((newsz.toNat + 4095) / 4096) s s') : Image L D other loose d newsz s₀ s' where
  toPending := h.grows hd hadded.sound hadded.grows
  pages := (hadded.resized h.sound (Set.mem_insert d D) h.pages hle hbig).pages
  kernel := by
    have hlt : newsz.toNat < 0x80000000 := hbig
    exact h.kernel.added (by change _ ≤ 0x80000; omega) hadded
  used := hadded.used h.used

theorem Image.cleared (h : Image L D other loose d sz s₀ s) (hd : d ∉ D)
    (hcleared : Cleared L (insert d D) other loose d k s s') :
    Image L D other loose d sz s₀ s' where
  sound := hcleared.sound
  kept d' hd' := (h.kept d' hd').trans
    (hcleared.views d' (Set.mem_insert_of_mem d hd') fun heq => hd (heq ▸ hd'))
  pages := ⟨h.pages.size, fun j hj => by
    rw [hcleared.ptes j (hj.trans (by decide)), ← h.pages.pages j hj]
    split
    next heq => rw [heq, Option.isSome_map]
    next => rfl⟩
  kernel := h.kernel.cleared hcleared
  used := hcleared.used h.used

/-- The page of an address below the size, and the entry for it. -/
theorem Image.page (h : Image L D other loose d sz s₀ s) (hk : k * 4096 < sz.toNat) :
    k < UPAGES ∧ ∃ w, pteOf s d k = some w := by
  have hsize : sz.toNat ≤ 0x80000000 := h.pages.size
  have hkU : k < UPAGES := by
    change k < 0x80000
    omega
  exact ⟨hkU, Option.isSome_iff_exists.mp ((h.pages.pages k hkU).mpr hk)⟩

/-! ## Program segments -/

theorem loadLoop_ends {Q : Bool → PMem → Prop} {filesz : Word} {fuel i : ℕ}
    (h : Image L D other loose d sz s₀ s) (hbelow : m * 4096 + filesz.toNat ≤ sz.toNat)
    (hQ : ∀ r s', Image L D other loose d sz s₀ s' → Q r s') :
    Ends E (loadLoop d (pageAddr m) filesz load fuel i) s Q := by
  induction fuel generalizing s i with
  | zero => exact Ends.pure (hQ true s h)
  | succ fuel ih =>
    rw [loadLoop]
    by_cases hi : i * PGSIZE < filesz.toNat
    · rw [if_pos hi]
      change i * 4096 < filesz.toNat at hi
      have hk : (m + i) * 4096 < sz.toNat := by
        rw [Nat.add_mul]
        exact lt_of_lt_of_le (Nat.add_lt_add_left hi _) hbelow
      obtain ⟨hkU, w, hw⟩ := h.page hk
      obtain ⟨t, ht, hword, -⟩ := entry_of_pteOf_some hw
      have haddr : pageAddr m + BitVec.ofNat 32 (i * PGSIZE) = pageAddr (m + i) := by
        rw [pageAddr, pageAddr, ← BitVec.ofNat_add, Nat.add_mul]
      rw [haddr]
      apply Ends.seq
      apply walkpgdir_false (hkU.trans (by decide))
      rw [ht]
      apply Ends.read_bind
      rw [hword]
      cases hload : load i with
      | none => exact Ends.pure (hQ false s h)
      | some bytes =>
        apply Ends.read_bind
        apply Ends.modify_bind
        apply ih
        apply h.refilled
        exact h.sound.refilled (Set.mem_insert d D) (k := m + i) ⟨hkU, w, hw, rfl⟩ _
    · rw [if_neg hi]
      exact Ends.pure (hQ true s h)

theorem loaduvm_ends {Q : Bool → PMem → Prop} {addr filesz : Word}
    (h : Image L D other loose d sz s₀ s) (haddr : addr.toNat % 4096 = 0)
    (hbelow : addr.toNat + filesz.toNat ≤ sz.toNat)
    (hQ : ∀ r s', Image L D other loose d sz s₀ s' → Q r s') :
    Ends E (loaduvm d addr load filesz) s Q := by
  have hlt := addr.isLt
  have hpage : addr = pageAddr (addr.toNat / 4096) := by
    apply BitVec.eq_of_toNat_eq
    rw [toNat_pageAddr (by omega)]
    omega
  rw [loaduvm]
  apply Ends.check_bind
  case hfail => exact fun hnot => absurd haddr hnot
  intro _
  rw [hpage]
  exact loadLoop_ends h (by omega) hQ

theorem loadProgram_ends {Q : Option Word → PMem → Prop} (hd : d ∉ D)
    (h : Image L D other loose d sz s₀ s) (hsz : sz.toNat < KERNBASE)
    (hfail : ∀ s', Pending L D other loose d s₀ s' → Q none s')
    (hdone : ∀ sz s', Image L D other loose d sz s₀ s' → sz.toNat < KERNBASE → Q (some sz) s') :
    Ends E (loadProgram L d prog sz) s Q := by
  induction prog generalizing s sz with
  | nil => exact Ends.pure (hdone sz s h hsz)
  | cons ph rest ih =>
    cases ph with
    | none => exact Ends.pure (hfail s h.toPending)
    | some ph =>
      rw [loadProgram]
      split
      next => exact Ends.pure (hfail s h.toPending)
      next hfilesz =>
        split
        next => exact Ends.pure (hfail s h.toPending)
        next hwrap =>
          have hend : (ph.vaddr + ph.memsz).toNat = ph.vaddr.toNat + ph.memsz.toNat := by
            have := ph.vaddr.isLt
            have := ph.memsz.isLt
            rw [BitVec.lt_def, BitVec.toNat_add] at hwrap
            rw [BitVec.toNat_add]
            omega
          rw [BitVec.lt_def] at hfilesz
          -- what follows `allocuvm`, once the segment lies below the size it returned
          have hload {sz₁ : Word} {s₁ : PMem} (h₁ : Image L D other loose d sz₁ s₀ s₁)
              (hsz₁ : sz₁.toNat < KERNBASE)
              (hbelow : ph.vaddr.toNat + ph.memsz.toNat ≤ sz₁.toNat) :
              Ends E (if sz₁ = 0 then pure none
                else if ph.vaddr.toNat % PGSIZE ≠ 0 then pure none
                else loaduvm d ph.vaddr ph.load ph.filesz >>= fun r =>
                  if r then loadProgram L d rest sz₁ else pure none) s₁ Q := by
            split
            next => exact Ends.pure (hfail s₁ h₁.toPending)
            next =>
              split
              next => exact Ends.pure (hfail s₁ h₁.toPending)
              next halign =>
                apply Ends.seq
                apply loaduvm_ends h₁ (not_not.mp halign) (by omega)
                intro r s₂ h₂
                cases r with
                | false => exact Ends.pure (hfail s₂ h₂.toPending)
                | true => exact ih h₂ hsz₁
          apply Ends.seq
          apply allocuvm_any (Set.mem_insert d D) h.sound
          · exact fun j hj hlo _ => h.pages.none_above hj hlo
          · intro s₁ hidle _
            exact Ends.pure (hfail s₁ (h.grows hd hidle.sound hidle.grows))
          · intro hless
            exact hload h hsz (by omega)
          · intro s₁ hbig hle hadded
            exact hload (h.added hd hbig hle hadded) hbig (by omega)

/-! ## The stack -/

/-- The program is loaded, with a guard page and a stack page above it. -/
structure Stack (L : Layout) (D other loose : Set ℕ) (d : ℕ) (sz : Word) (s₀ s : PMem) : Prop
    extends Image L D other loose d sz s₀ s where
  aligned : sz.toNat % 4096 = 0
  room : 8192 ≤ sz.toNat
  below : sz.toNat < KERNBASE
  guard : ¬Accessible s d (sz.toNat / 4096 - 2)
  stack : Accessible s d (sz.toNat / 4096 - 1)

theorem Stack.refilled (h : Stack L D other loose d sz s₀ s)
    (hre : Refilled L (insert d D) other loose s s') : Stack L D other loose d sz s₀ s' where
  toImage := h.toImage.refilled hre
  aligned := h.aligned
  room := h.room
  below := h.below
  guard := by
    have hsz := sz.isLt
    rw [(hre.views d (Set.mem_insert d D)).accessible (by omega)]
    exact h.guard
  stack := by
    have hsz := sz.isLt
    rw [(hre.views d (Set.mem_insert d D)).accessible (by omega)]
    exact h.stack

/-- Below the size every page has a page table. -/
theorem Stack.guarded (h : Stack L D other loose d sz s₀ s) {va len : ℕ}
    (hin : va + len ≤ sz.toNat) : Guarded s d va len := by
  intro k hk _ hnone
  rw [overlaps_iff] at hk
  obtain ⟨-, w, hw⟩ := h.page (k := k) (by omega)
  rw [pteOf_of_tableOf_none hnone] at hw
  cases hw

/-- Bytes that end above the guard page and can all be reached start above it. -/
theorem Stack.above_guard (h : Stack L D other loose d sz s₀ s) {va len : ℕ} (hpos : 0 < len)
    (hall : ∀ k, Overlaps va len k → Accessible s d k) (hlast : sz.toNat - 8192 < va + len) :
    sz.toNat - 4096 ≤ va := by
  have haligned := h.aligned
  have hroom := h.room
  by_contra hlow
  apply h.guard
  apply hall
  rw [overlaps_iff]
  omega

theorem toNat_push (sp : Word) (n : ℕ) :
    ((sp - BitVec.ofNat 32 n) &&& ~~~3#32).toNat =
      (2 ^ 32 - n % 2 ^ 32 + sp.toNat) % 2 ^ 32 / 4 * 4 := by
  have hclear := toNat_clear (sp - BitVec.ofNat 32 n) 2
  rw [BitVec.toNat_sub, BitVec.toNat_ofNat] at hclear
  exact hclear

/-- No argument that `exec` gets to push reaches down to the gap below the device space. The
arguments after one that does not fit on the stack page, which ends at `top`, are not
pushed, nor are those after the first `MAXARG`. -/
def Pushable (top : Word) : List (List (BitVec 8)) → ℕ → Word → Prop
  | [], _, _ => True
  | arg :: rest, argc, sp =>
    argc < MAXARG → arg.length + 1 ≤ 2 ^ 25 + sp.toNat ∧
      (top.toNat - PGSIZE + (arg.length + 1) ≤ sp.toNat →
        Pushable top rest (argc + 1) ((sp - BitVec.ofNat 32 (arg.length + 1)) &&& ~~~3#32))

/-- The arguments fit in physical memory. -/
def InMemory (argv : List (List (BitVec 8))) : Prop := ∀ arg ∈ argv, arg.length + 1 ≤ PHYSTOP

/-- One argument is guarded exactly if it stays above the gap. -/
theorem Stack.push_guarded {sp : Word} (arg : List (BitVec 8))
    (h : Stack L D other loose d sz s₀ s) (hhi : sp.toNat ≤ sz.toNat) :
    (arg.length + 1 ≤ 2 ^ 25 + sp.toNat →
      Guarded s d ((sp - BitVec.ofNat 32 (arg.length + 1)) &&& ~~~3#32).toNat (arg.length + 1)) ∧
    (arg.length + 1 ≤ PHYSTOP →
      Guarded s d ((sp - BitVec.ofNat 32 (arg.length + 1)) &&& ~~~3#32).toNat (arg.length + 1) →
      arg.length + 1 ≤ 2 ^ 25 + sp.toNat) := by
  have hbelow : sz.toNat < 0x80000000 := h.below
  rw [toNat_push]
  refine ⟨fun harg => ?_, fun (hin : _ ≤ 0xE000000) hguard => ?_⟩
  · by_cases hfits : arg.length + 1 ≤ sp.toNat
    · exact h.guarded (by omega)
    · apply h.kernel.guarded _ (by omega)
      show 0xFE000000 ≤ _
      omega
  · by_contra hlong
    refine h.kernel.not_guarded h.used (Nat.succ_pos _) ?_ ?_ hguard
    · show 0x8E000000 ≤ _
      omega
    · show _ < 0xFE000000
      omega

theorem pushArgs_ends {Q : Option (Word × List Word) → PMem → Prop} {argc : ℕ} {sp : Word}
    {ustack : List Word} (h : Stack L D other loose d sz s₀ s) (hlo : sz.toNat - 4096 ≤ sp.toNat)
    (hhi : sp.toNat ≤ sz.toNat) (hargc : argc ≤ MAXARG)
    (hnull : ¬Pushable sz argv argc sp → E .nullDeref)
    (hfail : ∀ s', Pending L D other loose d s₀ s' →
      (InMemory argv → Pushable sz argv argc sp) → Q none s')
    (hdone : ∀ (sp' : Word) (ws : List Word) s', Stack L D other loose d sz s₀ s' →
      (InMemory argv → Pushable sz argv argc sp) → sz.toNat - 4096 ≤ sp'.toNat →
      sp'.toNat ≤ sz.toNat → argc + argv.length ≤ MAXARG →
      ws.length = ustack.length + argv.length → Q (some (sp', ws)) s') :
    Ends E (pushArgs d argv argc sp ustack) s Q := by
  induction argv generalizing s argc sp ustack with
  | nil => exact Ends.pure (hdone sp ustack s h (fun _ => trivial) hlo hhi hargc rfl)
  | cons arg rest ih =>
    rw [pushArgs]
    by_cases hmax : MAXARG ≤ argc
    · rw [if_pos hmax]
      exact Ends.pure (hfail s h.toPending fun _ hlt => absurd hmax (Nat.not_le.mpr hlt))
    · rw [if_neg hmax]
      have hpush := toNat_push sp (arg.length + 1)
      have hlen : (arg ++ [0]).length = arg.length + 1 := List.length_append
      have hsp := sp.isLt
      have hroom := h.room
      have haligned := h.aligned
      have hbelow : sz.toNat < 0x80000000 := h.below
      obtain ⟨hguard, hreach⟩ := h.push_guarded arg hhi
      apply Ends.seq
      apply copyout_ends h.sound (Set.mem_insert d D) h.kernel.closed
      · intro hnot
        rw [hlen] at hnot
        apply hnull
        intro hpushable
        exact hnot (hguard (hpushable (Nat.not_le.mp hmax)).1)
      · intro s' hre hguarded hout
        rw [hlen] at hguarded hout
        apply Ends.pure
        apply hfail s' (h.toImage.refilled hre).toPending
        intro hin _
        refine ⟨hreach (hin arg List.mem_cons_self) hguarded, fun hfits => absurd ?_ hout⟩
        -- all of its bytes are on the stack page
        intro k hk
        change sz.toNat - 4096 + (arg.length + 1) ≤ sp.toNat at hfits
        rw [overlaps_iff] at hk
        obtain rfl : k = sz.toNat / 4096 - 1 := by omega
        exact h.stack
      · intro s' hre hguarded hall _
        rw [hlen] at hguarded hall
        have hend := below_kernel h.kernel.closed (BitVec.isLt _) hall (Nat.lt_succ_self _)
        change _ < 0x80000000 at hend
        have habove := h.above_guard (Nat.succ_pos _) hall (by omega)
        have hfits : sz.toNat - 4096 + (arg.length + 1) ≤ sp.toNat := by omega
        have hnext (hrest : InMemory rest → Pushable sz rest (argc + 1) _)
            (hin : InMemory (arg :: rest)) : Pushable sz (arg :: rest) argc sp := fun _ =>
          ⟨hreach (hin arg List.mem_cons_self) hguarded,
            fun _ => hrest fun a ha => hin a (List.mem_cons_of_mem arg ha)⟩
        rw [if_pos rfl]
        apply ih (h.refilled hre) habove (by omega) (by omega)
        · exact fun hnot => hnull fun hpushable =>
            hnot ((hpushable (Nat.not_le.mp hmax)).2 hfits)
        · exact fun s'' hs'' hrest => hfail s'' hs'' (hnext hrest)
        · intro sp' ws s'' hs'' hrest hlo' hhi' hmax' hws
          apply hdone sp' ws s'' hs'' (hnext hrest) hlo' hhi'
          · rw [List.length_cons]
            omega
          · rw [hws, List.length_append, List.length_singleton, List.length_cons]
            omega

theorem length_bytesOf (ws : List Word) : (bytesOf ws).length = 4 * ws.length := by
  rw [bytesOf, List.length_flatMap]
  simp [Nat.mul_comm]

/-- `exec` rounds the size up to whole pages. -/
theorem Image.roundup (h : Image L D other loose d sz s₀ s) :
    Image L D other loose d (pgroundup sz) s₀ s ∧
      (pgroundup sz).toNat = (sz.toNat + 4095) / 4096 * 4096 := by
  have hsize : sz.toNat ≤ 0x80000000 := h.pages.size
  have hround : (pgroundup sz).toNat = (sz.toNat + 4095) / 4096 * 4096 := by
    rw [pgroundup_eq h.pages.size, toNat_pageAddr (by omega)]
  refine ⟨⟨h.toPending, ⟨?_, fun k hk => ?_⟩, h.kernel, h.used⟩, hround⟩
  · show _ ≤ 0x80000000
    omega
  · rw [h.pages.pages k hk, hround]
    show k * 4096 < _ ↔ k * 4096 < _
    omega

theorem setupStack_ends {Q : Option (Space × Word) → PMem → Prop}
    (h : Stack L D other loose d sz s₀ s) (hnull : ¬Pushable sz argv 0 sz → E .nullDeref)
    (hfail : ∀ s', Pending L D other loose d s₀ s' →
      (InMemory argv → Pushable sz argv 0 sz) → Q none s')
    (hdone : ∀ sp s', Image L D other loose d sz s₀ s' →
      (InMemory argv → Pushable sz argv 0 sz) → Q (some (⟨d, sz⟩, sp)) s') :
    Ends E (setupStack d argv sz) s Q := by
  have hroom := h.room
  apply Ends.seq
  apply pushArgs_ends h (by omega) le_rfl (Nat.zero_le _) hnull
  · exact fun s' h' hpush => Ends.pure (hfail s' h' hpush)
  · intro sp ws s₁ h₁ hpush hlo hhi hargc hws
    rw [List.length_nil] at hws
    have hlen : (bytesOf ([0xffffffff#32, BitVec.ofNat 32 argv.length,
        sp - BitVec.ofNat 32 ((argv.length + 1) * 4)] ++ ws ++ [0])).length =
          (3 + argv.length + 1) * 4 := by
      rw [length_bytesOf, List.length_append, List.length_append, hws]
      simp
      omega
    have hargc' : argv.length ≤ 32 := by
      change 0 + argv.length ≤ 32 at hargc
      omega
    have hsp : (sp - BitVec.ofNat 32 ((3 + argv.length + 1) * 4)).toNat =
        sp.toNat - (3 + argv.length + 1) * 4 := by
      have hlt := sp.isLt
      rw [BitVec.toNat_sub, BitVec.toNat_ofNat]
      omega
    apply Ends.seq
    apply copyout_ends h₁.sound (Set.mem_insert d D) h₁.kernel.closed
    · intro hnot
      refine absurd (h₁.guarded ?_) hnot
      rw [hlen, hsp]
      omega
    · exact fun s' hre _ _ => Ends.pure (hfail s' (h₁.toImage.refilled hre).toPending hpush)
    · exact fun s' hre _ _ _ => Ends.pure (hdone _ s' (h₁.toImage.refilled hre) hpush)

/-! ## The whole of `exec` -/

/-- The other directories keep their pages when one is freed. -/
theorem Freed.sameView {d' : ℕ} (h : Freed L D other loose d s s') (hs : Sound L D other loose s)
    (hd : d ∈ D) (hd' : d' ∈ D) (hne : d' ≠ d) : SameView d' s s' :=
  .of_refers fun _ f href => h.mem f fun _ hq => hne (hs.unique hd' hd href hq).1

/-- A directory under construction is given up. -/
theorem Pending.freed (h : Pending L D other loose d s₀ s) (hd : d ∉ D)
    (hfreed : Freed L (insert d D) other loose d s s') :
    Sound L D other loose s' ∧ ∀ d' ∈ D, SameView d' s₀ s' := by
  refine ⟨?_, fun d' hd' => (h.kept d' hd').trans ?_⟩
  · have hsound := hfreed.sound
    rwa [Set.insert_sdiff_self_of_notMem hd] at hsound
  · exact hfreed.sameView h.sound (Set.mem_insert d D) (Set.mem_insert_of_mem d hd')
      fun heq => hd (heq ▸ hd')

theorem NewDir.image (hs : Sound L D other loose s) (h : NewDir L D other loose d s s') :
    d ∉ D ∧ Image L D other loose d 0 s s' := by
  refine ⟨fun hd => hs.not_free hd (refers_dir s d) h.fresh,
    ⟨h.sound, fun d' hd' => h.kept.sameView hs hd'⟩, ⟨by decide, ?_⟩, h.kernelPart, h.used⟩
  intro k hk
  have hnone : kernelPte (kmap L) k = none :=
    kernelPte_eq_none fun row hrow => not_covers_user L hrow hk
  rw [h.ptes k (hk.trans (by decide)), hnone]
  simp

/-- What the first part of `exec` leaves behind. -/
def Loaded (L : Layout) (D other loose : Set ℕ) (s : PMem) : Option (ℕ × Option Word) → PMem → Prop
  | none, s' => Sound L D other loose s' ∧ ∀ d' ∈ D, SameView d' s s'
  | some (d, none), s' => d ∉ D ∧ Pending L D other loose d s s'
  | some (d, some sz), s' => d ∉ D ∧ Stack L D other loose d sz s s'

theorem user_userEntry (f : ℕ) : user (addrOf f ||| UFLAGS ||| PTE_P) = true := by
  have hflags : user UFLAGS = true := rfl
  rw [user_or, user_or, hflags, Bool.or_true, Bool.true_or]

/-- The guard page and the stack page. -/
theorem Image.stack (h : Image L D other loose d sz s₀ s) (hd : d ∉ D) (hsz : sz.toNat % 4096 = 0)
    (hbig : (sz + BitVec.ofNat 32 (2 * PGSIZE)).toNat < KERNBASE)
    (hnew : (sz + BitVec.ofNat 32 (2 * PGSIZE)).toNat = sz.toNat + 8192)
    (hadded : Added L (insert d D) other loose d ((sz.toNat + 4095) / 4096)
      (((sz + BitVec.ofNat 32 (2 * PGSIZE)).toNat + 4095) / 4096) s s₁)
    (hcleared : Cleared L (insert d D) other loose d (sz.toNat / 4096) s₁ s') :
    Stack L D other loose d (sz + BitVec.ofNat 32 (2 * PGSIZE)) s₀ s' := by
  have hbound : _ < 0x80000000 := hbig
  refine ⟨(h.added hd hbig (by omega) hadded).cleared hd hcleared, by omega, by omega, hbig, ?_, ?_⟩
  · have hindex : (sz + BitVec.ofNat 32 (2 * PGSIZE)).toNat / 4096 - 2 = sz.toNat / 4096 := by omega
    rintro ⟨w, hw, huser⟩
    rw [hindex, hcleared.ptes _ (by omega), if_pos rfl] at hw
    obtain ⟨v, -, rfl⟩ := Option.map_eq_some_iff.mp hw
    rw [user_clear] at huser
    cases huser
  · have hindex : (sz + BitVec.ofNat 32 (2 * PGSIZE)).toNat / 4096 - 1 = sz.toNat / 4096 + 1 := by
      omega
    obtain ⟨f, -, hpte, -⟩ := hadded.inside (sz.toNat / 4096 + 1) (by omega) (by omega)
    refine ⟨_, ?_, user_userEntry f⟩
    rw [hindex, hcleared.ptes _ (by omega), if_neg (by omega), hpte]

theorem loadImage_ends (hs : Sound L D other loose s) :
    Ends E (loadImage L prog) s (Loaded L D other loose s) := by
  apply Ends.seq
  apply setupkvm_ends hs
  · exact fun s' hs' hkept _ => Ends.pure ⟨hs', fun d' hd' => hkept.sameView hs hd'⟩
  intro d s₁ hnew
  obtain ⟨hd, himage⟩ := hnew.image hs
  apply Ends.seq
  apply loadProgram_ends hd himage (by decide)
  · exact fun s₂ h => Ends.pure ⟨hd, h⟩
  intro sz s₂ h _
  obtain ⟨h₁, hround⟩ := h.roundup
  have hsize : (pgroundup sz).toNat ≤ 0x80000000 := h₁.pages.size
  have hsum : (pgroundup sz + BitVec.ofNat 32 (2 * PGSIZE)).toNat =
      (pgroundup sz).toNat + 8192 := by
    rw [BitVec.toNat_add]
    show ((pgroundup sz).toNat + 8192) % 2 ^ 32 = _
    omega
  have hguard : (pgroundup sz + BitVec.ofNat 32 (2 * PGSIZE)) - BitVec.ofNat 32 (2 * PGSIZE) =
      pgroundup sz := BitVec.add_sub_cancel _ _
  apply Ends.seq
  apply allocuvm_any (Set.mem_insert d D) h₁.sound
  · exact fun j hj hlo _ => h₁.pages.none_above hj hlo
  · intro s' hidle _
    exact Ends.pure ⟨hd, h₁.grows hd hidle.sound hidle.grows⟩
  · intro hless
    omega
  · intro s₃ hbig _ hadded
    have hne : pgroundup sz + BitVec.ofNat 32 (2 * PGSIZE) ≠ 0 := by
      intro hzero
      rw [hzero] at hsum
      exact absurd hsum (by simp)
    rw [if_neg hne, hguard]
    apply Ends.seq
    apply clearpteu_ends hadded.sound (Set.mem_insert d D)
    · intro hnone
      obtain ⟨f, -, hpte, -⟩ := hadded.inside ((pgroundup sz).toNat / 4096) (by omega) (by omega)
      rw [pteOf_of_tableOf_none hnone] at hpte
      cases hpte
    · exact fun s' hcleared =>
        Ends.pure ⟨hd, h₁.stack hd (by omega) hbig hsum hadded hcleared⟩

/-- Where `exec` gets as far as its arguments, it can push them. -/
def ArgsOk (L : Layout) (prog : List (Option Segment)) (argv : List (List (BitVec 8)))
    (s : PMem) : Prop :=
  ∀ d sz s', loadImage L prog s = .ok (some (d, some sz), s') → Pushable sz argv 0 sz

theorem exec_ends {Q : Option (Space × Word) → PMem → Prop} (hs : Sound L D other loose s)
    (hnull : ¬ArgsOk L prog argv s → E .nullDeref)
    (hfail : ∀ s', Sound L D other loose s' → (∀ d' ∈ D, SameView d' s s') →
      (InMemory argv → ArgsOk L prog argv s) → Q none s')
    (hdone : ∀ d sz sp s', d ∉ D → Image L D other loose d sz s s' → 0 < sz.toNat →
      sz.toNat < KERNBASE → (InMemory argv → ArgsOk L prog argv s) → Q (some (⟨d, sz⟩, sp)) s') :
    Ends E (exec L prog argv) s Q := by
  have hbad {d : ℕ} {s₁ : PMem} (hd : d ∉ D) (h : Pending L D other loose d s s₁)
      (hargs : InMemory argv → ArgsOk L prog argv s) :
      Ends E (freevm L d >>= fun _ => pure none) s₁ Q := by
    apply Ends.seq
    apply freevm_ends h.sound (Set.mem_insert d D)
    intro s' hfreed
    obtain ⟨hs', hviews⟩ := h.freed hd hfreed
    exact Ends.pure (hfail s' hs' hviews hargs)
  obtain ⟨r, s₁, hload, hloaded⟩ :=
    Ends.returns (m := loadImage L prog) (loadImage_ends hs)
  have hargs (P : Word → Prop) (hP : ∀ d sz, r = some (d, some sz) → P sz) :
      ∀ d sz s', loadImage L prog s = .ok (some (d, some sz), s') → P sz := by
    intro d sz s' hrun
    rw [hload] at hrun
    cases hrun
    exact hP d sz rfl
  rw [exec]
  apply Ends.seq
  apply Ends.of_ok hload
  match r, hloaded with
  | none, hloaded =>
    apply Ends.pure
    exact hfail s₁ hloaded.1 hloaded.2 fun _ => hargs _ fun _ _ h => by cases h
  | some (d, none), hloaded =>
    exact hbad hloaded.1 hloaded.2 fun _ => hargs _ fun _ _ h => by cases h
  | some (d, some sz), ⟨hd, hstack⟩ =>
    have hpush (h : InMemory argv → Pushable sz argv 0 sz) (hin : InMemory argv) :
        ArgsOk L prog argv s := hargs _ fun _ _ heq => by cases heq; exact h hin
    have hroom := hstack.room
    apply Ends.seq
    apply setupStack_ends hstack
    · exact fun hnot => hnull fun hok => hnot (hok d sz s₁ hload)
    · exact fun s₂ h hin => hbad hd h (hpush hin)
    · exact fun sp s₂ h hin =>
        Ends.pure (hdone d sz sp s₂ hd h (by omega) hstack.below (hpush hin))

/-! ## What `copyout` promises -/

/-- `copyout` returns 0 exactly when user code can reach every byte, which are then the
bytes of the source, and -1 otherwise. -/
def CopyoutExact (s : PMem) (d : ℕ) (va : Word) (buf : List (BitVec 8)) : Prop :=
  ∃ ok s', copyout d va buf s = .ok (ok, s') ∧
    (ok = true ↔ va.toNat + buf.length < 2 ^ 32 ∧
      ∀ k, Overlaps va.toNat buf.length k → Accessible s d k) ∧
    (ok = true → s'.free = s.free ∧ s'.fails = s.fails ∧
      Stored (userByte s d) va.toNat buf s.mem s'.mem)

/-- `copyout` is exact where the page it stops at has a page table. For arguments that fit
in memory, `exec` returns exactly if it can push those it gets to. -/
theorem copyout_exact (hbuilt : Built L d s) :
    (∀ va buf, CopyoutExact s d va buf ↔ Guarded s d va.toNat buf.length) ∧
    ∀ prog argv, InMemory argv →
      ((∃ r s', exec L prog argv s = .ok (r, s')) ↔ ArgsOk L prog argv s) := by
  obtain ⟨D, other, loose, hs, hd, hkern⟩ := hbuilt.sound
  refine ⟨fun va buf => ⟨?_, fun hguard => ?_⟩, fun prog argv hin => ⟨?_, fun hargs => ?_⟩⟩
  · rintro ⟨ok, s', hrun, -⟩
    have hends : Ends (fun _ => True) (copyout d va buf) s fun _ _ =>
        Guarded s d va.toNat buf.length := by
      apply copyout_ends hs hd hkern.closed
      · exact fun _ => trivial
      · exact fun _ _ hguard _ => hguard
      · exact fun _ _ hguard _ _ => hguard
    exact hends.ok hrun
  · apply Ends.returns
    apply copyout_ends hs hd hkern.closed
    · exact fun hnot => hnot hguard
    · intro s' _ _ hnot
      refine ⟨iff_of_false Bool.false_ne_true fun h => hnot h.2, ?_⟩
      exact fun h => absurd h Bool.false_ne_true
    · intro s' hre _ hall hstored
      refine ⟨iff_of_true rfl ⟨?_, hall⟩, fun _ => ⟨hre.free, hre.fails, hstored⟩⟩
      have hva := va.isLt
      rcases Nat.eq_zero_or_pos buf.length with hzero | hpos
      · omega
      · have hlast : _ < 0x80000000 :=
          below_kernel hkern.closed hva hall (Nat.sub_one_lt_of_lt hpos)
        omega
  · rintro ⟨r, s', hrun⟩
    have hends : Ends (fun _ => True) (exec L prog argv) s fun _ _ => ArgsOk L prog argv s := by
      apply exec_ends hs fun _ => trivial
      · exact fun _ _ _ h => h hin
      · exact fun _ _ _ _ _ _ _ _ h => h hin
    exact hends.ok hrun
  · have hends : Ends (fun _ => False) (exec L prog argv) s fun _ _ => True := by
      apply exec_ends hs fun hnot => hnot hargs
      · exact fun _ _ _ _ => trivial
      · exact fun _ _ _ _ _ _ _ _ _ => trivial
    obtain ⟨r, s', hrun, -⟩ := hends.returns
    exact ⟨r, s', hrun⟩

/-- With room for a directory and two pages `exec` gets as far as its arguments. -/
theorem loadImage_nil (hs : Sound L D other loose s) (hfails : s.fails = [])
    (hfree : 1027 ≤ s.free.length) :
    ∃ d s', loadImage L [] s = .ok (some (d, some 8192), s') := by
  have hround : pgroundup 0 = 0 := rfl
  have hends : Ends (fun _ => False) (loadImage L []) s fun r _ =>
      ∃ d, r = some (d, some 8192) := by
    apply Ends.seq
    apply setupkvm_ends hs
    · exact fun _ _ _ hfull => absurd ⟨hfails, by omega⟩ hfull
    intro d s₁ hnew
    obtain ⟨-, himage⟩ := hnew.image hs
    apply Ends.seq
    apply Ends.pure
    show Ends _ (allocuvm L d (pgroundup 0) _ >>= _) _ _
    rw [hround]
    apply Ends.seq
    apply allocuvm_ends (Set.mem_insert d D) (by decide) (by decide) himage.sound
    · intro j _ hj
      apply himage.pages.none_above _ (Nat.zero_le _)
      change j < (8192 + 4095) / 4096 at hj
      change j < 0x80000
      omega
    · exact fun s₂ _ _ hfull => absurd (hnew.spare 2 hfails hfree) hfull
    · intro s₂ hadded
      rw [if_neg (by decide)]
      apply Ends.seq
      apply clearpteu_ends hadded.sound (Set.mem_insert d D)
      · intro hnone
        obtain ⟨f, -, hpte, -⟩ := hadded.inside 0 (Nat.zero_le _) (by decide)
        rw [pteOf_of_tableOf_none (k := 0) hnone] at hpte
        cases hpte
      · exact fun s₃ _ => Ends.pure ⟨d, rfl⟩
  obtain ⟨r, s', hrun, d, rfl⟩ := hends.returns
  exact ⟨d, s', hrun⟩

/-- Memory before the first process, all of it free. -/
def freshMemory : PMem := ⟨fun _ _ => 0, List.range' 300 2000, []⟩

theorem sound_freshMemory : ∃ other, Sound smallLayout ∅ other ∅ freshMemory := by
  refine ⟨_, sound_start smallLayout (fun _ _ => 0) [] List.nodup_range' ?_⟩
  intro f hf
  rw [List.mem_range'_1] at hf
  exact ⟨hf.1, by change f < 57344; omega⟩

/-- The first directory. -/
theorem newDir_freshMemory : ∃ other d s', Sound smallLayout ∅ other ∅ freshMemory ∧
    Built smallLayout d s' ∧ NewDir smallLayout ∅ other ∅ d freshMemory s' := by
  obtain ⟨other, hs⟩ := sound_freshMemory
  have hends : Ends (fun _ => False) (setupkvm smallLayout) freshMemory fun r s' =>
      ∃ d, r = some d ∧ NewDir smallLayout ∅ other ∅ d freshMemory s' := by
    apply setupkvm_ends hs
    · exact fun _ _ _ hfull => absurd ⟨rfl, by decide +kernel⟩ hfull
    · exact fun d s' hnew => ⟨d, rfl, hnew⟩
  obtain ⟨r, s', hrun, d, rfl, hnew⟩ := hends.returns
  exact ⟨other, d, s', hs, .setupkvm hs hrun, hnew⟩

/-- Two bytes on either side of a page boundary are stored, one for the device space is
refused, and `exec` with a short argument goes through. -/
theorem copyout_exact_fresh : ∃ d s, Built smallLayout d s ∧
    (∃ s', copyout d 4095 [1, 2] s = .ok (true, s') ∧
      Stored (userByte s d) 4095 [1, 2] s.mem s'.mem) ∧
    (∃ s', copyout d 0xFE000000 [1] s = .ok (false, s')) ∧
    ∃ r s', exec smallLayout [] [[0x61]] s = .ok (r, s') := by
  obtain ⟨other, d, s₀, hs, hbuilt₀, hnew⟩ := newDir_freshMemory
  have hnone (j : ℕ) (hj : j < UPAGES) : pteOf s₀ d j = none :=
    (hnew.image hs).2.pages.none_above hj (Nat.zero_le j)
  have hends : Ends (fun _ => False) (allocuvm smallLayout d 0 8192) s₀ fun r s' =>
      r = 8192 ∧ Added smallLayout (insert d ∅) other ∅ d 0 2 s₀ s' := by
    apply allocuvm_ends (Set.mem_insert d ∅) (by decide) (by decide) hnew.sound
    · exact fun j _ hj => hnone j (hj.trans (by decide))
    · exact fun _ _ _ hfull => absurd (hnew.spare 2 rfl (by decide +kernel)) hfull
    · exact fun s' hadded => ⟨rfl, hadded⟩
  obtain ⟨_, s, hrun, rfl, hadded⟩ := hends.returns
  have hbuilt : Built smallLayout d s := .allocuvm hbuilt₀ (fun j hj _ _ => hnone j hj) hrun
  have hall (k : ℕ) (hk : Overlaps 4095 2 k) : Accessible s d k := by
    rw [overlaps_iff] at hk
    obtain ⟨f, -, hpte, -⟩ := hadded.inside k (Nat.zero_le k) (by omega)
    exact ⟨_, hpte, user_userEntry f⟩
  have hkern := hnew.kernelPart.added (by decide) hadded
  obtain ⟨hcopy, hexec⟩ := copyout_exact hbuilt
  refine ⟨d, s, hbuilt, ?_, ?_, ?_⟩
  · have hguard : Guarded s d 4095 2 := by
      intro k hk _ hnone
      obtain ⟨w, hw, -⟩ := hall k hk
      rw [pteOf_of_tableOf_none hnone] at hw
      cases hw
    obtain ⟨ok, s', hcopied, hiff, hstored⟩ := (hcopy 4095 [1, 2]).mpr hguard
    obtain rfl := hiff.mpr ⟨by decide, hall⟩
    exact ⟨s', hcopied, (hstored rfl).2.2⟩
  · obtain ⟨ok, s', hcopied, hiff, -⟩ :=
      (hcopy 0xFE000000 [1]).mpr (hkern.guarded (by decide) (by decide))
    obtain rfl : ok = false := by
      rw [← Bool.not_eq_true]
      intro h
      exact hkern.closed 0xFE000 (by decide) (by decide) ((hiff.mp h).2 _ ⟨0, by decide, rfl⟩)
    exact ⟨s', hcopied⟩
  · refine (hexec [] [[0x61]] ?_).mpr fun _ _ _ _ _ => ⟨?_, fun _ => trivial⟩
    · exact List.forall_mem_singleton.mpr (by decide)
    · exact le_trans (by decide) (Nat.le_add_right _ _)

/-- Above physical memory the page table is missing, and an argument of 64 MiB puts the
stack pointer of `exec` there. -/
theorem copyout_null :
    (∃ d s, Built smallLayout d s ∧ copyout d 0x90000000 [1] s = .error .nullDeref) ∧
    exec smallLayout [] [List.replicate (2 ^ 26) 0x61] freshMemory = .error .nullDeref := by
  refine ⟨?_, ?_⟩
  · obtain ⟨other, d, s, -, hbuilt, hnew⟩ := newDir_freshMemory
    have hnot : ¬Guarded s d 0x90000000 1 :=
      hnew.kernelPart.not_guarded hnew.used (by decide) (by decide) (by decide)
    have hends : Ends (· = .nullDeref) (copyout d 0x90000000 [1]) s fun _ _ => False := by
      apply copyout_ends hnew.sound (Set.mem_insert d ∅) hnew.kernelPart.closed
      · exact fun _ => rfl
      · exact fun _ _ hguard _ => hnot hguard
      · exact fun _ _ hguard _ _ => hnot hguard
    obtain ⟨e, he, rfl⟩ := hends.stops
    exact ⟨d, s, hbuilt, he⟩
  · obtain ⟨other, hs⟩ := sound_freshMemory
    obtain ⟨d, s', hload⟩ := loadImage_nil hs rfl (by decide +kernel)
    have hlength : (List.replicate (2 ^ 26) (0x61 : BitVec 8)).length = 2 ^ 26 :=
      List.length_replicate
    have hin : InMemory [List.replicate (2 ^ 26) 0x61] :=
      List.forall_mem_singleton.mpr (by rw [hlength]; decide)
    have hnot : ¬ArgsOk smallLayout [] [List.replicate (2 ^ 26) 0x61] freshMemory := by
      intro hargs
      have hpush := (hargs d 8192 s' hload (by decide)).1
      rw [hlength] at hpush
      exact absurd hpush (by decide)
    have hends : Ends (· = .nullDeref) (exec smallLayout [] [List.replicate (2 ^ 26) 0x61])
        freshMemory fun _ _ => False := by
      apply exec_ends hs
      · exact fun _ => rfl
      · exact fun _ _ _ h => hnot (h hin)
      · exact fun _ _ _ _ _ _ _ _ h => hnot (h hin)
    obtain ⟨e, he, rfl⟩ := hends.stops
    exact he

end

end Xv6Threads.Vm
