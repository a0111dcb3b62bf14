/-
# Page tables along a run

In every run of processes that call `exec`, `fork`, `growproc` and `wait`, each process
has exactly the pages below its size, and no frame is used twice. One call is left out:
a `growproc` that brings the size to 0 frees every page and leaves the size as it was.

It follows that the kernel does not reach a panic of `kfree`, `mappages`, `copyuvm`,
`clearpteu` or `loaduvm`. The missing page table in `copyout` is another matter: `ArgsOk`
says when `exec` does not meet it.
-/

import Xv6Threads.Lib.Transition
import Xv6Threads.Vm.Loading

namespace Xv6Threads.Vm

open Lib Lib.Command
open Function (update update_eq_self update_of_ne update_self)

/-- The directories of the processes. -/
def dirs (procs : ℕ → Option Space) : Set ℕ := {d | ∃ p sp, procs p = some sp ∧ sp.pgdir = d}

/-- Every process has its own directory, with exactly the pages below its size. -/
structure Spaces (procs : ℕ → Option Space) (s : PMem) : Prop where
  alone : ∀ p q sp sq, procs p = some sp → procs q = some sq → sp.pgdir = sq.pgdir → p = q
  pages : ∀ p sp, procs p = some sp → Matches s sp.pgdir sp.sz
  size : ∀ p sp, procs p = some sp → 0 < sp.sz.toNat ∧ sp.sz.toNat < KERNBASE

/-- The invariant of the machine. -/
structure VmSound (L : Layout) (other : Set ℕ) (st : VmState) : Prop where
  sound : Sound L (dirs st.procs) other {f | f ∈ st.held} st.mem
  held : st.held.Nodup
  spaces : Spaces st.procs st.mem

section

variable {L : Layout} {E : VmFault → Prop} {D other loose : Set ℕ}
variable {s s' : PMem} {d p c : ℕ} {procs : ℕ → Option Space} {sp : Space} {held : List ℕ}

theorem mem_dirs (h : procs p = some sp) : sp.pgdir ∈ dirs procs := ⟨p, sp, h, rfl⟩

/-- The directories once process `p` has another one, or none. -/
theorem dirs_update (h : Spaces procs s) (p : ℕ) (new : Option Space) :
    dirs (update procs p new) =
      dirs procs \ {d | ∃ sp, procs p = some sp ∧ sp.pgdir = d} ∪
        {d | ∃ sp, new = some sp ∧ sp.pgdir = d} := by
  ext d
  constructor
  · rintro ⟨q, sq, hq, rfl⟩
    by_cases hqp : q = p
    · subst hqp
      rw [update_self] at hq
      exact .inr ⟨sq, hq, rfl⟩
    · rw [update_of_ne hqp] at hq
      refine .inl ⟨mem_dirs hq, ?_⟩
      rintro ⟨sp, hp, heq⟩
      exact hqp (h.alone q p sq sp hq hp heq.symm)
  · rintro (⟨⟨q, sq, hq, rfl⟩, hnot⟩ | ⟨sp, hnew, rfl⟩)
    · have hqp : q ≠ p := by
        rintro rfl
        exact hnot ⟨sq, hq, rfl⟩
      exact ⟨q, sq, by rw [update_of_ne hqp, hq], rfl⟩
    · exact ⟨p, sp, by rw [update_self, hnew], rfl⟩

/-- One process changes its memory, the others keep theirs. -/
theorem Spaces.update (h : Spaces procs s) {new : Option Space}
    (hviews : ∀ q sq, q ≠ p → procs q = some sq → SameView sq.pgdir s s')
    (hnew : ∀ sp, new = some sp → Matches s' sp.pgdir sp.sz ∧
      (0 < sp.sz.toNat ∧ sp.sz.toNat < KERNBASE) ∧
      ∀ q sq, q ≠ p → procs q = some sq → sq.pgdir ≠ sp.pgdir) :
    Spaces (Function.update procs p new) s' := by
  have hothers {q : ℕ} {sq : Space} (hqp : q ≠ p)
      (hq : Function.update procs p new q = some sq) : procs q = some sq := by
    rwa [update_of_ne hqp] at hq
  have hself {sp : Space} (hp : Function.update procs p new p = some sp) : new = some sp := by
    rwa [update_self] at hp
  refine ⟨?_, ?_, ?_⟩
  · intro q r sq sr hq hr heq
    by_cases hqp : q = p
    · subst hqp
      by_cases hrq : r = q
      · exact hrq.symm
      · exact absurd heq.symm ((hnew sq (hself hq)).2.2 r sr hrq (hothers hrq hr))
    · by_cases hrp : r = p
      · subst hrp
        exact absurd heq ((hnew sr (hself hr)).2.2 q sq hqp (hothers hqp hq))
      · exact h.alone q r sq sr (hothers hqp hq) (hothers hrp hr) heq
  · intro q sq hq
    by_cases hqp : q = p
    · subst hqp
      exact (hnew sq (hself hq)).1
    · exact (h.pages q sq (hothers hqp hq)).sameView (hviews q sq hqp (hothers hqp hq))
  · intro q sq hq
    by_cases hqp : q = p
    · subst hqp
      exact (hnew sq (hself hq)).2.1
    · exact h.size q sq (hothers hqp hq)

theorem Spaces.sameView (h : Spaces procs s)
    (hviews : ∀ d ∈ dirs procs, SameView d s s') : Spaces procs s' :=
  ⟨h.alone, fun q sq hq => (h.pages q sq hq).sameView (hviews _ (mem_dirs hq)), h.size⟩

/-- The others have other directories. -/
theorem Spaces.ne (h : Spaces procs s) (hp : procs p = some sp) :
    ∀ q sq, q ≠ p → procs q = some sq → sq.pgdir ≠ sp.pgdir :=
  fun q sq hqp hq heq => hqp (h.alone q p sq sp hq hp heq)

/-! ## One event -/

theorem vmSound_exec {prog : List (Option Segment)} {argv : List (List (BitVec 8))}
    (h : VmSound L other ⟨s, held, procs⟩) (hp : procs p = some sp) (hnull : E .nullDeref) :
    Ends E (execSpace L sp prog argv) s fun new s' =>
      VmSound L other ⟨s', held, update procs p (some new)⟩ := by
  have hd := mem_dirs hp
  apply Ends.seq
  apply exec_ends h.sound fun _ => hnull
  · intro s' hs' hviews _
    apply Ends.pure
    rw [← hp, update_eq_self]
    exact ⟨hs', h.held, h.spaces.sameView hviews⟩
  · intro d sz _ s₁ hfresh himage hpos hlt _
    apply Ends.seq
    have hold := Set.mem_insert_of_mem d hd
    have hne : sp.pgdir ≠ d := fun heq => hfresh (heq ▸ hd)
    apply freevm_ends himage.sound hold
    intro s' hfreed
    apply Ends.pure
    refine ⟨?_, h.held, ?_⟩
    · have hset : insert d (dirs procs) \ {sp.pgdir} =
          dirs (update procs p (some ⟨d, sz⟩)) := by
        rw [dirs_update h.spaces]
        ext f
        simp only [Set.mem_sdiff, Set.mem_insert_iff, Set.mem_singleton_iff, Set.mem_union,
          Set.mem_ofPred_eq, hp, Option.some.injEq, exists_eq_left']
        constructor
        · rintro ⟨rfl | hf, hsp⟩
          · exact .inr rfl
          · exact .inl ⟨hf, fun heq => hsp heq.symm⟩
        · rintro (⟨hf, hsp⟩ | rfl)
          · exact ⟨.inr hf, fun heq => hsp heq.symm⟩
          · exact ⟨.inl rfl, fun heq => hne heq.symm⟩
      exact hset ▸ hfreed.sound
    · apply h.spaces.update
      · intro q sq hqp hq
        exact (himage.kept _ (mem_dirs hq)).trans (hfreed.sameView himage.sound hold
          (Set.mem_insert_of_mem d (mem_dirs hq)) (h.spaces.ne hp q sq hqp hq))
      · intro new hnew
        cases hnew
        refine ⟨himage.pages.sameView ?_, ⟨hpos, hlt⟩, ?_⟩
        · exact hfreed.sameView himage.sound hold (Set.mem_insert d _) hne.symm
        · exact fun q sq _ hq (heq : sq.pgdir = d) => hfresh (heq ▸ mem_dirs hq)

theorem vmSound_fork (h : VmSound L other ⟨s, held, procs⟩) (hp : procs p = some sp)
    (hc : procs c = none) :
    Ends E (forkSpace L sp) s fun child s' =>
      VmSound L other ⟨s', held, update procs c child⟩ := by
  apply Ends.seq
  apply copyuvm_ends h.sound (mem_dirs hp) (h.spaces.pages p sp hp)
  · intro s' hs' hkept _
    apply Ends.pure
    rw [← hc, update_eq_self]
    exact ⟨hs', h.held, h.spaces.sameView fun d hd => hkept.sameView h.sound hd⟩
  · intro d s' hcopied
    apply Ends.pure
    have hfresh : d ∉ dirs procs := fun hd =>
      h.sound.not_free hd (refers_dir s d) (hcopied.fresh .dir d rfl)
    have hbound := (h.spaces.size p sp hp).2
    change sp.sz.toNat < 0x80000000 at hbound
    refine ⟨?_, h.held, ?_⟩
    · have hset : insert d (dirs procs) =
          dirs (update procs c (some ⟨d, sp.sz⟩)) := by
        rw [dirs_update h.spaces]
        ext f
        simp [hc, eq_comm]
      exact hset ▸ hcopied.sound
    · apply h.spaces.update
      · exact fun q sq _ hq => hcopied.kept.sameView h.sound (mem_dirs hq)
      · intro new hnew
        cases hnew
        refine ⟨⟨(h.spaces.pages p sp hp).size, fun k hk => ?_⟩, h.spaces.size p sp hp, ?_⟩
        · show (pteOf s' d k).isSome = true ↔ k * 4096 < sp.sz.toNat
          by_cases hlt : k < (sp.sz.toNat + 4095) / 4096
          · obtain ⟨w, f, -, -, hpte, -⟩ := hcopied.pages k hlt
            rw [hpte]
            simp only [Option.isSome_some, true_iff]
            omega
          · rw [hcopied.rest k (Nat.not_lt.mp hlt) hk]
            simp only [Option.isSome_none, Bool.false_eq_true, false_iff]
            omega
        · exact fun q sq _ hq (heq : sq.pgdir = d) => hfresh (heq ▸ mem_dirs hq)

/-- A process keeps its directory and has another size. -/
theorem VmSound.resize {sz : Word} (h : VmSound L other ⟨s, held, procs⟩) (hp : procs p = some sp)
    (hs' : Sound L (dirs procs) other {f | f ∈ held} s')
    (hviews : ∀ d ∈ dirs procs, d ≠ sp.pgdir → SameView d s s')
    (hmatch : Matches s' sp.pgdir sz) (hpos : 0 < sz.toNat) (hlt : sz.toNat < KERNBASE) :
    VmSound L other ⟨s', held, update procs p (some { sp with sz := sz })⟩ := by
  have hset : dirs (update procs p (some { sp with sz := sz })) = dirs procs := by
    rw [dirs_update h.spaces]
    ext f
    simp only [hp, Option.some.injEq, exists_eq_left', Set.mem_union, Set.mem_sdiff,
      Set.mem_ofPred_eq]
    constructor
    · rintro (⟨hf, -⟩ | rfl)
      · exact hf
      · exact mem_dirs hp
    · intro hf
      by_cases heq : sp.pgdir = f
      · exact .inr heq
      · exact .inl ⟨hf, heq⟩
  refine ⟨hset.symm ▸ hs', h.held, ?_⟩
  apply h.spaces.update
  · exact fun q sq hqp hq => hviews _ (mem_dirs hq) (h.spaces.ne hp q sq hqp hq)
  · intro new hnew
    cases hnew
    exact ⟨hmatch, ⟨hpos, hlt⟩, fun q sq hqp hq => h.spaces.ne hp q sq hqp hq⟩

theorem vmSound_growproc {n : Word} (h : VmSound L other ⟨s, held, procs⟩)
    (hp : procs p = some sp) (hn : (sp.sz.toNat : ℤ) + n.toInt ≠ 0) :
    Ends E (growproc L sp n) s fun r s' =>
      VmSound L other ⟨s', held, update procs p (some r.1)⟩ := by
  obtain ⟨hpos, hlt⟩ := h.spaces.size p sp hp
  have hd := mem_dirs hp
  have hmatch := h.spaces.pages p sp hp
  rcases lt_trichotomy 0 ((sp.sz.toNat : ℤ) + n.toInt) with hsum | hsum | hsum
  · apply growproc_ends h.sound hd hmatch hlt hsum
    · intro s' hidle
      apply h.resize hp hidle.sound _ ⟨hmatch.size, fun k hk => ?_⟩ hpos hlt
      · exact fun d hd' hne => hidle.grows.sameView h.sound hd hd' hne
      · rw [hidle.ptes k (hk.trans (by decide)), hmatch.pages k hk]
    · intro sz s' hs' hsz hlt' hresized hviews
      exact h.resize hp hs' hviews hresized.pages (by omega) hlt'
  · exact absurd hsum.symm hn
  · apply Ends.of_ok (growproc_below hlt hpos hsum)
    show VmSound L other ⟨s, held, update procs p (some sp)⟩
    rwa [← hp, update_eq_self]

theorem vmSound_wait (h : VmSound L other ⟨s, held, procs⟩) (hp : procs p = some sp) :
    Ends E (freevm L sp.pgdir) s fun _ s' =>
      VmSound L other ⟨s', held, update procs p none⟩ := by
  apply freevm_ends h.sound (mem_dirs hp)
  intro s' hfreed
  refine ⟨?_, h.held, ?_⟩
  · have hset : dirs procs \ {sp.pgdir} = dirs (update procs p none) := by
      rw [dirs_update h.spaces]
      ext f
      simp [hp, eq_comm]
    exact hset ▸ hfreed.sound
  · apply h.spaces.update
    · exact fun q sq hqp hq => hfreed.sameView h.sound (mem_dirs hp) (mem_dirs hq)
        (h.spaces.ne hp q sq hqp hq)
    · exact fun sp hnew => absurd hnew.symm (Option.some_ne_none sp)

theorem vmSound_kalloc (h : VmSound L other ⟨s, held, procs⟩) :
    Ends E kalloc s fun r s' => VmSound L other ⟨s', r.toList ++ held, procs⟩ := by
  apply kalloc_ends h.sound
  · intro _
    exact ⟨(Walked.fails h.sound 0).sound, h.held,
      h.spaces.sameView fun _ _ => ⟨rfl, fun _ _ _ _ => rfl⟩⟩
  · intro f rest hfree hs'
    have hmem : f ∈ s.free := hfree ▸ List.mem_cons_self
    refine ⟨?_, ?_, h.spaces.sameView fun _ _ => ⟨rfl, fun _ _ _ _ => rfl⟩⟩
    · have hset : insert f {g | g ∈ held} = {g | g ∈ f :: held} := by
        ext g
        simp
      exact hset ▸ hs'
    · exact List.nodup_cons.mpr ⟨fun hf => h.sound.not_free_of_loose hf hmem, h.held⟩

theorem vmSound_kfree {f : ℕ} (h : VmSound L other ⟨s, held, procs⟩) (hf : f ∈ held) :
    Ends E (kfree L f) s fun _ s' => VmSound L other ⟨s', held.erase f, procs⟩ := by
  apply kfree_ends h.sound hf
  rintro s' rfl hs'
  refine ⟨?_, h.held.erase f, h.spaces.sameView fun d hd => ?_⟩
  · have hset : {g | g ∈ held} \ {f} = {g | g ∈ held.erase f} := by
      ext g
      simp [h.held.mem_erase_iff, and_comm]
    exact hset ▸ hs'
  · have hview : SameView d s (s.fill f fun _ => 1) := by
      apply sameView_fill
      · exact fun heq => h.sound.not_loose hd (p := .dir) heq hf
      · exact fun i hi ht => h.sound.not_loose hd (p := .table i) ⟨hi, ht⟩ hf
    exact ⟨hview.dir, hview.tables⟩

/-- Not a call that brings the size of a process to 0. -/
def NotToZero (st : VmState) (e : VmEvent × List Bool) : Prop :=
  ∀ p n sp, e.1 = .growproc p n → st.procs p = some sp → (sp.sz.toNat : ℤ) + n.toInt ≠ 0

theorem vmSound_run {st : VmState} {e : VmEvent × List Bool} (h : VmSound L other st)
    (hgood : NotToZero st e) (hnull : ∀ p prog argv, e.1 = .exec p prog argv → E .nullDeref) :
    Ends E (VmEvent.run L st.held st.procs e.1) { st.mem with fails := e.2 }
      fun r s' => VmSound L other ⟨s', r.1, r.2⟩ := by
  obtain ⟨e, fails⟩ := e
  have h₀ : VmSound L other ⟨{ st.mem with fails := fails }, st.held, st.procs⟩ :=
    ⟨h.sound.of_sameView rfl fun _ _ => ⟨rfl, fun _ _ _ _ => rfl⟩, h.held,
      h.spaces.sameView fun _ _ => ⟨rfl, fun _ _ _ _ => rfl⟩⟩
  cases e with
  | exec p prog argv =>
    rw [VmEvent.run]
    split
    next => exact Ends.pure h₀
    next sp hp =>
      have hE := hnull p prog argv rfl
      exact Ends.seq ((vmSound_exec h₀ hp hE).mono fun _ _ h' => Ends.pure h')
  | fork p c =>
    rw [VmEvent.run]
    split
    next sp hp hc => exact Ends.seq ((vmSound_fork h₀ hp hc).mono fun _ _ h' => Ends.pure h')
    next => exact Ends.pure h₀
  | growproc p n =>
    rw [VmEvent.run]
    split
    next => exact Ends.pure h₀
    next sp hp =>
      have hn := hgood p n sp rfl hp
      exact Ends.seq ((vmSound_growproc h₀ hp hn).mono fun _ _ h' => Ends.pure h')
  | wait p =>
    rw [VmEvent.run]
    split
    next => exact Ends.pure h₀
    next sp hp => exact Ends.seq ((vmSound_wait h₀ hp).mono fun _ _ h' => Ends.pure h')
  | kalloc =>
    apply Ends.seq
    apply (vmSound_kalloc h₀).mono
    intro r s' h'
    cases r with
    | none | some f => exact Ends.pure h'
  | kfree f =>
    rw [VmEvent.run]
    split
    next hf => exact Ends.seq ((vmSound_kfree h₀ hf).mono fun _ _ h' => Ends.pure h')
    next => exact Ends.pure h₀

theorem vmSound_step {st st' : VmState} {e : VmEvent × List Bool} (h : VmSound L other st)
    (hgood : NotToZero st e) (hstep : VmStep L st e st') : VmSound L other st' := by
  have hrun := vmSound_run (E := fun _ => True) h hgood fun _ _ _ _ => trivial
  change VmState.next L st e = .ok st' at hstep
  rw [VmState.next] at hstep
  split at hstep
  next => cases hstep
  next held procs mem hok =>
    cases hstep
    exact hrun.ok hok

/-! ## Booting -/

theorem userinit_ends {Q : Space → PMem → Prop} {init : List (BitVec 8)}
    (hs : Sound L ∅ other ∅ s) (hfails : s.fails = []) (hfree : 1027 ≤ s.free.length)
    (hlen : PGSIZE ≤ init.length → E .userinit)
    (hdone : ∀ d s', Sound L {d} other ∅ s' → Matches s' d (BitVec.ofNat 32 PGSIZE) →
      Q ⟨d, BitVec.ofNat 32 PGSIZE⟩ s') :
    Ends E (userinit L init) s Q := by
  apply Ends.seq
  apply setupkvm_ends hs
  · exact fun _ _ _ hfull => absurd ⟨hfails, by omega⟩ hfull
  · intro d s₁ hnew
    obtain ⟨-, himage⟩ := hnew.image hs
    have hsound := himage.sound
    rw [insert_empty_eq] at hsound
    have hd : d ∈ ({d} : Set ℕ) := Set.mem_singleton d
    have hroom : Room s₁ d (0 + 1) := hnew.spare 1 hfails (by omega)
    apply Ends.seq
    rw [inituvm]
    apply Ends.check_bind
    case hfail => exact fun hlong => hlen (Nat.not_lt.mp hlong)
    intro _
    apply Ends.seq
    apply kalloc_ends hsound
    · intro hempty
      have henough := hroom.enough
      rw [hempty hroom.fails, List.length_nil] at henough
      omega
    · intro f rest hlist hs₂
      have hview := (untouched_kalloc hlist s₁.fails.tail fun _ => 0).sameView hsound hd
      have hnone := himage.pages.none_above (k := 0) (by decide) (by decide)
      have hone : BitVec.ofNat 32 PGSIZE = BitVec.ofNat 32 ((0 + 1) * PGSIZE) := rfl
      have hzero : (0 : Word) = pageAddr 0 := rfl
      apply Ends.modify_bind
      apply Ends.seq
      rw [hone, hzero, mappages_eq (by decide)]
      apply mapPage_user (hs₂.fill_loose (Set.mem_insert f ∅) _) hd (by decide)
        ((hview.pteOf (by decide)).trans hnone) (Set.mem_insert f ∅) (by decide)
      · exact fun _ _ hfull => absurd (hroom.kalloc hlist _ hview) hfull
      · intro s₃ hmapped
        rw [Set.insert_sdiff_self_of_notMem (Set.notMem_empty f)] at hmapped
        have hpte := hmapped.ptes 0 (by decide)
        rw [if_pos rfl] at hpte
        have hframe : frame (addrOf f ||| (PTE_W ||| PTE_U) ||| PTE_P) = f :=
          frame_userEntry (hsound.range f (hlist ▸ List.mem_cons_self)).lt
        apply Ends.read_bind
        apply Ends.modify
        apply Ends.pure
        have hre := hmapped.sound.refilled hd (k := 0) (t := f) ⟨by decide, _, hpte, hframe⟩
          (pageWith (s₃.mem f) 0 init)
        apply hdone d _ hre.sound ⟨by decide, fun k hk => ?_⟩
        have hk20 : k < 2 ^ 20 := hk.trans (by decide)
        rw [(hre.views d hd).pteOf hk20, hmapped.ptes k hk20]
        show _ ↔ k * 4096 < 4096
        by_cases hk0 : k = 0
        · simp [hk0]
        · rw [if_neg hk0, hview.pteOf hk20, himage.pages.none_above hk (Nat.zero_le k)]
          simp only [Option.isSome_none, Bool.false_eq_true, false_iff]
          omega

/-- Memory with enough free frames for the first process, which is there. -/
def Booted (L : Layout) (other : Set ℕ) (st : VmState) : Prop :=
  ∃ s init sp, Sound L ∅ other ∅ s ∧ s.fails = [] ∧ 1027 ≤ s.free.length ∧
    userinit L init s = .ok (sp, st.mem) ∧ st.held = [] ∧
    st.procs = update (fun _ => none) 1 (some sp)

theorem Booted.vmSound {st : VmState} (h : Booted L other st) : VmSound L other st := by
  obtain ⟨mem, held, procs⟩ := st
  obtain ⟨s, init, sp, hs, hfails, hfree, hrun, rfl, rfl⟩ := h
  have hends : Ends (fun _ => True) (userinit L init) s fun sp s' =>
      Sound L {sp.pgdir} other ∅ s' ∧ Matches s' sp.pgdir sp.sz ∧
        sp.sz = BitVec.ofNat 32 PGSIZE := by
    apply userinit_ends hs hfails hfree
    · exact fun _ => trivial
    · exact fun d s' hs' hmatch => ⟨hs', hmatch, rfl⟩
  obtain ⟨hs', hmatch, hsz⟩ := hends.ok hrun
  have hone (p : ℕ) (sq : Space)
      (hp : update (fun _ => none) 1 (some sp) p = some sq) : p = 1 ∧ sq = sp := by
    by_cases hp1 : p = 1
    · subst hp1
      rw [update_self] at hp
      cases hp
      exact ⟨rfl, rfl⟩
    · rw [update_of_ne hp1] at hp
      cases hp
  refine ⟨?_, List.nodup_nil, ?_, ?_, ?_⟩
  · have hset : dirs (update (fun _ => none) 1 (some sp)) = {sp.pgdir} := by
      ext d
      constructor
      · rintro ⟨p, sq, hp, rfl⟩
        rw [(hone p sq hp).2]
        rfl
      · rintro rfl
        exact ⟨1, sp, update_self .., rfl⟩
    have hheld : {f | f ∈ ([] : List ℕ)} = ∅ := by simp
    show Sound L (dirs _) other {f | f ∈ ([] : List ℕ)} mem
    rw [hset, hheld]
    exact hs'
  · intro p q sp' sq hp hq _
    rw [(hone p sp' hp).1, (hone q sq hq).1]
  · intro p sp' hp
    rw [(hone p sp' hp).2]
    exact hmatch
  · intro p sp' hp
    rw [(hone p sp' hp).2, hsz]
    decide

/-! ## Runs -/

theorem vmSound_of_reachableBy {st₀ st : VmState} (hboot : Booted L other st₀)
    (hreach : ReachableBy (VmStep L) NotToZero st₀ st) : VmSound L other st :=
  hreach.invariant hboot.vmSound fun _ _ _ _ h hgood hstep => vmSound_step h hgood hstep

/-- Along every run without a `growproc` to size 0 each process has exactly the pages below
its size, in frames of their own. The only fault left is the one of `exec`. -/
theorem pages_match {st₀ st : VmState} (hboot : Booted L other st₀)
    (hreach : ReachableBy (VmStep L) NotToZero st₀ st) :
    (∀ p sp, st.procs p = some sp → ∀ k < UPAGES,
      ((pteOf st.mem sp.pgdir k).isSome = true ↔ k * PGSIZE < sp.sz.toNat)) ∧
    (∀ p q sp sq, st.procs p = some sp → st.procs q = some sq → ∀ j < UPAGES, ∀ k < UPAGES,
      ∀ w v, pteOf st.mem sp.pgdir j = some w → pteOf st.mem sq.pgdir k = some v →
      frame w = frame v → p = q ∧ j = k) ∧
    ∀ e, NotToZero st e → ∀ f, st.next L e = .error f →
      f = .nullDeref ∧ ∃ p prog argv, e.1 = .exec p prog argv := by
  have hsound := vmSound_of_reachableBy hboot hreach
  refine ⟨fun p sp hp => (hsound.spaces.pages p sp hp).pages, ?_, ?_⟩
  · intro p q sp sq hp hq j hj k hk w v hw hv heq
    have hunique := hsound.sound.unique (mem_dirs hp) (mem_dirs hq) (p := .page j) (q := .page k)
      ⟨hj, w, hw, rfl⟩ ⟨hk, v, hv, heq.symm⟩
    refine ⟨hsound.spaces.alone p q sp sq hp hq hunique.1, ?_⟩
    cases hunique.2
    rfl
  · intro e hgood f hfault
    have hrun := vmSound_run hsound hgood
      (E := fun f => f = .nullDeref ∧ ∃ p prog argv, e.1 = .exec p prog argv)
      fun p prog argv he => ⟨rfl, p, prog, argv, he⟩
    rw [VmState.next] at hfault
    split at hfault
    next f' herror =>
      cases hfault
      exact hrun.error herror
    next => cases hfault

/-- The first process, in memory that was all free. Frame 300 is its directory. -/
theorem booted_freshMemory : ∃ other s d, (smallLayout.Allocatable 300 ∧ 300 ∉ other) ∧
    Booted smallLayout other ⟨s, [], update (fun _ => none) 1 (some ⟨d, 4096⟩)⟩ := by
  obtain ⟨other, hs⟩ := sound_freshMemory
  have hfirst : 300 ∈ freshMemory.free := by decide +kernel
  have hother : 300 ∉ other := fun ho => (hs.owned.markedIff (.inl ho)).mpr (.inl ho) hfirst
  have hends : Ends (fun _ => False) (userinit smallLayout []) freshMemory fun sp _ =>
      sp.sz = 4096 := by
    apply userinit_ends hs rfl (by decide +kernel)
    · exact fun hlong => absurd hlong (by decide)
    · exact fun _ _ _ _ => rfl
  obtain ⟨⟨d, sz⟩, s', hrun, rfl⟩ := hends.returns
  exact ⟨other, s', d, ⟨hs.range 300 hfirst, hother⟩, freshMemory, [], _, hs, rfl,
    by decide +kernel, hrun, rfl, rfl⟩

/-- An event other than `exec` does not stop. -/
theorem VmSound.exists_step {st : VmState} {e : VmEvent × List Bool} (h : VmSound L other st)
    (hgood : NotToZero st e) (hexec : ∀ p prog argv, e.1 ≠ .exec p prog argv) :
    ∃ st', VmStep L st e st' := by
  obtain ⟨r, s', hrun, -⟩ := (vmSound_run (E := fun _ => False) h hgood hexec).returns
  refine ⟨⟨s', r.1, r.2⟩, ?_⟩
  show VmState.next L st e = _
  rw [VmState.next, hrun]

theorem notToZero_first (s : PMem) (d : ℕ) : NotToZero
    ⟨s, [], update (fun _ => none) 1 (some ⟨d, 4096⟩)⟩ (.growproc 1 4096, []) := by
  intro p n sp he hp
  cases he
  change update (fun _ => none) 1 (some ⟨d, 4096⟩) 1 = some sp at hp
  rw [update_self] at hp
  cases hp
  show ((4096 : Word).toNat : ℤ) + (4096 : Word).toInt ≠ 0
  decide

/-- The first process asks for another page. -/
theorem pages_match_grown : ∃ (st₀ st : VmState) (e : VmEvent × List Bool),
    e.1 = .growproc 1 4096 ∧ VmStep smallLayout st₀ e st ∧
    ∀ p sp, st.procs p = some sp → ∀ k < UPAGES,
      ((pteOf st.mem sp.pgdir k).isSome = true ↔ k * PGSIZE < sp.sz.toNat) := by
  obtain ⟨other, s, d, -, hboot⟩ := booted_freshMemory
  have hgood := notToZero_first s d
  obtain ⟨st, hstep⟩ := hboot.vmSound.exists_step hgood fun _ _ _ he => by cases he
  exact ⟨_, _, _, rfl, hstep, (pages_match hboot (.extend .start hgood hstep)).1⟩

/-- No frame leaks: one that is not free is held, or in some place of a process. -/
theorem frames_accounted {st₀ st : VmState} (hboot : Booted L other st₀)
    (hreach : ReachableBy (VmStep L) NotToZero st₀ st) {f : ℕ}
    (hf : L.Allocatable f ∧ f ∉ other) : f ∉ st.mem.free ↔
      f ∈ st.held ∨ ∃ p sp x, st.procs p = some sp ∧ Refers st.mem sp.pgdir x f := by
  rw [(vmSound_of_reachableBy hboot hreach).sound.owned.markedIff (.inr hf)]
  constructor
  · rintro (hin | hheld | ⟨⟨_, x⟩, ⟨p, sp, hp, rfl⟩, href⟩)
    · exact absurd hin hf.2
    · exact .inl hheld
    · exact .inr ⟨p, sp, x, hp, href⟩
  · rintro (hheld | ⟨p, sp, x, hp, href⟩)
    · exact .inr (.inl hheld)
    · exact .inr (.inr ⟨(sp.pgdir, x), mem_dirs hp, href⟩)

/-- The first process asks for another page and forks. -/
theorem frames_accounted_forked : ∃ st₀ st₁ st₂ : VmState,
    VmStep smallLayout st₀ (.growproc 1 4096, []) st₁ ∧
    VmStep smallLayout st₁ (.fork 1 2, []) st₂ ∧
    (300 ∉ st₂.mem.free ↔
      300 ∈ st₂.held ∨ ∃ p sp x, st₂.procs p = some sp ∧ Refers st₂.mem sp.pgdir x 300) := by
  obtain ⟨other, s, d, hpool, hboot⟩ := booted_freshMemory
  have hgood := notToZero_first s d
  obtain ⟨st₁, hstep⟩ := hboot.vmSound.exists_step hgood fun _ _ _ he => by cases he
  have hgrown := ReachableBy.extend .start hgood hstep
  have hfork : NotToZero st₁ (.fork 1 2, []) := fun _ _ _ he => by cases he
  obtain ⟨st₂, hstep'⟩ := (vmSound_of_reachableBy hboot hgrown).exists_step hfork
    fun _ _ _ he => by cases he
  exact ⟨_, st₁, st₂, hstep, hstep', frames_accounted hboot (.extend hgrown hfork hstep') hpool⟩

end

end Xv6Threads.Vm
