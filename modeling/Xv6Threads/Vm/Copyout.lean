/-
# `copyout`

The kernel writes to user memory through the page table of a directory, page by page, up
to the first page that user code cannot reach. For such a page `uva2ka` reads the entry
that `walkpgdir` returned without asking whether there is one, so the page table has to
be there.
-/

import Xv6Threads.Vm.Building

namespace Xv6Threads.Vm

open Lib Lib.Command

/-! ## Bytes stored through a map of addresses -/

/-- The bytes from address `va` on are `buf`, and no other byte changed. `place` says where
the byte of an address is. -/
structure Stored (place : ℕ → Option (ℕ × ℕ)) (va : ℕ) (buf : List (BitVec 8))
    (m m' : ℕ → Page) : Prop where
  bytes : ∀ i (hi : i < buf.length) f o, place (va + i) = some (f, o) → m' f o = buf[i]
  others : ∀ f o, (∀ i < buf.length, place (va + i) ≠ some (f, o)) → m' f o = m f o

section

variable {place : ℕ → Option (ℕ × ℕ)} {va va' : ℕ} {buf buf' : List (BitVec 8)}
variable {m m' m'' : ℕ → Page}

theorem Stored.nil : Stored place va [] m m where
  bytes _ hi := absurd hi (Nat.not_lt_zero _)
  others _ _ _ := rfl

theorem Stored.append (h : Stored place va buf m m') (h' : Stored place va' buf' m' m'')
    (hva : ∀ j < buf'.length, va' + j = va + (buf.length + j))
    (hdisj : ∀ i < buf.length, ∀ j < buf'.length, ∀ x, place (va + i) = some x →
      place (va' + j) ≠ some x) :
    Stored place va (buf ++ buf') m m'' where
  bytes i hi f o hplace := by
    by_cases hin : i < buf.length
    · rw [h'.others f o fun j hj => hdisj i hin j hj (f, o) hplace, h.bytes i hin f o hplace,
        List.getElem_append_left hin]
    · rw [List.length_append] at hi
      have hj : i - buf.length < buf'.length := by omega
      have haddr : va' + (i - buf.length) = va + i := by
        rw [hva _ hj]
        omega
      rw [h'.bytes (i - buf.length) hj f o (haddr ▸ hplace),
        List.getElem_append_right (Nat.not_lt.mp hin)]
  others f o hout := by
    rw [List.length_append] at hout
    rw [h'.others f o, h.others f o]
    · exact fun i hi => hout i (by omega)
    · intro j hj
      rw [hva j hj]
      exact hout _ (by omega)

/-- Bytes that lie next to each other in a page. -/
theorem Stored.fill {g off : ℕ} (hplace : ∀ i < buf.length, place (va + i) = some (g, off + i)) :
    Stored place va buf m (Function.update m g (pageWith (m g) off buf)) where
  bytes i hi f o ho := by
    rw [hplace i hi] at ho
    cases ho
    rw [Function.update_self, pageWith, if_pos (by omega), Nat.add_sub_cancel_left,
      List.getD_eq_getElem _ _ hi]
  others f o hout := by
    by_cases hf : f = g
    · subst hf
      rw [Function.update_self, pageWith, if_neg]
      rintro ⟨hlo, hhi⟩
      apply hout (o - off) (by omega)
      rw [hplace _ (by omega), Nat.add_sub_cancel' hlo]
    · rw [Function.update_of_ne hf]

end

section

variable {L : Layout} {E : VmFault → Prop} {D other loose : Set ℕ}
variable {s s' s'' s₀ : PMem} {d d' k t : ℕ} {w : Word}
variable {va len : ℕ} {buf : List (BitVec 8)}

/-! ## Pages user code can reach -/

def Accessible (s : PMem) (d k : ℕ) : Prop := ∃ w, pteOf s d k = some w ∧ user w = true

/-- Page `k` holds one of the `len` bytes from `va` on. -/
def Overlaps (va len k : ℕ) : Prop := ∃ i < len, (va + i) / PGSIZE = k

/-- The first page that user code cannot reach is in a page table, if there is one. -/
def Guarded (s : PMem) (d va len : ℕ) : Prop :=
  ∀ k, Overlaps va len k → (∀ j, Overlaps va len j → j < k → Accessible s d j) →
    tableOf s d (k / 1024) ≠ none

/-- Where the byte at user address `a` is. -/
def userByte (s : PMem) (d a : ℕ) : Option (ℕ × ℕ) :=
  (pteOf s d (a / PGSIZE)).map fun w => (frame w, a % PGSIZE)

theorem overlaps_iff (va len k : ℕ) :
    Overlaps va len k ↔ 0 < len ∧ va / 4096 ≤ k ∧ k * 4096 < va + len := by
  constructor
  · rintro ⟨i, hi, hk⟩
    change (va + i) / 4096 = k at hk
    omega
  · rintro ⟨hpos, hlo, hhi⟩
    refine ⟨k * 4096 - va, by omega, ?_⟩
    show (va + (k * 4096 - va)) / 4096 = k
    omega

theorem not_overlaps_zero (va k : ℕ) : ¬Overlaps va 0 k := by
  rintro ⟨i, hi, -⟩
  omega

/-- The page of the first byte comes first, then those of the bytes of the next pages. -/
theorem overlaps_step (hpos : 0 < len) :
    Overlaps va len k ↔ k = va / 4096 ∨
      Overlaps ((va / 4096 + 1) * 4096) (len - min (4096 - va % 4096) len) k := by
  rw [overlaps_iff, overlaps_iff]
  omega

theorem guarded_step (hpos : 0 < len) (hfirst : Accessible s d (va / 4096)) :
    Guarded s d va len ↔
      Guarded s d ((va / 4096 + 1) * 4096) (len - min (4096 - va % 4096) len) := by
  have htable : tableOf s d (va / 4096 / 1024) ≠ none := by
    obtain ⟨w, hw, -⟩ := hfirst
    intro hnone
    rw [pteOf_of_tableOf_none hnone] at hw
    cases hw
  constructor
  · intro h k hk hbelow
    apply h k ((overlaps_step hpos).mpr (.inr hk))
    intro j hj hlt
    rcases (overlaps_step hpos).mp hj with rfl | hj
    · exact hfirst
    · exact hbelow j hj hlt
  · intro h k hk hbelow
    rcases (overlaps_step hpos).mp hk with rfl | hk
    · exact htable
    · apply h k hk
      intro j hj hlt
      exact hbelow j ((overlaps_step hpos).mpr (.inr hj)) hlt

/-- Where the first page has no page table, `copyout` does not stop in time. -/
theorem not_guarded (hpos : 0 < len) (hnone : tableOf s d (va / 4096 / 1024) = none) :
    ¬Guarded s d va len := by
  intro hguard
  refine hguard (va / 4096) ((overlaps_step hpos).mpr (.inl rfl)) ?_ hnone
  intro j hj hlt
  rw [overlaps_iff] at hj
  omega

/-- No two user addresses share a byte. -/
theorem userByte_unique (hs : Sound L D other loose s) (hd : d ∈ D) (hd' : d' ∈ D) {a b : ℕ}
    {x : ℕ × ℕ} (ha : a / PGSIZE < UPAGES) (hb : b / PGSIZE < UPAGES)
    (hax : userByte s d a = some x) (hbx : userByte s d' b = some x) : d = d' ∧ a = b := by
  obtain ⟨w, hw, rfl⟩ := Option.map_eq_some_iff.mp hax
  obtain ⟨v, hv, heq⟩ := Option.map_eq_some_iff.mp hbx
  rw [Prod.mk.injEq] at heq
  have hunique := hs.unique hd hd' (p := .page (a / PGSIZE)) (q := .page (b / PGSIZE))
    ⟨ha, w, hw, rfl⟩ ⟨hb, v, hv, heq.1⟩
  have hpage : a / 4096 = b / 4096 := Place.page.inj hunique.2
  have hoff : b % 4096 = a % 4096 := heq.2
  exact ⟨hunique.1, by omega⟩

/-- Contents of user pages changed, and nothing else. -/
structure Refilled (L : Layout) (D other loose : Set ℕ) (s s' : PMem) : Prop where
  sound : Sound L D other loose s'
  free : s'.free = s.free
  fails : s'.fails = s.fails
  views : ∀ d ∈ D, SameView d s s'

theorem Refilled.refl (hs : Sound L D other loose s) : Refilled L D other loose s s :=
  ⟨hs, rfl, rfl, fun _ _ => ⟨rfl, fun _ _ _ _ => rfl⟩⟩

theorem SameView.trans (h : SameView d s s') (h' : SameView d s' s'') : SameView d s s'' where
  dir := h'.dir.trans h.dir
  tables i hi t ht :=
    (h'.tables i hi t ((h.tableOf i).trans ht)).trans (h.tables i hi t ht)

theorem Refilled.trans (h : Refilled L D other loose s s') (h' : Refilled L D other loose s' s'') :
    Refilled L D other loose s s'' :=
  ⟨h'.sound, h'.free.trans h.free, h'.fails.trans h.fails,
    fun d hd => (h.views d hd).trans (h'.views d hd)⟩

theorem Sound.refilled (hs : Sound L D other loose s) (hd : d ∈ D)
    (hg : Refers s d (.page k) t) (p : Page) : Refilled L D other loose s (s.fill t p) := by
  refine ⟨hs.fill_page hd hg p, rfl, rfl, fun d' hd' => sameView_fill ?_ ?_ p⟩
  · intro heq
    cases (hs.unique hd hd' hg (q := .dir) heq).2
  · intro i hi htable
    cases (hs.unique hd hd' hg (q := .table i) ⟨hi, htable⟩).2

/-! ## The loop -/

theorem uva2ka_ends {Q : Option ℕ → PMem → Prop} (hk : k < 2 ^ 20)
    (hnull : tableOf s d (k / 1024) = none → E .nullDeref)
    (hnone : tableOf s d (k / 1024) ≠ none → ¬Accessible s d k → Q none s)
    (hsome : ∀ w, pteOf s d k = some w → user w = true → Q (some (frame w)) s) :
    Ends E (uva2ka d (pageAddr k)) s Q := by
  rw [uva2ka]
  apply Ends.seq
  apply walkpgdir_false hk
  cases ht : tableOf s d (k / 1024) with
  | none => exact Ends.fail (hnull ht)
  | some t =>
    have htable : tableOf s d (k / 1024) ≠ none := by
      rw [ht]
      exact Option.some_ne_none t
    apply Ends.read_bind
    by_cases hp : present (wordAt (s.mem t) (4 * (k % 1024))) = false
    · rw [if_pos hp]
      apply Ends.pure
      apply hnone htable
      rintro ⟨w, hw, -⟩
      rw [pteOf_eq_none ht hp] at hw
      cases hw
    · rw [if_neg hp]
      have hpte := pteOf_eq_some ht ((Bool.not_eq_false _).mp hp)
      by_cases hu : user (wordAt (s.mem t) (4 * (k % 1024))) = false
      · rw [if_pos hu]
        apply Ends.pure
        apply hnone htable
        rintro ⟨w, hw, hwu⟩
        rw [hpte] at hw
        cases hw
        exact absurd hwu (by rw [hu]; decide)
      · rw [if_neg hu]
        exact Ends.pure (hsome _ hpte ((Bool.not_eq_false _).mp hu))

theorem SameView.userByte (h : SameView d s s') {a : ℕ} (ha : a / PGSIZE < 2 ^ 20) :
    userByte s' d a = userByte s d a := by
  rw [Vm.userByte, Vm.userByte, h.pteOf ha]

theorem SameView.accessible (h : SameView d s s') (hk : k < 2 ^ 20) :
    Accessible s' d k ↔ Accessible s d k := by
  rw [Accessible, Accessible, h.pteOf hk]

theorem toNat_sub_pageAddr (va : Word) :
    (va - pageAddr (va.toNat / 4096)).toNat = va.toNat % 4096 := by
  have hva := va.isLt
  have hpage := toNat_pageAddr (k := va.toNat / 4096) (by omega)
  rw [BitVec.toNat_sub_of_le (by rw [BitVec.le_def]; omega), hpage]
  omega

/-- Bytes that user code can reach are below the kernel. -/
theorem below_kernel (hkern : ∀ k, UPAGES ≤ k → k < 2 ^ 20 → ¬Accessible s d k) {i : ℕ}
    (hva : va < 2 ^ 32) (hall : ∀ k, Overlaps va len k → Accessible s d k) (hi : i < len) :
    va + i < KERNBASE := by
  show va + i < 0x80000000
  by_contra hge
  by_cases hfirst : va < 0x80000000
  · apply hkern UPAGES le_rfl (by decide)
    exact hall _ ⟨0x80000000 - va, by omega, by show _ / 4096 = 0x80000; omega⟩
  · apply hkern (va / 4096) (by change 0x80000 ≤ _; omega) (by omega)
    exact hall _ ⟨0, by omega, rfl⟩

/-- One page, and then the rest. -/
theorem Stored.step {m m' : ℕ → Page} (hs : Sound L D other loose s) (hd : d ∈ D)
    (hall : ∀ i < buf.length, (va + i) / 4096 < UPAGES) (hw : pteOf s d (va / 4096) = some w)
    (h : Stored (userByte s d) ((va / 4096 + 1) * 4096)
      (buf.drop (min (4096 - va % 4096) buf.length))
      (Function.update m (frame w) (pageWith (m (frame w)) (va % 4096)
        (buf.take (min (4096 - va % 4096) buf.length)))) m') :
    Stored (userByte s d) va buf m m' := by
  have htake : (buf.take (min (4096 - va % 4096) buf.length)).length =
      min (4096 - va % 4096) buf.length := by
    rw [List.length_take]
    omega
  have hdrop : (buf.drop (min (4096 - va % 4096) buf.length)).length =
      buf.length - min (4096 - va % 4096) buf.length := List.length_drop
  have hplace (i : ℕ) (hi : i < (buf.take (min (4096 - va % 4096) buf.length)).length) :
      userByte s d (va + i) = some (frame w, va % 4096 + i) := by
    rw [htake] at hi
    have hk : (va + i) / 4096 = va / 4096 := by omega
    have ho : (va + i) % 4096 = va % 4096 + i := by omega
    show (pteOf s d ((va + i) / 4096)).map (fun w => (frame w, (va + i) % 4096)) = _
    rw [hk, hw, ho, Option.map_some]
  rw [← List.take_append_drop (min (4096 - va % 4096) buf.length) buf]
  apply (Stored.fill hplace).append h
  · intro j hj
    omega
  · intro i hi j hj x hx hx'
    have heq := (userByte_unique hs hd hd (hall i (by omega)) ?_ hx hx').2
    · omega
    · have hlast := hall (min (4096 - va % 4096) buf.length + j) (by omega)
      have haddr : (va / 4096 + 1) * 4096 + j =
          va + (min (4096 - va % 4096) buf.length + j) := by omega
      rw [haddr]
      exact hlast

theorem copyoutLoop_ends {Q : Bool → PMem → Prop} {fuel : ℕ} {va : Word}
    (hfuel : buf.length ≤ fuel) (hs₀ : Sound L D other loose s₀) (hd : d ∈ D)
    (hkern : ∀ k, UPAGES ≤ k → k < 2 ^ 20 → ¬Accessible s₀ d k)
    (hre : Refilled L D other loose s₀ s)
    (hnull : ¬Guarded s₀ d va.toNat buf.length → E .nullDeref)
    (hfail : ∀ s', Refilled L D other loose s s' → Guarded s₀ d va.toNat buf.length →
      ¬(∀ k, Overlaps va.toNat buf.length k → Accessible s₀ d k) → Q false s')
    (hdone : ∀ s', Refilled L D other loose s s' → Guarded s₀ d va.toNat buf.length →
      (∀ k, Overlaps va.toNat buf.length k → Accessible s₀ d k) →
      Stored (userByte s₀ d) va.toNat buf s.mem s'.mem → Q true s') :
    Ends E (copyoutLoop d fuel va buf) s Q := by
  induction fuel generalizing s va buf with
  | zero =>
    obtain rfl := List.eq_nil_of_length_eq_zero (Nat.le_zero.mp hfuel)
    apply Ends.pure
    apply hdone s (.refl hre.sound)
    · exact fun k hk => absurd hk (not_overlaps_zero _ k)
    · exact fun k hk => absurd hk (not_overlaps_zero _ k)
    · exact Stored.nil
  | succ fuel ih =>
    rw [copyoutLoop]
    by_cases hlen : buf.length = 0
    · obtain rfl := List.eq_nil_of_length_eq_zero hlen
      apply Ends.pure
      apply hdone s (.refl hre.sound)
      · exact fun k hk => absurd hk (not_overlaps_zero _ k)
      · exact fun k hk => absurd hk (not_overlaps_zero _ k)
      · exact Stored.nil
    · rw [if_neg hlen, pgrounddown_eq]
      have hva := va.isLt
      have hpos : 0 < buf.length := Nat.pos_of_ne_zero hlen
      have hk20 : va.toNat / 4096 < 2 ^ 20 := by omega
      have hview := hre.views d hd
      have hfirst : Overlaps va.toNat buf.length (va.toNat / 4096) :=
        (overlaps_step hpos).mpr (.inl rfl)
      apply Ends.seq
      apply uva2ka_ends hk20
      · intro hnone
        exact hnull (not_guarded hpos ((hview.tableOf _).symm.trans hnone))
      · intro htable hnot
        rw [hview.accessible hk20] at hnot
        rw [hview.tableOf] at htable
        apply Ends.pure
        apply hfail s (.refl hre.sound)
        · intro k hk hbelow
          rcases (overlaps_step hpos).mp hk with rfl | hk'
          · exact htable
          · rw [overlaps_iff] at hk'
            exact absurd (hbelow _ hfirst (by omega)) hnot
        · exact fun hall => hnot (hall _ hfirst)
      · intro w hw huser
        rw [hview.pteOf hk20] at hw
        have hacc : Accessible s₀ d (va.toNat / 4096) := ⟨w, hw, huser⟩
        have hkU : va.toNat / 4096 < UPAGES :=
          Nat.lt_of_not_le fun hle => hkern _ hle hk20 hacc
        have hnext : (pageAddr (va.toNat / 4096 + 1)).toNat = (va.toNat / 4096 + 1) * 4096 := by
          change va.toNat / 4096 < 0x80000 at hkU
          exact toNat_pageAddr (by omega)
        have hrest : (buf.drop (min (4096 - va.toNat % 4096) buf.length)).length =
            buf.length - min (4096 - va.toNat % 4096) buf.length := List.length_drop
        have hfill := hre.sound.refilled hd (k := va.toNat / 4096) (t := frame w)
          ⟨hkU, w, (hview.pteOf hk20).trans hw, rfl⟩
          (pageWith (s.mem (frame w)) (va.toNat % 4096)
            (buf.take (min (4096 - va.toNat % 4096) buf.length)))
        apply Ends.read_bind
        apply Ends.modify_bind
        rw [toNat_sub_pageAddr, pageAddr_succ]
        change Ends E (copyoutLoop d fuel (pageAddr (va.toNat / 4096 + 1))
          (buf.drop (min (4096 - va.toNat % 4096) buf.length))) _ Q
        apply ih (by omega) (hre.trans hfill)
        · rw [hnext, hrest, ← guarded_step hpos hacc]
          exact hnull
        · rw [hnext, hrest, ← guarded_step hpos hacc]
          intro s' hs' hguard hnot
          apply hfail s' (hfill.trans hs') hguard
          exact fun hall => hnot fun k hk => hall k ((overlaps_step hpos).mpr (.inr hk))
        · rw [hnext, hrest, ← guarded_step hpos hacc]
          intro s' hs' hguard hall hstored
          have hall' (k : ℕ) (hk : Overlaps va.toNat buf.length k) : Accessible s₀ d k := by
            rcases (overlaps_step hpos).mp hk with rfl | hk'
            · exact hacc
            · exact hall k hk'
          apply hdone s' (hfill.trans hs') hguard hall'
          apply Stored.step hs₀ hd _ hw hstored
          intro i hi
          have hbelow : va.toNat + i < 0x80000000 := below_kernel hkern hva hall' hi
          show _ < 0x80000
          omega

theorem copyout_ends {Q : Bool → PMem → Prop} {va : Word} (hs : Sound L D other loose s)
    (hd : d ∈ D) (hkern : ∀ k, UPAGES ≤ k → k < 2 ^ 20 → ¬Accessible s d k)
    (hnull : ¬Guarded s d va.toNat buf.length → E .nullDeref)
    (hfail : ∀ s', Refilled L D other loose s s' → Guarded s d va.toNat buf.length →
      ¬(∀ k, Overlaps va.toNat buf.length k → Accessible s d k) → Q false s')
    (hdone : ∀ s', Refilled L D other loose s s' → Guarded s d va.toNat buf.length →
      (∀ k, Overlaps va.toNat buf.length k → Accessible s d k) →
      Stored (userByte s d) va.toNat buf s.mem s'.mem → Q true s') :
    Ends E (copyout d va buf) s Q :=
  copyoutLoop_ends le_rfl hs hd hkern (.refl hs) hnull hfail hdone

/-! ## `clearpteu` -/

theorem walkpgdir_page (d : ℕ) (va : Word) (alloc : Bool) :
    walkpgdir d va alloc = walkpgdir d (pageAddr (va.toNat / 4096)) alloc := by
  have hva := va.isLt
  have hpdx : PDX va = PDX (pageAddr (va.toNat / 4096)) := by
    rw [PDX_pageAddr (by omega), PDX]
    omega
  have hptx : PTX va = PTX (pageAddr (va.toNat / 4096)) := by
    rw [PTX_pageAddr (by omega), PTX]
    rfl
  rw [walkpgdir, walkpgdir, hpdx, hptx]

theorem present_clear (w : Word) : present (w &&& ~~~PTE_U) = present w := by
  simp [present_eq, PTE_U]

theorem user_clear (w : Word) : user (w &&& ~~~PTE_U) = false := by
  simp [user_eq, PTE_U]

theorem frame_clear (w : Word) : frame (w &&& ~~~PTE_U) = frame w := by
  have hmask : ~~~PTE_U &&& ~~~0xFFF#32 = ~~~0xFFF#32 := by decide
  rw [frame, frame, pteAddr, pteAddr, BitVec.and_assoc, hmask]

/-- Page `k` is out of reach of user code, and nothing else changed. -/
structure Cleared (L : Layout) (D other loose : Set ℕ) (d k : ℕ) (s s' : PMem) : Prop where
  sound : Sound L D other loose s'
  free : s'.free = s.free
  fails : s'.fails = s.fails
  tables : ∀ i, tableOf s' d i = tableOf s d i
  ptes : ∀ j < 2 ^ 20, pteOf s' d j =
    if j = k then (pteOf s d k).map fun w => w &&& ~~~PTE_U else pteOf s d j
  views : ∀ d' ∈ D, d' ≠ d → SameView d' s s'

theorem clearpteu_ends {Q : Unit → PMem → Prop} {uva : Word} (hs : Sound L D other loose s)
    (hd : d ∈ D) (hnull : tableOf s d (uva.toNat / 4096 / 1024) = none → E .clearpteu)
    (hdone : ∀ s', Cleared L D other loose d (uva.toNat / 4096) s s' → Q () s') :
    Ends E (clearpteu d uva) s Q := by
  have huva := uva.isLt
  have hk : uva.toNat / 4096 < 2 ^ 20 := by omega
  have hindex : uva.toNat / 4096 / 1024 < NPDENTRIES := by
    change _ < 1024
    omega
  rw [clearpteu, walkpgdir_page]
  apply Ends.seq
  apply walkpgdir_false hk
  cases ht : tableOf s d (uva.toNat / 4096 / 1024) with
  | none => exact Ends.fail (hnull ht)
  | some t =>
    apply Ends.read_bind
    have hpte : pteOf s d (uva.toNat / 4096) =
        if present (wordAt (s.mem t) (4 * (uva.toNat / 4096 % 1024))) then
          some (wordAt (s.mem t) (4 * (uva.toNat / 4096 % 1024))) else none := by
      rw [pteOf, ht]
      rfl
    have hptes (j : ℕ) (hj : j < 2 ^ 20) := pteOf_put hs hd hk ht hj
      (w := wordAt (s.mem t) (4 * (uva.toNat / 4096 % 1024)) &&& ~~~PTE_U)
    apply Ends.modify
    apply hdone
    refine ⟨?_, rfl, rfl, ?_, ?_, ?_⟩
    · by_cases hkU : uva.toNat / 4096 < UPAGES
      · apply hs.setFlags hd ht hkU
        rw [hpte, present_clear, frame_clear]
        split <;> rfl
      · exact hs.setKernel hd ht hk (Nat.not_lt.mp hkU)
    · exact fun i => tableOf_put_of_ne (hs.table_ne_dir hd hindex ht).symm i
    · intro j hj
      rw [hptes j hj, present_clear, hpte]
      split
      next => split <;> rfl
      next => rfl
    · intro d' hd' hne
      exact hs.sameView_put hd (p := .table (uva.toNat / 4096 / 1024)) ⟨hindex, ht⟩ hd' hne

/-! ## The kernel's part of a directory -/

/-- No page of the kernel is open to user code, those of the devices have page tables, and
nothing is mapped between physical memory and the devices. -/
structure KernelPart (s : PMem) (d : ℕ) : Prop where
  closed : ∀ k, UPAGES ≤ k → k < 2 ^ 20 → ¬Accessible s d k
  gap : ∀ k, (KERNBASE + PHYSTOP) / PGSIZE ≤ k → k < DEVSPACE / PGSIZE → pteOf s d k = none
  devices : ∀ k, DEVSPACE / PGSIZE ≤ k → k < 2 ^ 20 → tableOf s d (k / 1024) ≠ none

/-- What the kernel's part depends on. -/
theorem KernelPart.of_ptes (h : KernelPart s d)
    (hold : ∀ i < NPDENTRIES, ∀ t, tableOf s d i = some t → tableOf s' d i = some t)
    (hptes : ∀ k, UPAGES ≤ k → k < 2 ^ 20 → pteOf s' d k = pteOf s d k) : KernelPart s' d where
  closed k hlo hhi := by
    rw [Accessible, hptes k hlo hhi]
    exact h.closed k hlo hhi
  gap k hlo hhi := by
    rw [hptes k (le_trans (by decide) hlo) (hhi.trans (by decide))]
    exact h.gap k hlo hhi
  devices k hlo hhi hnone := by
    obtain ⟨t, ht⟩ := Option.ne_none_iff_exists'.mp (h.devices k hlo hhi)
    rw [hold _ (by change _ < 1024; omega) t ht] at hnone
    cases hnone

theorem KernelPart.sameView (h : KernelPart s d) (hview : SameView d s s') : KernelPart s' d :=
  h.of_ptes (fun i _ _ ht => (hview.tableOf i).trans ht) fun _ _ hhi => hview.pteOf hhi

theorem KernelPart.idle (h : KernelPart s d) (hidle : Idle L D other loose d s s') :
    KernelPart s' d :=
  h.of_ptes hidle.grows.old fun k _ hhi => hidle.ptes k hhi

theorem KernelPart.added {lo hi : ℕ} (h : KernelPart s d) (hhi : hi ≤ UPAGES)
    (hadded : Added L D other loose d lo hi s s') : KernelPart s' d :=
  h.of_ptes hadded.grows.old fun k hlo hk20 => hadded.outside k hk20 (by omega)

theorem KernelPart.cleared (h : KernelPart s d) (hcleared : Cleared L D other loose d k s s') :
    KernelPart s' d where
  closed j hlo hhi := by
    rintro ⟨w, hw, huser⟩
    rw [hcleared.ptes j hhi] at hw
    split at hw
    next =>
      obtain ⟨v, -, rfl⟩ := Option.map_eq_some_iff.mp hw
      rw [user_clear] at huser
      cases huser
    next => exact h.closed j hlo hhi ⟨w, hw, huser⟩
  gap j hlo hhi := by
    rw [hcleared.ptes j (hhi.trans (by decide)), h.gap j hlo hhi]
    split
    next heq => rw [← heq, h.gap j hlo hhi, Option.map_none]
    next => rfl
  devices j hlo hhi := by
    rw [hcleared.tables]
    exact h.devices j hlo hhi

theorem Cleared.used (h : Cleared L D other loose d k s s') (hused : Used s d) : Used s' d := by
  intro i hi hsome
  rw [h.tables] at hsome
  obtain ⟨j, hj, hji, hpte⟩ := hused i hi hsome
  refine ⟨j, hj, hji, ?_⟩
  rw [h.ptes j hj]
  split
  next heq => rwa [ne_eq, Option.map_eq_none_iff, ← heq]
  next => exact hpte

theorem user_pageAddr (f : ℕ) : user (pageAddr f) = false := by
  have hbit : (f * 2 ^ 12).testBit 2 = false := by
    rw [Nat.testBit_mul_two_pow]
    rfl
  rw [user_eq, pageAddr, BitVec.getLsbD_ofNat]
  exact (congrArg (true && ·) hbit)

theorem user_kernelPte (hw : kernelPte (kmap L) k = some w) : user w = false := by
  obtain ⟨row, hrow, rfl⟩ := Option.map_eq_some_iff.mp hw
  have hmem := List.mem_of_find?_eq_some hrow
  obtain ⟨m, n, p, hok⟩ := kmap_ok L row hmem
  have hperm : user row.perm = false := by
    have hzero : user 0 = false := rfl
    have hwrite : user PTE_W = false := rfl
    simp only [kmap, List.mem_cons, List.not_mem_nil, or_false] at hmem
    rcases hmem with rfl | rfl | rfl | rfl <;> simp only [hzero, hwrite]
  rw [hok.entry, user_or, user_or, user_pageAddr, hperm]
  rfl

/-- The last row of `kmap` reaches up to the end of the address space. -/
theorem kernelPte_devices (hlo : DEVSPACE / PGSIZE ≤ k) (hhi : k < 2 ^ 20) :
    kernelPte (kmap L) k ≠ none := by
  rw [kernelPte, ne_eq, Option.map_eq_none_iff, List.find?_eq_none]
  intro hall
  refine hall ⟨DEVSPACE, DEVSPACE, 2 ^ 32, PTE_W⟩ (by simp [kmap]) ?_
  change 0xFE000 ≤ k at hlo
  exact decide_eq_true ⟨by show 0xFE000000 ≤ k * 4096; omega,
    by show k * 4096 < 0xFE000000 + (2 ^ 32 - 0xFE000000); omega⟩

theorem NewDir.kernelPart (h : NewDir L D other loose d s s') : KernelPart s' d where
  closed k _ hhi := by
    rintro ⟨w, hw, huser⟩
    rw [h.ptes k hhi] at hw
    rw [user_kernelPte hw] at huser
    cases huser
  gap k hlo hhi := (h.ptes k (hhi.trans (by decide))).trans (kernelPte_gap L hlo hhi)
  devices k hlo hhi hnone := by
    have hpte := h.ptes k hhi
    rw [pteOf_of_tableOf_none hnone] at hpte
    exact kernelPte_devices hlo hhi hpte.symm

/-- In the device space `copyout` stops at the first page. -/
theorem KernelPart.guarded (h : KernelPart s d) (hlo : DEVSPACE ≤ va) (hhi : va < 2 ^ 32) :
    Guarded s d va len := by
  change 0xFE000000 ≤ va at hlo
  intro k hk hbelow
  by_cases hfirst : k = va / 4096
  · subst hfirst
    exact h.devices _ (by change 0xFE000 ≤ _; omega) (by omega)
  · rw [overlaps_iff] at hk
    have hacc := hbelow (va / 4096) ((overlaps_iff _ _ _).mpr (by omega)) (by omega)
    exact absurd hacc (h.closed _ (by change 0x80000 ≤ _; omega) (by omega))

/-- Below the device space it finds no page table. -/
theorem KernelPart.not_guarded (h : KernelPart s d) (hused : Used s d) (hpos : 0 < len)
    (hlo : KERNBASE + PHYSTOP ≤ va) (hhi : va < DEVSPACE) : ¬Guarded s d va len := by
  change 0x8E000000 ≤ va at hlo
  change va < 0xFE000000 at hhi
  apply Vm.not_guarded hpos
  apply hused.no_table (by omega)
  intro j _ hindex
  apply h.gap
  · change 0x8E000 ≤ j
    omega
  · change j < 0xFE000
    omega

/-! ## Directories built by the kernel -/

/-- A directory that `setupkvm` returned, after calls of `allocuvm` and `clearpteu`. -/
inductive Built (L : Layout) (d : ℕ) : PMem → Prop
  | setupkvm {D other loose : Set ℕ} {s s' : PMem} :
      Sound L D other loose s → Vm.setupkvm L s = .ok (some d, s') → Built L d s'
  -- nothing is mapped yet from the old size to the new one
  | allocuvm {s s' : PMem} {oldsz newsz sz : Word} : Built L d s →
      (∀ j < UPAGES, (oldsz.toNat + 4095) / 4096 ≤ j → j < (newsz.toNat + 4095) / 4096 →
        pteOf s d j = none) →
      Vm.allocuvm L d oldsz newsz s = .ok (sz, s') → Built L d s'
  | clearpteu {s s' : PMem} {uva : Word} : Built L d s →
      Vm.clearpteu d uva s = .ok ((), s') → Built L d s'
  -- pages are written, and other directories are built and freed
  | elsewhere {D other loose : Set ℕ} {s s' : PMem} : Built L d s →
      Sound L D other loose s' → d ∈ D → SameView d s s' → Built L d s'

theorem Built.sound (h : Built L d s) :
    ∃ D other loose, Sound L D other loose s ∧ d ∈ D ∧ KernelPart s d := by
  induction h with
  | setupkvm hs hrun =>
    have hends := setupkvm_ends (E := fun _ => True) (Q := fun r s' => r = some d →
      ∃ D other loose, Sound L D other loose s' ∧ d ∈ D ∧ KernelPart s' d) hs
      (fun _ _ _ _ h => absurd h.symm (Option.some_ne_none d))
      (fun d' s' hnew heq => by
        cases heq
        exact ⟨_, _, _, hnew.sound, Set.mem_insert d _, hnew.kernelPart⟩)
    exact hends.ok hrun rfl
  | @allocuvm s s' oldsz newsz sz _ hnone hrun ih =>
    obtain ⟨D, other, loose, hs, hd, hkern⟩ := ih
    have hends : Ends (fun _ => True) (Vm.allocuvm L d oldsz newsz) s fun _ s' =>
        Sound L D other loose s' ∧ KernelPart s' d := by
      apply allocuvm_any hd hs hnone
      · exact fun s' hidle _ => ⟨hidle.sound, hkern.idle hidle⟩
      · exact fun _ => ⟨hs, hkern⟩
      · intro s' hbig _ hadded
        change newsz.toNat < 0x80000000 at hbig
        exact ⟨hadded.sound, hkern.added (by change _ ≤ 0x80000; omega) hadded⟩
    obtain ⟨hs', hkern'⟩ := hends.ok hrun
    exact ⟨D, other, loose, hs', hd, hkern'⟩
  | @clearpteu s s' uva _ hrun ih =>
    obtain ⟨D, other, loose, hs, hd, hkern⟩ := ih
    have hends : Ends (fun _ => True) (Vm.clearpteu d uva) s fun _ s' =>
        Sound L D other loose s' ∧ KernelPart s' d := by
      apply clearpteu_ends hs hd fun _ => trivial
      exact fun s' hcleared => ⟨hcleared.sound, hkern.cleared hcleared⟩
    obtain ⟨hs', hkern'⟩ := hends.ok hrun
    exact ⟨D, other, loose, hs', hd, hkern'⟩
  | elsewhere _ hs hd hview ih =>
    obtain ⟨_, _, _, _, _, hkern⟩ := ih
    exact ⟨_, _, _, hs, hd, hkern.sameView hview⟩

end

end Xv6Threads.Vm
