/-
# Appending to a file in an image

`mkfs` hands out blocks in order and writes the bitmap at the very end. If we imagine the
bitmap written all along, its `freeblock++` is the kernel's `balloc`: the first free block,
already zero. So the laws about `bmap` hold for `iappend` as well, and what it does to the
imagined image is what `writei` would do.
-/

import Xv6Threads.Fs.Exact
import Xv6Threads.Mkfs.Build

namespace Xv6Threads.Mkfs

open Lib Command
open Xv6Threads.Fs
open Xv6Threads.Log (Block getWord setWord)
open Function (update update_comm update_eq_self update_idem update_of_ne update_self)

variable {b off n : ℕ}

theorem mapBlock_succ (used : ℕ) : mapBlock (used + 1) = setBit (mapBlock used) used := by
  rw [mapBlock, mapBlock, List.range_succ, List.foldl_append]
  rfl

/-- The image with its bitmap. -/
def State.disk (m : State) : Image := update m.img sb.bmapstart (mapBlock m.freeblock)

/-- The blocks of a file of this size, with its indirect block. -/
def needed (size : ℕ) : ℕ :=
  blocksFor size + if NDIRECT < blocksFor size then 1 else 0

/-- Sectors are there, and those not handed out yet are zero. -/
structure Sectors (m : State) : Prop where
  nsect : m.nsect = FSSIZE
  super : m.img 1 = putWords (fun _ => 0) 0 7 sbWords
  le : nmeta ≤ m.freeblock
  fits : m.freeblock ≤ FSSIZE
  zero : ∀ {b}, m.freeblock ≤ b → b < FSSIZE → m.img b = fun _ => 0

section

variable {m m' : State} {E : Exit → Prop} {N : ℕ} {hN : N ≤ ninodeblocks * IPB}

theorem rsect_ends {sec : ℕ} {Q : Block → State → Prop} (hE : ¬sec < m.nsect → E .rsect)
    (hQ : sec < m.nsect → Q (m.img sec) m) : Ends E (rsect sec) m Q := by
  apply Ends.check_bind
  · intro h
    exact Ends.read (hQ h)
  · exact hE

theorem wsect_ends {sec : ℕ} {buf : Block} {Q : Unit → State → Prop} (hsec : sec < m.nsect)
    (hQ : Q () { m with img := update m.img sec buf }) : Ends E (wsect sec buf) m Q := by
  apply Ends.modify
  rwa [Nat.max_eq_left hsec]

theorem nextBlock_ends {Q : ℕ → State → Prop}
    (hQ : Q m.freeblock { m with freeblock := m.freeblock + 1 }) : Ends E nextBlock m Q := by
  apply Ends.read_bind
  apply Ends.modify_bind
  exact Ends.pure hQ

theorem disk_of_ne (hb : b ≠ sb.bmapstart) : m.disk b = m.img b :=
  update_of_ne hb ..

theorem disk_update (hb : b ≠ sb.bmapstart) (buf : Block) :
    ({ m with img := update m.img b buf } : State).disk =
      update m.disk b buf :=
  (update_comm hb.symm ..).symm

/-- Handing out the next block is the kernel's `balloc`. -/
theorem disk_next (h : Sectors m) (hlt : m.freeblock < FSSIZE) :
    ({ m with freeblock := m.freeblock + 1 } : State).disk =
      (sbOf N hN).take m.disk m.freeblock := by
  have hge : 59 ≤ m.freeblock := h.le
  have hlt' : m.freeblock < 1000 := hlt
  have hblock : (sbOf N hN).bblock m.freeblock = sb.bmapstart := by
    show m.freeblock / 4096 + 58 = 58
    omega
  have hbit : m.freeblock % BPB = m.freeblock := Nat.mod_eq_of_lt (show m.freeblock < 4096 by omega)
  have hne : m.freeblock ≠ sb.bmapstart := by
    show m.freeblock ≠ 58
    omega
  rw [Layout.take, Layout.mark, hblock, hbit, State.disk, State.disk, update_self,
    update_idem, mapBlock_succ, update_comm hne.symm]
  congr 1
  rw [← h.zero le_rfl hlt, update_eq_self]

theorem inData_freeblock (h : Sectors m) (hlt : m.freeblock < FSSIZE) :
    (sbOf N hN).InData m.freeblock := ⟨h.le, hlt⟩

theorem getBit_mapBlock (used : ℕ) (hb : b < BPB) :
    getBit (mapBlock used) b = decide (b < used) := by
  induction used with
  | zero => simp [mapBlock, getBit, Log.byteAt]
  | succ used ih =>
    rw [mapBlock_succ, getBit_setBit _ hb, ih, ← Bool.decide_or]
    apply decide_eq_decide.mpr
    omega

/-- The bitmap marks what has been handed out. -/
theorem marked_disk (hb : b < FSSIZE) : (sbOf N hN).marked m.disk b = decide (b < m.freeblock) := by
  have hb' : b < 1000 := hb
  have hblock : (sbOf N hN).bblock b = sb.bmapstart := by
    show b / 4096 + 58 = 58
    omega
  have hbit : b % BPB = b := Nat.mod_eq_of_lt (show b < 4096 by omega)
  rw [Layout.marked, hblock, hbit, State.disk, update_self]
  exact getBit_mapBlock _ (show b < 4096 by omega)

theorem Sectors.next (h : Sectors m) (hlt : m.freeblock < FSSIZE) :
    Sectors { m with freeblock := m.freeblock + 1 } where
  nsect := h.nsect
  super := h.super
  le := h.le.trans (Nat.le_succ _)
  fits := hlt
  zero hle := h.zero (Nat.le_of_succ_le hle)

theorem Sectors.write (h : Sectors m) (hb : b < m.freeblock) (hpos : 1 < b) (buf : Block) :
    Sectors { m with img := update m.img b buf } where
  nsect := h.nsect
  super := (update_of_ne hpos.ne ..).trans h.super
  le := h.le
  fits := h.fits
  zero {c} hle hc := by
    show update m.img b buf c = _
    rw [update_of_ne (hb.trans_le hle).ne', h.zero hle hc]

/-! ## One block -/

variable {I : ℕ → Dinode} {i : ℕ} {x : Dinode}

/-- How many blocks are handed out for block `fbn` of the file. -/
def cost (d : Image) (x : Dinode) (fbn : ℕ) : ℕ :=
  (if x.block d fbn = 0 then 1 else 0) + if NDIRECT ≤ fbn ∧ x.indirect = 0 then 1 else 0

theorem addrOrNext_ends {k : Fin (NDIRECT + 1)} {r : Place} {Q : Dinode → State → Prop}
    (hs : Sectors m) (h : Held (sbOf N hN) I i m.disk x) (hr : x.ref m.disk r = x.addrs k)
    (hfill : ∀ b, (sbOf N hN).InData b → (sbOf N hN).marked m.disk b = false → x.addrs k = 0 →
      Filling (sbOf N hN) m.disk x r ((sbOf N hN).take m.disk b)
        (x.setAddr k (BitVec.ofNat 32 b)) b)
    (hQ : ∀ m' x', Held (sbOf N hN) I i m'.disk x' → Sectors m' →
      Filled (sbOf N hN) m.disk x r m'.disk x' (x'.addrs k).toNat →
      m'.freeblock = m.freeblock + (if x.addrs k = 0 then 1 else 0) →
      m'.freeinode = m.freeinode → Q x' m')
    (hout : x.addrs k = 0 → FSSIZE ≤ m.freeblock →
      Q (x.setAddr k (BitVec.ofNat 32 FSSIZE)) { m with freeblock := m.freeblock + 1 }) :
    Ends E (addrOrNext x k) m Q := by
  unfold addrOrNext
  by_cases hz : x.addrs k = 0
  · rw [if_pos hz]
    apply Ends.seq
    apply nextBlock_ends
    apply Ends.pure
    by_cases hlt : m.freeblock < FSSIZE
    · have hfree : (sbOf N hN).marked m.disk m.freeblock = false := by
        rw [marked_disk hlt]
        exact decide_eq_false (Nat.lt_irrefl _)
      have hdata : (sbOf N hN).InData m.freeblock := inData_freeblock hs hlt
      obtain ⟨hheld, hfilled⟩ := h.fill (hfill m.freeblock hdata hfree hz)
      have hb : ((x.setAddr k (BitVec.ofNat 32 m.freeblock)).addrs k).toNat = m.freeblock := by
        rw [setAddr_self, toNat_ofNat_of_inData hdata]
      apply hQ
      · rw [disk_next hs hlt]
        exact hheld
      · exact hs.next hlt
      · rw [disk_next hs hlt]
        show Filled _ _ _ _ _ _ ((x.setAddr k (BitVec.ofNat 32 m.freeblock)).addrs k).toNat
        rw [hb]
        exact hfilled
      · rw [if_pos hz]
      · rfl
    · have hge := Nat.le_of_not_lt hlt
      have heq : m.freeblock = FSSIZE := le_antisymm hs.fits hge
      have hdone := hout hz hge
      rw [← heq] at hdone
      exact hdone
  · rw [if_neg hz]
    apply Ends.pure
    have hfilled := Filled.refl h (r := r) (by rwa [hr])
    rw [hr] at hfilled
    exact hQ m x h hs hfilled (by rw [if_neg hz]; rfl) rfl

theorem lt_freeblock_of_ref (h : Held (sbOf N hN) I i m.disk x) {r : Place}
    (hr : x.ref m.disk r ≠ 0) : (x.ref m.disk r).toNat < m.freeblock := by
  have hm := h.marked hr
  rw [marked_disk (h.inData hr).2] at hm
  exact of_decide_eq_true hm

theorem ne_bmapstart_of_inData (h : (sbOf N hN).InData b) : b ≠ sb.bmapstart := by
  have hge : 59 ≤ b := h.1
  show b ≠ 58
  omega

theorem one_lt_of_inData (h : (sbOf N hN).InData b) : 1 < b := by
  have hge : 59 ≤ b := h.1
  omega

theorem entry_ends {fbn : ℕ} {Q : Dinode × ℕ → State → Prop} (hs : Sectors m)
    (h : Held (sbOf N hN) I i m.disk x) (hind : x.indirect ≠ 0) (hk : ¬fbn < NDIRECT)
    (hlt : fbn < MAXFILE)
    (hQ : ∀ m' b, Held (sbOf N hN) I i m'.disk x → Sectors m' →
      Filled (sbOf N hN) m.disk x (.data ⟨fbn, hlt⟩) m'.disk x b →
      m'.freeblock = m.freeblock + (if x.block m.disk fbn = 0 then 1 else 0) →
      m'.freeinode = m.freeinode → Q (x, b) m')
    (hout : ∀ m', m'.nsect = FSSIZE → x.block m.disk fbn = 0 → FSSIZE ≤ m.freeblock →
      Q (x, FSSIZE) m') :
    Ends E (do
      let indirect ← rsect x.indirect.toNat
      if getWord indirect (fbn - NDIRECT) = 0 then do
        let b ← nextBlock
        wsect x.indirect.toNat (setWord indirect (fbn - NDIRECT) (BitVec.ofNat 32 b))
        pure (x, (BitVec.ofNat 32 b).toNat)
      else pure (x, (getWord indirect (fbn - NDIRECT)).toNat)) m Q := by
  have hdata : (sbOf N hN).InData x.indirect.toNat := h.inData (r := .indirect) hind
  have hold : x.indirect.toNat < m.freeblock := lt_freeblock_of_ref h (r := .indirect) hind
  have hsec : x.indirect.toNat < m.nsect := by
    rw [hs.nsect]
    exact hdata.2
  have himg : m.img x.indirect.toNat = m.disk x.indirect.toNat :=
    (disk_of_ne (ne_bmapstart_of_inData hdata)).symm
  have hentry := block_of_indirect (d := m.disk) hk hlt hind
  apply Ends.seq
  apply rsect_ends
  · exact fun hno => absurd hsec hno
  intro _
  rw [himg, ← hentry]
  by_cases hz : x.block m.disk fbn = 0
  · rw [if_pos hz]
    apply Ends.seq
    apply nextBlock_ends
    apply Ends.seq
    apply wsect_ends
    · exact hsec
    apply Ends.pure
    by_cases hfree : m.freeblock < FSSIZE
    · have hfb : (sbOf N hN).InData m.freeblock := inData_freeblock hs hfree
      have hunmarked : (sbOf N hN).marked m.disk m.freeblock = false := by
        rw [marked_disk hfree]
        exact decide_eq_false (Nat.lt_irrefl _)
      obtain ⟨hheld, hfilled⟩ := h.fill
        (h.tidy.fill_entry hfb hunmarked hind hk hlt (hentry ▸ hz))
      rw [toNat_ofNat_of_inData hfb]
      apply hQ
      · rw [disk_update (ne_bmapstart_of_inData hdata), disk_next hs hfree]
        exact hheld
      · exact (hs.next hfree).write (hold.trans (Nat.lt_succ_self _)) (one_lt_of_inData hdata) _
      · rw [disk_update (ne_bmapstart_of_inData hdata), disk_next hs hfree]
        exact hfilled
      · rw [if_pos hz]
      · rfl
    · have hge := Nat.le_of_not_lt hfree
      have heq : m.freeblock = FSSIZE := le_antisymm hs.fits hge
      have hnum : (BitVec.ofNat 32 m.freeblock).toNat = FSSIZE := by
        rw [heq]
        rfl
      rw [hnum]
      exact hout _ hs.nsect hz hge
  · rw [if_neg hz]
    apply Ends.pure
    have hfilled := Filled.refl h (r := .data ⟨fbn, hlt⟩) hz
    exact hQ m _ h hs hfilled (by rw [if_neg hz]; rfl) rfl

/-- Either the block is mapped as `bmap` would do it, or there is no sector left. -/
theorem blockFor_ends {fbn : ℕ} {Q : Dinode × ℕ → State → Prop} (hs : Sectors m)
    (h : Held (sbOf N hN) I i m.disk x) (hlt : fbn < MAXFILE)
    (hfull : FSSIZE < m.freeblock + cost m.disk x fbn → E .rsect)
    (hQ : ∀ m' x' b, Held (sbOf N hN) I i m'.disk x' → Sectors m' →
      Mapped (sbOf N hN) m.disk x fbn m'.disk x' b →
      m'.freeblock = m.freeblock + cost m.disk x fbn → m'.freeinode = m.freeinode → Q (x', b) m')
    (hout : ∀ m' x' b, m'.nsect = FSSIZE → FSSIZE ≤ b → E .rsect → Q (x', b) m') :
    Ends E (blockFor x fbn) m Q := by
  unfold blockFor
  by_cases hdirect : fbn < NDIRECT
  · have hblock := block_of_lt (x := x) (d := m.disk) hdirect
    have hcost : cost m.disk x fbn = if x.addrs ⟨fbn, lt_of_direct hdirect⟩ = 0 then 1 else 0 := by
      rw [cost, hblock, if_neg (c := NDIRECT ≤ fbn ∧ _) fun hk => Nat.not_lt.mpr hk.1 hdirect]
      rfl
    rw [dif_pos hdirect]
    apply Ends.seq
    apply addrOrNext_ends hs h (ref_direct hdirect hlt)
    · intro b hb hfree hz
      exact h.tidy.fill_direct hb hfree hdirect hlt hz
    · intro m' x' hheld hs' hfilled hcount hinode
      apply Ends.pure
      exact hQ m' x' _ hheld hs' (hfilled.mapped_direct hdirect hlt) (hcost ▸ hcount) hinode
    · intro hz hge
      apply Ends.pure
      apply hout
      · exact hs.nsect
      · rw [setAddr_self]
        exact le_rfl
      · apply hfull
        rw [hcost, if_pos hz]
        omega
  · rw [dif_neg hdirect]
    have hge' : NDIRECT ≤ fbn := Nat.le_of_not_lt hdirect
    apply Ends.seq
    apply addrOrNext_ends hs h (r := .indirect) rfl
    · intro b hb hfree hz
      exact fill_indirect hb hfree hz
    · intro m₁ x₁ hheld hs₁ hfilled hcount hinode
      have hne : x₁.indirect ≠ 0 := ne_zero_of_inData hfilled.inData
      have hsame : x₁.block m₁.disk fbn = x.block m.disk fbn :=
        hfilled.elsewhere (r := .data ⟨fbn, hlt⟩) (by intro heq; cases heq)
      have hcost : m₁.freeblock + (if x₁.block m₁.disk fbn = 0 then 1 else 0) =
          m.freeblock + cost m.disk x fbn := by
        rw [hcount, hsame, cost]
        by_cases hz : x.addrs (Fin.last NDIRECT) = 0
        · have hz' : x.indirect = 0 := hz
          rw [if_pos hz, if_pos (c := NDIRECT ≤ fbn ∧ _) ⟨hge', hz'⟩]
          omega
        · have hz' : ¬x.indirect = 0 := hz
          rw [if_neg hz, if_neg (c := NDIRECT ≤ fbn ∧ _) fun hk => hz' hk.2]
          omega
      apply entry_ends hs₁ hheld hne hdirect hlt
      · intro m₂ b hheld₂ hs₂ hfilled₂ hcount₂ hinode₂
        exact hQ m₂ x₁ b hheld₂ hs₂ (hfilled.mapped_indirect hdirect hlt hfilled₂)
          (hcount₂.trans hcost) (hinode₂.trans hinode)
      · intro m₂ hnsect hz hge
        apply hout _ _ _ hnsect le_rfl
        apply hfull
        rw [← hcost, if_pos hz]
        omega
    · intro hz hge
      have hz' : x.indirect = 0 := hz
      have hE : E .rsect := by
        apply hfull
        rw [cost, if_pos (c := NDIRECT ≤ fbn ∧ _) ⟨hge', hz'⟩]
        omega
      apply Ends.seq
      apply rsect_ends
      · exact fun _ => hE
      · intro hsec
        rw [setAddr_self] at hsec
        have hn : m.nsect = 1000 := hs.nsect
        exact absurd hsec (show ¬1000 < m.nsect by omega)

/-! ## A whole chunk -/

theorem needed_mono {a : ℕ} (h : a ≤ b) : needed a ≤ needed b := by
  have hblocks : blocksFor a ≤ blocksFor b := by
    show (a + 511) / 512 ≤ (b + 511) / 512
    omega
  unfold needed
  split_ifs <;> omega

/-- A turn that stays inside one block. -/
theorem needed_turn {d : Image} (h : x.Shaped d off) (hn : 0 < n) (hlen : off % BSIZE + n ≤ BSIZE) :
    needed (off + n) = needed off + cost d x (off / BSIZE) := by
  have hlen' : off % 512 + n ≤ 512 := hlen
  have hend : blocksFor (off + n) = off / BSIZE + 1 := by
    show (off + n + 511) / 512 = off / 512 + 1
    omega
  have hnew : x.block d (off / BSIZE) = 0 ↔ off % 512 = 0 := by
    rw [← not_iff_not, ← ne_eq, h.block]
    show off / 512 < (off + 511) / 512 ↔ _
    omega
  have hind : x.indirect = 0 ↔ ¬12 < blocksFor off := by
    rw [← not_iff_not, ← ne_eq, h.indirect, not_not]
  have hoff : blocksFor off = (off + 511) / 512 := rfl
  rw [needed, needed, cost, hend, hoff]
  simp only [hnew, hind, hoff]
  show off / 512 + 1 + (if 12 < off / 512 + 1 then 1 else 0) =
    (off + 511) / 512 + (if 12 < (off + 511) / 512 then 1 else 0) +
      ((if off % 512 = 0 then 1 else 0) + if 12 ≤ off / 512 ∧ ¬12 < (off + 511) / 512 then 1 else 0)
  split_ifs <;> omega

theorem Written.shaped {L : Layout} {d d' : Image} {x' : Dinode} {g : ℕ → Byte}
    (hw : Written L d x off n g d' x') (h : x.Shaped d off) : x'.Shaped d' (off + n) := by
  have hgrow := h.grow le_rfl (fun _ => hw.blocks) hw.indirect
  rwa [Nat.max_eq_right (Nat.le_add_right ..)] at hgrow

theorem appendLoop_ends (p : ℕ → Byte) (fuel : ℕ) {tot : ℕ} (hfuel : n ≤ fuel)
    {Q : Dinode → State → Prop} (hs : Sectors m) (h : Held (sbOf N hN) I i m.disk x)
    (hshape : x.Shaped m.disk off) (hmax : MAXFILE * BSIZE < off + n → E .fbn)
    (hfull : FSSIZE + needed off < m.freeblock + needed (off + n) → E .rsect)
    (hQ : ∀ m' x', Held (sbOf N hN) I i m'.disk x' → Sectors m' →
      Written (sbOf N hN) m.disk x off n (fun t => p (tot + t)) m'.disk x' →
      x'.Shaped m'.disk (off + n) →
      m'.freeblock + needed off = m.freeblock + needed (off + n) →
      m'.freeinode = m.freeinode →
      Q { x' with size := BitVec.ofNat 32 (off + n) } m') :
    Ends E (appendLoop p fuel x off tot n) m Q := by
  induction fuel generalizing off tot n m x with
  | zero =>
    obtain rfl : n = 0 := by omega
    exact Ends.pure (hQ m x h hs (Written.refl ..) hshape rfl rfl)
  | succ fuel ih =>
    unfold appendLoop
    by_cases hn : n = 0
    · rw [if_pos hn]
      subst hn
      exact Ends.pure (hQ m x h hs (Written.refl ..) hshape rfl rfl)
    · rw [if_neg hn]
      have hmod : off % BSIZE < 512 := Nat.mod_lt _ (by decide)
      have hstart : off - off / BSIZE * BSIZE = off % BSIZE := by
        show off - off / 512 * 512 = off % 512
        omega
      have hroom : (off / BSIZE + 1) * BSIZE - off = BSIZE - off % BSIZE := by
        show (off / 512 + 1) * 512 - off = 512 - off % 512
        omega
      have hle : min n (BSIZE - off % BSIZE) ≤ n := Nat.min_le_left ..
      have hpos : 0 < min n (BSIZE - off % BSIZE) := by
        show 0 < min n (512 - off % 512)
        omega
      have hlen : off % BSIZE + min n (BSIZE - off % BSIZE) ≤ BSIZE := by
        show off % 512 + min n (512 - off % 512) ≤ 512
        omega
      simp only [hstart, hroom]
      generalize min n (BSIZE - off % BSIZE) = n1 at hle hpos hlen ⊢
      have hturn := needed_turn hshape hpos hlen
      have hlater : needed (off + n1) ≤ needed (off + n) :=
        needed_mono (Nat.add_le_add_left hle off)
      have hrest : off + n1 + (n - n1) = off + n := by omega
      apply Ends.check_bind
      · intro hlt
        apply Ends.seq
        apply blockFor_ends hs h hlt
        · intro hcost
          exact hfull (by omega)
        · intro m₁ x₁ b hheld hs₁ hmapped hcount hinode
          have hb : b < m₁.freeblock := by
            rw [← hmapped.found]
            exact lt_freeblock_of_ref hheld (r := .data ⟨_, hlt⟩)
              (ne_zero_of_inData (hmapped.found.symm ▸ hmapped.inData))
          have hsec : b < m₁.nsect := by
            rw [hs₁.nsect]
            exact hmapped.inData.2
          have hmap := ne_bmapstart_of_inData hmapped.inData
          have himg : m₁.img b = m₁.disk b := (disk_of_ne hmap).symm
          obtain ⟨hheld₂, hw⟩ := hmapped.write (g := fun t => p (tot + t)) h hheld hpos hlen
          rw [← disk_update hmap] at hheld₂ hw
          apply Ends.seq
          apply rsect_ends
          · exact fun hno => absurd hsec hno
          intro _
          apply Ends.seq
          apply wsect_ends hsec
          rw [himg]
          apply ih (by omega) (hs₁.write hb (one_lt_of_inData hmapped.inData) _) hheld₂
            (Written.shaped hw hshape)
          · intro hbig
            exact hmax (by omega)
          · intro hbig
            rw [hrest] at hbig
            change FSSIZE + needed (off + n1) < m₁.freeblock + needed (off + n) at hbig
            exact hfull (by omega)
          · intro m' x' hheld' hs' hw' hshape' hcount' hinode'
            rw [hrest] at hshape' hcount' ⊢
            change m'.freeblock + needed (off + n1) = m₁.freeblock + needed (off + n) at hcount'
            apply hQ m' x' hheld' hs' _ hshape' (by omega) (hinode'.trans hinode)
            have hall := hw.trans (n := n - n1) (by simpa only [Nat.add_assoc] using hw')
            rwa [Nat.add_sub_cancel' hle] at hall
        · intro m₁ x₁ b hnsect hge hE
          apply Ends.seq
          apply rsect_ends
          · exact fun _ => hE
          · intro hsec
            exact absurd hsec (by omega)
      · intro hge
        apply hmax
        have hge' : ¬off / 512 < 140 := hge
        show 140 * 512 < off + n
        omega

end

end Xv6Threads.Mkfs
