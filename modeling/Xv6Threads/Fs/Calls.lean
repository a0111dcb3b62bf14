/-
# Sequences of calls

The functions of `fs.c` that the rest of the kernel calls, as the steps of a machine: any
number of them in any order, each under the condition its callers meet. A locked inode
is asked for where `fs.c` asks its caller to hold the lock, a counted reference where it
is given up.

A disk on which every block has one owner stays such a disk, so a block is never freed
twice. What a call does to the disk is one `Change`, which the laws about the shape of
files need as well.
-/

import Xv6Threads.Fs.Entries
import Xv6Threads.Lib.Transition

namespace Xv6Threads.Fs

open Lib Command

variable {d d' : Image}

inductive Call
  | beginOp
  | endOp
  | ialloc (type : BitVec 16)
  | iget (inum : ℕ)
  | idup (ip : Ip)
  | ilock (ip : Ip)
  | iunlock (ip : Ip)
  | iput (ip : Ip)
  | writei (ip : Ip) (src : ℕ → Byte) (off n : BitVec 32)
  | dirlink (dp : Ip) (name : List Byte) (inum : ℕ)
  | itrunc (ip : Ip)
  -- the fields that callers of `iupdate` change before
  | iupdate (ip : Ip) (major minor nlink : BitVec 16)

/-- The state after booting from a disk. -/
def FsState.boot (d : Image) (console : List (Option (List Byte))) : FsState where
  disk := d
  icache := fun _ => {}
  outstanding := 0
  console := console

section

variable (L : Layout)

def beginOp : FsM Unit := modify fun s => { s with outstanding := s.outstanding + 1 }

def endOp : FsM Unit := modify fun s => { s with outstanding := s.outstanding - 1 }

/-- What the caller answers for. -/
def Call.Ok (s : FsState) : Call → Prop
  | beginOp => True
  | endOp => 1 ≤ s.outstanding
  | ialloc _ => True
  | iget inum => inum < L.ninodes
  | idup ip => 0 < (s.icache ip).ref
  | ilock _ => True
  | iunlock _ => True
  | iput ip => 0 < (s.icache ip).ref
  | writei ip _ _ _ => (s.icache ip).locked = true
  | dirlink dp _ _ => (s.icache dp).locked = true
  | itrunc ip => (s.icache ip).locked = true
  | iupdate ip _ _ _ => (s.icache ip).locked = true

instance (s : FsState) : DecidablePred (Call.Ok L s)
  | .beginOp | .ialloc _ | .ilock _ | .iunlock _ => inferInstanceAs (Decidable True)
  | .endOp => inferInstanceAs (Decidable (_ ≤ _))
  | .iget _ | .idup _ | .iput _ => inferInstanceAs (Decidable (_ < _))
  | .writei _ _ _ _ | .dirlink _ _ _ | .itrunc _ | .iupdate _ _ _ _ =>
    inferInstanceAs (Decidable (_ = true))

/-- Forget the result. -/
def discard {α : Type} (m : FsM α) : FsM Unit := do
  let _ ← m
  pure ()

def Call.run : Call → FsM Unit
  | beginOp => Fs.beginOp
  | endOp => Fs.endOp
  | ialloc type => discard (Fs.ialloc L ROOTDEV type)
  | iget inum => discard (Fs.iget ROOTDEV inum)
  | idup ip => Fs.idup ip
  | ilock ip => Fs.ilock L ip
  | iunlock ip => Fs.iunlock ip
  | iput ip => Fs.iput L ip
  | writei ip src off n => discard (Fs.writei L ip src off n)
  | dirlink dp name inum => discard (Fs.dirlink L dp name inum)
  | itrunc ip => Fs.itrunc L ip
  | iupdate ip major minor nlink => do
      setDin ip fun x => { x with major := major, minor := minor, nlink := nlink }
      Fs.iupdate L ip

/-- A call that returns. -/
def callNext (s : FsState) (c : Call) : Option FsState :=
  match c.run L s with
  | .ok (_, s') => some s'
  | .error _ => none

abbrev CallStep (s : FsState) (c : Call) (s' : FsState) : Prop := callNext L s c = some s'

/-! ## What a call does to the disk -/

/-- At most one file changed: it was written, it has no blocks now, or its blocks are
the same as before. -/
inductive Change (d d' : Image) : Prop
  | written {i off n : ℕ} {g : ℕ → Byte} (hi : i < L.ninodes) (htype : (L.inode d i).type ≠ 0)
      (hdev : (L.inode d i).type ≠ T_DEV) (hoff : off ≤ (L.inode d i).size.toNat)
      (hw : FileWritten L d i off n g d')
  | emptied {i : ℕ} (honly : OnlyFile L i d d') (haddrs : (L.inode d' i).addrs = fun _ => 0)
      (hsize : (L.inode d' i).size = 0)
  | kept {i : ℕ} (honly : OnlyFile L i d d') (htype : (L.inode d' i).type = (L.inode d i).type)
      (hsize : (L.inode d' i).size = (L.inode d i).size)
      (haddrs : (L.inode d' i).addrs = (L.inode d i).addrs)
      (hblock : (L.inode d i).type ≠ 0 → ∀ k, (L.inode d' i).block d' k = (L.inode d i).block d k)

theorem Change.refl {L : Layout} : Change L d d :=
  .kept (i := 0) .refl rfl rfl rfl fun _ _ => rfl

/-- What holds between calls. -/
structure Sound (s : FsState) : Prop where
  consistent : Consistent L s.disk
  synced : Synced L s
  lt : ∀ {ip}, 0 < (s.icache ip).ref → (s.icache ip).inum < L.ninodes
  locked : ∀ {ip}, (s.icache ip).locked = true →
    0 < (s.icache ip).ref ∧ (s.icache ip).valid = true

variable {L} {s s' : FsState} {ip : Ip} {E : Panic → Prop}

variable (L) in
/-- A call ends in a sound state, and its change of the disk is one of the three. -/
def KeepsSound (s s' : FsState) : Prop := Sound L s' ∧ Change L s.disk s'.disk

theorem Sound.keeps (h : Sound L s') (hdisk : s'.disk = s.disk) : KeepsSound L s s' :=
  ⟨h, hdisk ▸ .refl⟩

/-! ## One call at a time -/

/-- An entry changes, the disk does not. -/
theorem Sound.mapIp (h : Sound L s) {f : Inode → Inode}
    (hbooks : 0 < (f (s.icache ip)).ref → (f (s.icache ip)).dev = ROOTDEV ∧
      (f (s.icache ip)).inum < L.ninodes ∧
      ∀ jp, jp ≠ ip → 0 < (s.icache jp).ref → (s.icache jp).inum ≠ (f (s.icache ip)).inum)
    (hvalid : 0 < (f (s.icache ip)).ref → (f (s.icache ip)).valid = true →
      (f (s.icache ip)).din = L.inode s.disk (f (s.icache ip)).inum ∧
      (f (s.icache ip)).din.type ≠ 0)
    (hlocked : (f (s.icache ip)).locked = true →
      0 < (f (s.icache ip)).ref ∧ (f (s.icache ip)).valid = true) :
    Sound L (s.mapIp ip f) := by
  refine ⟨h.consistent, ?_, ?_, ?_⟩
  · apply h.synced.mapIp
    · intro hr
      exact ⟨(hbooks hr).1, (hbooks hr).2.2⟩
    · intro hr hv
      exact ⟨(hbooks hr).2.1, hvalid hr hv⟩
  · intro jp hr
    by_cases hjp : jp = ip
    · rw [hjp, mapIp_self] at hr ⊢
      exact (hbooks hr).2.1
    · rw [mapIp_of_ne hjp] at hr ⊢
      exact h.lt hr
  · intro jp hl
    by_cases hjp : jp = ip
    · rw [hjp, mapIp_self] at hl ⊢
      exact hlocked hl
    · rw [mapIp_of_ne hjp] at hl ⊢
      exact h.locked hl

/-- The same where the entry keeps its inode. -/
theorem Sound.mapIp_same (h : Sound L s) {f : Inode → Inode}
    (hinum : (f (s.icache ip)).inum = (s.icache ip).inum)
    (hdev : (f (s.icache ip)).dev = (s.icache ip).dev)
    (hdin : (f (s.icache ip)).din = (s.icache ip).din)
    (hvalid : (f (s.icache ip)).valid = (s.icache ip).valid)
    (href : 0 < (f (s.icache ip)).ref → 0 < (s.icache ip).ref)
    (hlocked : (f (s.icache ip)).locked = true →
      0 < (f (s.icache ip)).ref ∧ (s.icache ip).valid = true) :
    Sound L (s.mapIp ip f) := by
  apply h.mapIp
  · intro hr
    rw [hinum, hdev]
    refine ⟨h.synced.dev (href hr), h.lt (href hr), fun jp hne hr' heq => ?_⟩
    exact hne (h.synced.unique hr' (href hr) heq)
  · intro hr hv
    rw [hvalid] at hv
    rw [hdin, hinum]
    exact ⟨h.synced.din (href hr) hv, h.synced.type (href hr) hv⟩
  · rw [hvalid]
    exact hlocked

theorem Sound.unlocked (h : Sound L s) (href : (s.icache ip).ref = 0) :
    (s.icache ip).locked = false := by
  cases hl : (s.icache ip).locked with
  | false => rfl
  | true =>
    have := (h.locked hl).1
    omega

theorem Sound.iget (hE : Tolerant E) (h : Sound L s) {inum : ℕ} (hlt : inum < L.ninodes) :
    Ends E (Fs.iget ROOTDEV inum) s fun _ s' => Sound L s' ∧ s'.disk = s.disk := by
  apply iget_rule fun _ _ => hE.allows
  · intro ip href _ _
    refine ⟨h.mapIp_same rfl rfl rfl rfl (fun _ => href) fun hl => ?_, rfl⟩
    exact ⟨Int.lt_add_one_of_le href.le, (h.locked hl).2⟩
  · intro hmiss ip href
    refine ⟨h.mapIp ?_ ?_ ?_, rfl⟩
    · intro _
      exact ⟨rfl, hlt, fun jp _ hr => hmiss jp hr (h.synced.dev hr)⟩
    · intro _ hv
      cases hv
    · intro hl
      change (s.icache ip).locked = true at hl
      rw [h.unlocked href] at hl
      cases hl

theorem Sound.disk (h : Sound L s) {i : ℕ} (hc : Consistent L d') (honly : OnlyFile L i s.disk d')
    (hnone : ∀ ip, 0 < (s.icache ip).ref → (s.icache ip).valid = true → (s.icache ip).inum ≠ i) :
    Sound L { s with disk := d' } :=
  ⟨hc, h.synced.disk honly hnone, h.lt, h.locked⟩

theorem Sound.ialloc (hE : Tolerant E) (h : Sound L s) (type : BitVec 16) :
    Ends E (Fs.ialloc L ROOTDEV type) s fun _ s' => KeepsSound L s s' := by
  apply ialloc_ends hE
  intro i _ hi hfree
  have honly : OnlyFile L i s.disk (L.setInode s.disk i { type := type }) :=
    OnlyFile.refl.setInode h.consistent.owned hi _
  have hsound : Sound L { s with disk := L.setInode s.disk i { type := type } } := by
    apply h.disk (h.consistent.setInode_bare hi (.inl hfree) rfl rfl) honly
    rintro ip hr hv rfl
    have htype := h.synced.type hr hv
    rw [h.synced.din hr hv] at htype
    exact htype hfree
  apply (hsound.iget hE hi).mono
  intro _ s' hs'
  refine ⟨hs'.1, ?_⟩
  rw [hs'.2]
  apply Change.emptied honly
  · rw [inode_setInode_self]
  · rw [inode_setInode_self]

theorem Sound.ilock (hE : Tolerant E) (htype : E .ilockNoType) (h : Sound L s) (ip : Ip) :
    Ends E (Fs.ilock L ip) s fun _ s' => Sound L s' ∧ s'.disk = s.disk := by
  apply ilock_rule (fun _ => hE.allows) (fun _ => hE.allows)
  · intro href _ hvalid
    exact ⟨h.mapIp_same rfl rfl rfl rfl id fun _ => ⟨href, hvalid⟩, rfl⟩
  · intro href _ _ hne
    refine ⟨h.mapIp ?_ ?_ ?_, rfl⟩
    · intro hr
      exact ⟨h.synced.dev hr, h.lt hr, fun jp hne hr' heq => hne (h.synced.unique hr' hr heq)⟩
    · intro _ _
      exact ⟨rfl, hne⟩
    · intro _
      exact ⟨href, rfl⟩
  · intro _ _ _ _
    exact htype

theorem Sound.iunlock (hE : Tolerant E) (h : Sound L s) (ip : Ip) :
    Ends E (Fs.iunlock ip) s fun _ s' => Sound L s' ∧ s'.disk = s.disk := by
  apply iunlock_rule fun _ => hE.allows
  intro _ _
  refine ⟨h.mapIp_same rfl rfl rfl rfl id ?_, rfl⟩
  intro hl
  cases hl

/-- The disk and the inode of a valid entry change together. -/
theorem Sound.put (h : Sound L s) (href : 0 < (s.icache ip).ref)
    (hvalid : (s.icache ip).valid = true) (hc : Consistent L d')
    (honly : OnlyFile L (s.icache ip).inum s.disk d')
    (htype : (L.inode d' (s.icache ip).inum).type ≠ 0) :
    Sound L (s.put ip d' (L.inode d' (s.icache ip).inum)) := by
  refine ⟨hc, h.synced.put href hvalid honly htype, ?_, ?_⟩
  · intro jp hr
    by_cases hjp : jp = ip
    · rw [hjp, put_icache_self] at hr ⊢
      exact h.lt hr
    · rw [put_icache_of_ne hjp] at hr ⊢
      exact h.lt hr
  · intro jp hl
    by_cases hjp : jp = ip
    · rw [hjp, put_icache_self] at hl ⊢
      exact h.locked hl
    · rw [put_icache_of_ne hjp] at hl ⊢
      exact h.locked hl

theorem FileWritten.type {i off n : ℕ} {g : ℕ → Byte} (h : FileWritten L d i off n g d') :
    (L.inode d' i).type = (L.inode d i).type := by
  obtain ⟨size, addrs, h⟩ := h.fields
  rw [h]

theorem Sound.fileWritten (h : Sound L s) (href : 0 < (s.icache ip).ref)
    (hvalid : (s.icache ip).valid = true) (hdev : (s.icache ip).din.type ≠ T_DEV) {off n : ℕ}
    {g : ℕ → Byte} (hw : FileWritten L s.disk (s.icache ip).inum off n g d')
    (hc : Consistent L d') (hoff : off ≤ (s.icache ip).din.size.toNat) :
    KeepsSound L s (s.put ip d' (L.inode d' (s.icache ip).inum)) := by
  have htype := h.synced.type href hvalid
  rw [h.synced.din href hvalid] at htype hdev hoff
  refine ⟨h.put href hvalid hc hw.only (hw.type ▸ htype), ?_⟩
  exact .written (h.lt href) htype hdev hoff hw

theorem Sound.writei (hE : Tolerant E) (htype : E .ilockNoType) (h : Sound L s)
    (hlocked : (s.icache ip).locked = true) (src : ℕ → Byte) (off n : BitVec 32) :
    Ends E (Fs.writei L ip src off n) s fun _ s' => KeepsSound L s s' := by
  obtain ⟨href, hvalid⟩ := h.locked hlocked
  by_cases hdev : (s.icache ip).din.type = T_DEV
  · apply Ends.read_bind
    rw [if_pos hdev]
    unfold writeDev
    split_ifs with hconsole
    · apply Ends.bind (h.iunlock hE ip)
      intro _ s₁ h₁
      apply Ends.bind (h₁.1.ilock hE htype ip)
      intro _ s₂ h₂
      exact Ends.pure (h₂.1.keeps (h₂.2.trans h₁.2))
    · exact Ends.pure (h.keeps rfl)
  · apply writei_ends hE src off n h.consistent h.synced href hvalid hdev
    · exact h.keeps rfl
    · intro d' hw hc hoff
      exact h.fileWritten href hvalid hdev hw hc hoff

theorem Recycled.sound (hr : Recycled s s') (h : Sound L s) : Sound L s' := by
  rcases hr with rfl | ⟨jp, dev, inum, href, rfl⟩
  · exact h
  · apply h.mapIp
    · intro hpos
      exact absurd hpos (lt_irrefl 0)
    · intro hpos
      exact absurd hpos (lt_irrefl 0)
    · intro hl
      change (s.icache jp).locked = true at hl
      rw [h.unlocked href] at hl
      cases hl

theorem Sound.dirlink (hE : Tolerant E) (h : Sound L s) {dp : Ip}
    (hlocked : (s.icache dp).locked = true) (name : List Byte) (inum : ℕ) :
    Ends E (Fs.dirlink L dp name inum) s fun _ s' => KeepsSound L s s' := by
  obtain ⟨href, hvalid⟩ := h.locked hlocked
  apply dirlink_file hE h.consistent h.synced href hvalid
  · intro s' hr
    exact (hr.sound h).keeps hr.disk
  · intro hdir _ off d' hslot hw hc
    exact h.fileWritten href hvalid (by rw [hdir]; decide) hw hc hslot.le

theorem Sound.itrunc (hE : Tolerant E) (h : Sound L s)
    (hlocked : (s.icache ip).locked = true) :
    Ends E (Fs.itrunc L ip) s fun _ s' => KeepsSound L s s' := by
  obtain ⟨href, hvalid⟩ := h.locked hlocked
  apply itrunc_file hE h.consistent h.synced href hvalid
  intro d' honly hc hinode
  have hsound := h.put href hvalid hc honly (by
    rw [hinode]
    exact h.synced.type href hvalid)
  rw [hinode] at hsound
  refine ⟨hsound, .emptied honly ?_ ?_⟩
  · rw [put_disk, hinode]
    rfl
  · rw [put_disk, hinode]
    rfl

theorem Sound.iput (hE : Tolerant E) (h : Sound L s) (href : 0 < (s.icache ip).ref) :
    Ends E (Fs.iput L ip) s fun _ s' => KeepsSound L s s' := by
  apply iput_rule fun _ => hE.allows
  · intro hunlocked _
    refine Sound.keeps (h.mapIp_same rfl rfl rfl rfl (fun _ => href) fun hl => ?_) rfl
    change (s.icache ip).locked = true at hl
    rw [hunlocked] at hl
    cases hl
  · intro _ hvalid _ hone
    have hsound : Sound L (s.mapIp ip fun x => { x with locked := true }) :=
      h.mapIp_same rfl rfl rfl rfl id fun _ => ⟨href, hvalid⟩
    apply ifree_file hE hsound.consistent hsound.synced (by rwa [mapIp_self]) (by rwa [mapIp_self])
    intro d' x honly hc hinode
    rw [mapIp_self] at honly hinode
    have hdrop : Sound L (s.mapIp ip fun y =>
        { y with locked := false, valid := false, ref := y.ref - 1, din := x }) := by
      apply h.mapIp
      · intro hr
        change 0 < (s.icache ip).ref - 1 at hr
        omega
      · intro _ hv
        cases hv
      · intro hl
        cases hl
    have hdone := hdrop.disk hc honly (by
      intro jp hr hv
      by_cases hjp : jp = ip
      · rw [hjp, mapIp_self] at hv
        cases hv
      · rw [mapIp_of_ne hjp] at hr ⊢
        exact fun heq => hjp (h.synced.unique hr href heq))
    refine ⟨?_, .emptied honly ?_ ?_⟩
    · simpa [FsState.put, FsState.mapIp] using hdone
    · rw [mapIp_disk, mapIp_disk, put_disk, hinode]
      rfl
    · rw [mapIp_disk, mapIp_disk, put_disk, hinode]
      rfl

theorem Sound.iupdate (hE : Tolerant E) (h : Sound L s) (hlocked : (s.icache ip).locked = true)
    (major minor nlink : BitVec 16) :
    Ends E (Call.run L (.iupdate ip major minor nlink)) s fun _ s' => KeepsSound L s s' := by
  obtain ⟨href, hvalid⟩ := h.locked hlocked
  have hlt := h.lt href
  have hdin := h.synced.din href hvalid
  have htype := h.synced.type href hvalid
  have hc := h.consistent.setInode_fields hlt major minor nlink
  have honly := OnlyFile.refl.setInode h.consistent.owned hlt
    { L.inode s.disk (s.icache ip).inum with major := major, minor := minor, nlink := nlink }
  apply Ends.seq
  apply setIp_ends
  apply iupdate_ends hE
  rw [hdin] at htype
  have hput := h.put href hvalid hc honly (by
    rw [inode_setInode_self]
    exact htype)
  rw [inode_setInode_self] at hput
  refine ⟨by simpa [FsState.put, FsState.mapIp, hdin] using hput, ?_⟩
  have hdisk : Change L s.disk (L.setInode s.disk (s.icache ip).inum
      { L.inode s.disk (s.icache ip).inum with
        major := major, minor := minor, nlink := nlink }) := by
    apply Change.kept honly
    · rw [inode_setInode_self]
    · rw [inode_setInode_self]
    · rw [inode_setInode_self]
    · intro htype k
      rw [inode_setInode_self]
      exact (h.consistent.held hlt htype).setInode_block _ k
  simpa [hdin] using hdisk

/-- Every call, and every fault but a missing type. -/
theorem Sound.run (hE : Tolerant E) (htype : E .ilockNoType) (h : Sound L s) (c : Call)
    (hok : c.Ok L s) : Ends E (c.run L) s fun _ s' => KeepsSound L s s' := by
  have hsame : ∀ {α : Type} {m : FsM α} {s : FsState},
      (Ends E m s fun _ s' => Sound L s' ∧ s'.disk = s.disk) →
      Ends E m s fun _ s' => KeepsSound L s s' := fun h =>
    h.mono fun _ _ hs => hs.1.keeps hs.2
  have hdiscard : ∀ {α : Type} {m : FsM α}, (Ends E m s fun _ s' => KeepsSound L s s') →
      Ends E (discard m) s fun _ s' => KeepsSound L s s' := fun h =>
    h.bind fun _ _ hs => Ends.pure hs
  cases c with
  | beginOp | endOp => exact Ends.modify (Sound.keeps ⟨h.consistent, ⟨h.synced.lt, h.synced.din,
      h.synced.type, h.synced.dev, h.synced.unique⟩, h.lt, h.locked⟩ rfl)
  | ialloc type => exact hdiscard (h.ialloc hE type)
  | iget inum => exact hdiscard (hsame (h.iget hE hok))
  | idup ip =>
    apply idup_ends
    refine Sound.keeps (h.mapIp_same rfl rfl rfl rfl (fun _ => hok) fun hl => ?_) rfl
    exact ⟨Int.lt_add_one_of_le (le_of_lt hok), (h.locked hl).2⟩
  | ilock ip => exact hsame (h.ilock hE htype ip)
  | iunlock ip => exact hsame (h.iunlock hE ip)
  | iput ip => exact h.iput hE hok
  | writei ip src off n => exact hdiscard (h.writei hE htype hok src off n)
  | dirlink dp name inum => exact hdiscard (h.dirlink hE hok name inum)
  | itrunc ip => exact h.itrunc hE hok
  | iupdate ip major minor nlink => exact h.iupdate hE hok major minor nlink

/-! ## Runs -/

theorem synced_boot (d : Image) (console : List (Option (List Byte))) :
    Synced L (FsState.boot d console) where
  lt h := absurd h (lt_irrefl 0)
  din h := absurd h (lt_irrefl 0)
  type h := absurd h (lt_irrefl 0)
  dev h := absurd h (lt_irrefl 0)
  unique h := absurd h (lt_irrefl 0)

theorem sound_boot (hd : Consistent L d) (console : List (Option (List Byte))) :
    Sound L (FsState.boot d console) where
  consistent := hd
  synced := synced_boot d console
  lt h := absurd h (lt_irrefl 0)
  locked h := absurd h Bool.false_ne_true

theorem run_eq_of_callStep {c : Call} (h : CallStep L s c s') : c.run L s = .ok ((), s') := by
  unfold CallStep callNext at h
  cases hrun : c.run L s with
  | ok r =>
    rw [hrun] at h
    cases h
    rfl
  | error p =>
    rw [hrun] at h
    cases h

theorem sound_of_reachable {console : List (Option (List Byte))} (hd : Consistent L d)
    (hreach : ReachableBy (CallStep L) (Call.Ok L) (FsState.boot d console) s) : Sound L s := by
  apply hreach.invariant (sound_boot hd console)
  intro s c s' _ hs hok hstep
  have hrun := hs.run (E := fun _ => True) (fun _ _ _ => trivial) trivial c hok
  exact (hrun.ok (run_eq_of_callStep hstep)).1

/-- Starting from a consistent disk, every block an allocated inode refers to is marked,
referred to from one place only and below `sb.size`; every marked block beyond the
metadata is referred to; and no call frees a free block. -/
theorem blocks_have_one_owner {d : Image} {console : List (Option (List Byte))}
    (hd : Consistent L d)
    (hreach : ReachableBy (CallStep L) (Call.Ok L) (FsState.boot d console) s) :
    (∀ p b, L.Refs s.disk (L.inode s.disk) p b → b < L.size ∧ L.marked s.disk b = true ∧
      ∀ q, L.Refs s.disk (L.inode s.disk) q b → q = p) ∧
    (∀ b, L.datastart ≤ b → b < L.size → L.marked s.disk b = true →
      ∃ p, L.Refs s.disk (L.inode s.disk) p b) ∧
    ∀ c : Call, c.Ok L s → c.run L s ≠ .error .freeingFreeBlock := by
  have hs := sound_of_reachable hd hreach
  have howned := hs.consistent.owned
  refine ⟨?_, ?_, ?_⟩
  · intro p b hp
    exact ⟨(howned.inPool hp).2, howned.marked_of_ref hp, fun q hq => howned.once hq hp⟩
  · intro b hge hlt hm
    rcases (howned.markedIff (.inr ⟨hge, hlt⟩)).mp hm with hres | hloose | hp
    · exact absurd hres (Nat.not_lt.mpr hge)
    · exact absurd hloose (Set.notMem_empty b)
    · exact hp
  · intro c hok hrun
    have hends := hs.run (E := (· ≠ .freeingFreeBlock)) (fun p hp _ => hp) (by decide) c hok
    exact hends.error hrun rfl

end

/-! ## A small disk -/

/-- Eight inodes and two data blocks. -/
def smallLayout : Layout where
  size := 6
  ninodes := 8
  inodestart := 2
  bmapstart := 3
  datastart := 4
  inodes_pos := by decide
  inodes_fit := by decide
  map_fits := by decide
  data_le := by decide
  size_lt := by decide
  ninodes_lt := by decide

def smallDisk : Image := fun b t => if b = 3 ∧ t.val = 0 then 0x0f else 0

theorem consistent_smallDisk : Consistent smallLayout smallDisk :=
  consistent_of_free (by decide +kernel) (by decide +kernel)

/-- A file of one byte. -/
theorem blocks_have_one_owner_small : ∃ s : FsState,
    (smallLayout.Refs s.disk (smallLayout.inode s.disk) (1, .data ⟨0, by decide⟩) 4 ∧
      smallLayout.marked s.disk 4 = true) ∧
    ∀ c : Call, c.Ok smallLayout s → c.run smallLayout s ≠ .error .freeingFreeBlock := by
  have hrun : ∃ s, ReachableBy (CallStep smallLayout) (Call.Ok smallLayout)
      (FsState.boot smallDisk []) s ∧
      ((smallLayout.inode s.disk 1).type = T_FILE ∧ (smallLayout.inode s.disk 1).addrs 0 = 4) :=
    exists_reachableBy [.beginOp, .ialloc T_FILE, .ilock 0, .writei 0 (fun _ => 7) 0 1]
      (by decide +kernel)
  obtain ⟨s, hs, htype, haddr⟩ := hrun
  have hrefs : smallLayout.Refs s.disk (smallLayout.inode s.disk) (1, .data ⟨0, by decide⟩) 4 := by
    refine ⟨by decide, by rw [htype]; decide, ?_, by decide⟩
    show ((smallLayout.inode s.disk 1).block s.disk 0).toNat = 4
    rw [block_of_lt (by decide)]
    exact congrArg BitVec.toNat haddr
  obtain ⟨hone, -, hfree⟩ := blocks_have_one_owner consistent_smallDisk hs
  exact ⟨s, ⟨hrefs, (hone _ _ hrefs).2.1⟩, hfree⟩

end Xv6Threads.Fs
