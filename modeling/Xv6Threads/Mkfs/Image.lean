/-
# The image that mkfs makes

Between calls of `ialloc` and `iappend` the image, seen with its bitmap, is consistent and
every file has exactly the blocks of its size. Rounding up the size of the root directory
keeps this unless its entries fill whole blocks; then the rounded size has one block that
was never handed out. The inodes used are those below `sb.ninodes` as long as there are
not more files than that, which nothing in `mkfs` checks.
-/

import Xv6Threads.Mkfs.Append

namespace Xv6Threads.Mkfs

open Lib Command
open Xv6Threads.Fs
open Xv6Threads.Log (Block getWord setWord)

variable {Q : Unit → State → Prop} {n : ℕ} {files : List Input}

/-- What holds between the steps of `mkfs`. `N` is the number of inodes there is room
for. -/
structure Built (N : ℕ) (hN : N ≤ ninodeblocks * IPB) (m : State) : Prop where
  sectors : Sectors m
  consistent : Consistent (sbOf N hN) m.disk
  exact : (sbOf N hN).AllExact m.disk
  pos : 0 < m.freeinode
  free : ∀ {i}, m.freeinode ≤ i → i < N → ((sbOf N hN).inode m.disk i).type = 0

section

variable {m m' : State} {E : Exit → Prop} {N : ℕ} {hN : N ≤ ninodeblocks * IPB} {i : ℕ}

theorem iblock_lt (hi : i < N) (hN : N ≤ ninodeblocks * IPB) : sb.iblock i < sb.bmapstart :=
  Layout.iblock_lt_bmapstart (L := sbOf N hN) hi

variable (hN) in
theorem rinode_ends {Q : Dinode → State → Prop} (hs : Sectors m) (hi : i < N)
    (hQ : Q ((sbOf N hN).inode m.disk i) m) : Ends E (rinode i) m Q := by
  have hlt := iblock_lt hi hN
  apply Ends.seq
  apply rsect_ends
  · intro hno
    rw [hs.nsect] at hno
    exact absurd (hlt.trans (by decide)) hno
  · intro _
    apply Ends.pure
    have hinode : sb.inode (fun _ => m.img (sb.iblock i)) i = (sbOf N hN).inode m.disk i :=
      (inode_congr sb (disk_of_ne hlt.ne)).symm
    rw [hinode]
    exact hQ

variable (hN) in
theorem winode_ends {din : Dinode} (hs : Sectors m) (hi : i < N)
    (hQ : ∀ m', m'.disk = (sbOf N hN).setInode m.disk i din → Sectors m' →
      m'.freeblock = m.freeblock → m'.freeinode = m.freeinode → Q () m') :
    Ends E (winode i din) m Q := by
  have hlt := iblock_lt hi hN
  have hsec : sb.iblock i < m.nsect := by
    rw [hs.nsect]
    exact hlt.trans (by decide)
  apply Ends.seq
  apply rsect_ends
  · exact fun hno => absurd hsec hno
  intro _
  apply wsect_ends hsec
  apply hQ
  · rw [disk_update hlt.ne, Layout.setInode, Layout.putInode, Layout.putInode]
    show Function.update m.disk (sb.iblock i) (putWords (m.img (sb.iblock i)) _ _ _) = _
    rw [← disk_of_ne hlt.ne]
    rfl
  · apply hs.write
    · exact (hlt.trans (by decide)).trans_le hs.le
    · show 1 < i / 8 + 32
      omega
  · rfl
  · rfl

theorem Built.iappend_ends {p : ℕ → Byte} (h : Built N hN m) (hi : i < N)
    (htype : ((sbOf N hN).inode m.disk i).type ≠ 0)
    (hdev : ((sbOf N hN).inode m.disk i).type ≠ T_DEV) {size : ℕ}
    (hsize : ((sbOf N hN).inode m.disk i).size.toNat = size)
    (hmax : MAXFILE * BSIZE < size + n → E .fbn)
    (hfull : FSSIZE + needed size < m.freeblock + needed (size + n) → E .rsect)
    (hQ : ∀ m', Built N hN m' → FileWritten (sbOf N hN) m.disk i size n p m'.disk →
      m'.freeblock + needed size = m.freeblock + needed (size + n) →
      m'.freeinode = m.freeinode → Q () m') : Ends E (iappend i p n) m Q := by
  subst hsize
  apply Ends.seq
  apply rinode_ends hN h.sectors hi
  apply Ends.seq
  apply appendLoop_ends p n le_rfl h.sectors (h.consistent.held hi htype)
    (h.exact i hi htype hdev) hmax hfull
  intro m₁ x₁ hheld hs₁ hw hshape hcount hinode
  simp only [Nat.zero_add] at hw
  have hend : ((sbOf N hN).inode m.disk i).size.toNat + n ≤ 140 * 512 := by
    by_contra hbig
    refine (hshape.block 140).mpr ?_ (block_of_maxfile_le le_rfl)
    show 140 < (((sbOf N hN).inode m.disk i).size.toNat + n + 511) / 512
    omega
  have hnum : (BitVec.ofNat 32 (((sbOf N hN).inode m.disk i).size.toNat + n)).toNat =
      max ((sbOf N hN).inode m.disk i).size.toNat
        (((sbOf N hN).inode m.disk i).size.toNat + n) := by
    rw [BitVec.toNat_ofNat, Nat.mod_eq_of_lt (by omega)]
    omega
  have hfile := hw.file_grow h.consistent.owned hi htype (h.consistent.solid hi htype hdev) hheld
    hnum
  have hheld₂ : Held (sbOf N hN) _ _ m₁.disk { x₁ with
    size := BitVec.ofNat 32 (((sbOf N hN).inode m.disk i).size.toNat + n) } :=
    hheld.of_addrs rfl rfl
  apply winode_ends hN hs₁ hi
  intro m₂ hdisk hs₂ hblocks₂ hinode₂
  rw [← hdisk] at hfile
  have howned := hheld₂.commit hw.inodes
  rw [← hdisk] at howned
  apply hQ m₂
  · refine ⟨hs₂, hfile.consistent h.consistent hi htype hdev le_rfl howned, ?_, ?_, ?_⟩
    · apply hfile.only.allExact h.exact
      intro _ _ _
      exact hfile.exact le_rfl (h.exact i hi htype hdev)
    · rw [hinode₂, hinode]
      exact h.pos
    · intro j hj hjN
      rw [hinode₂, hinode] at hj
      have hfree := h.free hj hjN
      have hji : j ≠ i := by
        rintro rfl
        exact htype hfree
      rw [(hfile.only j hjN hji).inode]
      exact hfree
  · exact hfile
  · rw [hblocks₂]
    exact hcount
  · exact hinode₂.trans hinode

theorem Built.ialloc_ends {type : BitVec 16} {Q : ℕ → State → Prop} (h : Built N hN m)
    (hlt : m.freeinode < N)
    (hQ : ∀ m', Built N hN m' → OnlyFile (sbOf N hN) m.freeinode m.disk m'.disk →
      (sbOf N hN).inode m'.disk m.freeinode = { type := type, nlink := 1 } →
      m'.freeblock = m.freeblock → m'.freeinode = m.freeinode + 1 → Q m.freeinode m') :
    Ends E (Mkfs.ialloc type) m Q := by
  apply Ends.read_bind
  apply Ends.modify_bind
  apply Ends.seq
  have hs : Sectors { m with freeinode := m.freeinode + 1 } :=
    ⟨h.sectors.nsect, h.sectors.super, h.sectors.le, h.sectors.fits, h.sectors.zero⟩
  apply winode_ends hN hs hlt
  intro m₁ hdisk hs₁ hblocks hinode
  have hfree := h.free le_rfl hlt
  have honly : OnlyFile (sbOf N hN) m.freeinode m.disk m₁.disk := by
    rw [hdisk]
    exact OnlyFile.refl.setInode h.consistent.owned hlt _
  have hnew : (sbOf N hN).inode m₁.disk m.freeinode = { type := type, nlink := 1 } := by
    rw [hdisk]
    exact inode_setInode_self ..
  apply Ends.pure
  apply hQ m₁ _ honly hnew hblocks hinode
  refine ⟨hs₁, ?_, ?_, ?_, ?_⟩
  · rw [hdisk]
    exact h.consistent.setInode_bare hlt (.inl hfree) rfl rfl
  · apply honly.allExact h.exact
    intro _ _ _
    exact exact_of_bare (by rw [hnew]) (by rw [hnew])
  · rw [hinode]
    exact Nat.succ_pos _
  · intro j hj hjN
    rw [hinode] at hj
    change m.freeinode + 1 ≤ j at hj
    rw [(honly j hjN (by omega)).inode]
    exact h.free (by omega) hjN

/-! ## Contents -/

/-- Inode `i` is a file with these bytes and one link. -/
structure Holds (L : Layout) (d : Image) (i : ℕ) (type : BitVec 16) (bytes : List Byte) : Prop where
  type : (L.inode d i).type = type
  nlink : (L.inode d i).nlink = 1
  size : (L.inode d i).size.toNat = bytes.length
  content : (L.inode d i).bytes d 0 bytes.length = bytes

variable {L : Layout} {d d' : Image} {type : BitVec 16} {bytes : List Byte}

theorem bytes_congr {x x' : Dinode} {off : ℕ}
    (h : ∀ o, off ≤ o → o < off + n → x'.byte d' o = x.byte d o) :
    x'.bytes d' off n = x.bytes d off n := by
  apply List.map_congr_left
  intro t ht
  have := List.mem_range.mp ht
  exact h _ (by omega) (by omega)

theorem Holds.append {p : ℕ → Byte} (h : Holds L d i type bytes)
    (hw : FileWritten L d i bytes.length n p d') :
    Holds L d' i type (bytes ++ (List.range n).map p) := by
  obtain ⟨size, addrs, hfields⟩ := hw.fields
  constructor
  · rw [hw.type, h.type]
  · rw [hfields]
    exact h.nlink
  · rw [hw.size, h.size, List.length_append, List.length_map, List.length_range]
    omega
  · rw [List.length_append, List.length_map, List.length_range, bytes_add]
    congr 1
    · rw [← h.content]
      rw [length_bytes]
      apply bytes_congr
      intro o _ ho
      exact hw.left (by rw [h.size]; omega) (by omega)
    · rw [Nat.zero_add]
      apply List.map_congr_left
      intro t ht
      exact hw.written (List.mem_range.mp ht)

/-- Another file has changed. -/
theorem Holds.other {j : ℕ} (h : Holds L d i type bytes) (htype : type ≠ 0 ∧ type ≠ T_DEV)
    (hc : Consistent L d) (hi : i < L.ninodes) (honly : OnlyFile L j d d') (hne : i ≠ j) :
    Holds L d' i type bytes := by
  have hsame := honly i hi hne
  have htype' : (L.inode d i).type ≠ 0 := h.type ▸ htype.1
  have hsolid := hc.solid hi htype' (h.type ▸ htype.2)
  constructor
  · rw [hsame.inode, h.type]
  · rw [hsame.inode, h.nlink]
  · rw [hsame.inode, h.size]
  · conv_rhs => rw [← h.content]
    apply bytes_congr
    intro o _ ho
    exact hsame.byte htype' (hsolid o (by rw [h.size]; omega))

/-- All bytes of an input file. -/
def Input.content (f : Input) : List Byte := (f.reads.getD []).flatMap Chunk.bytes

def direntList (name : List Byte) (inum : ℕ) : List Byte :=
  (List.range DIRENT).map (direntBytes name inum)

/-- The entries of the root directory, one for each file after the first two. -/
def rootBytes (files : List Input) : List Byte :=
  direntList dot ROOTINO ++ direntList dotdot ROOTINO ++
    files.zipIdx.flatMap fun f => direntList f.1.stored (f.2 + 2)

theorem rootBytes_append (files : List Input) (f : Input) :
    rootBytes (files ++ [f]) = rootBytes files ++ direntList f.stored (files.length + 2) := by
  simp [rootBytes, List.zipIdx_append]

theorem length_direntList (name : List Byte) (inum : ℕ) :
    (direntList name inum).length = DIRENT := by
  simp [direntList]

theorem length_rootBytes (files : List Input) :
    (rootBytes files).length = DIRENT * (files.length + 2) := by
  induction files using List.reverseRecOn with
  | nil => rfl
  | append_singleton files f ih =>
    rw [rootBytes_append, List.length_append, ih, length_direntList, List.length_append,
      List.length_singleton]
    show 16 * (files.length + 2) + 16 = 16 * (files.length + 1 + 2)
    omega

/-- The root directory and the files are there. -/
structure Packed (L : Layout) (d : Image) (files : List Input) : Prop where
  root : Holds L d ROOTINO T_DIR (rootBytes files)
  file : ∀ {k} (hk : k < files.length), Holds L d (k + 2) T_FILE (files.get ⟨k, hk⟩).content

/-- The blocks handed out for these files, with those of the metadata. -/
def usedBlocks (files : List Input) : ℕ :=
  nmeta + needed (DIRENT * (files.length + 2)) + (files.map fun f => needed f.content.length).sum

/-- The faults that an argument allows, for a list of files that has them. -/
structure Allows (E : Exit → Prop) (files : List Input) : Prop where
  rsect : FSSIZE < usedBlocks files → E .rsect
  fbn : ∀ {f}, f ∈ files → MAXFILE * BSIZE < f.content.length → E .fbn
  openInput : ∀ {f}, f ∈ files → f.reads = none → E .openInput
  slash : ∀ {f}, f ∈ files → Fs.slash ∈ f.name.takeWhile (· ≠ 0) → E .slash

theorem chunkLoop_ends (cs : List Chunk) (h : Built N hN m) (hi : i < N)
    (hholds : Holds (sbOf N hN) m.disk i T_FILE bytes)
    (hmax : MAXFILE * BSIZE < (bytes ++ cs.flatMap Chunk.bytes).length → E .fbn)
    (hfull : FSSIZE + needed bytes.length <
      m.freeblock + needed (bytes ++ cs.flatMap Chunk.bytes).length → E .rsect)
    (hQ : ∀ m', Built N hN m' → OnlyFile (sbOf N hN) i m.disk m'.disk →
      Holds (sbOf N hN) m'.disk i T_FILE (bytes ++ cs.flatMap Chunk.bytes) →
      m'.freeblock + needed bytes.length =
        m.freeblock + needed (bytes ++ cs.flatMap Chunk.bytes).length →
      m'.freeinode = m.freeinode → Q () m') : Ends E (chunkLoop i cs) m Q := by
  induction cs generalizing m bytes with
  | nil =>
    simp only [List.flatMap_nil, List.append_nil] at hQ
    exact Ends.pure (hQ m h .refl hholds rfl rfl)
  | cons c cs ih =>
    have hbytes : (List.range c.bytes.length).map (fun t => c.bytes.getD t 0) = c.bytes := by
      apply List.ext_getElem
      · simp
      · intro t h₁ h₂
        simp [List.getD_eq_getElem?_getD, h₂]
    simp only [List.flatMap_cons, ← List.append_assoc] at hmax hfull hQ
    have hlen : bytes.length + c.bytes.length ≤
        (bytes ++ c.bytes ++ cs.flatMap Chunk.bytes).length := by
      simp only [List.length_append]
      omega
    have hneeded := needed_mono hlen
    apply Ends.seq
    apply h.iappend_ends hi (by rw [hholds.type]; decide) (by rw [hholds.type]; decide)
      hholds.size
    · intro hbig
      exact hmax (hbig.trans_le hlen)
    · intro hbig
      exact hfull (by omega)
    · intro m₁ hbuilt hw hcount hinode
      have hholds₁ := hholds.append hw
      rw [hbytes] at hholds₁
      rw [← List.length_append] at hcount
      apply ih hbuilt hholds₁ hmax
      · intro hbig
        exact hfull (by omega)
      · intro m₂ hbuilt₂ honly₂ hholds₂ hcount₂ hinode₂
        exact hQ m₂ hbuilt₂ (hw.only.trans honly₂) hholds₂ (by omega) (hinode₂.trans hinode)

theorem Built.addEntry_ends {name : List Byte} {inum : ℕ} (h : Built N hN m) (hlt : ROOTINO < N)
    (hroot : Holds (sbOf N hN) m.disk ROOTINO T_DIR bytes)
    (hmax : bytes.length + DIRENT ≤ MAXFILE * BSIZE)
    (hfull : FSSIZE + needed bytes.length < m.freeblock + needed (bytes.length + DIRENT) →
      E .rsect)
    (hQ : ∀ m', Built N hN m' → OnlyFile (sbOf N hN) ROOTINO m.disk m'.disk →
      Holds (sbOf N hN) m'.disk ROOTINO T_DIR (bytes ++ direntList name inum) →
      m'.freeblock + needed bytes.length = m.freeblock + needed (bytes.length + DIRENT) →
      m'.freeinode = m.freeinode → Q () m') : Ends E (addEntry ROOTINO name inum) m Q := by
  apply h.iappend_ends hlt (by rw [hroot.type]; decide) (by rw [hroot.type]; decide) hroot.size
  · exact fun hbig => absurd hmax hbig.not_ge
  · exact hfull
  · intro m' hb hw hcount hinode
    exact hQ m' hb hw.only (hroot.append hw) hcount hinode

theorem usedBlocks_append (files : List Input) (f : Input) :
    usedBlocks (files ++ [f]) + needed (DIRENT * (files.length + 2)) =
      usedBlocks files + needed (DIRENT * (files.length + 1 + 2)) + needed f.content.length := by
  simp only [usedBlocks, List.length_append, List.length_singleton, List.map_append,
    List.sum_append, List.map_singleton, List.sum_singleton]
  omega

theorem usedBlocks_mono (files rest : List Input) :
    usedBlocks files ≤ usedBlocks (files ++ rest) := by
  have hlen : needed (DIRENT * (files.length + 2)) ≤
      needed (DIRENT * ((files ++ rest).length + 2)) := by
    apply needed_mono
    rw [List.length_append]
    show 16 * (files.length + 2) ≤ 16 * (files.length + rest.length + 2)
    omega
  simp only [usedBlocks, List.map_append, List.sum_append]
  omega

/-- One more file. -/
theorem addFile_ends {done : List Input} {f : Input} (hallows : Allows E (done ++ [f]))
    (h : Built N hN m) (hlt : done.length + 2 < N) (hpacked : Packed (sbOf N hN) m.disk done)
    (hinodes : m.freeinode = done.length + 2) (hblocks : m.freeblock = usedBlocks done)
    (hQ : ∀ m', Built N hN m' → Packed (sbOf N hN) m'.disk (done ++ [f]) →
      m'.freeinode = done.length + 3 → m'.freeblock = usedBlocks (done ++ [f]) → Q () m') :
    Ends E (addFile ROOTINO f) m Q := by
  have hmem : f ∈ done ++ [f] := by simp
  have hused := usedBlocks_append done f
  have hlen : DIRENT * (done.length + 2) + DIRENT = DIRENT * (done.length + 1 + 2) := by
    show 16 * (done.length + 2) + 16 = 16 * (done.length + 1 + 2)
    omega
  apply Ends.check_bind
  · intro _
    cases hreads : f.reads with
    | none => exact Ends.fail (hallows.openInput hmem hreads)
    | some chunks =>
      have hcontent : f.content = chunks.flatMap Chunk.bytes := by
        simp [Input.content, hreads]
      have hroot₀ := hpacked.root
      rw [← hinodes] at hlt
      apply Ends.seq
      apply h.ialloc_ends hlt
      intro m₁ hb₁ honly₁ hnew₁ hblocks₁ hinode₁
      have hrootlt : ROOTINO < N := by
        show 1 < N
        omega
      have hroot₁ : Holds (sbOf N hN) m₁.disk ROOTINO T_DIR (rootBytes done) := by
        apply hroot₀.other (by decide) h.consistent hrootlt honly₁
        show 1 ≠ m.freeinode
        omega
      have hempty : Holds (sbOf N hN) m₁.disk m.freeinode T_FILE [] := by
        constructor <;> rw [hnew₁] <;> rfl
      have hsize := length_rootBytes done
      apply Ends.seq
      apply hb₁.addEntry_ends hrootlt hroot₁
      · have : done.length + 2 < 208 := by
          rw [← hinodes]
          exact hlt.trans_le hN
        rw [hsize]
        show 16 * (done.length + 2) + 16 ≤ 140 * 512
        omega
      · intro hbig
        apply hallows.rsect
        rw [hsize, hlen] at hbig
        omega
      · intro m₂ hb₂ honly₂ hroot₂ hcount₂ hinode₂
        have hfile₂ : Holds (sbOf N hN) m₂.disk m.freeinode T_FILE [] := by
          apply hempty.other (by decide) hb₁.consistent hlt honly₂
          show m.freeinode ≠ 1
          omega
        rw [hsize, hlen] at hcount₂
        apply chunkLoop_ends chunks hb₂ hlt hfile₂
        · intro hbig
          apply hallows.fbn hmem
          rwa [hcontent]
        · intro hbig
          apply hallows.rsect
          rw [List.nil_append, ← hcontent] at hbig
          have : needed ([] : List Byte).length = 0 := rfl
          omega
        · intro m₃ hb₃ honly₃ hfile₃ hcount₃ hinode₃
          rw [List.nil_append, ← hcontent] at hfile₃ hcount₃
          have hzero : needed ([] : List Byte).length = 0 := rfl
          have hroot₃ := hroot₂.other (by decide) hb₂.consistent hrootlt honly₃
            (show 1 ≠ m.freeinode by omega)
          rw [hinodes] at hroot₃ hfile₃
          apply hQ m₃ hb₃ _ (by omega) (by omega)
          constructor
          · rw [rootBytes_append]
            exact hroot₃
          · intro k hk
            rw [List.length_append, List.length_singleton] at hk
            by_cases hold : k < done.length
            · have hkN : k + 2 < N := by omega
              have hfile₀ := hpacked.file hold
              have hget : (done ++ [f]).get ⟨k, by simpa using hk⟩ = done.get ⟨k, hold⟩ := by
                simp [hold]
              rw [hget]
              have hfile₁ := hfile₀.other (by decide) h.consistent hkN honly₁ (by omega)
              have hfile₂ := hfile₁.other (by decide) hb₁.consistent hkN honly₂
                (show k + 2 ≠ 1 by omega)
              exact hfile₂.other (by decide) hb₂.consistent hkN honly₃ (by omega)
            · obtain rfl : k = done.length := by omega
              simpa using hfile₃
  · intro hslash
    apply hallows.slash hmem
    exact not_not.mp hslash

theorem Allows.front {rest : List Input} (h : Allows E (files ++ rest)) : Allows E files where
  rsect hbig := h.rsect (hbig.trans_le (usedBlocks_mono files rest))
  fbn hf := h.fbn (List.mem_append_left _ hf)
  openInput hf := h.openInput (List.mem_append_left _ hf)
  slash hf := h.slash (List.mem_append_left _ hf)

theorem fileLoop_ends {done : List Input} (rest : List Input) (hallows : Allows E (done ++ rest))
    (h : Built N hN m) (hlt : (done ++ rest).length + 2 ≤ N)
    (hpacked : Packed (sbOf N hN) m.disk done) (hinodes : m.freeinode = done.length + 2)
    (hblocks : m.freeblock = usedBlocks done)
    (hQ : ∀ m', Built N hN m' → Packed (sbOf N hN) m'.disk (done ++ rest) →
      m'.freeinode = (done ++ rest).length + 2 → m'.freeblock = usedBlocks (done ++ rest) →
      Q () m') : Ends E (fileLoop ROOTINO rest) m Q := by
  induction rest generalizing m done with
  | nil =>
    rw [List.append_nil] at hQ
    exact Ends.pure (hQ m h hpacked hinodes hblocks)
  | cons f rest ih =>
    have hsplit : done ++ f :: rest = (done ++ [f]) ++ rest := by simp
    rw [hsplit] at hallows hlt hQ
    apply Ends.seq
    apply addFile_ends hallows.front h _ hpacked hinodes hblocks
    · intro m' hb' hpacked' hinodes' hblocks'
      apply ih hallows hb' hlt hpacked' _ hblocks' hQ
      rw [hinodes', List.length_append, List.length_singleton]
    · simp only [List.length_append, List.length_singleton] at hlt
      omega

/-! ## The whole run -/

theorem zeroLoop_eq (secs : List ℕ) (himg : m.img = fun _ _ => 0) :
    zeroLoop secs m =
      .ok ((), { m with nsect := secs.foldl (fun n sec => max n (sec + 1)) m.nsect }) := by
  induction secs generalizing m with
  | nil => rfl
  | cons sec secs ih =>
    have hsame : Function.update m.img sec (fun _ => 0) = m.img := by
      rw [himg]
      exact Function.update_eq_self sec _
    have hfirst : wsect sec (fun _ => 0) m =
        .ok ((), { m with nsect := max m.nsect (sec + 1) }) := by
      rw [wsect, Command.modify, hsame]
    rw [zeroLoop, bind_ok hfirst]
    exact ih himg

theorem foldl_max_range (n : ℕ) : (List.range n).foldl (fun n sec => max n (sec + 1)) 0 = n := by
  induction n with
  | zero => rfl
  | succ n ih =>
    rw [List.range_succ, List.foldl_append, ih]
    exact Nat.max_eq_right (Nat.le_succ n)

/-- The image before the first inode. -/
def blank : State where
  img := Function.update (fun _ _ => 0) 1 (putWords (fun _ => 0) 0 7 sbWords)
  nsect := FSSIZE

theorem initImage_eq : initImage {} = .ok ((), blank) := by
  have hzero := zeroLoop_eq (m := {}) (List.range FSSIZE) rfl
  rw [foldl_max_range] at hzero
  rw [initImage, bind_ok hzero]
  rfl

theorem built_blank : Built N hN blank := by
  have hsectors : Sectors blank := by
    refine ⟨rfl, ?_, le_rfl, by decide, fun {b} hle _ => ?_⟩
    · simp [blank]
    · have hge : 59 ≤ b := hle
      simp [blank, show b ≠ 1 by omega]
  have hfree : ∀ i < N, ((sbOf N hN).inode blank.disk i).type = 0 := by
    intro i hi
    have hlt := iblock_lt hi hN
    have hblock : blank.disk ((sbOf N hN).iblock i) = fun _ => 0 := by
      have hpos : sb.iblock i ≠ 1 := by
        show i / 8 + 32 ≠ 1
        omega
      rw [show (sbOf N hN).iblock i = sb.iblock i from rfl, disk_of_ne hlt.ne]
      simp [blank, hpos]
    rw [Layout.inode, hblock]
    show low (getWord (fun _ => 0) _) = 0
    rw [getWord_zero]
    rfl
  refine ⟨hsectors, consistent_of_free hfree ?_, ?_, Nat.one_pos, fun _ hi => hfree _ hi⟩
  · intro b hb
    rw [marked_disk hb]
    exact decide_eq_true_iff
  · intro i hi htype
    exact absurd (hfree i hi) htype

/-- The size of inode `i` is changed, nothing else. -/
def resize (L : Layout) (d : Image) (i : ℕ) (size : BitVec 32) : Image :=
  L.setInode d i { L.inode d i with size := size }

/-- What a run of `mkfs` leaves: the image of the build, with a larger root directory. -/
structure Made (N : ℕ) (hN : N ≤ ninodeblocks * IPB) (files : List Input) (m : State) : Prop where
  inodes : m.freeinode = files.length + 2
  blocks : m.freeblock = usedBlocks files
  super : m.img 1 = putWords (fun _ => 0) 0 7 sbWords
  image : ∃ d, Consistent (sbOf N hN) d ∧ (sbOf N hN).AllExact d ∧ Packed (sbOf N hN) d files ∧
    (∀ i, files.length + 2 ≤ i → i < N → ((sbOf N hN).inode d i).type = 0) ∧
    m.img = resize (sbOf N hN) d ROOTINO
      (BitVec.ofNat 32 ((DIRENT * (files.length + 2) / BSIZE + 1) * BSIZE))

theorem finish_ends (h : Built N hN m) (hlt : ROOTINO < N)
    (hpacked : Packed (sbOf N hN) m.disk files) (hinodes : m.freeinode = files.length + 2)
    (hblocks : m.freeblock = usedBlocks files) (hQ : ∀ m', Made N hN files m' → Q () m') :
    Ends E (do fixRoot ROOTINO; let used ← read fun m => m.freeblock; balloc used) m Q := by
  apply Ends.seq
  apply Ends.seq
  apply rinode_ends hN h.sectors hlt
  apply winode_ends hN h.sectors hlt
  intro m₁ hdisk hs₁ hblocks₁ hinodes₁
  apply Ends.read_bind
  apply Ends.check_bind
  · intro _
    have hsec : sb.bmapstart < m₁.nsect := by
      rw [hs₁.nsect]
      decide
    apply wsect_ends hsec
    apply hQ
    rw [hpacked.root.size, length_rootBytes] at hdisk
    refine ⟨hinodes₁.trans hinodes, hblocks₁.trans hblocks, ?_, m.disk, h.consistent, h.exact,
      hpacked, ?_, hdisk⟩
    · have hne : 1 ≠ sb.bmapstart := by decide
      exact (Function.update_of_ne hne (mapBlock m₁.freeblock) m₁.img).trans hs₁.super
    · intro i hi
      exact h.free (hinodes ▸ hi)
  · intro hno
    have hfits : m₁.freeblock ≤ 1000 := hs₁.fits
    change ¬m₁.freeblock < 4096 at hno
    omega

theorem populate_ends (hallows : Allows E files) (hlt : files.length + 2 ≤ N) (h : Built N hN m)
    (hinodes : m.freeinode = 1) (hblocks : m.freeblock = nmeta) :
    Ends E (populate files) m fun _ m => Made N hN files m := by
  have hrootlt : ROOTINO < N := by
    show 1 < N
    omega
  apply Ends.seq
  apply h.ialloc_ends (hinodes ▸ hrootlt)
  intro m₁ hb₁ _ hnew₁ hblocks₁ hinode₁
  rw [hinodes] at hnew₁ hinode₁ ⊢
  have hroot₁ : Holds (sbOf N hN) m₁.disk ROOTINO T_DIR [] := by
    change (sbOf N hN).inode m₁.disk ROOTINO = _ at hnew₁
    constructor <;> rw [hnew₁] <;> rfl
  apply Ends.check_bind
  · intro _
    have hone : needed ([] : List Byte).length = 0 := rfl
    have hdot : needed (([] : List Byte).length + DIRENT) = 1 := rfl
    have hlen : ([] ++ direntList dot ROOTINO).length = DIRENT := length_direntList ..
    have hdotdot : needed (DIRENT + DIRENT) = 1 := rfl
    have hm : m₁.freeblock = 59 := hblocks₁.trans hblocks
    apply Ends.seq
    apply hb₁.addEntry_ends hrootlt hroot₁ (by decide)
    · intro hbig
      rw [hone, hdot, hm] at hbig
      exact absurd hbig (by decide)
    · intro m₂ hb₂ _ hroot₂ hcount₂ hinode₂
      rw [hone, hdot, hm] at hcount₂
      change m₂.freeblock = 60 at hcount₂
      apply Ends.seq
      apply hb₂.addEntry_ends hrootlt hroot₂ (by rw [hlen]; decide)
      · intro hbig
        rw [hlen, hdotdot, hcount₂] at hbig
        exact absurd hbig (by decide)
      · intro m₃ hb₃ _ hroot₃ hcount₃ hinode₃
        rw [hlen, hdotdot, hcount₂] at hcount₃
        change m₃.freeblock + 1 = 61 at hcount₃
        have hpacked : Packed (sbOf N hN) m₃.disk [] := by
          constructor
          · simpa [rootBytes] using hroot₃
          · intro k hk
            exact absurd hk (Nat.not_lt_zero k)
        have hused : usedBlocks [] = 60 := by decide
        apply Ends.seq
        have hall : Allows E ([] ++ files) := hallows
        apply fileLoop_ends files hall hb₃ hlt hpacked
        · rw [hinode₃, hinode₂, hinode₁]
          rfl
        · omega
        · intro m₄ hb₄ hpacked₄ hinode₄ hcount₄
          exact finish_ends hb₄ hrootlt hpacked₄ hinode₄ hcount₄ fun _ h => h
  · intro hno
    exact absurd rfl hno

theorem mkfs_eq (files : List Input) : mkfs files {} = populate files blank := by
  rw [mkfs, bind_ok initImage_eq]

theorem mkfs_ends (hallows : Allows E files) (hlt : files.length + 2 ≤ N) :
    Ends E (mkfs files) {} fun _ m => Made N hN files m := by
  rw [Ends, mkfs_eq, ← Ends]
  exact populate_ends hallows hlt built_blank rfl rfl

end

end Xv6Threads.Mkfs
