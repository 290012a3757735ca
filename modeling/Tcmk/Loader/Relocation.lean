import Tcmk.Loader.Pe

/-!
# Rebasing PE files

What `layOut` leaves in memory: the sections over zeros, and the load delta added to what the table
of base relocations lists. The table is read from the memory that is being changed; where its
targets lie outside its blocks, that makes no difference (`applyBlocks_ok`). A file without a table
is run unrelocated (`rebased`).
-/

namespace Tcmk

namespace Loader.Pe

open Lib

/-! ## What the file says -/

/-- The number at an offset of the file. -/
def fileNat (f : Format) (image : Image) (off n : ℕ) : ℕ :=
  loadNat f.bits image.byte (off % 2 ^ f.bits) n

/-- An offset range that lies in the file. -/
def InFile (f : Format) (image : Image) (off n : ℕ) : Prop :=
  off % 2 ^ f.bits ≤ (off % 2 ^ f.bits + n) % 2 ^ f.bits ∧
    (off % 2 ^ f.bits + n) % 2 ^ f.bits ≤ image.len

instance (f : Format) (image : Image) (off n : ℕ) : Decidable (InFile f image off n) :=
  inferInstanceAs (Decidable (_ ∧ _))

def headersOf (f : Format) (image : Image) : Headers :=
  let coff := fileNat f image 0x3C 4 + 4
  let opt := coff + 20
  { numSections := fileNat f image (coff + 2) 2
    opt := opt
    sizeOfOptional := fileNat f image (coff + 16) 2
    entryRva := fileNat f image (opt + 16) 4
    imageBase := fileNat f image (opt + f.imageBaseAt) f.word
    sizeOfImage := fileNat f image (opt + 56) 4 }

def sectionOf (f : Format) (image : Image) (i : ℕ) : Section :=
  let h := headersOf f image
  let sh := h.opt + h.sizeOfOptional + i * 40
  ⟨fileNat f image (sh + 8) 4, fileNat f image (sh + 12) 4, fileNat f image (sh + 16) 4,
    fileNat f image (sh + 20) 4⟩

/-- The section table. -/
def sectionTable (f : Format) (image : Image) : List Section :=
  (List.range (headersOf f image).numSections).map (sectionOf f image)

/-- The memory with the raw data of a section at its place. -/
def Section.place (f : Format) (image : Image) (mem : ℕ → UInt8) (s : Section) : ℕ → UInt8 :=
  store f.bits mem (f.addr s.virtualAddr) s.rawSize fun k =>
    image.byte ((s.rawPtr + k) % 2 ^ f.bits)

/-- The sections in the order of the table, over zeros. -/
def laidOut (f : Format) (image : Image) (mem : ℕ → UInt8) : ℕ → UInt8 :=
  (sectionTable f image).foldl (Section.place f image)
    (store f.bits mem userMemStart (headersOf f image).sizeOfImage fun _ => 0)

/-- A field of a data directory. -/
def dirNat (f : Format) (image : Image) (off : ℕ) : ℕ :=
  if InFile f image off 4 then fileNat f image off 4 else 0

theorem dirNat_lt {f : Format} {image : Image} {off : ℕ} : dirNat f image off < 256 ^ 4 := by
  unfold dirNat
  split_ifs
  · exact loadNat_lt
  · decide

/-- A data directory. -/
def directory (f : Format) (image : Image) (index : ℕ) : ℕ × ℕ :=
  let at_ := (headersOf f image).opt + f.directoriesAt + index * 8
  (dirNat f image at_, dirNat f image (at_ + 4))

/-- The file carries a relocation directory. -/
def HasRelocations (f : Format) (image : Image) : Prop :=
  (directory f image dirBaseReloc).1 ≠ 0 ∧ (directory f image dirBaseReloc).2 ≠ 0

instance (f : Format) (image : Image) : Decidable (HasRelocations f image) :=
  inferInstanceAs (Decidable (_ ∧ _))

/-- The file carries an import directory. -/
def HasImports (f : Format) (image : Image) : Prop :=
  (directory f image dirImport).1 ≠ 0 ∧ (directory f image dirImport).2 ≠ 0

/-! ## The checks of headers and sections -/

/-- The file passes the checks of `readHeaders`. -/
structure HeadersPass (f : Format) (image : Image) : Prop where
  dos : InFile f image 0 2 ∧ fileNat f image 0 2 = dosMagic
  peOff : InFile f image 0x3C 4
  signature : InFile f image (fileNat f image 0x3C 4) 4 ∧
    fileNat f image (fileNat f image 0x3C 4) 4 = peSignature
  machine : InFile f image (fileNat f image 0x3C 4 + 4) 2 ∧
    fileNat f image (fileNat f image 0x3C 4 + 4) 2 = f.machine
  numSections : InFile f image (fileNat f image 0x3C 4 + 4 + 2) 2
  sizeOfOptional : InFile f image (fileNat f image 0x3C 4 + 4 + 16) 2 ∧
    f.directoriesAt ≤ (headersOf f image).sizeOfOptional
  magic : InFile f image (headersOf f image).opt 2 ∧
    fileNat f image (headersOf f image).opt 2 = f.magic
  entryRva : InFile f image ((headersOf f image).opt + 16) 4
  imageBase : InFile f image ((headersOf f image).opt + f.imageBaseAt) f.word
  sizeOfImage : InFile f image ((headersOf f image).opt + 56) 4

/-- The fields of the section header `i` lie in the file. -/
structure SectionInFile (f : Format) (image : Image) (i : ℕ) : Prop where
  virtualSize :
    InFile f image ((headersOf f image).opt + (headersOf f image).sizeOfOptional + i * 40 + 8) 4
  virtualAddr :
    InFile f image ((headersOf f image).opt + (headersOf f image).sizeOfOptional + i * 40 + 12) 4
  rawSize :
    InFile f image ((headersOf f image).opt + (headersOf f image).sizeOfOptional + i * 40 + 16) 4
  rawPtr :
    InFile f image ((headersOf f image).opt + (headersOf f image).sizeOfOptional + i * 40 + 20) 4

/-- The section passes the checks of `loadSection`. -/
structure SectionPasses (f : Format) (image : Image) (i : ℕ) : Prop where
  header : SectionInFile f image i
  fits : ((sectionOf f image i).virtualAddr + (sectionOf f image i).span) % 2 ^ f.bits ≤
    (headersOf f image).sizeOfImage
  data : (sectionOf f image i).rawSize > 0 →
    (sectionOf f image i).rawPtr ≤
        ((sectionOf f image i).rawPtr + (sectionOf f image i).rawSize) % 2 ^ f.bits ∧
      ((sectionOf f image i).rawPtr + (sectionOf f image i).rawSize) % 2 ^ f.bits ≤ image.len

/-- The file passes the checks that come before the relocations. -/
structure Passes (f : Format) (image : Image) : Prop where
  headers : HeadersPass f image
  size : (userMemStart + (headersOf f image).sizeOfImage) % 2 ^ f.bits ≤
    userMemStart + userMemSize
  sections : ∀ i < (headersOf f image).numSections, SectionPasses f image i

/-! ## What the table of relocations lists -/

/-- A block of the table. -/
structure Block where
  addr : ℕ
  page : ℕ
  size : ℕ

def blockAt (f : Format) (mem : ℕ → UInt8) (addr : ℕ) : Block :=
  ⟨addr, loadNat f.bits mem addr 4, loadNat f.bits mem ((addr + 4) % 2 ^ f.bits) 4⟩

/-- The block is too short, or it ends beyond the table. -/
def Block.Malformed (f : Format) (b : Block) (relocSize offset : ℕ) : Prop :=
  b.size < 8 ∨ (offset + b.size) % 2 ^ f.bits > relocSize

instance (f : Format) (b : Block) (relocSize offset : ℕ) :
    Decidable (b.Malformed f relocSize offset) :=
  inferInstanceAs (Decidable (_ ∨ _))

/-- The blocks from an offset of the table on. It ends at a malformed block, of which only the
header counts. -/
def blocksFrom (f : Format) (mem : ℕ → UInt8) (relocRva relocSize : ℕ) : ℕ → ℕ → List Block
  | 0, _ => []
  | fuel + 1, offset =>
    if (offset + 8) % 2 ^ f.bits ≤ relocSize then
      let b := blockAt f mem (f.addr (relocRva + offset))
      if b.Malformed f relocSize offset then [{ b with size := 8 }]
      else b :: blocksFrom f mem relocRva relocSize fuel ((offset + b.size) % 2 ^ f.bits)
    else []

/-- The number of entries of a block. -/
def Block.entries (b : Block) : ℕ := (b.size - 8) / 2

/-- The address that an entry of a block lists; padding lists none. -/
def Block.target (f : Format) (mem : ℕ → UInt8) (b : Block) (i : ℕ) : Option ℕ :=
  let entry := loadNat f.bits mem ((b.addr + 8 + i * 2) % 2 ^ f.bits) 2
  if entry / 2 ^ 12 = f.relocKind then some (f.addr (b.page + entry % 2 ^ 12))
  else none

def Block.targets (f : Format) (mem : ℕ → UInt8) (b : Block) : List ℕ :=
  (List.range b.entries).filterMap (b.target f mem)

/-- The table of a file, as it lies in memory. -/
def relocBlocks (f : Format) (image : Image) (mem : ℕ → UInt8) (fuel : ℕ) : List Block :=
  if HasRelocations f image then
    blocksFrom f mem (directory f image dirBaseReloc).1 (directory f image dirBaseReloc).2 fuel 0
  else []

def relocTargets (f : Format) (image : Image) (mem : ℕ → UInt8) (fuel : ℕ) : List ℕ :=
  (relocBlocks f image mem fuel).flatMap (Block.targets f mem)

/-! ## The headers -/

variable {f : Format} {image : Image} {h : Headers} {s t : Bus} {off n v : ℕ} {e : Error}

theorem readAt_ok : (readAt f image off n e).run s = (.ok v, t) ↔
    InFile f image off n ∧ v = fileNat f image off n ∧
      t = s.record (.file (off % 2 ^ f.bits) n) := by
  unfold readAt
  by_cases hin : InFile f image off n
  · rw [and_iff_right hin, ← @Prog.run_pure_ok Bus (Option Error)]
    dsimp only
    rw [if_pos (show _ ∧ _ from hin)]
    rfl
  · refine iff_of_false ?_ fun h => hin h.1
    dsimp only
    rw [if_neg (show ¬ (_ ∧ _) from hin)]
    exact Prog.run_throw_ok

theorem readOrZero_run (s : Bus) :
    ∃ t, (readOrZero f image off 4).run s = (.ok (dirNat f image off), t) := by
  unfold readOrZero dirNat
  dsimp only
  by_cases hin : InFile f image off 4
  · rw [if_pos (show _ ∧ _ from hin), if_pos hin]
    exact ⟨_, rfl⟩
  · rw [if_neg (show ¬ (_ ∧ _) from hin), if_neg hin]
    exact ⟨_, rfl⟩

theorem readOrZero_ok (hr : (readOrZero f image off 4).run s = (.ok v, t)) :
    v = dirNat f image off ∧ t.mem = s.mem := by
  unfold readOrZero at hr
  unfold dirNat
  dsimp only at hr
  by_cases hin : InFile f image off 4
  · rw [if_pos (show _ ∧ _ from hin)] at hr
    rw [if_pos hin]
    obtain ⟨rfl, rfl⟩ := Prog.run_pure_ok.1 hr
    exact ⟨rfl, rfl⟩
  · rw [if_neg (show ¬ (_ ∧ _) from hin)] at hr
    rw [if_neg hin]
    obtain ⟨rfl, rfl⟩ := Prog.run_pure_ok.1 hr
    exact ⟨rfl, rfl⟩

/-- A check that throws. -/
theorem run_check_ok {c : Prop} [Decidable c] {e : Option Error} {α β : Type}
    {k : β → Prog Bus (Option Error) α} {x : Prog Bus (Option Error) α} {a : α} :
    (if c then Prog.throw e >>= k else x).run s = (.ok a, t) ↔ ¬ c ∧ x.run s = (.ok a, t) := by
  by_cases hc : c
  · rw [if_pos hc]
    exact iff_of_false (fun h => by cases h) fun h => h.1 hc
  · rw [if_neg hc, and_iff_right hc]

theorem readHeaders_ok (hr : (readHeaders f image).run s = (.ok h, t)) :
    HeadersPass f image ∧ h = headersOf f image ∧ t.mem = s.mem := by
  unfold readHeaders at hr
  simp only [Prog.run_bind_ok, readAt_ok, run_check_ok, Prog.run_pure_ok] at hr
  obtain ⟨_, _, ⟨hdos, rfl, rfl⟩, hmagic, _, _, ⟨hoff, rfl, rfl⟩, _, _, ⟨hsig, rfl, rfl⟩,
    hsignature,
    _, _, ⟨hmach, rfl, rfl⟩, hmachine, _, _, ⟨hnum, rfl, rfl⟩, _, _, ⟨hopt, rfl, rfl⟩, hsize, _, _,
    ⟨hkind, rfl, rfl⟩, hformat, _, _, ⟨hentry, rfl, rfl⟩, _, _, ⟨hbase, rfl, rfl⟩,
    _, _, ⟨himage, rfl, rfl⟩, rfl, rfl⟩ := hr
  refine ⟨?_, rfl, rfl⟩
  exact
    { dos := ⟨hdos, not_not.1 hmagic⟩
      peOff := hoff
      signature := ⟨hsig, not_not.1 hsignature⟩
      machine := ⟨hmach, not_not.1 hmachine⟩
      numSections := hnum
      sizeOfOptional := ⟨hopt, Nat.le_of_not_lt hsize⟩
      magic := ⟨hkind, not_not.1 hformat⟩
      entryRva := hentry
      imageBase := hbase
      sizeOfImage := himage }

theorem HeadersPass.run (h : HeadersPass f image) (s : Bus) :
    ∃ t, (readHeaders f image).run s = (.ok (headersOf f image), t) := by
  unfold readHeaders
  simp only [Prog.run_bind_ok, readAt_ok, run_check_ok, Prog.run_pure_ok]
  exact ⟨_, _, _, ⟨h.dos.1, rfl, rfl⟩, not_not.2 h.dos.2, _, _, ⟨h.peOff, rfl, rfl⟩,
    _, _, ⟨h.signature.1, rfl, rfl⟩, not_not.2 h.signature.2,
    _, _, ⟨h.machine.1, rfl, rfl⟩, not_not.2 h.machine.2, _, _, ⟨h.numSections, rfl, rfl⟩,
    _, _, ⟨h.sizeOfOptional.1, rfl, rfl⟩, Nat.not_lt.2 h.sizeOfOptional.2,
    _, _, ⟨h.magic.1, rfl, rfl⟩, not_not.2 h.magic.2, _, _, ⟨h.entryRva, rfl, rfl⟩,
    _, _, ⟨h.imageBase, rfl, rfl⟩, _, _, ⟨h.sizeOfImage, rfl, rfl⟩, rfl, rfl⟩

theorem readSection_ok {i : ℕ} {sec : Section}
    (hr : (readSection f image (headersOf f image) i).run s = (.ok sec, t)) :
    SectionInFile f image i ∧ sec = sectionOf f image i ∧ t.mem = s.mem := by
  unfold readSection at hr
  simp only [Prog.run_bind_ok, readAt_ok, Prog.run_pure_ok] at hr
  obtain ⟨_, _, ⟨hsize, rfl, rfl⟩, _, _, ⟨haddr, rfl, rfl⟩, _, _, ⟨hraw, rfl, rfl⟩,
    _, _, ⟨hptr, rfl, rfl⟩, rfl, rfl⟩ := hr
  exact ⟨⟨hsize, haddr, hraw, hptr⟩, rfl, rfl⟩

theorem copySection_ok {sec : Section} (hr : (copySection f image sec).run s = (.ok (), t)) :
    (sec.rawSize > 0 → sec.rawPtr ≤ (sec.rawPtr + sec.rawSize) % 2 ^ f.bits ∧
      (sec.rawPtr + sec.rawSize) % 2 ^ f.bits ≤ image.len) ∧
      t.mem = sec.place f image s.mem := by
  unfold copySection at hr
  unfold Section.place
  by_cases hraw : sec.rawSize > 0
  · rw [if_pos hraw] at hr
    by_cases hfile : sec.rawPtr ≤ (sec.rawPtr + sec.rawSize) % 2 ^ f.bits ∧
        (sec.rawPtr + sec.rawSize) % 2 ^ f.bits ≤ image.len
    · dsimp only at hr
      rw [if_pos hfile] at hr
      cases hr
      exact ⟨fun _ => hfile, rfl⟩
    · dsimp only at hr
      rw [if_neg hfile] at hr
      cases hr
  · rw [if_neg hraw] at hr
    cases hr
    refine ⟨fun h => absurd h hraw, ?_⟩
    rw [show sec.rawSize = 0 by omega, store_zero]

theorem loadSection_ok {highest i b : ℕ}
    (hr : (loadSection f image (headersOf f image) highest i).run s = (.ok b, t)) :
    SectionPasses f image i ∧ t.mem = (sectionOf f image i).place f image s.mem := by
  unfold loadSection at hr
  simp only [Prog.run_bind_ok, check_ok, Prog.run_pure_ok] at hr
  obtain ⟨sec, u, hsec, _, _, ⟨hfits, rfl⟩, _, v, hcopy, -, rfl⟩ := hr
  obtain ⟨hheader, rfl, hmem⟩ := readSection_ok hsec
  obtain ⟨hdata, hplace⟩ := copySection_ok hcopy
  refine ⟨⟨hheader, hfits, hdata⟩, ?_⟩
  rw [hplace, record_mem, hmem]

theorem SectionPasses.read {i : ℕ} (h : SectionPasses f image i) (s : Bus) :
    ∃ t, (readSection f image (headersOf f image) i).run s = (.ok (sectionOf f image i), t) := by
  unfold readSection
  simp only [Prog.run_bind_ok, readAt_ok, Prog.run_pure_ok]
  exact ⟨_, _, _, ⟨h.header.virtualSize, rfl, rfl⟩, _, _, ⟨h.header.virtualAddr, rfl, rfl⟩,
    _, _, ⟨h.header.rawSize, rfl, rfl⟩, _, _, ⟨h.header.rawPtr, rfl, rfl⟩, rfl, rfl⟩

theorem SectionPasses.run {i : ℕ} (h : SectionPasses f image i) (highest : ℕ) (s : Bus) :
    ∃ b t, (loadSection f image (headersOf f image) highest i).run s = (.ok b, t) := by
  have hcopy : ∀ u, ∃ v, (copySection f image (sectionOf f image i)).run u = (.ok (), v) := by
    intro u
    unfold copySection
    by_cases hraw : (sectionOf f image i).rawSize > 0
    · rw [if_pos hraw]
      dsimp only
      rw [if_pos (h.data hraw)]
      exact ⟨_, rfl⟩
    · rw [if_neg hraw]
      exact ⟨_, rfl⟩
  obtain ⟨u, hu⟩ := h.read s
  obtain ⟨v, hv⟩ := hcopy (u.record (.passed _))
  exact ⟨_, v, Prog.run_bind_ok.2 ⟨_, u, hu, Prog.run_bind_ok.2 ⟨(), _, check_ok.2 ⟨h.fits, rfl⟩,
    Prog.run_bind_ok.2 ⟨(), v, hv, rfl⟩⟩⟩⟩

theorem foldlM_loadSection_ok {is : List ℕ} {highest b : ℕ}
    (hr : (is.foldlM (loadSection f image (headersOf f image)) highest).run s = (.ok b, t)) :
    (∀ i ∈ is, SectionPasses f image i) ∧
      t.mem = (is.map (sectionOf f image)).foldl (Section.place f image) s.mem := by
  induction is generalizing highest s with
  | nil =>
    obtain ⟨-, rfl⟩ := Prog.run_pure_ok.1 hr
    exact ⟨fun _ hi => absurd hi List.not_mem_nil, rfl⟩
  | cons i is ih =>
    rw [List.foldlM_cons, Prog.run_bind_ok] at hr
    obtain ⟨a, u, hi, his⟩ := hr
    obtain ⟨hpass, hu⟩ := loadSection_ok hi
    obtain ⟨hrest, ht⟩ := ih his
    refine ⟨List.forall_mem_cons.2 ⟨hpass, hrest⟩, ?_⟩
    rw [ht, hu, List.map_cons, List.foldl_cons]

theorem foldlM_loadSection_run {is : List ℕ} (h : ∀ i ∈ is, SectionPasses f image i) (highest : ℕ)
    (s : Bus) :
    ∃ b t, (is.foldlM (loadSection f image (headersOf f image)) highest).run s = (.ok b, t) := by
  induction is generalizing highest s with
  | nil => exact ⟨_, _, rfl⟩
  | cons i is ih =>
    obtain ⟨hi, his⟩ := List.forall_mem_cons.1 h
    obtain ⟨a, u, hu⟩ := hi.run highest s
    obtain ⟨b, t, ht⟩ := ih his a u
    rw [List.foldlM_cons]
    exact ⟨b, t, Prog.run_bind_ok.2 ⟨a, u, hu, ht⟩⟩

theorem readDirectory_ok {index : ℕ} {d : ℕ × ℕ}
    (hr : (readDirectory f image (headersOf f image) index).run s = (.ok d, t)) :
    d = directory f image index ∧ t.mem = s.mem := by
  unfold readDirectory at hr
  simp only [Prog.run_bind_ok, Prog.run_pure_ok] at hr
  obtain ⟨_, u, hrva, _, v, hsize, rfl, rfl⟩ := hr
  obtain ⟨rfl, hu⟩ := readOrZero_ok hrva
  obtain ⟨rfl, hv⟩ := readOrZero_ok hsize
  exact ⟨rfl, hv.trans hu⟩

/-- A directory can always be read. -/
theorem readDirectory_run (index : ℕ) (s : Bus) :
    ∃ t, (readDirectory f image (headersOf f image) index).run s =
      (.ok (directory f image index), t) := by
  obtain ⟨u, hu⟩ := @readOrZero_run f image
    ((headersOf f image).opt + f.directoriesAt + index * 8) s
  obtain ⟨t, ht⟩ := @readOrZero_run f image
    ((headersOf f image).opt + f.directoriesAt + index * 8 + 4) u
  exact ⟨t, Prog.run_bind_ok.2 ⟨_, u, hu, Prog.run_bind_ok.2 ⟨_, t, ht, rfl⟩⟩⟩

/-! ## The walk over the table -/

variable {mem : ℕ → UInt8} {b : Block}
  {imageSize relocRva relocSize delta fuel offset i start count : ℕ}

/-- The memories agree on a block. -/
def Block.Agrees (f : Format) (b : Block) (mem mem' : ℕ → UInt8) : Prop :=
  ∀ x, Touches f.bits b.addr b.size x → mem x = mem' x

theorem Block.Agrees.loadNat {o n : ℕ} (h : b.Agrees f s.mem mem) (hsize : b.size ≤ 2 ^ f.bits)
    (ho : o + n ≤ b.size) :
    loadNat f.bits s.mem ((b.addr + o) % 2 ^ f.bits) n =
      Lib.loadNat f.bits mem ((b.addr + o) % 2 ^ f.bits) n :=
  loadNat_congr (fun x hx => h x (hx.sub ho hsize)) (by omega)

/-- An entry is applied as the table says, if the table has not changed. -/
theorem applyEntry_ok (hkind : f.relocKind ≠ 0) (h : b.Agrees f s.mem mem)
    (hsize : b.size ≤ 2 ^ f.bits) (hi : i < b.entries)
    (hr : (applyEntry f imageSize delta b.addr b.page i).run s = (.ok (), t)) :
    t.mem = (b.target f mem i).toList.foldl (addAt f.bits f.word delta) s.mem := by
  unfold applyEntry at hr
  simp only [Prog.run_bind_ok] at hr
  obtain ⟨entry, u, hentry, hr⟩ := hr
  obtain ⟨hvalue, rfl⟩ := readMem_ok.1 hentry
  rw [show b.addr + 8 + i * 2 = b.addr + (8 + i * 2) by omega,
    h.loadNat hsize (by unfold Block.entries at hi; omega)] at hvalue
  have htarget : b.target f mem i = if entry / 2 ^ 12 = f.relocKind then
      some (f.addr (b.page + entry % 2 ^ 12)) else none := by
    rw [hvalue, Block.target, Nat.add_assoc]
  rw [htarget]
  by_cases hpad : entry / 2 ^ 12 = 0
  · rw [if_pos hpad] at hr
    obtain ⟨-, rfl⟩ := Prog.run_pure_ok.1 hr
    rw [if_neg (by omega)]
    rfl
  rw [if_neg hpad] at hr
  by_cases hreloc : entry / 2 ^ 12 = f.relocKind
  · rw [if_pos hreloc] at hr ⊢
    simp only [Prog.run_bind_ok, check_ok] at hr
    obtain ⟨_, u, ⟨-, rfl⟩, value, v, hread, hr⟩ := hr
    obtain ⟨rfl, rfl⟩ := readMem_ok.1 hread
    cases hr
    rfl
  · rw [if_neg hreloc] at hr
    cases hr

/-- What lies apart from a block does not change it. -/
theorem Block.Agrees.foldl_addAt {n d : ℕ} {as : List ℕ} (h : b.Agrees f s.mem mem)
    (hapart : ∀ a ∈ as, Apart f.bits a n b.addr b.size) :
    b.Agrees f (as.foldl (addAt f.bits n d) s.mem) mem := by
  intro x hx
  rw [← h x hx]
  exact foldl_addAt_of_not fun a ha hax => hapart a ha x hax hx

theorem forRange_applyEntry_ok (hkind : f.relocKind ≠ 0) (h : b.Agrees f s.mem mem)
    (hsize : b.size ≤ 2 ^ f.bits) (hcount : start + count ≤ b.entries)
    (hapart : ∀ a ∈ b.targets f mem, Apart f.bits a f.word b.addr b.size)
    (hr : (Prog.forRange count start (applyEntry f imageSize delta b.addr b.page)).run s =
      (.ok (), t)) :
    t.mem = ((List.range' start count).filterMap (b.target f mem)).foldl
      (addAt f.bits f.word delta) s.mem := by
  induction count generalizing start s with
  | zero =>
    cases hr
    rfl
  | succ count ih =>
    rw [Prog.forRange, Prog.run_bind_ok] at hr
    obtain ⟨_, u, hfirst, hrest⟩ := hr
    have hu := applyEntry_ok hkind h hsize (by omega) hfirst
    have hagrees : b.Agrees f u.mem mem := by
      rw [hu]
      refine h.foldl_addAt fun a ha => hapart a ?_
      rw [Option.mem_toList] at ha
      exact List.mem_filterMap.2 ⟨start, List.mem_range.2 (by omega), ha⟩
    rw [ih hagrees (by omega) hrest, hu, ← List.foldl_append, List.range'_succ, List.filterMap_cons]
    cases b.target f mem start <;> rfl

theorem blockAt_size_le (hbits : 32 ≤ f.bits) (addr : ℕ) :
    (blockAt f mem addr).size ≤ 2 ^ f.bits := by
  have hlt : (blockAt f mem addr).size < 256 ^ 4 := loadNat_lt
  have hpow : 2 ^ 32 ≤ 2 ^ f.bits := Nat.pow_le_pow_right (by decide) hbits
  omega

/-- The header of a block, read from a memory that agrees on it. -/
theorem header_eq {addr : ℕ} (hbits : 32 ≤ f.bits)
    (h : ∀ x, Touches f.bits (f.addr addr) 8 x → s.mem x = mem x) :
    loadNat f.bits s.mem (f.addr addr) 4 = (blockAt f mem (f.addr addr)).page ∧
      loadNat f.bits s.mem ((f.addr addr + 4) % 2 ^ f.bits) 4 =
      (blockAt f mem (f.addr addr)).size := by
  have hpow : 2 ^ 32 ≤ 2 ^ f.bits := Nat.pow_le_pow_right (by decide) hbits
  constructor
  · exact loadNat_congr (fun x hx => h x ⟨hx.1, by have := hx.2; omega⟩) (by omega)
  · exact loadNat_congr (fun x hx => h x (hx.sub (by omega) (by omega))) (by omega)

/-- The loop applies the entries of all blocks, if the targets lie outside the table. -/
theorem applyBlocks_ok (hkind : f.relocKind ≠ 0) (hbits : 32 ≤ f.bits)
    (hagrees : ∀ b ∈ blocksFrom f mem relocRva relocSize fuel offset, b.Agrees f s.mem mem)
    (hapart : ∀ b ∈ blocksFrom f mem relocRva relocSize fuel offset,
      ∀ c ∈ blocksFrom f mem relocRva relocSize fuel offset, ∀ a ∈ c.targets f mem,
        Apart f.bits a f.word b.addr b.size)
    (hr : (applyBlocks f imageSize relocRva relocSize delta fuel offset).run s = (.ok (), t)) :
    t.mem = ((blocksFrom f mem relocRva relocSize fuel offset).flatMap (Block.targets f mem)).foldl
      (addAt f.bits f.word delta) s.mem := by
  induction fuel generalizing offset s with
  | zero => cases hr
  | succ fuel ih =>
    rw [applyBlocks] at hr
    rw [blocksFrom] at hagrees hapart ⊢
    by_cases hmore : (offset + 8) % 2 ^ f.bits ≤ relocSize
    · rw [if_pos hmore] at hr hagrees hapart ⊢
      simp only [Prog.run_bind_ok, run_check_ok, check_ok, Prog.run_modify] at hr
      have hsize := @blockAt_size_le f mem hbits (f.addr (relocRva + offset))
      have hheader := @header_eq f s mem (relocRva + offset) hbits
      have haddr : (blockAt f mem (f.addr (relocRva + offset))).addr = f.addr (relocRva + offset) :=
        rfl
      generalize blockAt f mem (f.addr (relocRva + offset)) = b
        at hagrees hapart hsize hheader haddr ⊢
      obtain ⟨_, _, hpassed, page, u, hpage, size, v, hsz, hmin, _, _, ⟨hend, rfl⟩, _, w,
        hentries, hr⟩ := hr
      cases hpassed
      obtain ⟨rfl, rfl⟩ := readMem_ok.1 hpage
      obtain ⟨rfl, rfl⟩ := readMem_ok.1 hsz
      simp only [record_mem] at hentries hmin hend hr
      by_cases hbad : b.Malformed f relocSize offset
      · have hfirst := hagrees _ (by rw [if_pos hbad]; exact List.mem_cons_self)
        rw [(hheader (by rw [← haddr]; exact hfirst)).2] at hmin hend
        exact absurd hbad (not_or.2 ⟨hmin, Nat.not_lt.2 hend⟩)
      dsimp only at hagrees hapart ⊢
      rw [if_neg hbad] at hagrees hapart ⊢
      have hfirst := hagrees b List.mem_cons_self
      obtain ⟨hpage, hsz⟩ := hheader fun x hx => hfirst x (by
        rw [haddr]
        exact ⟨hx.1, by have := hx.2; unfold Block.Malformed at hbad; omega⟩)
      rw [hsz] at hr
      rw [hpage, hsz, ← haddr] at hentries
      rw [List.flatMap_cons, List.foldl_append]
      have hw : w.mem = (b.targets f mem).foldl (addAt f.bits f.word delta) s.mem := by
        rw [forRange_applyEntry_ok hkind (s := (((s.record _).record _).record _).record _)
          hfirst hsize (by
          rw [Nat.zero_add]
          rfl) (hapart b List.mem_cons_self b List.mem_cons_self) hentries, ← List.range_eq_range']
        rfl
      rw [ih (fun c hc => ?_) (fun c hc c' hc' => hapart c (List.mem_cons_of_mem _ hc) c'
        (List.mem_cons_of_mem _ hc')) hr, hw]
      intro x hx
      rw [hw]
      exact (hagrees c (List.mem_cons_of_mem _ hc)).foldl_addAt
        (hapart c (List.mem_cons_of_mem _ hc) b List.mem_cons_self) x hx
    · rw [if_neg hmore] at hr ⊢
      cases hr
      rfl

/-- Where nothing wraps, the blocks lie in the directory. -/
theorem Touches.of_block (hfits : relocSize + 2 ^ 32 ≤ 2 ^ f.bits) (hoffset : offset ≤ relocSize)
    (hb : b ∈ blocksFrom f mem relocRva relocSize fuel offset) {x : ℕ}
    (hx : Touches f.bits b.addr b.size x) : Touches f.bits (f.addr relocRva) relocSize x := by
  have hpart : ∀ {offset n : ℕ}, offset + n ≤ relocSize →
    Touches f.bits (f.addr (relocRva + offset)) n x →
      Touches f.bits (f.addr relocRva) relocSize x := fun hle h => by
    rw [Format.addr, ← Nat.add_assoc, ← Nat.mod_add_mod] at h
    exact h.sub hle (by omega)
  induction fuel generalizing offset with
  | zero => cases hb
  | succ fuel ih =>
    rw [blocksFrom] at hb
    have hlt : (blockAt f mem (f.addr (relocRva + offset))).size < 256 ^ 4 := loadNat_lt
    have haddr : (blockAt f mem (f.addr (relocRva + offset))).addr = f.addr (relocRva + offset) :=
      rfl
    generalize blockAt f mem (f.addr (relocRva + offset)) = c at hb hlt haddr
    by_cases hmore : (offset + 8) % 2 ^ f.bits ≤ relocSize
    · rw [if_pos hmore] at hb
      rw [Nat.mod_eq_of_lt (by omega)] at hmore
      dsimp only at hb
      by_cases hbad : c.Malformed f relocSize offset
      · rw [if_pos hbad, List.mem_singleton] at hb
        subst hb
        exact hpart hmore (by rwa [haddr] at hx)
      · rw [if_neg hbad] at hb
        unfold Block.Malformed at hbad
        rw [Nat.mod_eq_of_lt (by omega)] at hbad hb
        rcases List.mem_cons.1 hb with rfl | hb
        · exact @hpart offset b.size (by omega) (by rwa [haddr] at hx)
        · exact ih (by omega) hb
    · rw [if_neg hmore] at hb
      cases hb

/-! ## The image in memory -/

/-- `d` has been added at each of the places and nowhere else. -/
structure Adjusted (f : Format) (mem mem' : ℕ → UInt8) (d : ℕ) (places : List ℕ) : Prop where
  added : ∀ a ∈ places,
    loadNat f.bits mem' a f.word = (loadNat f.bits mem a f.word + d) % 2 ^ f.bits
  others : ∀ x, (∀ a ∈ places, ¬ Touches f.bits a f.word x) → mem' x = mem x

/-- The targets of the relocations do not overlap each other or the relocation directory. -/
structure Tidy (f : Format) (image : Image) (mem : ℕ → UInt8) (fuel : ℕ) : Prop where
  targets : (relocTargets f image mem fuel).Pairwise fun a b => Apart f.bits a f.word b f.word
  directory : ∀ a ∈ relocTargets f image mem fuel, Apart f.bits a f.word
    (f.addr (directory f image dirBaseReloc).1) (directory f image dirBaseReloc).2

/-- They do not overlap a block of the table either. A block reaches beyond the directory if the sum
of its offset and its size wraps. -/
def BlocksApart (f : Format) (image : Image) (mem : ℕ → UInt8) (fuel : ℕ) : Prop :=
  ∀ b ∈ relocBlocks f image mem fuel, ∀ a ∈ relocTargets f image mem fuel,
    Apart f.bits a f.word b.addr b.size

/-- With more than 32 bits nothing wraps, and the blocks lie in the directory. -/
theorem Tidy.blocks_apart (hbits : 33 ≤ f.bits) (h : Tidy f image mem fuel) :
    BlocksApart f image mem fuel := by
  intro b hb a ha x hax hbx
  unfold relocBlocks at hb
  split_ifs at hb
  · have hlt : (Pe.directory f image dirBaseReloc).2 < 256 ^ 4 := dirNat_lt
    have hpow : 2 ^ 33 ≤ 2 ^ f.bits := Nat.pow_le_pow_right (by decide) hbits
    exact h.directory a ha x hax (Touches.of_block (by omega) (Nat.zero_le _) hb hbx)
  · cases hb

theorem format_relocKind (arch : Arch) : (format arch).relocKind ≠ 0 := by cases arch <;> decide

theorem format_bits (arch : Arch) : 32 ≤ (format arch).bits := by cases arch <;> decide

theorem format_word (arch : Arch) : 256 ^ (format arch).word = 2 ^ (format arch).bits := by
  cases arch <;> decide

theorem format_word_le (arch : Arch) : (format arch).word ≤ 2 ^ (format arch).bits := by
  cases arch <;> decide

theorem adjusted_zero {arch : Arch} {places : List ℕ} :
    Adjusted (format arch) mem mem 0 places where
  added := fun a _ => by
    rw [Nat.add_zero, ← format_word, Nat.mod_eq_of_lt loadNat_lt]
  others := fun _ _ => rfl

theorem adjusted_foldl {arch : Arch} {d : ℕ} {places : List ℕ}
    (h : places.Pairwise fun a b =>
      Apart (format arch).bits a (format arch).word b (format arch).word) :
    Adjusted (format arch) mem
      (places.foldl (addAt (format arch).bits (format arch).word d) mem) d places where
  added := fun a ha => by rw [foldl_addAt (format_word_le arch) h a ha, format_word]
  others := fun _ hx => foldl_addAt_of_not hx

theorem rebase_ok {arch : Arch}
    (hr : (rebase (format arch) image fuel (headersOf (format arch) image)).run s = (.ok (), t))
    (hmem : s.mem = mem) (htidy : Tidy (format arch) image mem fuel)
    (hblocks : BlocksApart (format arch) image mem fuel) :
    Adjusted (format arch) mem t.mem ((headersOf (format arch) image).delta (format arch))
      (relocTargets (format arch) image mem fuel) := by
  subst hmem
  unfold rebase at hr
  by_cases hdelta : (headersOf (format arch) image).delta (format arch) = 0
  · rw [if_neg (not_not.2 hdelta)] at hr
    cases hr
    rw [hdelta]
    exact adjusted_zero
  rw [if_pos hdelta] at hr
  obtain ⟨d, u, hdir, hr⟩ := Prog.run_bind_ok.1 hr
  obtain ⟨rfl, hu⟩ := readDirectory_ok hdir
  by_cases hrel : HasRelocations (format arch) image
  · dsimp only at hr
    rw [if_pos (show _ ∧ _ from hrel), applyRelocations] at hr
    simp only [Prog.run_bind_ok, check_ok] at hr
    obtain ⟨_, _, ⟨-, rfl⟩, happly⟩ := hr
    have htargets := htidy.targets
    unfold BlocksApart relocTargets relocBlocks at hblocks
    unfold relocTargets relocBlocks at htargets ⊢
    rw [if_pos hrel] at htargets hblocks ⊢
    rw [applyBlocks_ok (s := u.record _) (format_relocKind arch) (format_bits arch)
      (fun b _ y _ => congrFun hu y)
      (fun b hb c hc a ha => hblocks b hb a (List.mem_flatMap.2 ⟨c, hc, ha⟩)) happly,
      record_mem, hu]
    exact adjusted_foldl htargets
  · dsimp only at hr
    rw [if_neg (show ¬ (_ ∧ _) from hrel)] at hr
    cases hr
    rw [hu, relocTargets, relocBlocks, if_neg hrel]
    exact ⟨fun _ ha => absurd ha List.not_mem_nil, fun _ _ => rfl⟩

theorem layOut_ok {arch : Arch} {highest : ℕ}
    (hr : (layOut (format arch) image fuel).run s = (.ok (h, highest), t)) :
    Passes (format arch) image ∧ h = headersOf (format arch) image ∧
      (Tidy (format arch) image (laidOut (format arch) image s.mem) fuel →
        BlocksApart (format arch) image (laidOut (format arch) image s.mem) fuel →
        Adjusted (format arch) (laidOut (format arch) image s.mem) t.mem
          ((headersOf (format arch) image).delta (format arch))
          (relocTargets (format arch) image (laidOut (format arch) image s.mem) fuel)) := by
  unfold layOut at hr
  simp only [Prog.run_bind_ok, check_ok, Prog.run_pure_ok] at hr
  obtain ⟨h', u, hheaders, _, _, ⟨hsize, rfl⟩, _, v, hzero, highest', w, hsections, _, x, hrebase,
    hh, rfl⟩ := hr
  obtain ⟨hpass, rfl, hu⟩ := readHeaders_ok hheaders
  obtain ⟨hsecs, hw⟩ := foldlM_loadSection_ok hsections
  cases hh
  refine ⟨⟨hpass, hsize, fun i hi => hsecs i (List.mem_range.2 hi)⟩, rfl, rebase_ok hrebase ?_⟩
  rw [hw, ← hu]
  cases hzero
  rfl

/-- A file that passes the checks is laid out, if there is nothing to relocate. -/
theorem Passes.layOut {arch : Arch} (h : Passes (format arch) image)
    (hrel : ¬ HasRelocations (format arch) image) (fuel : ℕ) (s : Bus) :
    ∃ highest t, (layOut (format arch) image fuel).run s =
      (.ok (headersOf (format arch) image, highest), t) := by
  have hrebase : ∀ u, ∃ v, (rebase (format arch) image fuel (headersOf (format arch) image)).run u =
      (.ok (), v) := by
    intro u
    unfold rebase
    by_cases hdelta : (headersOf (format arch) image).delta (format arch) = 0
    · rw [if_neg (not_not.2 hdelta)]
      exact ⟨_, rfl⟩
    · rw [if_pos hdelta]
      obtain ⟨v, hv⟩ := @readDirectory_run (format arch) image dirBaseReloc u
      refine ⟨v, Prog.run_bind_ok.2 ⟨_, v, hv, ?_⟩⟩
      dsimp only
      rw [if_neg (show ¬ (_ ∧ _) from hrel)]
      rfl
  obtain ⟨u, hu⟩ := h.headers.run s
  obtain ⟨b, w, hw⟩ := foldlM_loadSection_run (fun i hi => h.sections i (List.mem_range.1 hi)) 0 _
  obtain ⟨x, hx⟩ := hrebase w
  unfold Pe.layOut
  simp only [Prog.run_bind_ok, check_ok, Prog.run_pure_ok]
  exact ⟨_, _, _, _, hu, (), _, ⟨h.size, rfl⟩, (), _, rfl, _, _, hw, (), _, hx, rfl, rfl⟩

/-- Without imports it is accepted. -/
theorem Passes.load {arch : Arch} (h : Passes (format arch) image)
    (hrel : ¬ HasRelocations (format arch) image) (himports : ¬ HasImports (format arch) image)
    (fuel : ℕ) (s : Bus) : ∃ img t, (load arch image fuel).run s = (.ok img, t) := by
  obtain ⟨highest, u, hu⟩ := h.layOut hrel fuel s
  obtain ⟨v, hv⟩ := @readDirectory_run (format arch) image dirImport u
  refine ⟨⟨(format arch).addr (headersOf (format arch) image).entryRva,
    (format arch).addr (max (headersOf (format arch) image).sizeOfImage highest)⟩, v,
    Prog.run_bind_ok.2 ⟨_, u, hu, Prog.run_bind_ok.2 ⟨_, v, hv, ?_⟩⟩⟩
  dsimp only
  rw [if_neg (show ¬ (_ ∧ _) from himports)]
  rfl

/-- What the claim of a loader is: an accepted file with another base has a relocation directory,
and its image is the sections, over zeros, adjusted where the directory says. -/
def Rebased (arch : Arch) (image : Image) : Prop :=
  ∀ fuel s img t, (load arch image fuel).run s = (.ok img, t) →
    ((headersOf (format arch) image).delta (format arch) ≠ 0 →
      HasRelocations (format arch) image) ∧
    ∃ h highest u, (layOut (format arch) image fuel).run s = (.ok (h, highest), u) ∧
      (Tidy (format arch) image (laidOut (format arch) image s.mem) fuel →
        Adjusted (format arch) (laidOut (format arch) image s.mem) u.mem
          ((headersOf (format arch) image).delta (format arch))
          (relocTargets (format arch) image (laidOut (format arch) image s.mem) fuel))

/-- The file prefers the load base or says how it is moved. -/
def Movable (arch : Arch) (image : Image) : Prop :=
  (headersOf (format arch) image).delta (format arch) = 0 ∨ HasRelocations (format arch) image

/-- **Rebasing.** An image is rebased if its file, where it passes the checks of headers and
sections, prefers the load base or has a relocation directory, and on i386 no relocation changes a
block that reaches beyond this directory. Of the files without imports, those that are not movable
are not rebased. -/
theorem rebased (arch : Arch) (image : Image) :
    ((Passes (format arch) image → Movable arch image ∧
      (arch = .i386 → ∀ fuel mem, Tidy pe32 image (laidOut pe32 image mem) fuel →
        BlocksApart pe32 image (laidOut pe32 image mem) fuel)) → Rebased arch image) ∧
      (¬ HasImports (format arch) image → Rebased arch image →
        Passes (format arch) image → Movable arch image) := by
  constructor
  · intro h fuel s img t hr
    obtain ⟨⟨h', highest⟩, u, hlay, -⟩ := Prog.run_bind_ok.1 hr
    obtain ⟨hpasses, -, hadjusted⟩ := layOut_ok hlay
    obtain ⟨hmovable, hblocks⟩ := h hpasses
    refine ⟨Classical.or_iff_not_imp_left.1 hmovable, h', highest, u, hlay, fun htidy => ?_⟩
    refine hadjusted htidy ?_
    cases arch with
    | i386 => exact hblocks rfl fuel s.mem htidy
    | x86_64 => exact htidy.blocks_apart (by decide)
  · intro himports hrebased hpasses
    by_cases hrel : HasRelocations (format arch) image
    · exact .inr hrel
    obtain ⟨img, t, hr⟩ := hpasses.load hrel himports 0 ⟨fun _ => 0, []⟩
    exact Classical.or_iff_not_imp_left.2 (hrebased _ _ _ _ hr).1

/-- A PE32 file that prefers the base `0x400000` and has no relocation directory. -/
def fixedPe : Image where
  bytes := [0x4D, 0x5A] ++ bytesOf 58 0 ++ bytesOf 4 0x40 ++ bytesOf 4 0x4550 ++
    bytesOf 2 0x14C ++ bytesOf 14 0 ++ bytesOf 2 224 ++ bytesOf 2 0 ++
    bytesOf 2 0x10B ++ bytesOf 14 0 ++ bytesOf 4 0x100 ++ bytesOf 8 0 ++ bytesOf 4 0x400000 ++
    bytesOf 24 0 ++ bytesOf 4 0x1000 ++ bytesOf 164 0
  beyond := fun _ => 0

/-- It is accepted, and runs at another address than it is linked for. -/
theorem not_rebased : ¬ ∀ arch image, Rebased arch image := by
  intro h
  obtain ⟨hdir, -⟩ := h .i386 fixedPe 1 ⟨fun _ => 0, []⟩ ⟨0xC00100, 0xC01000⟩ _
    (Prog.run_eq_of_fst (by decide +kernel))
  exact absurd (hdir (by decide +kernel)) (by decide +kernel)

end Loader.Pe

end Tcmk
