import Tcmk.Loader.Relocation

/-!
# The tables of PE files

A PE loader finds its way by numbers that the file gives it: the sections, the blocks of the table
of relocations, the import descriptors and the tables that these name. This module says which of
them it comes to, and in which memory it reads them, since relocating and binding change the image
while the tables lie in it (`AtBlock`, `AtEntry`, `AtDescriptor`).

`Sums` says that none of the sums of such numbers wraps into a value that passes its check. With 64
bits no file breaks it (`sums_of_bits`).
-/

namespace Tcmk

namespace Loader

/-- The sum is only at most the limit, modulo `2 ^ w`, if it does not wrap. -/
def Exact (w n limit : ℕ) : Prop := n % 2 ^ w ≤ limit → n < 2 ^ w

theorem Exact.of_lt {w n limit : ℕ} (h : n < 2 ^ w) : Exact w n limit := fun _ => h

namespace Pe

open Lib

/-! ## Relocations -/

/-- An entry of a block. -/
def Block.entry (f : Format) (mem : ℕ → UInt8) (b : Block) (i : ℕ) : ℕ :=
  loadNat f.bits mem ((b.addr + 8 + i * 2) % 2 ^ f.bits) 2

/-- The memory after the first entries of a block have been applied. -/
def Block.applied (f : Format) (delta : ℕ) (b : Block) (mem : ℕ → UInt8) : ℕ → ℕ → UInt8
  | 0 => mem
  | i + 1 =>
    let mem := b.applied f delta mem i
    let entry := b.entry f mem i
    if entry / 2 ^ 12 = f.relocKind then
      addAt f.bits f.word delta mem (f.addr (b.page + entry % 2 ^ 12))
    else mem

/-- The entry `i`, when the walk comes to it. -/
def Block.entryAt (f : Format) (image : Image) (b : Block) (mem : ℕ → UInt8) (i : ℕ) : ℕ :=
  b.entry f (b.applied f ((headersOf f image).delta f) mem i) i

/-- It is padding, or a relocation of a place in the image. -/
def Block.EntryPasses (f : Format) (image : Image) (b : Block) (mem : ℕ → UInt8) (i : ℕ) : Prop :=
  b.entryAt f image mem i / 2 ^ 12 = 0 ∨
    b.entryAt f image mem i / 2 ^ 12 = f.relocKind ∧
      (b.page + b.entryAt f image mem i % 2 ^ 12 + f.word) % 2 ^ f.bits ≤
        (headersOf f image).sizeOfImage

/-- The loader goes through the table of relocations. -/
structure Relocates (f : Format) (image : Image) : Prop where
  passes : Passes f image
  moved : (headersOf f image).delta f ≠ 0
  table : HasRelocations f image

/-- The block of the table at an offset. -/
def blockIn (f : Format) (image : Image) (mem : ℕ → UInt8) (offset : ℕ) : Block :=
  blockAt f mem (f.addr ((directory f image dirBaseReloc).1 + offset))

/-- The walk over the table comes to this offset, with this memory; `mem₀` is the memory before the
file was loaded. -/
inductive AtBlock (f : Format) (image : Image) (mem₀ : ℕ → UInt8) : ℕ → (ℕ → UInt8) → Prop
  | first : Relocates f image →
      ((directory f image dirBaseReloc).1 + (directory f image dirBaseReloc).2) % 2 ^ f.bits ≤
        (headersOf f image).sizeOfImage →
      AtBlock f image mem₀ 0 (laidOut f image mem₀)
  | next {offset : ℕ} {mem : ℕ → UInt8} : AtBlock f image mem₀ offset mem →
      (offset + 8) % 2 ^ f.bits ≤ (directory f image dirBaseReloc).2 →
      ¬ (blockIn f image mem offset).Malformed f (directory f image dirBaseReloc).2 offset →
      (∀ i < (blockIn f image mem offset).entries,
        (blockIn f image mem offset).EntryPasses f image mem i) →
      AtBlock f image mem₀ ((offset + (blockIn f image mem offset).size) % 2 ^ f.bits)
        ((blockIn f image mem offset).applied f ((headersOf f image).delta f) mem
          (blockIn f image mem offset).entries)

/-- The memory when the relocations are done. -/
inductive Relocated (f : Format) (image : Image) (mem₀ : ℕ → UInt8) : (ℕ → UInt8) → Prop
  | skipped : Passes f image → ¬ Relocates f image → Relocated f image mem₀ (laidOut f image mem₀)
  | done {offset : ℕ} {mem : ℕ → UInt8} : AtBlock f image mem₀ offset mem →
      (directory f image dirBaseReloc).2 < (offset + 8) % 2 ^ f.bits → Relocated f image mem₀ mem

/-! ## Imports -/

/-- The loop of `image_cstr`, on the memory. -/
def nameFrom (f : Format) (imageSize : ℕ) (mem : ℕ → UInt8) (rva : ℕ) :
    ℕ → List UInt8 → Option (List UInt8)
  | 0, _ => none
  | n + 1, name =>
    if (rva + name.length) % 2 ^ f.bits < imageSize then
      let byte := loadNat f.bits mem (f.addr (rva + name.length)) 1
      if byte = 0 then (if utf8Valid name then some name else none)
      else nameFrom f imageSize mem rva n (name ++ [UInt8.ofNat byte])
    else none

def nameAt (f : Format) (imageSize : ℕ) (mem : ℕ → UInt8) (rva : ℕ) : Option (List UInt8) :=
  if rva ≥ imageSize then none else nameFrom f imageSize mem rva nameMax []

/-- The export that an entry of a name table asks for. -/
def exportOf (f : Format) (imageSize : ℕ) (mem : ℕ → UInt8) (dllName : List UInt8) (entry : ℕ) :
    Option Export :=
  if entry / f.ordinalFlag % 2 = 1 then resolveOrdinal dllName (entry % 2 ^ 16)
  else (nameAt f imageSize mem ((entry + 2) % 2 ^ f.bits)).bind (resolve dllName)

/-- The memory with a thunk, and its address in a slot. -/
def bound (f : Format) (e : Export) (slot nextThunk : ℕ) (mem : ℕ → UInt8) : ℕ → UInt8 :=
  store f.bits (store f.bits mem nextThunk (f.thunk e).length fun k => (f.thunk e).getD k 0)
    (f.addr slot) f.word (leByte nextThunk)

/-- An import descriptor. -/
structure Descriptor where
  intRva : ℕ
  nameRva : ℕ
  iatRva : ℕ

def descriptorAt (f : Format) (mem : ℕ → UInt8) (rva : ℕ) : Descriptor :=
  ⟨loadNat f.bits mem (f.addr rva) 4, loadNat f.bits mem (f.addr (rva + 12)) 4,
    loadNat f.bits mem (f.addr (rva + 16)) 4⟩

namespace Descriptor

/-- The last one. -/
def Null (d : Descriptor) : Prop := d.intRva = 0 ∧ d.nameRva = 0 ∧ d.iatRva = 0

/-- The table of the names. -/
def namesRva (d : Descriptor) : ℕ := if d.intRva ≠ 0 then d.intRva else d.iatRva

/-- The name of the DLL. -/
def dllName (f : Format) (imageSize : ℕ) (mem : ℕ → UInt8) (d : Descriptor) : List UInt8 :=
  (nameAt f imageSize mem d.nameRva).getD (ascii "?")

/-- An entry of the table of the names. -/
def lookup (f : Format) (mem : ℕ → UInt8) (d : Descriptor) (i : ℕ) : ℕ :=
  loadNat f.bits mem (f.addr (d.namesRva + i * f.word)) f.word

end Descriptor

/-- The loop over the imports of a DLL comes to the entry `i`, with the place for the next thunk and
this memory. -/
inductive AtEntry (f : Format) (imageSize : ℕ) (d : Descriptor) (dllName : List UInt8)
    (nextThunk₀ : ℕ) (mem₀ : ℕ → UInt8) : ℕ → ℕ → (ℕ → UInt8) → Prop
  | first : AtEntry f imageSize d dllName nextThunk₀ mem₀ 0 nextThunk₀ mem₀
  | next {i nextThunk : ℕ} {mem : ℕ → UInt8} {e : Export} :
      AtEntry f imageSize d dllName nextThunk₀ mem₀ i nextThunk mem →
      (d.namesRva + i * f.word + f.word) % 2 ^ f.bits ≤ imageSize →
      d.lookup f mem i ≠ 0 → exportOf f imageSize mem dllName (d.lookup f mem i) = some e →
      (nextThunk + f.thunkSize) % 2 ^ f.bits ≤ userMemStart + userMapSize →
      (d.iatRva + i * f.word + f.word) % 2 ^ f.bits ≤ imageSize →
      AtEntry f imageSize d dllName nextThunk₀ mem₀ (i + 1)
        ((nextThunk + f.thunkSize) % 2 ^ f.bits) (bound f e (d.iatRva + i * f.word) nextThunk mem)

/-- Where the thunks begin. -/
def firstThunk (f : Format) (image : Image) : ℕ :=
  pageAlign f.bits (f.addr (headersOf f image).sizeOfImage)

/-- The walk over the import descriptors comes to this one, with the place for the next thunk and
this memory. -/
inductive AtDescriptor (f : Format) (image : Image) (mem₀ : ℕ → UInt8) :
    ℕ → ℕ → (ℕ → UInt8) → Prop
  | first {mem : ℕ → UInt8} : Relocated f image mem₀ mem → HasImports f image →
      AtDescriptor f image mem₀ (directory f image dirImport).1 (firstThunk f image) mem
  | next {rva nextThunk i nextThunk' : ℕ} {mem mem' : ℕ → UInt8} :
      AtDescriptor f image mem₀ rva nextThunk mem →
      (rva + 20) % 2 ^ f.bits ≤ (headersOf f image).sizeOfImage →
      ¬ (descriptorAt f mem rva).Null → (descriptorAt f mem rva).namesRva ≠ 0 →
      (descriptorAt f mem rva).iatRva ≠ 0 →
      AtEntry f (headersOf f image).sizeOfImage (descriptorAt f mem rva)
        ((descriptorAt f mem rva).dllName f (headersOf f image).sizeOfImage mem) nextThunk mem
        i nextThunk' mem' →
      ((descriptorAt f mem rva).namesRva + i * f.word + f.word) % 2 ^ f.bits ≤
        (headersOf f image).sizeOfImage →
      (descriptorAt f mem rva).lookup f mem' i = 0 →
      AtDescriptor f image mem₀ ((rva + 20) % 2 ^ f.bits) nextThunk' mem'

/-- The loader binds the imports of this descriptor. -/
structure Binds (f : Format) (image : Image) (mem₀ : ℕ → UInt8) (d : Descriptor) (nextThunk : ℕ)
    (mem : ℕ → UInt8) : Prop where
  reached : ∃ rva, AtDescriptor f image mem₀ rva nextThunk mem ∧
    (rva + 20) % 2 ^ f.bits ≤ (headersOf f image).sizeOfImage ∧ d = descriptorAt f mem rva
  notNull : ¬ d.Null
  names : d.namesRva ≠ 0
  iat : d.iatRva ≠ 0

/-! ## The sums -/

/-- No sum of numbers of the file that the loader comes to wraps into a value that it accepts. -/
structure Sums (f : Format) (image : Image) (mem₀ : ℕ → UInt8) : Prop where
  /-- `SizeOfImage` -/
  size : HeadersPass f image → Exact f.bits (userMemStart + (headersOf f image).sizeOfImage)
    (userMemStart + userMemSize)
  /-- the place and the size of a section -/
  sections : HeadersPass f image → ∀ i < (headersOf f image).numSections,
    (∀ j < i, SectionPasses f image j) → SectionInFile f image i →
      Exact f.bits ((sectionOf f image i).virtualAddr + (sectionOf f image i).span)
        (headersOf f image).sizeOfImage
  /-- the place and the size of the table of relocations -/
  table : Relocates f image → Exact f.bits
    ((directory f image dirBaseReloc).1 + (directory f image dirBaseReloc).2)
    (headersOf f image).sizeOfImage
  /-- the place and the size of a block of it -/
  blocks : ∀ offset mem, AtBlock f image mem₀ offset mem →
    (offset + 8) % 2 ^ f.bits ≤ (directory f image dirBaseReloc).2 →
    8 ≤ (blockIn f image mem offset).size →
      Exact f.bits (offset + (blockIn f image mem offset).size) (directory f image dirBaseReloc).2
  /-- the page and the offset of a relocation -/
  patches : ∀ offset mem, AtBlock f image mem₀ offset mem →
    (offset + 8) % 2 ^ f.bits ≤ (directory f image dirBaseReloc).2 →
    ¬ (blockIn f image mem offset).Malformed f (directory f image dirBaseReloc).2 offset →
    ∀ i < (blockIn f image mem offset).entries,
      (∀ j < i, (blockIn f image mem offset).EntryPasses f image mem j) →
      (blockIn f image mem offset).entryAt f image mem i / 2 ^ 12 = f.relocKind →
        Exact f.bits ((blockIn f image mem offset).page +
            (blockIn f image mem offset).entryAt f image mem i % 2 ^ 12 + f.word)
          (headersOf f image).sizeOfImage
  /-- the place of the first import descriptor -/
  imports : HasImports f image → (∃ mem, Relocated f image mem₀ mem) →
    Exact f.bits ((directory f image dirImport).1 + 20) (headersOf f image).sizeOfImage
  /-- the place of the names of a DLL -/
  names : ∀ d nextThunk mem, Binds f image mem₀ d nextThunk mem →
    Exact f.bits (d.namesRva + f.word) (headersOf f image).sizeOfImage
  /-- the place of its slots -/
  slots : ∀ d nextThunk mem, Binds f image mem₀ d nextThunk mem → d.lookup f mem 0 ≠ 0 →
    (∃ e, exportOf f (headersOf f image).sizeOfImage mem
      (d.dllName f (headersOf f image).sizeOfImage mem) (d.lookup f mem 0) = some e) →
    (nextThunk + f.thunkSize) % 2 ^ f.bits ≤ userMemStart + userMapSize →
      Exact f.bits (d.iatRva + f.word) (headersOf f image).sizeOfImage

variable {f : Format} {image : Image} {mem₀ mem : ℕ → UInt8} {offset i : ℕ}

theorem AtBlock.offset_le (h : AtBlock f image mem₀ offset mem) :
    offset ≤ (directory f image dirBaseReloc).2 := by
  cases h with
  | first => exact Nat.zero_le _
  | next _ _ hbad _ =>
    unfold Block.Malformed at hbad
    omega

theorem sectionOf_virtualAddr_lt : (sectionOf f image i).virtualAddr < 256 ^ 4 := loadNat_lt

theorem sectionOf_span_lt : (sectionOf f image i).span < 256 ^ 4 := max_lt loadNat_lt loadNat_lt

theorem sectionOf_rawPtr_lt : (sectionOf f image i).rawPtr < 256 ^ 4 := loadNat_lt

theorem blockIn_size_lt : (blockIn f image mem offset).size < 256 ^ 4 := loadNat_lt

theorem blockIn_page_lt : (blockIn f image mem offset).page < 256 ^ 4 := loadNat_lt

theorem Descriptor.namesRva_lt {rva : ℕ} : (descriptorAt f mem rva).namesRva < 256 ^ 4 := by
  unfold Descriptor.namesRva
  split_ifs
  · exact loadNat_lt
  · exact loadNat_lt

/-- All these numbers have 32 bits, so that with more bits their sums do not wrap. -/
theorem sums_of_bits (hbits : 34 ≤ f.bits) (hword : f.word ≤ 8) (image : Image)
    (mem₀ : ℕ → UInt8) : Sums f image mem₀ := by
  have hpow : 2 ^ 34 ≤ 2 ^ f.bits := Nat.pow_le_pow_right (by decide) hbits
  have hstart : userMemStart = 3 * 2 ^ 22 := rfl
  have hsize : (headersOf f image).sizeOfImage < 256 ^ 4 := loadNat_lt
  have hrva : (directory f image dirBaseReloc).1 < 256 ^ 4 := dirNat_lt
  have hlen : (directory f image dirBaseReloc).2 < 256 ^ 4 := dirNat_lt
  have himport : (directory f image dirImport).1 < 256 ^ 4 := dirNat_lt
  refine ⟨fun _ => .of_lt (by omega), fun _ i _ _ _ => .of_lt ?_, fun _ => .of_lt (by omega),
    fun offset mem h _ _ => .of_lt ?_, fun offset mem _ _ _ i _ _ _ => .of_lt ?_,
    fun _ _ => .of_lt (by omega), fun d next mem h => .of_lt ?_, fun d next mem h _ _ _ =>
    .of_lt ?_⟩
  · have haddr := @sectionOf_virtualAddr_lt f image i
    have hspan := @sectionOf_span_lt f image i
    omega
  · have hoffset := h.offset_le
    have hblock := @blockIn_size_lt f image mem offset
    omega
  · have hpage := @blockIn_page_lt f image mem offset
    have hmod := Nat.mod_lt ((blockIn f image mem offset).entryAt f image mem i)
      (by decide : 0 < 2 ^ 12)
    omega
  · obtain ⟨rva, -, -, rfl⟩ := h.reached
    have hnames := @Descriptor.namesRva_lt f mem rva
    omega
  · obtain ⟨rva, -, -, rfl⟩ := h.reached
    have hiat : (descriptorAt f mem rva).iatRva < 256 ^ 4 := loadNat_lt
    omega

end Pe

end Loader

end Tcmk
