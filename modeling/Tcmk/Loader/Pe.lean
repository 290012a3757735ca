import Tcmk.Loader.Bus
import Tcmk.Text

/-!
# The PE loaders (`pe32.rs`, `pe64.rs`, `dll.rs`)

A PE file is laid out at `USER_MEM_START`, whatever base it prefers, and its addresses are adjusted
from the table of base relocations. Then its imports are bound: each imported function becomes a
thunk behind the image. `Format` says where PE32 and PE32+ differ.

The walks over the tables are loops of which it is not clear that they end, so they get fuel. The
error `none` says that it has run out.
-/

namespace Tcmk

namespace Loader.Pe

open Lib

inductive Error
  | tooSmall
  | badDosMagic
  | badPeSignature
  | wrongArchitecture
  | notPe32
  | notPe32Plus
  | badOptionalHeaderSize
  | sectionOutOfBounds
  | sectionOutsideUserMemory
  | relocationOutOfBounds
  | importOutOfBounds
  | unresolvedImport
  | thunkAreaFull
  deriving DecidableEq

structure LoadedImage where
  entry : ℕ
  stop : ℕ
  deriving DecidableEq

/-! ## The DLLs (`dll.rs`) -/

structure Export where
  name : List UInt8
  ordinal : ℕ
  /-- the number of the NT service -/
  service : ℕ
  /-- how many bytes of arguments the thunk removes, on i386 -/
  stackBytes : ℕ

structure Dll where
  name : List UInt8
  exports : List Export

def ascii (s : String) : List UInt8 := s.toUTF8.toList

/-- `KERNEL32`. -/
def kernel32 : Dll where
  name := ascii "KERNEL32.dll"
  exports := [
    ⟨ascii "ExitProcess", 1, 0x3000, 4⟩,
    ⟨ascii "Sleep", 2, 0x3001, 4⟩,
    ⟨ascii "GetTickCount", 3, 0x3002, 0⟩,
    ⟨ascii "CloseHandle", 4, 0x3003, 4⟩,
    ⟨ascii "WriteConsoleA", 5, 0x3004, 20⟩,
    ⟨ascii "CreateFileA", 6, 0x3005, 28⟩,
    ⟨ascii "ReadFile", 7, 0x3006, 20⟩]

/-- `TCMKGUI`. -/
def tcmkGui : Dll where
  name := ascii "TCMKGUI.dll"
  exports := [
    ⟨ascii "TcmkCreateWindow", 1, 0x3010, 20⟩,
    ⟨ascii "TcmkGetWindowBits", 2, 0x3011, 4⟩,
    ⟨ascii "TcmkGetClientRect", 3, 0x3012, 4⟩,
    ⟨ascii "TcmkGetWindowRect", 4, 0x3013, 4⟩,
    ⟨ascii "TcmkUpdateWindow", 5, 0x3014, 4⟩,
    ⟨ascii "TcmkGetMessage", 6, 0x3015, 4⟩,
    ⟨ascii "TcmkGetCursorPos", 7, 0x3016, 0⟩]

def dlls : List Dll := [kernel32, tcmkGui]

/-- `to_ascii_lowercase`. -/
def toAsciiLowercase (b : UInt8) : UInt8 := if 65 ≤ b ∧ b ≤ 90 then b + 32 else b

def eqIgnoreCase (a b : List UInt8) : Bool := a.map toAsciiLowercase == b.map toAsciiLowercase

/-- `dll::resolve`. -/
def resolve (dll function : List UInt8) : Option Export :=
  (dlls.find? fun d => eqIgnoreCase d.name dll).bind fun d =>
    d.exports.find? fun e => e.name == function

/-- `dll::resolve_ordinal`. -/
def resolveOrdinal (dll : List UInt8) (ordinal : ℕ) : Option Export :=
  (dlls.find? fun d => eqIgnoreCase d.name dll).bind fun d =>
    d.exports.find? fun e => e.ordinal == ordinal

/-- The bytes that `emit_thunk` writes on i386. -/
def thunk32 (e : Export) : List UInt8 :=
  [0xB8] ++ bytesOf 4 e.service ++ [0x8D, 0x54, 0x24, 0x04, 0xCD, 0x2E] ++
    (if e.stackBytes = 0 then [0xC3, 0xCC, 0xCC, 0xCC]
    else [0xC2] ++ bytesOf 2 e.stackBytes ++ [0xCC]) ++ [0xCC]

/-- The bytes that `emit_thunk` writes on x86_64. -/
def thunk64 (e : Export) : List UInt8 :=
  [0x48, 0x89, 0x4C, 0x24, 0x08, 0x48, 0x89, 0x54, 0x24, 0x10, 0x4C, 0x89, 0x44, 0x24, 0x18,
    0x4C, 0x89, 0x4C, 0x24, 0x20, 0xB8] ++ bytesOf 4 e.service ++
    [0x48, 0x8D, 0x54, 0x24, 0x08, 0xCD, 0x2E, 0xC3] ++ List.replicate 15 0xCC

/-! ## The formats -/

structure Format where
  /-- the width of `usize` -/
  bits : ℕ
  machine : ℕ
  magic : ℕ
  notPe : Error
  /-- the least size of the optional header, and where its data directories begin -/
  directoriesAt : ℕ
  imageBaseAt : ℕ
  /-- the bytes of an address, of a slot of the import tables and of a relocated place -/
  word : ℕ
  /-- the type of relocation that is applied -/
  relocKind : ℕ
  ordinalFlag : ℕ
  thunkSize : ℕ
  thunk : Export → List UInt8

def pe32 : Format where
  bits := 32
  machine := 0x014C
  magic := 0x010B
  notPe := .notPe32
  directoriesAt := 96
  imageBaseAt := 28
  word := 4
  relocKind := 3
  ordinalFlag := 0x80000000
  thunkSize := 16
  thunk := thunk32

def pe64 : Format where
  bits := 64
  machine := 0x8664
  magic := 0x020B
  notPe := .notPe32Plus
  directoriesAt := 112
  imageBaseAt := 24
  word := 8
  relocKind := 10
  ordinalFlag := 0x8000000000000000
  thunkSize := 48
  thunk := thunk64

/-- The loader of an architecture. -/
def format : Arch → Format
  | .i386 => pe32
  | .x86_64 => pe64

def dosMagic : ℕ := 0x5A4D

def peSignature : ℕ := 0x00004550

def dirImport : ℕ := 1

def dirBaseReloc : ℕ := 5

/-- `NAME_MAX`. -/
def nameMax : ℕ := 64

variable (f : Format) (image : Image)

/-- The address of an offset in the loaded image, which is at `load_base`. -/
def Format.addr (rva : ℕ) : ℕ := (userMemStart + rva) % 2 ^ f.bits

/-! ## Headers and sections -/

/-- `read_u16`, `read_u32` and `read_u64` with `ok_or`. -/
def readAt (off n : ℕ) (e : Error) : Prog Bus (Option Error) ℕ :=
  let off := off % 2 ^ f.bits
  let stop := (off + n) % 2 ^ f.bits
  if off ≤ stop ∧ stop ≤ image.len then readFile f.bits image off n else .throw (some e)

/-- `read_u32` with `unwrap_or(0)`. -/
def readOrZero (off n : ℕ) : Prog Bus (Option Error) ℕ :=
  let off := off % 2 ^ f.bits
  let stop := (off + n) % 2 ^ f.bits
  if off ≤ stop ∧ stop ≤ image.len then readFile f.bits image off n else pure 0

structure Headers where
  numSections : ℕ
  /-- where the optional header begins, and how long it is -/
  opt : ℕ
  sizeOfOptional : ℕ
  entryRva : ℕ
  imageBase : ℕ
  sizeOfImage : ℕ

/-- The first part of `load`: the DOS header, the COFF header and the optional header. -/
def readHeaders : Prog Bus (Option Error) Headers := do
  let dos ← readAt f image 0 2 .tooSmall
  if dos ≠ dosMagic then .throw (some .badDosMagic)
  let peOff ← readAt f image 0x3C 4 .tooSmall
  let signature ← readAt f image peOff 4 .tooSmall
  if signature ≠ peSignature then .throw (some .badPeSignature)
  let coff := peOff + 4
  let machine ← readAt f image coff 2 .tooSmall
  if machine ≠ f.machine then .throw (some .wrongArchitecture)
  let numSections ← readAt f image (coff + 2) 2 .tooSmall
  let sizeOfOptional ← readAt f image (coff + 16) 2 .tooSmall
  if sizeOfOptional < f.directoriesAt then .throw (some .badOptionalHeaderSize)
  let opt := coff + 20
  let magic ← readAt f image opt 2 .tooSmall
  if magic ≠ f.magic then .throw (some f.notPe)
  let entryRva ← readAt f image (opt + 16) 4 .tooSmall
  let imageBase ← readAt f image (opt + f.imageBaseAt) f.word .tooSmall
  let sizeOfImage ← readAt f image (opt + 56) 4 .tooSmall
  pure ⟨numSections, opt, sizeOfOptional, entryRva, imageBase, sizeOfImage⟩

/-- How far the load base is from the preferred one. -/
def Headers.delta (h : Headers) : ℕ :=
  (userMemStart + (2 ^ f.bits - h.imageBase)) % 2 ^ f.bits

/-- A section header. -/
structure Section where
  virtualSize : ℕ
  virtualAddr : ℕ
  rawSize : ℕ
  rawPtr : ℕ

/-- What a section takes of the image. -/
def Section.span (s : Section) : ℕ := max s.virtualSize s.rawSize

def readSection (h : Headers) (i : ℕ) : Prog Bus (Option Error) Section := do
  let sh := h.opt + h.sizeOfOptional + i * 40
  let virtualSize ← readAt f image (sh + 8) 4 .tooSmall
  let virtualAddr ← readAt f image (sh + 12) 4 .tooSmall
  let rawSize ← readAt f image (sh + 16) 4 .tooSmall
  let rawPtr ← readAt f image (sh + 20) 4 .tooSmall
  pure ⟨virtualSize, virtualAddr, rawSize, rawPtr⟩

/-- Copy the raw data of a section, if it has any. -/
def copySection (s : Section) : Prog Bus (Option Error) Unit :=
  if s.rawSize > 0 then
    let stop := (s.rawPtr + s.rawSize) % 2 ^ f.bits
    if s.rawPtr ≤ stop ∧ stop ≤ image.len then
      copyFile f.bits image s.rawPtr (f.addr s.virtualAddr) s.rawSize
    else .throw (some .sectionOutOfBounds)
  else pure ()

/-- A round of the loop over the sections. It returns the new `highest`. -/
def loadSection (h : Headers) (highest i : ℕ) : Prog Bus (Option Error) ℕ := do
  let s ← readSection f image h i
  check f.bits (s.virtualAddr + s.span) h.sizeOfImage (some .sectionOutOfBounds)
  copySection f image s
  pure (max highest ((s.virtualAddr + s.span) % 2 ^ f.bits))

/-! ## Base relocations -/

/-- An entry of a relocation block. -/
def applyEntry (imageSize delta block page i : ℕ) : Prog Bus (Option Error) Unit := do
  let entry ← readMem f.bits ((block + 8 + i * 2) % 2 ^ f.bits) 2
  let kind := entry / 2 ^ 12
  let patchRva := page + entry % 2 ^ 12
  if kind = 0 then pure ()
  else if kind = f.relocKind then
    do
      check f.bits (patchRva + f.word) imageSize (some .relocationOutOfBounds)
      let value ← readMem f.bits (f.addr patchRva) f.word
      writeMem f.bits (f.addr patchRva) f.word (value + delta)
  else .throw (some .relocationOutOfBounds)

/-- The loop of `apply_relocations`. -/
def applyBlocks (imageSize relocRva relocSize delta : ℕ) : ℕ → ℕ → Prog Bus (Option Error) Unit
  | 0, _ => .throw none
  | fuel + 1, offset =>
    if (offset + 8) % 2 ^ f.bits ≤ relocSize then do
      Prog.modify (·.record (.passed (offset + 8)))
      let block := f.addr (relocRva + offset)
      let page ← readMem f.bits block 4
      let blockSize ← readMem f.bits ((block + 4) % 2 ^ f.bits) 4
      if blockSize < 8 then .throw (some .relocationOutOfBounds)
      check f.bits (offset + blockSize) relocSize (some .relocationOutOfBounds)
      Prog.forRange ((blockSize - 8) / 2) 0 (applyEntry f imageSize delta block page)
      applyBlocks imageSize relocRva relocSize delta fuel ((offset + blockSize) % 2 ^ f.bits)
    else pure ()

def applyRelocations (fuel imageSize relocRva relocSize delta : ℕ) :
    Prog Bus (Option Error) Unit := do
  check f.bits (relocRva + relocSize) imageSize (some .relocationOutOfBounds)
  applyBlocks f imageSize relocRva relocSize delta fuel 0

/-- A data directory: its place and its size. -/
def readDirectory (h : Headers) (index : ℕ) : Prog Bus (Option Error) (ℕ × ℕ) := do
  let rva ← readOrZero f image (h.opt + f.directoriesAt + index * 8) 4
  let size ← readOrZero f image (h.opt + f.directoriesAt + index * 8 + 4) 4
  pure (rva, size)

/-- The relocations of `load`: only where the image is not at the base that it prefers. -/
def rebase (fuel : ℕ) (h : Headers) : Prog Bus (Option Error) Unit := do
  if h.delta f ≠ 0 then
    let (relocRva, relocSize) ← readDirectory f image h dirBaseReloc
    if relocRva ≠ 0 ∧ relocSize ≠ 0 then
      applyRelocations f fuel h.sizeOfImage relocRva relocSize (h.delta f)

/-- `load` before the imports: what it has read from the headers, and `highest`. -/
def layOut (fuel : ℕ) : Prog Bus (Option Error) (Headers × ℕ) := do
  let h ← readHeaders f image
  check f.bits (userMemStart + h.sizeOfImage) (userMemStart + userMemSize)
    (some .sectionOutsideUserMemory)
  writeZeros f.bits userMemStart h.sizeOfImage
  let highest ← (List.range h.numSections).foldlM (loadSection f image h) 0
  rebase f image fuel h
  pure (h, highest)

/-! ## Imports -/

/-- The loop of `image_cstr`, for at most so many bytes more. -/
def cstrFrom (imageSize rva : ℕ) : ℕ → List UInt8 → Prog Bus (Option Error) (Option (List UInt8))
  | 0, _ => pure none
  | n + 1, name =>
    if (rva + name.length) % 2 ^ f.bits < imageSize then do
      Prog.modify (·.record (.passed (rva + name.length)))
      let byte ← readMem f.bits (f.addr (rva + name.length)) 1
      if byte = 0 then pure (if utf8Valid name then some name else none)
      else cstrFrom imageSize rva n (name ++ [UInt8.ofNat byte])
    else pure none

def imageCstr (imageSize rva : ℕ) : Prog Bus (Option Error) (Option (List UInt8)) :=
  if rva ≥ imageSize then pure none else cstrFrom f imageSize rva nameMax []

/-- The export that an entry of the name table asks for. -/
def findExport (imageSize : ℕ) (dllName : List UInt8) (entry : ℕ) :
    Prog Bus (Option Error) Export := do
  if entry / f.ordinalFlag % 2 = 1 then
    match resolveOrdinal dllName (entry % 2 ^ 16) with
    | some e => pure e
    | none => .throw (some .unresolvedImport)
  else
    match ← imageCstr f imageSize ((entry + 2) % 2 ^ f.bits) with
    | none => .throw (some .importOutOfBounds)
    | some function =>
      match resolve dllName function with
      | some e => pure e
      | none => .throw (some .unresolvedImport)

/-- The loop over the imports of a DLL. It returns where the next thunk goes. -/
def bindEntries (imageSize namesRva iatRva : ℕ) (dllName : List UInt8) :
    ℕ → ℕ → ℕ → Prog Bus (Option Error) ℕ
  | 0, _, _ => .throw none
  | fuel + 1, index, nextThunk => do
    let entryAt := namesRva + index * f.word
    check f.bits (entryAt + f.word) imageSize (some .importOutOfBounds)
    let entry ← readMem f.bits (f.addr entryAt) f.word
    if entry = 0 then pure nextThunk
    else do
      let e ← findExport f imageSize dllName entry
      check f.bits (nextThunk + f.thunkSize) (userMemStart + userMapSize) (some .thunkAreaFull)
      writeBytes f.bits nextThunk (f.thunk e)
      let slot := iatRva + index * f.word
      check f.bits (slot + f.word) imageSize (some .importOutOfBounds)
      writeMem f.bits (f.addr slot) f.word nextThunk
      bindEntries imageSize namesRva iatRva dllName fuel (index + 1)
        ((nextThunk + f.thunkSize) % 2 ^ f.bits)

/-- The loop over the import descriptors. It returns the end of the thunks. -/
def resolveImports (imageSize : ℕ) : ℕ → ℕ → ℕ → Prog Bus (Option Error) ℕ
  | 0, _, _ => .throw none
  | fuel + 1, descriptor, nextThunk => do
    check f.bits (descriptor + 20) imageSize (some .importOutOfBounds)
    let intRva ← readMem f.bits (f.addr descriptor) 4
    let nameRva ← readMem f.bits (f.addr (descriptor + 12)) 4
    let iatRva ← readMem f.bits (f.addr (descriptor + 16)) 4
    if intRva = 0 ∧ nameRva = 0 ∧ iatRva = 0 then pure nextThunk
    else do
      let name ← imageCstr f imageSize nameRva
      let namesRva := if intRva ≠ 0 then intRva else iatRva
      if namesRva = 0 ∨ iatRva = 0 then .throw (some .importOutOfBounds)
      let nextThunk ← bindEntries f imageSize namesRva iatRva (name.getD (ascii "?")) (fuel + 1) 0
        nextThunk
      resolveImports imageSize fuel ((descriptor + 20) % 2 ^ f.bits) nextThunk

/-- `(x + 0xFFF) & !0xFFF`. -/
def pageAlign (w x : ℕ) : ℕ := (x + 0xFFF) % 2 ^ w / 0x1000 * 0x1000

def loadWith (fuel : ℕ) : Prog Bus (Option Error) LoadedImage := do
  let (h, highest) ← layOut f image fuel
  let stop := f.addr (max h.sizeOfImage highest)
  let (importRva, importSize) ← readDirectory f image h dirImport
  let stop ← if importRva ≠ 0 ∧ importSize ≠ 0 then
    resolveImports f h.sizeOfImage fuel importRva (pageAlign f.bits stop)
  else pure stop
  pure ⟨f.addr h.entryRva, stop⟩

/-- `pe32::load` and `pe64::load`. -/
def load (arch : Arch) (image : Image) (fuel : ℕ) : Prog Bus (Option Error) LoadedImage :=
  loadWith (format arch) image fuel

end Loader.Pe

end Tcmk
