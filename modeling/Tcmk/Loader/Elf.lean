import Tcmk.Loader.Bus

/-!
# The ELF loaders (`elf32.rs`, `elf64.rs`)

The two loaders differ in the layout of the headers and in the width of a word. `Layout` says
what differs; `elf32` and `elf64` are the two.
-/

namespace Tcmk

namespace Loader.Elf

open Lib

inductive Error
  | tooSmall
  | badMagic
  | notElf32Le
  | notElf64Le
  | notExecutable
  | wrongArchitecture
  | segmentOutOfBounds
  | segmentOutsideUserMemory
  deriving DecidableEq

structure LoadedImage where
  entry : ℕ
  /-- the highest address that has been loaded -/
  stop : ℕ
  deriving DecidableEq

/-- The part of `Elf32Ehdr` and `Elf64Ehdr` that is used. -/
structure Ehdr where
  ident : List ℕ
  type : ℕ
  machine : ℕ
  entry : ℕ
  phoff : ℕ
  phentsize : ℕ
  phnum : ℕ

/-- The part of `Elf32Phdr` and `Elf64Phdr` that is used. -/
structure Phdr where
  type : ℕ
  offset : ℕ
  vaddr : ℕ
  filesz : ℕ
  memsz : ℕ
  deriving DecidableEq

/-- Where the fields are, and what the loader expects in them. -/
structure Layout where
  /-- the width of `usize` and of the fields for addresses, offsets and sizes -/
  bits : ℕ
  elfClass : ℕ
  machine : ℕ
  notElf : Error
  ehdrSize : ℕ
  entryAt : ℕ
  phoffAt : ℕ
  phentsizeAt : ℕ
  phnumAt : ℕ
  phdrSize : ℕ
  offsetAt : ℕ
  vaddrAt : ℕ
  fileszAt : ℕ
  memszAt : ℕ

/-- `elf32.rs`: `ELFCLASS32`, `EM_386`. -/
def elf32 : Layout where
  bits := 32
  elfClass := 1
  machine := 3
  notElf := .notElf32Le
  ehdrSize := 52
  entryAt := 24
  phoffAt := 28
  phentsizeAt := 42
  phnumAt := 44
  phdrSize := 32
  offsetAt := 4
  vaddrAt := 8
  fileszAt := 16
  memszAt := 20

/-- `elf64.rs`: `ELFCLASS64`, `EM_X86_64`. -/
def elf64 : Layout where
  bits := 64
  elfClass := 2
  machine := 62
  notElf := .notElf64Le
  ehdrSize := 64
  entryAt := 24
  phoffAt := 32
  phentsizeAt := 54
  phnumAt := 56
  phdrSize := 56
  offsetAt := 8
  vaddrAt := 16
  fileszAt := 32
  memszAt := 40

/-- The loader of an architecture. -/
def layout : Arch → Layout
  | .i386 => elf32
  | .x86_64 => elf64

/-- `ELF_MAGIC`. -/
def elfMagic : List ℕ := [0x7F, 0x45, 0x4C, 0x46]

def elfData2Lsb : ℕ := 1

def etExec : ℕ := 2

def ptLoad : ℕ := 1

variable (l : Layout) (image : Image)

/-- A number of `n` bytes in the file. -/
def field (off n : ℕ) : ℕ := loadNat l.bits image.byte off n

/-- A number of the width of a word. -/
def wordField (off : ℕ) : ℕ := field l image off (l.bits / 8)

def ehdrOf : Ehdr where
  ident := (List.range 16).map fun i => field l image i 1
  type := field l image 16 2
  machine := field l image 18 2
  entry := wordField l image l.entryAt
  phoff := wordField l image l.phoffAt
  phentsize := field l image l.phentsizeAt 2
  phnum := field l image l.phnumAt 2

def phdrOf (off : ℕ) : Phdr where
  type := field l image off 4
  offset := wordField l image (off + l.offsetAt)
  vaddr := wordField l image (off + l.vaddrAt)
  filesz := wordField l image (off + l.fileszAt)
  memsz := wordField l image (off + l.memszAt)

def readEhdr : Prog Bus Error Ehdr :=
  if image.len < l.ehdrSize then .throw .tooSmall
  else .act (·.record (.file 0 l.ehdrSize)) fun _ =>
    let ehdr := ehdrOf l image
    if ehdr.ident.take 4 ≠ elfMagic then .throw .badMagic
    else if ehdr.ident[4]! ≠ l.elfClass ∨ ehdr.ident[5]! ≠ elfData2Lsb then .throw l.notElf
    else if ehdr.type ≠ etExec then .throw .notExecutable
    else if ehdr.machine ≠ l.machine then .throw .wrongArchitecture
    else pure ehdr

/-- Where the loader looks for entry `i` of the table of program headers. -/
def phdrAt (ehdr : Ehdr) (i : ℕ) : ℕ := (ehdr.phoff + i * ehdr.phentsize) % 2 ^ l.bits

/-- The end of a segment, which `checked_add` finds not to wrap. -/
def Phdr.stop (p : Phdr) : ℕ := p.vaddr + p.memsz

/-- `(phdr.p_memsz - phdr.p_filesz) as usize`. -/
def Phdr.bss (w : ℕ) (p : Phdr) : ℕ := (p.memsz + (2 ^ w - p.filesz)) % 2 ^ w

/-- The body of the loop in `load`, for a header that is loaded. -/
def loadSegment (highest : ℕ) (phdr : Phdr) : Prog Bus Error ℕ :=
  if 2 ^ l.bits ≤ phdr.offset + phdr.filesz then .throw .segmentOutOfBounds
  else if phdr.offset + phdr.filesz > image.len then .throw .segmentOutOfBounds
  else if 2 ^ l.bits ≤ phdr.stop then .throw .segmentOutOfBounds
  else if phdr.vaddr < userMemStart ∨ phdr.stop > userMemStart + userMemSize then
    .throw .segmentOutsideUserMemory
  else do
    copyFile l.bits image phdr.offset phdr.vaddr phdr.filesz
    let bss := phdr.bss l.bits
    if bss > 0 then writeZeros l.bits ((phdr.vaddr + phdr.filesz) % 2 ^ l.bits) bss
    pure (max highest phdr.stop)

/-- A round of the loop in `load`: the program header `i`. It returns the new `highest`. -/
def loadPhdr (ehdr : Ehdr) (highest i : ℕ) : Prog Bus Error ℕ :=
  let off := phdrAt l ehdr i
  if (off + l.phdrSize) % 2 ^ l.bits > image.len then .throw .segmentOutOfBounds
  else .act (·.record (.file off l.phdrSize)) fun _ =>
    let phdr := phdrOf l image off
    if phdr.type ≠ ptLoad ∨ phdr.memsz = 0 then pure highest
    else loadSegment l image highest phdr

def loadWith : Prog Bus Error LoadedImage := do
  let ehdr ← readEhdr l image
  let highest ← (List.range ehdr.phnum).foldlM (loadPhdr l image ehdr) 0
  if highest = 0 then .throw .segmentOutOfBounds
  pure ⟨ehdr.entry, highest⟩

/-- `elf32::load` and `elf64::load`. -/
def load (arch : Arch) (image : Image) : Prog Bus Error LoadedImage := loadWith (layout arch) image

/-! ## What an accepted image does -/

variable {l image} {ehdr : Ehdr} {highest i : ℕ} {s t : Bus} {p : Phdr}

/-- A header that the loader loads. -/
def Phdr.Loadable (p : Phdr) : Prop := p.type = ptLoad ∧ p.memsz ≠ 0

instance (p : Phdr) : Decidable p.Loadable := inferInstanceAs (Decidable (_ ∧ _))

/-- The checks of a segment. -/
structure Phdr.Fits (l : Layout) (image : Image) (p : Phdr) : Prop where
  file : p.offset + p.filesz < 2 ^ l.bits
  inside : p.offset + p.filesz ≤ image.len
  memory : p.stop < 2 ^ l.bits
  start : userMemStart ≤ p.vaddr
  stop : p.stop ≤ userMemStart + userMemSize

/-- The header `i`, as the loader reads it. -/
def phdr (l : Layout) (image : Image) (ehdr : Ehdr) (i : ℕ) : Phdr :=
  phdrOf l image (phdrAt l ehdr i)

/-- The checks of a round of the loop. -/
def Accepts (l : Layout) (image : Image) (ehdr : Ehdr) (i : ℕ) : Prop :=
  (phdrAt l ehdr i + l.phdrSize) % 2 ^ l.bits ≤ image.len ∧
    ((phdr l image ehdr i).Loadable → (phdr l image ehdr i).Fits l image)

/-- The memory with a segment in it. -/
def Phdr.place (l : Layout) (image : Image) (mem : ℕ → UInt8) (p : Phdr) : ℕ → UInt8 :=
  store l.bits
    (store l.bits mem p.vaddr p.filesz fun k => image.byte ((p.offset + k) % 2 ^ l.bits))
    ((p.vaddr + p.filesz) % 2 ^ l.bits) (p.bss l.bits) fun _ => 0

/-- The accesses that load a segment. -/
def Phdr.accesses (l : Layout) (p : Phdr) : List Access :=
  [.file p.offset p.filesz, .write p.vaddr p.filesz] ++
    if p.bss l.bits > 0 then [.write ((p.vaddr + p.filesz) % 2 ^ l.bits) (p.bss l.bits)] else []

/-- What a round that passes its checks does. -/
def round (l : Layout) (image : Image) (ehdr : Ehdr) (s : Bus) (i : ℕ) : Bus :=
  let p := phdr l image ehdr i
  let s := s.record (.file (phdrAt l ehdr i) l.phdrSize)
  if p.Loadable then { mem := p.place l image s.mem, log := s.log ++ p.accesses l } else s

/-- The new `highest`. -/
def raise (l : Layout) (image : Image) (ehdr : Ehdr) (highest i : ℕ) : ℕ :=
  if (phdr l image ehdr i).Loadable then max highest (phdr l image ehdr i).stop else highest

theorem loadSegment_ok {h : ℕ} :
    (loadSegment l image highest p).run s = (.ok h, t) ↔
      p.Fits l image ∧ h = max highest p.stop ∧
        t = { mem := p.place l image s.mem, log := s.log ++ p.accesses l } := by
  unfold loadSegment
  by_cases hfits : p.Fits l image
  · rw [if_neg (by have := hfits.file; omega), if_neg (by have := hfits.inside; omega),
      if_neg (by have := hfits.memory; omega),
      if_neg (by have := hfits.start; have := hfits.stop; omega), and_iff_right hfits]
    unfold Phdr.place Phdr.accesses
    by_cases hbss : p.bss l.bits > 0
    · simp only [if_pos hbss, ← List.append_assoc]
      exact Prog.run_pure_ok
    · simp only [show p.bss l.bits = 0 by omega, store_zero]
      exact Prog.run_pure_ok
  · refine iff_of_false ?_ fun h => hfits h.1
    split_ifs with hfile hinside hmemory hwindow
    · exact Prog.run_throw_ok
    · exact Prog.run_throw_ok
    · exact Prog.run_throw_ok
    · exact Prog.run_throw_ok
    · exact absurd ⟨by omega, by omega, by omega, by omega, by omega⟩ hfits

theorem loadPhdr_ok {h : ℕ} :
    (loadPhdr l image ehdr highest i).run s = (.ok h, t) ↔
      Accepts l image ehdr i ∧ h = raise l image ehdr highest i ∧ t = round l image ehdr s i := by
  unfold loadPhdr Accepts raise round
  by_cases htable : (phdrAt l ehdr i + l.phdrSize) % 2 ^ l.bits > image.len
  · rw [if_pos htable]
    exact iff_of_false Prog.run_throw_ok fun h => absurd h.1.1 (by omega)
  rw [if_neg htable, Prog.run_act_ok, and_assoc, and_iff_right (Nat.le_of_not_gt htable)]
  change (ite ((phdr l image ehdr i).type ≠ ptLoad ∨ (phdr l image ehdr i).memsz = 0) _
    (loadSegment l image highest (phdr l image ehdr i))).run _ = _ ↔ _
  have hskip : (phdr l image ehdr i).type ≠ ptLoad ∨ (phdr l image ehdr i).memsz = 0 ↔
      ¬ (phdr l image ehdr i).Loadable := by
    unfold Phdr.Loadable
    tauto
  by_cases hload : (phdr l image ehdr i).Loadable
  · rw [if_neg (by rw [hskip]; exact not_not.2 hload), loadSegment_ok]
    simp only [hload, if_true, true_imp_iff]
  · rw [if_pos (hskip.2 hload), Prog.run_pure_ok]
    simp only [hload, if_false, false_imp_iff, true_and]

/-- The checks of `readEhdr`. -/
structure Valid (l : Layout) (image : Image) : Prop where
  size : l.ehdrSize ≤ image.len
  magic : (ehdrOf l image).ident.take 4 = elfMagic
  elfClass : (ehdrOf l image).ident[4]! = l.elfClass
  data : (ehdrOf l image).ident[5]! = elfData2Lsb
  type : (ehdrOf l image).type = etExec
  machine : (ehdrOf l image).machine = l.machine

theorem readEhdr_ok :
    (readEhdr l image).run s = (.ok ehdr, t) ↔
      Valid l image ∧ ehdr = ehdrOf l image ∧ t = s.record (.file 0 l.ehdrSize) := by
  unfold readEhdr
  by_cases hvalid : Valid l image
  · rw [if_neg (by have := hvalid.size; omega), Prog.run_act_ok]
    simp only [hvalid.magic, hvalid.elfClass, hvalid.data, hvalid.type, hvalid.machine, ne_eq,
      not_true_eq_false, or_self, if_false, Prog.run_pure_ok, hvalid, true_and]
  · refine iff_of_false ?_ fun h => hvalid h.1
    split_ifs with hsize
    · exact Prog.run_throw_ok
    rw [Prog.run_act_ok]
    dsimp only
    split_ifs with hmagic hident htype hmachine
    · exact Prog.run_throw_ok
    · exact Prog.run_throw_ok
    · exact Prog.run_throw_ok
    · exact Prog.run_throw_ok
    · rw [not_or, not_not, not_not] at hident
      exact absurd ⟨by omega, not_not.1 hmagic, hident.1, hident.2, not_not.1 htype,
        not_not.1 hmachine⟩ hvalid

/-- The headers that are loaded, in the order of the table. -/
def segments (l : Layout) (image : Image) : List Phdr :=
  ((List.range (ehdrOf l image).phnum).map (phdr l image (ehdrOf l image))).filter (·.Loadable)

/-- The highest end of a segment. -/
def highestStop (ps : List Phdr) : ℕ := (ps.map Phdr.stop).foldl max 0

theorem foldl_raise (is : List ℕ) :
    is.foldl (raise l image ehdr) highest =
      (((is.map (phdr l image ehdr)).filter (·.Loadable)).map Phdr.stop).foldl max highest := by
  induction is generalizing highest with
  | nil => rfl
  | cons i is ih =>
    rw [List.foldl_cons, ih, List.map_cons, List.filter_cons]
    by_cases hload : (phdr l image ehdr i).Loadable
    · simp [raise, hload]
    · simp [raise, hload]

theorem foldl_round (is : List ℕ) :
    (is.foldl (round l image ehdr) s).mem =
      ((is.map (phdr l image ehdr)).filter (·.Loadable)).foldl (Phdr.place l image) s.mem := by
  induction is generalizing s with
  | nil => rfl
  | cons i is ih =>
    rw [List.foldl_cons, ih, List.map_cons, List.filter_cons]
    by_cases hload : (phdr l image ehdr i).Loadable
    · simp [round, hload, Bus.record]
    · simp [round, hload, Bus.record]

theorem mem_segments :
    p ∈ segments l image ↔ ∃ i < (ehdrOf l image).phnum,
      phdr l image (ehdrOf l image) i = p ∧ p.Loadable := by
  simp only [segments, List.mem_filter, List.mem_map, List.mem_range, decide_eq_true_eq]
  constructor
  · rintro ⟨⟨i, hi, rfl⟩, hload⟩
    exact ⟨i, hi, rfl, hload⟩
  · rintro ⟨i, hi, rfl, hload⟩
    exact ⟨⟨i, hi, rfl⟩, hload⟩

theorem le_foldl_max (ns : List ℕ) (m : ℕ) : m ≤ ns.foldl max m ∧ ∀ n ∈ ns, n ≤ ns.foldl max m := by
  induction ns generalizing m with
  | nil => simp
  | cons n ns ih =>
    obtain ⟨hm, hns⟩ := ih (max m n)
    rw [List.foldl_cons, List.forall_mem_cons]
    exact ⟨by omega, by omega, hns⟩

theorem foldl_max_mem (ns : List ℕ) (m : ℕ) : ns.foldl max m = m ∨ ns.foldl max m ∈ ns := by
  induction ns generalizing m with
  | nil => exact .inl rfl
  | cons n ns ih =>
    rw [List.foldl_cons]
    rcases ih (max m n) with h | h
    · rw [h]
      rcases Nat.le_total m n with hle | hle
      · exact .inr (by rw [Nat.max_eq_right hle]; exact List.mem_cons_self)
      · exact .inl (Nat.max_eq_left hle)
    · exact .inr (List.mem_cons_of_mem _ h)

/-- When `load` returns, and what it has done then. -/
theorem loadWith_ok {img : LoadedImage} :
    (loadWith l image).run s = (.ok img, t) ↔
      Valid l image ∧ (∀ i < (ehdrOf l image).phnum, Accepts l image (ehdrOf l image) i) ∧
        highestStop (segments l image) ≠ 0 ∧
        img = ⟨(ehdrOf l image).entry, highestStop (segments l image)⟩ ∧
        t = (List.range (ehdrOf l image).phnum).foldl (round l image (ehdrOf l image))
          (s.record (.file 0 l.ehdrSize)) := by
  have hloop := @Prog.run_foldlM_ok Bus Error ℕ ℕ (loadPhdr l image (ehdrOf l image))
    (Accepts l image (ehdrOf l image)) (raise l image (ehdrOf l image))
    (round l image (ehdrOf l image)) fun _ _ _ _ _ => loadPhdr_ok
  unfold loadWith
  rw [Prog.run_bind_ok]
  constructor
  · rintro ⟨ehdr, u, hehdr, h⟩
    obtain ⟨hvalid, rfl, rfl⟩ := readEhdr_ok.1 hehdr
    obtain ⟨highest, v, hrounds, h⟩ := Prog.run_bind_ok.1 h
    obtain ⟨haccepts, rfl, rfl⟩ := hloop.1 hrounds
    rw [foldl_raise] at h
    change (ite (highestStop (segments l image) = 0) _ _ : Prog Bus Error LoadedImage).run
      _ = _ at h
    by_cases hzero : highestStop (segments l image) = 0
    · rw [if_pos hzero] at h
      cases h
    · rw [if_neg hzero] at h
      obtain ⟨himg, ht⟩ := Prog.run_pure_ok.1 h
      exact ⟨hvalid, fun i hi => haccepts i (List.mem_range.2 hi), hzero, himg, ht⟩
  · rintro ⟨hvalid, haccepts, hzero, rfl, rfl⟩
    refine ⟨_, _, readEhdr_ok.2 ⟨hvalid, rfl, rfl⟩, Prog.run_bind_ok.2 ⟨_, _,
      hloop.2 ⟨fun i hi => haccepts i (List.mem_range.1 hi), rfl, rfl⟩, ?_⟩⟩
    rw [foldl_raise]
    change (ite (highestStop (segments l image) = 0) _ _ : Prog Bus Error LoadedImage).run _ = _
    rw [if_neg hzero]
    rfl

/-! ## The memory afterwards -/

variable {mem : ℕ → UInt8} {x : ℕ} {ps : List Phdr}

/-- The segment covers the address `x`. -/
def Phdr.Holds (p : Phdr) (x : ℕ) : Prop := p.vaddr ≤ x ∧ x < p.stop

instance (p : Phdr) (x : ℕ) : Decidable (p.Holds x) := inferInstanceAs (Decidable (_ ∧ _))

/-- The byte that a segment has at `x`: of the file, or zero beyond `filesz`. -/
def Phdr.contents (image : Image) (p : Phdr) (x : ℕ) : UInt8 :=
  if x < p.vaddr + p.filesz then image.byte (p.offset + (x - p.vaddr)) else 0

theorem Phdr.Fits.bss_eq (hfits : p.Fits l image) (hsize : p.filesz ≤ p.memsz) :
    p.bss l.bits = p.memsz - p.filesz := by
  have hmemory := hfits.memory
  unfold Phdr.stop at hmemory
  rw [Phdr.bss, show p.memsz + (2 ^ l.bits - p.filesz) = p.memsz - p.filesz + 2 ^ l.bits by omega,
    Nat.add_mod_right, Nat.mod_eq_of_lt (by omega)]

theorem Phdr.Fits.place_apply (hfits : p.Fits l image) (hsize : p.filesz ≤ p.memsz) :
    p.place l image mem x = if p.Holds x then p.contents image x else mem x := by
  have hmemory := hfits.memory
  have hfile := hfits.file
  have hbss := hfits.bss_eq hsize
  unfold Phdr.stop at hmemory
  have hmod : (p.vaddr + p.filesz) % 2 ^ l.bits = p.vaddr + p.filesz := Nat.mod_eq_of_lt (by omega)
  rw [Phdr.place, hmod, hbss]
  by_cases hzero : p.vaddr + p.filesz ≤ x ∧ x < p.stop
  · have hx : x = p.vaddr + p.filesz + (x - (p.vaddr + p.filesz)) := by omega
    have hlt := hzero.2
    unfold Phdr.stop at hlt
    rw [hx, store_of_interval (by omega) (by omega), ← hx,
      if_pos ⟨by omega, hzero.2⟩, Phdr.contents, if_neg (by omega)]
  · rw [store_of_not fun h => hzero (by
      rw [touches_iff (by omega)] at h
      exact ⟨h.1, by unfold Phdr.stop; omega⟩)]
    by_cases hdata : p.vaddr ≤ x ∧ x < p.vaddr + p.filesz
    · have hx : x = p.vaddr + (x - p.vaddr) := by omega
      rw [hx, store_of_interval (by omega) (by omega), ← hx,
        if_pos ⟨hdata.1, by unfold Phdr.stop; omega⟩, Phdr.contents, if_pos hdata.2,
        Nat.mod_eq_of_lt (by omega)]
    · rw [store_of_not fun h => hdata ((touches_iff (by omega)).1 h), if_neg fun h => ?_]
      rcases Nat.lt_or_ge x (p.vaddr + p.filesz) with hlt | hge
      · exact hdata ⟨h.1, hlt⟩
      · exact hzero ⟨hge, h.2⟩

/-- The segments do not overlap. -/
def Separate (ps : List Phdr) : Prop :=
  ps.Pairwise fun p q => p.stop ≤ q.vaddr ∨ q.stop ≤ p.vaddr

instance (ps : List Phdr) : Decidable (Separate ps) := inferInstanceAs (Decidable (ps.Pairwise _))

theorem foldl_place (x : ℕ) (mem : ℕ → UInt8) (hfits : ∀ p ∈ ps, p.Fits l image)
    (hsize : ∀ p ∈ ps, p.filesz ≤ p.memsz) (hsep : Separate ps) :
    (∀ p ∈ ps, p.Holds x → ps.foldl (Phdr.place l image) mem x = p.contents image x) ∧
      ((∀ p ∈ ps, ¬ p.Holds x) → ps.foldl (Phdr.place l image) mem x = mem x) := by
  induction ps generalizing mem with
  | nil => exact ⟨fun _ h => absurd h List.not_mem_nil, fun _ => rfl⟩
  | cons p ps ih =>
    rw [List.forall_mem_cons] at hfits hsize
    obtain ⟨hfirst, hrest⟩ := List.pairwise_cons.1 hsep
    obtain ⟨hin, hout⟩ := @ih (p.place l image mem) hfits.2 hsize.2 hrest
    rw [List.foldl_cons, List.forall_mem_cons, List.forall_mem_cons]
    refine ⟨⟨fun hx => ?_, hin⟩, fun hx => ?_⟩
    · have hother : ∀ q ∈ ps, ¬ q.Holds x := fun q hq hqx => by
        have := hfirst q hq
        have := hx.1
        have := hx.2
        have := hqx.1
        have := hqx.2
        omega
      rw [hout hother, hfits.1.place_apply hsize.1, if_pos hx]
    · rw [hout hx.2, hfits.1.place_apply hsize.1, if_neg hx.1]

/-- The memory after `load`: every segment at its place, and everything else as it was. -/
structure Loaded (image : Image) (ps : List Phdr) (mem mem' : ℕ → UInt8) (stop : ℕ) : Prop where
  file : ∀ p ∈ ps, ∀ k < p.filesz, mem' (p.vaddr + k) = image.byte (p.offset + k)
  zeros : ∀ p ∈ ps, ∀ k, p.filesz ≤ k → k < p.memsz → mem' (p.vaddr + k) = 0
  outside : ∀ x, (∀ p ∈ ps, ¬ p.Holds x) → mem' x = mem x
  stop_ge : ∀ p ∈ ps, p.stop ≤ stop
  stop_mem : ∃ p ∈ ps, p.stop = stop

/-- The same file but for the order of the program headers. -/
structure Reordered (l : Layout) (image image' : Image) : Prop where
  len : image'.len = image.len
  ehdr : ehdrOf l image' = ehdrOf l image
  table : ((List.range (ehdrOf l image).phnum).map (phdr l image' (ehdrOf l image))).Perm
    ((List.range (ehdrOf l image).phnum).map (phdr l image (ehdrOf l image)))
  contents : ∀ p ∈ segments l image, ∀ k < p.filesz,
    image'.byte (p.offset + k) = image.byte (p.offset + k)

theorem Valid.congr {image' : Image} (h : Valid l image) (hlen : image'.len = image.len)
    (hehdr : ehdrOf l image' = ehdrOf l image) : Valid l image' where
  size := by rw [hlen]; exact h.size
  magic := by rw [hehdr]; exact h.magic
  elfClass := by rw [hehdr]; exact h.elfClass
  data := by rw [hehdr]; exact h.data
  type := by rw [hehdr]; exact h.type
  machine := by rw [hehdr]; exact h.machine

theorem Phdr.Fits.congr {image' : Image} (h : p.Fits l image) (hlen : image'.len = image.len) :
    p.Fits l image' :=
  ⟨h.file, by rw [hlen]; exact h.inside, h.memory, h.start, h.stop⟩

variable {image' : Image}

theorem Reordered.segments (h : Reordered l image image') :
    (segments l image').Perm (segments l image) := by
  unfold Elf.segments
  rw [h.ehdr]
  exact h.table.filter _

theorem fits_of_mem (haccepts : ∀ i < (ehdrOf l image).phnum, Accepts l image (ehdrOf l image) i)
    (hp : p ∈ Elf.segments l image) : p.Fits l image := by
  obtain ⟨i, hi, rfl, hload⟩ := mem_segments.1 hp
  exact (haccepts i hi).2 hload

theorem Reordered.accepts (h : Reordered l image image')
    (haccepts : ∀ i < (ehdrOf l image).phnum, Accepts l image (ehdrOf l image) i) :
    ∀ i < (ehdrOf l image').phnum, Accepts l image' (ehdrOf l image') i := by
  rw [h.ehdr]
  intro i hi
  refine ⟨by rw [h.len]; exact (haccepts i hi).1, fun hload => ?_⟩
  have hmem := h.table.mem_iff.1 (List.mem_map_of_mem (List.mem_range.2 hi))
  obtain ⟨j, hj, hji⟩ := List.mem_map.1 hmem
  rw [← hji] at hload ⊢
  exact ((haccepts j (List.mem_range.1 hj)).2 hload).congr h.len

theorem Separate.perm {qs : List Phdr} (h : Separate ps) (hperm : qs.Perm ps) : Separate qs :=
  (hperm.pairwise_iff fun hpq => hpq.symm).2 h

/-- A reordered file leaves the same memory. -/
theorem Reordered.foldl_place (h : Reordered l image image')
    (haccepts : ∀ i < (ehdrOf l image).phnum, Accepts l image (ehdrOf l image) i)
    (hsep : Separate (Elf.segments l image))
    (hsize : ∀ p ∈ Elf.segments l image, p.filesz ≤ p.memsz) :
    (Elf.segments l image').foldl (Phdr.place l image') mem =
      (Elf.segments l image).foldl (Phdr.place l image) mem := by
  have hmem : ∀ {p}, p ∈ Elf.segments l image' ↔ p ∈ Elf.segments l image := h.segments.mem_iff
  have hfits : ∀ p ∈ Elf.segments l image, p.Fits l image := fun p hp => fits_of_mem haccepts hp
  funext x
  have hold := Elf.foldl_place x mem hfits hsize hsep
  have hnew := Elf.foldl_place x mem
    (fun p hp => (hfits p (hmem.1 hp)).congr h.len) (fun p hp => hsize p (hmem.1 hp))
    (hsep.perm h.segments)
  by_cases hx : ∃ p ∈ Elf.segments l image, p.Holds x
  · obtain ⟨p, hp, hpx⟩ := hx
    rw [hold.1 p hp hpx, hnew.1 p (hmem.2 hp) hpx, Phdr.contents, Phdr.contents]
    split_ifs with hfile
    · exact h.contents p hp _ (by have := hpx.1; omega)
    · rfl
  · have hout : ∀ p ∈ Elf.segments l image, ¬ p.Holds x := fun p hp hpx => hx ⟨p, hp, hpx⟩
    rw [hold.2 hout, hnew.2 fun p hp => hout p (hmem.1 hp)]

/-- **Loading an ELF file.** If the segments do not overlap and no one is shorter in memory than in
the file, then `load` puts each at its place, over zeros, and changes nothing else; it reports the
highest end, and the order of the program headers does not matter. -/
theorem load_semantics {arch : Arch} {img : LoadedImage}
    (h : (load arch image).run s = (.ok img, t))
    (hsep : Separate (Elf.segments (layout arch) image))
    (hsize : ∀ p ∈ Elf.segments (layout arch) image, p.filesz ≤ p.memsz) :
    Loaded image (Elf.segments (layout arch) image) s.mem t.mem img.stop ∧
      ∀ image', Reordered (layout arch) image image' →
        ∃ t', (load arch image').run s = (.ok img, t') ∧ t'.mem = t.mem := by
  obtain ⟨hvalid, haccepts, hzero, rfl, rfl⟩ := loadWith_ok.1 h
  have hfits : ∀ p ∈ Elf.segments (layout arch) image, p.Fits (layout arch) image :=
    fun p hp => fits_of_mem haccepts hp
  have hmem : ((List.range (ehdrOf (layout arch) image).phnum).foldl
      (round (layout arch) image (ehdrOf (layout arch) image))
      (s.record (.file 0 (layout arch).ehdrSize))).mem =
      (Elf.segments (layout arch) image).foldl (Phdr.place (layout arch) image) s.mem :=
    foldl_round _
  refine ⟨?_, fun image' hre => ?_⟩
  · rw [hmem]
    have hplace := fun x => Elf.foldl_place x s.mem hfits hsize hsep
    refine ⟨fun p hp k hk => ?_, fun p hp k hk hk' => ?_, fun x hx => (hplace x).2 hx, ?_, ?_⟩
    · have hstop : p.Holds (p.vaddr + k) := ⟨by omega, by
        have := hsize p hp
        unfold Phdr.stop
        omega⟩
      rw [(hplace _).1 p hp hstop, Phdr.contents, if_pos (by omega), Nat.add_sub_cancel_left]
    · have hstop : p.Holds (p.vaddr + k) := ⟨by omega, by unfold Phdr.stop; omega⟩
      rw [(hplace _).1 p hp hstop, Phdr.contents, if_neg (by omega)]
    · exact fun p hp => (le_foldl_max _ _).2 _ (List.mem_map_of_mem hp)
    · rcases foldl_max_mem ((Elf.segments (layout arch) image).map Phdr.stop) 0 with h | h
      · exact absurd h hzero
      · exact List.mem_map.1 h
  · have hstop : highestStop (Elf.segments (layout arch) image') =
        highestStop (Elf.segments (layout arch) image) :=
      (hre.segments.map Phdr.stop).foldl_eq 0
    refine ⟨_, loadWith_ok.2 ⟨hvalid.congr hre.len hre.ehdr, hre.accepts haccepts, by rwa [hstop],
      by rw [hstop, hre.ehdr], rfl⟩, ?_⟩
    rw [foldl_round, hmem]
    exact hre.foldl_place haccepts hsep hsize

/-- An ELF32 file with a segment of two bytes and two zeros, a note, and a segment of three
bytes. -/
def smallElf : Image where
  bytes := [0x7F, 0x45, 0x4C, 0x46, 1, 1, 1, 0, 0, 0, 0, 0, 0, 0, 0, 0] ++
    bytesOf 2 2 ++ bytesOf 2 3 ++ bytesOf 4 1 ++ bytesOf 4 0xC00000 ++ bytesOf 4 52 ++
    bytesOf 8 0 ++
    bytesOf 2 52 ++ bytesOf 2 32 ++ bytesOf 2 3 ++ bytesOf 6 0 ++
    (bytesOf 4 1 ++ bytesOf 4 148 ++ bytesOf 4 0xC00010 ++ bytesOf 4 0 ++ bytesOf 4 2 ++
      bytesOf 4 4 ++
      bytesOf 8 0) ++
    (bytesOf 4 4 ++ bytesOf 28 0) ++
    (bytesOf 4 1 ++ bytesOf 4 150 ++ bytesOf 4 0xC00000 ++ bytesOf 4 0 ++ bytesOf 4 3 ++
      bytesOf 4 3 ++
      bytesOf 8 0) ++
    [0x11, 0x22, 0x33, 0x44, 0x55]
  beyond := fun _ => 0xEE

theorem load_semantics_small :
    ∃ t, (load .i386 smallElf).run ⟨fun _ => 0xCC, []⟩ = (.ok ⟨0xC00000, 0xC00014⟩, t) ∧
      Loaded smallElf (Elf.segments elf32 smallElf) (fun _ => 0xCC) t.mem 0xC00014 :=
  have h := Prog.run_eq_of_fst (x := load .i386 smallElf) (s := ⟨fun _ => 0xCC, []⟩)
    (r := .ok ⟨0xC00000, 0xC00014⟩) (by decide +kernel)
  ⟨_, h, (load_semantics h (by decide +kernel) (by decide +kernel)).1⟩

end Loader.Elf

end Tcmk
