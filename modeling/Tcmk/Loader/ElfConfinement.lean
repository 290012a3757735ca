import Tcmk.Loader.Confinement
import Tcmk.Loader.Elf

/-!
# What the ELF loaders touch

`load` checks a segment against `USER_MEM_SIZE`, but `run_image` reserves `USER_MAP_SIZE`; it does
not compare `p_filesz` with `p_memsz`, and the place of a program header may wrap. A file for which
none of this matters is confined (`load_confined`).
-/

namespace Tcmk

namespace Loader

open Lib

namespace Elf

variable {l : Layout} {image : Image} {ehdr : Ehdr} {i : ℕ} {s t : Bus} {p : Phdr} {a : Access}

/-- No address, size or offset that belongs to the header `i` wraps. -/
structure NoWrap (l : Layout) (image : Image) (ehdr : Ehdr) (i : ℕ) : Prop where
  table : ehdr.phoff + i * ehdr.phentsize + l.phdrSize < 2 ^ l.bits
  size : (phdr l image ehdr i).Loadable → (phdr l image ehdr i).filesz ≤ (phdr l image ehdr i).memsz

/-- If `load` accepts the file, then it has stayed inside, and nothing has wrapped. -/
def Confined (arch : Arch) (image : Image) : Prop :=
  ∀ s img t, (load arch image).run s = (.ok img, t) →
    (∀ i < (ehdrOf (layout arch) image).phnum,
      NoWrap (layout arch) image (ehdrOf (layout arch) image) i) ∧
    ∀ a ∈ t.log, a ∈ s.log ∨ a.Inside (layout arch).bits image 0

/-- The checks that the loader lacks. -/
structure Sound (l : Layout) (image : Image) (ehdr : Ehdr) (i : ℕ) : Prop where
  table : ehdr.phoff + i * ehdr.phentsize + l.phdrSize < 2 ^ l.bits
  size : (phdr l image ehdr i).Loadable → (phdr l image ehdr i).filesz ≤ (phdr l image ehdr i).memsz
  reserved : (phdr l image ehdr i).Loadable →
    (phdr l image ehdr i).stop ≤ userMemStart + userMapSize

/-- The checks that it makes. -/
structure Passes (l : Layout) (image : Image) : Prop where
  valid : Valid l image
  accepts : ∀ i < (ehdrOf l image).phnum, Accepts l image (ehdrOf l image) i
  loadable : ∃ i < (ehdrOf l image).phnum, (phdr l image (ehdrOf l image) i).Loadable

theorem highestStop_ne_zero :
    highestStop (segments l image) ≠ 0 ↔
      ∃ i < (ehdrOf l image).phnum, (phdr l image (ehdrOf l image) i).Loadable := by
  constructor
  · intro h
    rcases foldl_max_mem ((segments l image).map Phdr.stop) 0 with hzero | hmem
    · exact absurd hzero h
    · obtain ⟨p, hp, -⟩ := List.mem_map.1 hmem
      obtain ⟨i, hi, rfl, hload⟩ := mem_segments.1 hp
      exact ⟨i, hi, hload⟩
  · rintro ⟨i, hi, hload⟩
    have hp : phdr l image (ehdrOf l image) i ∈ segments l image :=
      mem_segments.2 ⟨i, hi, rfl, hload⟩
    have hle := (le_foldl_max ((segments l image).map Phdr.stop) 0).2 _ (List.mem_map_of_mem hp)
    have hstop : (phdr l image (ehdrOf l image) i).stop ≠ 0 := by
      have := hload.2
      unfold Phdr.stop
      omega
    unfold highestStop
    omega

theorem Passes.of_ok {img : LoadedImage} (h : (loadWith l image).run s = (.ok img, t)) :
    Passes l image ∧ t = (List.range (ehdrOf l image).phnum).foldl (round l image (ehdrOf l image))
      (s.record (.file 0 l.ehdrSize)) := by
  obtain ⟨hvalid, haccepts, hzero, -, ht⟩ := loadWith_ok.1 h
  exact ⟨⟨hvalid, haccepts, highestStop_ne_zero.1 hzero⟩, ht⟩

theorem Passes.ok (h : Passes l image) (s : Bus) :
    ∃ img, (loadWith l image).run s = (.ok img, (List.range (ehdrOf l image).phnum).foldl
      (round l image (ehdrOf l image)) (s.record (.file 0 l.ehdrSize))) :=
  ⟨_, loadWith_ok.2 ⟨h.valid, h.accepts, highestStop_ne_zero.2 h.loadable, rfl, rfl⟩⟩

theorem mem_log_foldl (is : List ℕ) :
    a ∈ (is.foldl (round l image ehdr) s).log ↔ a ∈ s.log ∨ ∃ i ∈ is,
      a = .file (phdrAt l ehdr i) l.phdrSize ∨
        (phdr l image ehdr i).Loadable ∧ a ∈ (phdr l image ehdr i).accesses l := by
  induction is generalizing s with
  | nil => simp
  | cons i is ih =>
    rw [List.foldl_cons, ih, List.exists_mem_cons_iff, ← or_assoc]
    refine or_congr_left ?_
    unfold round
    by_cases hload : (phdr l image ehdr i).Loadable
    · simp [hload, Bus.record]
    · simp [hload, Bus.record]

/-- The loader reads headers from the file if their places do not wrap. -/
theorem inside_header (h : ehdr.phoff + i * ehdr.phentsize + l.phdrSize < 2 ^ l.bits)
    (haccepts : Accepts l image ehdr i) :
    (Access.file (phdrAt l ehdr i) l.phdrSize).Inside l.bits image 0 := by
  have hat : phdrAt l ehdr i = ehdr.phoff + i * ehdr.phentsize := Nat.mod_eq_of_lt (by omega)
  have hlen := haccepts.1
  rw [hat, Nat.mod_eq_of_lt h] at hlen
  intro x hx
  rw [hat, touches_iff h.le] at hx
  omega

/-- Loading a segment stays in the file and in the segment. -/
theorem Phdr.Fits.accesses (hfits : p.Fits l image) (hsize : p.filesz ≤ p.memsz)
    (ha : a ∈ p.accesses l) :
    (∃ off n, a = .file off n ∧ off + n ≤ image.len ∧ off + n < 2 ^ l.bits) ∨
      ∃ addr n, a = .write addr n ∧ p.vaddr ≤ addr ∧ addr + n ≤ p.stop := by
  have hmemory := hfits.memory
  unfold Phdr.stop at hmemory
  have hbss := hfits.bss_eq hsize
  have hmod : (p.vaddr + p.filesz) % 2 ^ l.bits = p.vaddr + p.filesz := Nat.mod_eq_of_lt (by omega)
  unfold Phdr.accesses at ha
  rw [hmod, hbss] at ha
  simp only [List.mem_append, List.mem_cons, List.not_mem_nil, or_false] at ha
  rcases ha with (rfl | rfl) | ha
  · exact .inl ⟨_, _, rfl, hfits.inside, hfits.file⟩
  · exact .inr ⟨_, _, rfl, le_rfl, by unfold Phdr.stop; omega⟩
  · split_ifs at ha with hpos
    · rw [List.mem_singleton] at ha
      exact .inr ⟨_, _, ha, by omega, by unfold Phdr.stop; omega⟩
    · cases ha

/-- The last byte of a segment is written. -/
theorem Phdr.Fits.writes_last (hfits : p.Fits l image) (hsize : p.filesz ≤ p.memsz)
    (hload : p.Loadable) :
    ∃ addr n, .write addr n ∈ p.accesses l ∧ Touches l.bits addr n (p.stop - 1) := by
  have hmemory := hfits.memory
  have hne := hload.2
  unfold Phdr.stop at hmemory ⊢
  have hbss := hfits.bss_eq hsize
  have hmod : (p.vaddr + p.filesz) % 2 ^ l.bits = p.vaddr + p.filesz := Nat.mod_eq_of_lt (by omega)
  rcases Nat.lt_or_ge p.filesz p.memsz with hlt | hge
  · refine ⟨p.vaddr + p.filesz, p.memsz - p.filesz, ?_, (touches_iff (by omega)).2 (by omega)⟩
    rw [Phdr.accesses, hmod, hbss, if_pos (by omega)]
    simp
  · exact ⟨p.vaddr, p.filesz, by simp [Phdr.accesses], (touches_iff (by omega)).2 (by omega)⟩

/-- **Confinement of the ELF loaders.** `load` is confined if and only if a file that passes its
checks passes the three that it lacks as well. -/
theorem load_confined {arch : Arch} :
    Confined arch image ↔ (Passes (layout arch) image →
      ∀ i < (ehdrOf (layout arch) image).phnum,
        Sound (layout arch) image (ehdrOf (layout arch) image) i) := by
  constructor
  · intro h hpasses i hi
    obtain ⟨img, hrun⟩ := hpasses.ok ⟨fun _ => 0, []⟩
    obtain ⟨hwrap, hlog⟩ := h _ _ _ hrun
    refine ⟨(hwrap i hi).table, (hwrap i hi).size, fun hload => ?_⟩
    obtain ⟨addr, n, hmem, htouches⟩ :=
      ((hpasses.accepts i hi).2 hload).writes_last ((hwrap i hi).size hload) hload
    have hin := (hlog _ ((mem_log_foldl _).2
      (.inr ⟨i, List.mem_range.2 hi, .inr ⟨hload, hmem⟩⟩))).resolve_left List.not_mem_nil
    have := (hin _ htouches).2
    omega
  · intro h s img t hrun
    obtain ⟨hpasses, rfl⟩ := Passes.of_ok hrun
    have hsound := h hpasses
    refine ⟨fun i hi => ⟨(hsound i hi).table, (hsound i hi).size⟩, fun a ha => ?_⟩
    rcases (mem_log_foldl _).1 ha with ha | ⟨i, hi, ha⟩
    · rcases List.mem_append.1 ha with ha | ha
      · exact .inl ha
      · rw [List.mem_singleton] at ha
        subst ha
        have hsize := hpasses.valid.size
        refine .inr fun x hx => ?_
        obtain ⟨k, hk, -, rfl⟩ := hx.exists
        have := Nat.mod_le (0 + k) (2 ^ (layout arch).bits)
        omega
    · rw [List.mem_range] at hi
      have haccepts := hpasses.accepts i hi
      refine .inr ?_
      rcases ha with rfl | ⟨hload, ha⟩
      · exact inside_header (hsound i hi).table haccepts
      · have hfits := haccepts.2 hload
        have hreserved := (hsound i hi).reserved hload
        rcases hfits.accesses ((hsound i hi).size hload) ha with
          ⟨off, n, rfl, hlen, hword⟩ | ⟨addr, n, rfl, hstart, hstop⟩
        · intro x hx
          rw [touches_iff hword.le] at hx
          omega
        · intro x hx
          have hmemory := hfits.memory
          have hwindow := hfits.start
          rw [touches_iff (by omega)] at hx
          omega

/-- A file whose segment lies above what is reserved. -/
def highElf : Image where
  bytes := [0x7F, 0x45, 0x4C, 0x46, 1, 1, 1, 0, 0, 0, 0, 0, 0, 0, 0, 0] ++
    bytesOf 2 2 ++ bytesOf 2 3 ++ bytesOf 4 1 ++ bytesOf 4 0xC80000 ++ bytesOf 4 52 ++
    bytesOf 8 0 ++
    bytesOf 2 52 ++ bytesOf 2 32 ++ bytesOf 2 1 ++ bytesOf 6 0 ++
    (bytesOf 4 1 ++ bytesOf 4 0 ++ bytesOf 4 0xC80000 ++ bytesOf 4 0 ++ bytesOf 4 4 ++
      bytesOf 4 4 ++
      bytesOf 8 0)
  beyond := fun _ => 0

/-- It is accepted, and written there. -/
theorem load_not_confined : ¬ ∀ arch image, Confined arch image := by
  intro h
  obtain ⟨-, hlog⟩ := h .i386 highElf ⟨fun _ => 0, []⟩ ⟨0xC80000, 0xC80004⟩ _
    (Prog.run_eq_of_fst (by decide +kernel))
  have hin := (hlog (.write 0xC80000 4) (by decide +kernel)).resolve_left List.not_mem_nil
  exact absurd (hin 0xC80000 (by decide +kernel)).2 (by decide)

end Elf

end Loader

end Tcmk
