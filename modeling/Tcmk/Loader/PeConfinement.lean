import Tcmk.Loader.Confinement
import Tcmk.Loader.PeTables

/-!
# What the PE loaders touch

A PE loader that accepts no sum that has wrapped (`Sums`) ends, and stays inside the file, the image
and the thunks behind it (`runs_load`). The proof follows the walks of the loader: the memory is the
one of `AtBlock`, `AtEntry` and `AtDescriptor`. On x86_64 no sum wraps (`noWrap_x86_64`). On both
architectures the loader takes `USER_MEM_SIZE` for the size of the memory, of which only
`USER_MAP_SIZE` is reserved (`pe_confined`).
-/

namespace Tcmk

namespace Loader

open Lib

/-- The access stays inside the file, the image or the thunks before `stop`. -/
def Access.Within (w : ℕ) (image : Image) (imageSize stop : ℕ) : Access → Prop
  | .file off n => ∀ x, Touches w off n x → x < image.len
  | .read a n => ∀ x, Touches w a n x → userMemStart ≤ x ∧ x < userMemStart + imageSize
  | .write a n => ∀ x, Touches w a n x → userMemStart ≤ x ∧
      (x < userMemStart + imageSize ∨ x < stop ∧ x < userMemStart + userMapSize)
  | .passed n => n < 2 ^ w

variable {w imageSize imageSize' stop stop' : ℕ} {image : Image} {s s₀ t : Bus} {a : Access}

theorem Access.Within.mono (h : a.Within w image imageSize stop) (hsize : imageSize ≤ imageSize')
    (hstop : stop ≤ stop') : a.Within w image imageSize' stop' := by
  cases a with
  | file off n => exact h
  | read a n => exact fun x hx => ⟨(h x hx).1, by have := (h x hx).2; omega⟩
  | write a n => exact fun x hx => ⟨(h x hx).1, by have := (h x hx).2; omega⟩
  | passed n => exact h

/-- All accesses since `s₀` have stayed inside. -/
def Kept (w : ℕ) (image : Image) (imageSize stop : ℕ) (s₀ t : Bus) : Prop :=
  ∀ a ∈ t.log, a ∈ s₀.log ∨ a.Within w image imageSize stop

theorem Kept.mono (h : Kept w image imageSize stop s₀ t) (hsize : imageSize ≤ imageSize')
    (hstop : stop ≤ stop') : Kept w image imageSize' stop' s₀ t :=
  fun a ha => (h a ha).imp_right fun h => h.mono hsize hstop

theorem Kept.append {as : List Access} {mem : ℕ → UInt8} (h : Kept w image imageSize stop s₀ t)
    (has : ∀ a ∈ as, a.Within w image imageSize stop) :
    Kept w image imageSize stop s₀ ⟨mem, t.log ++ as⟩ := by
  intro a ha
  rcases List.mem_append.1 ha with ha | ha
  · exact h a ha
  · exact .inr (has a ha)

theorem Kept.record (h : Kept w image imageSize stop s₀ t) (ha : a.Within w image imageSize stop) :
    Kept w image imageSize stop s₀ (t.record a) :=
  h.append fun b hb => by rwa [List.mem_singleton.1 hb]

theorem Kept.no_wrap {n : ℕ} (h : Kept w image imageSize stop s₀ t) (hn : .passed n ∈ t.log) :
    .passed n ∈ s₀.log ∨ n < 2 ^ w :=
  h _ hn

namespace Pe

/-- The state has this memory, and all accesses since `s₀` have stayed inside. -/
structure Keeps (w : ℕ) (image : Image) (imageSize stop : ℕ) (s₀ : Bus) (mem : ℕ → UInt8)
    (t : Bus) : Prop where
  kept : Kept w image imageSize stop s₀ t
  mem_eq : t.mem = mem

variable {mem mem' : ℕ → UInt8}

theorem Keeps.mono (h : Keeps w image imageSize stop s₀ mem t) (hsize : imageSize ≤ imageSize')
    (hstop : stop ≤ stop') : Keeps w image imageSize' stop' s₀ mem t :=
  ⟨h.kept.mono hsize hstop, h.mem_eq⟩

theorem Keeps.record (h : Keeps w image imageSize stop s₀ mem s)
    (ha : a.Within w image imageSize stop) : Keeps w image imageSize stop s₀ mem (s.record a) :=
  ⟨h.kept.record ha, h.mem_eq⟩

variable {α β : Type} {f : Format} {fuel : ℕ} {short : Prop} {Q : α → Bus → Prop}
variable {R : β → Bus → Prop} {x : Prog Bus (Option Error) α} {k : α → Prog Bus (Option Error) β}

/-! ## Running without a wrapped sum -/

/-- What holds when a loader stops: it has not run out of fuel unless there was too little, and no
sum has wrapped and passed its check. -/
def Fails (short : Prop) (w : ℕ) (s₀ : Bus) (e : Option Error) (t : Bus) : Prop :=
  (e = none → short) ∧ ∀ n, .passed n ∈ t.log → .passed n ∈ s₀.log ∨ n < 2 ^ w

/-- `x` returns with `Q`, or it stops as a loader may. -/
structure Runs (short : Prop) (w : ℕ) (s₀ : Bus) (x : Prog Bus (Option Error) α) (s : Bus)
    (Q : α → Bus → Prop) : Prop where
  post : Prog.Post x s Q (Fails short w s₀)

theorem runs_pure {v : α} (h : Q v s) :
    Runs short w s₀ (pure v : Prog Bus (Option Error) α) s Q := ⟨h⟩

theorem Runs.bind (hx : Runs short w s₀ x s Q) (hk : ∀ v t, Q v t → Runs short w s₀ (k v) t R) :
    Runs short w s₀ (x >>= k) s R :=
  ⟨Prog.post_bind.2 (hx.post.mono (fun v t h => (hk v t h).post) fun _ _ he => he)⟩

theorem Runs.mono {Q' : α → Bus → Prop} (hx : Runs short w s₀ x s Q) (h : ∀ v t, Q v t → Q' v t) :
    Runs short w s₀ x s Q' :=
  ⟨hx.post.mono h fun _ _ he => he⟩

/-- What the run itself says of the result. -/
theorem Runs.with_run (hx : Runs short w s₀ x s Q) :
    Runs short w s₀ x s fun v t => Q v t ∧ x.run s = (.ok v, t) :=
  ⟨(hx.post.and Prog.post_run).mono (fun _ _ h => h) fun _ _ h => h.1⟩

/-- A loop from 0 on keeps an invariant that its rounds keep. -/
theorem runs_forRange {body : ℕ → Prog Bus (Option Error) Unit} (I : ℕ → Bus → Prop) (count : ℕ)
    (hs : I 0 s)
    (hbody : ∀ i t, i < count → I i t → Runs short w s₀ (body i) t fun _ => I (i + 1)) :
    Runs short w s₀ (Prog.forRange count 0 body) s fun _ => I count := by
  have hloop := Prog.Post.forRange (E := Fails short w s₀) count hs fun i t _ hi ht =>
    (hbody i t (by omega) ht).post
  rw [Nat.zero_add] at hloop
  exact ⟨hloop⟩

theorem Keeps.throw (h : Keeps w image imageSize stop s₀ mem s) (e : Error) :
    Runs short w s₀ (Prog.throw (some e) : Prog Bus (Option Error) α) s Q := by
  have hfails : Fails short w s₀ (some e) s :=
    ⟨fun he => absurd he (Option.some_ne_none e), fun _ => h.kept.no_wrap⟩
  exact ⟨hfails⟩

/-- There was too little fuel. -/
theorem Keeps.out_of_fuel (h : Keeps w image imageSize stop s₀ mem s) (hshort : short) :
    Runs short w s₀ (Prog.throw none : Prog Bus (Option Error) α) s Q := by
  have hfails : Fails short w s₀ none s := ⟨fun _ => hshort, fun _ => h.kept.no_wrap⟩
  exact ⟨hfails⟩

/-- A check that compares no sums. -/
theorem Keeps.guard (h : Keeps w image imageSize stop s₀ mem s) {c : Prop} [Decidable c] {e : Error}
    {k : β → Prog Bus (Option Error) α} (hx : ¬ c → Runs short w s₀ x s Q) :
    Runs short w s₀ (if c then Prog.throw (some e) >>= k else x) s Q := by
  by_cases hc : c
  · rw [if_pos hc]
    exact h.throw e
  · rw [if_neg hc]
    exact hx hc

theorem Keeps.check (h : Keeps w image imageSize stop s₀ mem s) {n limit : ℕ}
    (hn : Exact w n limit) (e : Error) :
    Runs short w s₀ (Loader.check w n limit (some e)) s
      fun _ t => n < 2 ^ w ∧ n ≤ limit ∧ Keeps w image imageSize stop s₀ mem t := by
  unfold Loader.check
  by_cases hlimit : n % 2 ^ w > limit
  · rw [if_pos hlimit]
    exact h.throw e
  rw [if_neg hlimit]
  have hlt := hn (Nat.le_of_not_lt hlimit)
  rw [Nat.mod_eq_of_lt hlt] at hlimit
  exact ⟨⟨hlt, Nat.le_of_not_lt hlimit, h.record hlt⟩⟩

theorem Keeps.passed (h : Keeps w image imageSize stop s₀ mem s) {n : ℕ} (hn : n < 2 ^ w) :
    Runs short w s₀ (Prog.modify (·.record (.passed n)) : Prog Bus (Option Error) Unit) s
      fun _ t => Keeps w image imageSize stop s₀ mem t :=
  ⟨h.record hn⟩

theorem Keeps.read (h : Keeps w image imageSize stop s₀ mem s) {addr n : ℕ}
    (ha : (Access.read addr n).Within w image imageSize stop) :
    Runs short w s₀ (readMem w addr n : Prog Bus (Option Error) ℕ) s
      fun v t => v = loadNat w mem addr n ∧ Keeps w image imageSize stop s₀ mem t :=
  ⟨⟨by rw [h.mem_eq], h.record ha⟩⟩

theorem Keeps.write (h : Keeps w image imageSize stop s₀ mem s) {addr n : ℕ} (value : ℕ)
    (ha : (Access.write addr n).Within w image imageSize stop) :
    Runs short w s₀ (writeMem w addr n value : Prog Bus (Option Error) Unit) s
      fun _ t => Keeps w image imageSize stop s₀ (store w mem addr n (leByte value)) t := by
  obtain ⟨hkept, rfl⟩ := h
  refine ⟨⟨hkept.append fun b hb => ?_, rfl⟩⟩
  rwa [List.mem_singleton.1 hb]

theorem Keeps.writeBytes (h : Keeps w image imageSize stop s₀ mem s) {addr : ℕ} {bytes : List UInt8}
    (ha : (Access.write addr bytes.length).Within w image imageSize stop) :
    Runs short w s₀ (writeBytes w addr bytes : Prog Bus (Option Error) Unit) s fun _ t =>
      Keeps w image imageSize stop s₀
        (store w mem addr bytes.length fun k => bytes.getD k 0) t := by
  obtain ⟨hkept, rfl⟩ := h
  refine ⟨⟨hkept.append fun b hb => ?_, rfl⟩⟩
  rwa [List.mem_singleton.1 hb]

theorem Keeps.writeZeros (h : Keeps w image imageSize stop s₀ mem s) {addr n : ℕ}
    (ha : (Access.write addr n).Within w image imageSize stop) :
    Runs short w s₀ (writeZeros w addr n : Prog Bus (Option Error) Unit) s
      fun _ t => Keeps w image imageSize stop s₀ (store w mem addr n fun _ => 0) t := by
  obtain ⟨hkept, rfl⟩ := h
  refine ⟨⟨hkept.append fun b hb => ?_, rfl⟩⟩
  rwa [List.mem_singleton.1 hb]

/-- What holds of the two formats. -/
structure Format.Usual (f : Format) : Prop where
  bits : 32 ≤ f.bits
  word : f.word = 4 ∨ f.word = 8
  thunkSize : f.thunkSize ≤ 48
  thunk : ∀ e, (f.thunk e).length = f.thunkSize

theorem format_usual (arch : Arch) : (format arch).Usual := by
  cases arch with
  | i386 =>
    refine ⟨by decide, .inl rfl, by decide, fun e => ?_⟩
    change (thunk32 e).length = 16
    unfold thunk32
    split_ifs <;> rfl
  | x86_64 => exact ⟨by decide, .inr rfl, by decide, fun _ => rfl⟩

theorem Format.Usual.pow_le (h : f.Usual) : 2 ^ 32 ≤ 2 ^ f.bits :=
  Nat.pow_le_pow_right (by decide) h.bits

/-- An address of the image. -/
theorem Format.Usual.addr_eq (h : f.Usual) {rva : ℕ} (hrva : rva ≤ userMemSize) :
    f.addr rva = userMemStart + rva := by
  have := h.pow_le
  refine Nat.mod_eq_of_lt ?_
  unfold userMemStart
  unfold userMemSize at hrva
  omega

theorem Format.Usual.touches_addr (h : f.Usual) {rva n x : ℕ} (hrva : rva + n ≤ userMemSize)
    (hx : Touches f.bits (f.addr rva) n x) : userMemStart + rva ≤ x ∧
    x < userMemStart + rva + n := by
  have := h.pow_le
  rw [h.addr_eq (by omega)] at hx
  refine (touches_iff ?_).1 hx
  unfold userMemStart
  unfold userMemSize at hrva
  omega

theorem Format.Usual.within_read (h : f.Usual) (hsize : imageSize ≤ userMemSize) {rva n : ℕ}
    (hrva : rva + n ≤ imageSize) :
    (Access.read (f.addr rva) n).Within f.bits image imageSize stop := by
  intro x hx
  have := h.touches_addr (by omega) hx
  omega

theorem Format.Usual.within_write (h : f.Usual) (hsize : imageSize ≤ userMemSize) {rva n : ℕ}
    (hrva : rva + n ≤ imageSize) :
    (Access.write (f.addr rva) n).Within f.bits image imageSize stop := by
  intro x hx
  have := h.touches_addr (by omega) hx
  omega

theorem Format.addr_add (f : Format) (rva k : ℕ) :
    (f.addr rva + k) % 2 ^ f.bits = f.addr (rva + k) := by
  rw [Format.addr, Nat.mod_add_mod, Nat.add_assoc, Format.addr]

/-! ## Headers and sections -/

theorem within_file {o n : ℕ} (ho : o < 2 ^ w) (hn : n < 2 ^ w) (h : o ≤ (o + n) % 2 ^ w)
    (h' : (o + n) % 2 ^ w ≤ image.len) : (Access.file o n).Within w image imageSize stop := by
  have hlt : o + n < 2 ^ w := by
    by_contra hge
    have hmod : (o + n) % 2 ^ w = o + n - 2 ^ w := by
      rw [Nat.mod_eq_sub_mod (by omega), Nat.mod_eq_of_lt (by omega)]
    omega
  rw [Nat.mod_eq_of_lt hlt] at h'
  intro x hx
  rw [touches_iff hlt.le] at hx
  omega

theorem InFile.within {off n : ℕ} (h : InFile f image off n) (hn : n < 2 ^ f.bits) :
    (Access.file (off % 2 ^ f.bits) n).Within f.bits image imageSize stop :=
  within_file (Nat.mod_lt _ (Nat.two_pow_pos _)) hn h.1 h.2

theorem runs_readAt (hf : f.Usual) (h : Keeps f.bits image imageSize stop s₀ mem s) (off : ℕ)
    {n : ℕ} (hn : n ≤ 8) (e : Error) :
    Runs short f.bits s₀ (readAt f image off n e) s
      fun _ t => Keeps f.bits image imageSize stop s₀ mem t := by
  have hpow := hf.pow_le
  unfold readAt
  dsimp only
  split_ifs with hin
  · have hwithin : InFile f image off n := hin
    exact ⟨h.record (hwithin.within (by omega))⟩
  · exact h.throw e

theorem runs_readHeaders (hf : f.Usual) (h : Keeps f.bits image imageSize stop s₀ mem s) :
    Runs short f.bits s₀ (readHeaders f image) s
      fun _ t => Keeps f.bits image imageSize stop s₀ mem t := by
  have hword : f.word ≤ 8 := by have := hf.word; omega
  unfold readHeaders
  refine (runs_readAt hf h _ (by decide) _).bind fun _ _ h => h.guard fun _ => ?_
  refine (runs_readAt hf h _ (by decide) _).bind fun _ _ h => ?_
  refine (runs_readAt hf h _ (by decide) _).bind fun _ _ h => h.guard fun _ => ?_
  refine (runs_readAt hf h _ (by decide) _).bind fun _ _ h => h.guard fun _ => ?_
  refine (runs_readAt hf h _ (by decide) _).bind fun _ _ h => ?_
  refine (runs_readAt hf h _ (by decide) _).bind fun _ _ h => h.guard fun _ => ?_
  refine (runs_readAt hf h _ (by decide) _).bind fun _ _ h => h.guard fun _ => ?_
  refine (runs_readAt hf h _ (by decide) _).bind fun _ _ h => ?_
  refine (runs_readAt hf h _ hword _).bind fun _ _ h => ?_
  exact (runs_readAt hf h _ (by decide) _).bind fun _ _ h => runs_pure h

theorem runs_readSection (hf : f.Usual) (h : Keeps f.bits image imageSize stop s₀ mem s)
    (hd : Headers) (i : ℕ) :
    Runs short f.bits s₀ (readSection f image hd i) s
      fun _ t => Keeps f.bits image imageSize stop s₀ mem t := by
  unfold readSection
  refine (runs_readAt hf h _ (by decide) _).bind fun _ _ h => ?_
  refine (runs_readAt hf h _ (by decide) _).bind fun _ _ h => ?_
  refine (runs_readAt hf h _ (by decide) _).bind fun _ _ h => ?_
  exact (runs_readAt hf h _ (by decide) _).bind fun _ _ h => runs_pure h

theorem runs_copySection (hf : f.Usual) (hsize : imageSize ≤ userMemSize)
    (h : Keeps f.bits image imageSize stop s₀ mem s) {sec : Section}
    (haddr : sec.virtualAddr + sec.span ≤ imageSize) (hptr : sec.rawPtr < 2 ^ 32) :
    Runs short f.bits s₀ (copySection f image sec) s
      fun _ t => Keeps f.bits image imageSize stop s₀ (sec.place f image mem) t := by
  have hlimit : userMemSize = 2 ^ 21 := rfl
  have hpow := hf.pow_le
  have hraw : sec.rawSize ≤ sec.span := le_max_right _ _
  unfold copySection Section.place
  split_ifs with hpos
  · dsimp only
    split_ifs with hfile
    · obtain ⟨hkept, rfl⟩ := h
      refine ⟨⟨hkept.append fun a ha => ?_, rfl⟩⟩
      rcases List.mem_cons.1 ha with rfl | ha
      · exact within_file (hptr.trans_le hpow) (by omega) hfile.1 hfile.2
      · rw [List.mem_singleton.1 ha]
        exact hf.within_write hsize (by omega)
    · exact h.throw _
  · rw [show sec.rawSize = 0 by omega, store_zero]
    exact ⟨h⟩

/-- A section is copied into the image. -/
theorem runs_loadSection (hf : f.Usual) (hsize : (headersOf f image).sizeOfImage ≤ userMemSize)
    (h : Keeps f.bits image (headersOf f image).sizeOfImage stop s₀ mem s) {highest i : ℕ}
    (hhigh : highest ≤ (headersOf f image).sizeOfImage)
    (hsum : SectionInFile f image i →
      Exact f.bits ((sectionOf f image i).virtualAddr + (sectionOf f image i).span)
        (headersOf f image).sizeOfImage) :
    Runs short f.bits s₀ (loadSection f image (headersOf f image) highest i) s fun b t =>
      b ≤ (headersOf f image).sizeOfImage ∧ Keeps f.bits image (headersOf f image).sizeOfImage stop
        s₀ ((sectionOf f image i).place f image mem) t := by
  have hptr := @sectionOf_rawPtr_lt f image i
  unfold loadSection
  refine (runs_readSection hf h _ i).with_run.bind fun sec t hread => ?_
  obtain ⟨ht, hrun⟩ := hread
  obtain ⟨hin, rfl, -⟩ := readSection_ok hrun
  refine (ht.check (hsum hin) Error.sectionOutOfBounds).bind fun _ u hu => ?_
  obtain ⟨hlt, hle, hu⟩ := hu
  refine (runs_copySection hf hsize hu hle (by omega)).bind fun _ v hv => runs_pure ⟨?_, hv⟩
  rw [Nat.mod_eq_of_lt hlt]
  exact max_le hhigh hle

/-- The loop over the sections, from `i` on. -/
theorem runs_sections (hf : f.Usual) (hsums : Sums f image s₀.mem)
    (hheaders : HeadersPass f image) (hsize : (headersOf f image).sizeOfImage ≤ userMemSize)
    {i n : ℕ} (hn : i + n = (headersOf f image).numSections)
    (hbefore : ∀ j < i, SectionPasses f image j) {highest : ℕ}
    (hhigh : highest ≤ (headersOf f image).sizeOfImage)
    (h : Keeps f.bits image (headersOf f image).sizeOfImage stop s₀ mem s) :
    Runs short f.bits s₀
      ((List.range' i n).foldlM (loadSection f image (headersOf f image)) highest)
      s fun b t => b ≤ (headersOf f image).sizeOfImage ∧
        (∀ j < (headersOf f image).numSections, SectionPasses f image j) ∧
        Keeps f.bits image (headersOf f image).sizeOfImage stop s₀
          (((List.range' i n).map (sectionOf f image)).foldl (Section.place f image) mem) t := by
  induction n generalizing i highest mem s with
  | zero => exact ⟨⟨hhigh, fun j hj => hbefore j (by omega), h⟩⟩
  | succ n ih =>
    rw [List.range'_succ, List.foldlM_cons, List.map_cons, List.foldl_cons]
    refine (runs_loadSection hf hsize h hhigh
      (hsums.sections hheaders i (by omega) hbefore)).with_run.bind fun b t hb => ?_
    obtain ⟨⟨hb, ht⟩, hrun⟩ := hb
    have hpass := (loadSection_ok hrun).1
    refine ih (by omega) (fun j hj => ?_) hb ht
    rcases Nat.lt_succ_iff_lt_or_eq.1 hj with hj | rfl
    · exact hbefore j hj
    · exact hpass

theorem runs_readOrZero (hf : f.Usual) (h : Keeps f.bits image imageSize stop s₀ mem s) (off : ℕ) :
    Runs short f.bits s₀ (readOrZero f image off 4) s
      fun _ t => Keeps f.bits image imageSize stop s₀ mem t := by
  have hpow := hf.pow_le
  unfold readOrZero
  dsimp only
  split_ifs with hin
  · have hwithin : InFile f image off 4 := hin
    exact ⟨h.record (hwithin.within (by omega))⟩
  · exact ⟨h⟩

theorem runs_readDirectory (hf : f.Usual) (h : Keeps f.bits image imageSize stop s₀ mem s)
    (index : ℕ) :
    Runs short f.bits s₀ (readDirectory f image (headersOf f image) index) s fun d t =>
      d = directory f image index ∧ Keeps f.bits image imageSize stop s₀ mem t := by
  have hread : Runs short f.bits s₀ (readDirectory f image (headersOf f image) index) s
      fun _ t => Keeps f.bits image imageSize stop s₀ mem t := by
    unfold readDirectory
    refine (runs_readOrZero hf h _).bind fun _ _ h => ?_
    exact (runs_readOrZero hf h _).bind fun _ _ h => runs_pure h
  exact hread.with_run.mono fun _ _ h => ⟨(readDirectory_ok h.2).1, h.1⟩

/-! ## Base relocations -/

theorem Block.applied_addr {delta : ℕ} (b : Block) (i : ℕ) : b.applied f delta mem (i + 1) =
    if b.entry f (b.applied f delta mem i) i / 2 ^ 12 = f.relocKind then
      addAt f.bits f.word delta (b.applied f delta mem i)
        (f.addr (b.page + b.entry f (b.applied f delta mem i) i % 2 ^ 12))
    else b.applied f delta mem i := rfl

/-- An entry is applied. -/
theorem runs_applyEntry (hf : f.Usual) (hkind : f.relocKind ≠ 0)
    (hsize : (headersOf f image).sizeOfImage ≤ userMemSize) {b : Block} {rva i : ℕ}
    (haddr : b.addr = f.addr rva) (hentry : rva + 8 + i * 2 + 2 ≤ (headersOf f image).sizeOfImage)
    (hsum : b.entryAt f image mem i / 2 ^ 12 = f.relocKind →
      Exact f.bits (b.page + b.entryAt f image mem i % 2 ^ 12 + f.word)
        (headersOf f image).sizeOfImage)
    (h : Keeps f.bits image (headersOf f image).sizeOfImage stop s₀
      (b.applied f ((headersOf f image).delta f) mem i) s) :
    Runs short f.bits s₀ (applyEntry f (headersOf f image).sizeOfImage
        ((headersOf f image).delta f) b.addr b.page i) s fun _ t =>
      b.EntryPasses f image mem i ∧ Keeps f.bits image (headersOf f image).sizeOfImage stop s₀
        (b.applied f ((headersOf f image).delta f) mem (i + 1)) t := by
  have hplace : (b.addr + 8 + i * 2) % 2 ^ f.bits = f.addr (rva + (8 + i * 2)) := by
    rw [haddr, Nat.add_assoc, f.addr_add]
  unfold applyEntry
  rw [hplace]
  refine (h.read (hf.within_read hsize (by omega))).bind fun entry t ht => ?_
  obtain ⟨hvalue, ht⟩ := ht
  have hat : entry = b.entryAt f image mem i := by
    rw [hvalue, Block.entryAt, Block.entry, hplace]
  rw [Block.applied_addr]
  unfold Block.EntryPasses
  rw [show b.entry f (b.applied f ((headersOf f image).delta f) mem i) i =
    b.entryAt f image mem i from rfl]
  rw [← hat] at hsum ⊢
  dsimp only
  by_cases hpad : entry / 2 ^ 12 = 0
  · rw [if_pos hpad, if_neg (by omega)]
    exact ⟨⟨.inl hpad, ht⟩⟩
  rw [if_neg hpad]
  by_cases hreloc : entry / 2 ^ 12 = f.relocKind
  · rw [if_pos hreloc, if_pos hreloc]
    refine (ht.check (hsum hreloc) _).bind fun _ u hu => ?_
    obtain ⟨hlt, hle, hu⟩ := hu
    refine (hu.read (hf.within_read hsize hle)).bind fun value v hv => ?_
    obtain ⟨rfl, hv⟩ := hv
    refine (hv.write _ (hf.within_write hsize hle)).mono fun _ x hx => ⟨.inr ⟨hreloc, ?_⟩, hx⟩
    rwa [Nat.mod_eq_of_lt hlt]
  · rw [if_neg hreloc]
    exact ht.throw _

/-- The entries of a block are applied one after the other. -/
theorem runs_applyEntries (hf : f.Usual) (hkind : f.relocKind ≠ 0)
    (hsize : (headersOf f image).sizeOfImage ≤ userMemSize) {b : Block} {rva : ℕ}
    (haddr : b.addr = f.addr rva) (hend : rva + b.size ≤ (headersOf f image).sizeOfImage)
    (hpatches : ∀ i < b.entries, (∀ j < i, b.EntryPasses f image mem j) →
      b.entryAt f image mem i / 2 ^ 12 = f.relocKind →
        Exact f.bits (b.page + b.entryAt f image mem i % 2 ^ 12 + f.word)
          (headersOf f image).sizeOfImage)
    (h : Keeps f.bits image (headersOf f image).sizeOfImage stop s₀ mem s) :
    Runs short f.bits s₀ (Prog.forRange b.entries 0 (applyEntry f (headersOf f image).sizeOfImage
        ((headersOf f image).delta f) b.addr b.page)) s fun _ t =>
      (∀ i < b.entries, b.EntryPasses f image mem i) ∧
        Keeps f.bits image (headersOf f image).sizeOfImage stop s₀
          (b.applied f ((headersOf f image).delta f) mem b.entries) t := by
  refine runs_forRange (fun i t => (∀ j < i, b.EntryPasses f image mem j) ∧
    Keeps f.bits image (headersOf f image).sizeOfImage stop s₀
      (b.applied f ((headersOf f image).delta f) mem i) t) b.entries
    ⟨fun j hj => absurd hj (Nat.not_lt_zero j), h⟩ fun i t hi ht => ?_
  have hentry : rva + 8 + i * 2 + 2 ≤ (headersOf f image).sizeOfImage := by
    unfold Block.entries at hi
    omega
  refine (runs_applyEntry hf hkind hsize haddr hentry (hpatches i hi ht.1) ht.2).mono
    fun _ u hu => ⟨fun j hj => ?_, hu.2⟩
  rcases Nat.lt_succ_iff_lt_or_eq.1 hj with hj | rfl
  · exact ht.1 j hj
  · exact hu.1

/-- The table is read inside the image, and the walk ends: each block is at least 8 bytes long. -/
theorem runs_applyBlocks (hf : f.Usual) (hkind : f.relocKind ≠ 0) (hsums : Sums f image s₀.mem)
    (hsize : (headersOf f image).sizeOfImage ≤ userMemSize)
    (htable : (directory f image dirBaseReloc).1 + (directory f image dirBaseReloc).2 ≤
      (headersOf f image).sizeOfImage) {offset : ℕ} (hat : AtBlock f image s₀.mem offset mem)
    (hfuel : short ∨ (directory f image dirBaseReloc).2 < offset + fuel)
    (h : Keeps f.bits image (headersOf f image).sizeOfImage stop s₀ mem s) :
    Runs short f.bits s₀ (applyBlocks f (headersOf f image).sizeOfImage
        (directory f image dirBaseReloc).1 (directory f image dirBaseReloc).2
        ((headersOf f image).delta f) fuel offset) s fun _ t =>
      ∃ mem', Relocated f image s₀.mem mem' ∧
        Keeps f.bits image (headersOf f image).sizeOfImage stop s₀ mem' t := by
  have hlimit : userMemSize = 2 ^ 21 := rfl
  have hpow := hf.pow_le
  induction fuel generalizing offset mem s with
  | zero =>
    have hle := hat.offset_le
    exact h.out_of_fuel (hfuel.resolve_right (by omega))
  | succ fuel ih =>
    have hle := hat.offset_le
    rw [applyBlocks]
    by_cases hmore : (offset + 8) % 2 ^ f.bits ≤ (directory f image dirBaseReloc).2
    · rw [if_pos hmore]
      have hhead := hmore
      rw [Nat.mod_eq_of_lt (by omega)] at hhead
      refine (h.passed (by omega)).bind fun _ t ht => ?_
      refine (ht.read (hf.within_read hsize (by omega))).bind fun page u hu => ?_
      obtain ⟨rfl, hu⟩ := hu
      rw [f.addr_add]
      refine (hu.read (hf.within_read hsize (by omega))).bind fun size v hv => ?_
      obtain ⟨hsz, hv⟩ := hv
      rw [← f.addr_add] at hsz
      have hblock : size = (blockIn f image mem offset).size := hsz
      have haddr : (blockIn f image mem offset).addr =
        f.addr ((directory f image dirBaseReloc).1 + offset) := rfl
      have hpage : loadNat f.bits mem (f.addr ((directory f image dirBaseReloc).1 + offset)) 4 =
        (blockIn f image mem offset).page := rfl
      rw [hblock, hpage, ← haddr]
      refine hv.guard fun hmin => ?_
      have hblocks := hsums.blocks offset mem hat hmore (Nat.le_of_not_lt hmin)
      have hpatches := hsums.patches offset mem hat hmore
      have hnext := @AtBlock.next f image s₀.mem offset mem hat hmore
      generalize blockIn f image mem offset = b at haddr hblocks hpatches hnext hmin ⊢
      refine (hv.check hblocks _).bind fun _ x hx => ?_
      obtain ⟨hlt, hend, hx⟩ := hx
      have hgood : ¬ b.Malformed f (directory f image dirBaseReloc).2 offset := by
        unfold Block.Malformed
        rw [Nat.mod_eq_of_lt hlt]
        omega
      refine (runs_applyEntries hf hkind hsize haddr (by omega) (hpatches hgood) hx).bind
        fun _ y hy => ?_
      have hstep := hnext hgood hy.1
      exact ih hstep (hfuel.imp_right fun hfuel => by rw [Nat.mod_eq_of_lt hlt]; omega) hy.2
    · rw [if_neg hmore]
      exact ⟨⟨mem, .done hat (Nat.lt_of_not_le hmore), h⟩⟩

theorem runs_rebase (hf : f.Usual) (hkind : f.relocKind ≠ 0) (hsums : Sums f image s₀.mem)
    (hpasses : Passes f image) (hsize : (headersOf f image).sizeOfImage ≤ userMemSize)
    (hfuel : short ∨ 2 ^ 32 ≤ fuel)
    (h : Keeps f.bits image (headersOf f image).sizeOfImage stop s₀ (laidOut f image s₀.mem) s) :
    Runs short f.bits s₀ (rebase f image fuel (headersOf f image)) s fun _ t =>
      ∃ mem, Relocated f image s₀.mem mem ∧
        Keeps f.bits image (headersOf f image).sizeOfImage stop s₀ mem t := by
  have hlimit : userMemSize = 2 ^ 21 := rfl
  unfold rebase
  by_cases hdelta : (headersOf f image).delta f = 0
  · rw [if_neg (not_not.2 hdelta)]
    exact runs_pure ⟨_, .skipped hpasses fun hrel => hrel.moved hdelta, h⟩
  rw [if_pos hdelta]
  refine (runs_readDirectory hf h _).bind fun d t ht => ?_
  obtain ⟨rfl, ht⟩ := ht
  dsimp only
  by_cases hrel : HasRelocations f image
  · rw [if_pos (show _ ∧ _ from hrel), applyRelocations]
    have hrelocates : Relocates f image := ⟨hpasses, hdelta, hrel⟩
    refine (ht.check (hsums.table hrelocates) _).bind fun _ u hu => ?_
    obtain ⟨hlt, hle, hu⟩ := hu
    have hfirst := @AtBlock.first f image s₀.mem hrelocates (by rwa [Nat.mod_eq_of_lt hlt])
    exact runs_applyBlocks hf hkind hsums hsize hle hfirst
      (hfuel.imp_right fun hfuel => by omega) hu
  · rw [if_neg (show ¬ (_ ∧ _) from hrel)]
    exact runs_pure ⟨_, .skipped hpasses fun h => hrel h.table, ht⟩

/-- All of `load` before the imports. -/
theorem runs_layOut (hf : f.Usual) (hkind : f.relocKind ≠ 0) (hsums : Sums f image s₀.mem)
    (hfuel : short ∨ 2 ^ 32 ≤ fuel) (h : Keeps f.bits image 0 0 s₀ s₀.mem s) :
    Runs short f.bits s₀ (layOut f image fuel) s fun r t =>
      (r.1 = headersOf f image ∧ r.2 ≤ (headersOf f image).sizeOfImage) ∧ Passes f image ∧
        (headersOf f image).sizeOfImage ≤ userMemSize ∧ ∃ mem, Relocated f image s₀.mem mem ∧
          Keeps f.bits image (headersOf f image).sizeOfImage 0 s₀ mem t := by
  have hstart : userMemStart = 3 * 2 ^ 22 := rfl
  unfold layOut
  refine (runs_readHeaders hf h).with_run.bind fun hd t ht => ?_
  obtain ⟨ht, hrun⟩ := ht
  obtain ⟨hheaders, rfl, -⟩ := readHeaders_ok hrun
  refine (ht.check (hsums.size hheaders) _).bind fun _ u hu => ?_
  obtain ⟨hlt, hle, hu⟩ := hu
  have hsize : (headersOf f image).sizeOfImage ≤ userMemSize := by omega
  have hclear : (Access.write userMemStart (headersOf f image).sizeOfImage).Within f.bits image
      (headersOf f image).sizeOfImage 0 := by
    intro x hx
    rw [touches_iff hlt.le] at hx
    omega
  refine ((hu.mono (Nat.zero_le _) le_rfl).writeZeros hclear).bind fun _ v hv => ?_
  rw [List.range_eq_range']
  refine (runs_sections hf hsums hheaders hsize (Nat.zero_add _)
    (fun j hj => absurd hj (Nat.not_lt_zero j)) (Nat.zero_le _) hv).bind fun highest x hx => ?_
  obtain ⟨hhigh, hsections, hx⟩ := hx
  have hpasses : Passes f image := ⟨hheaders, by rwa [Nat.mod_eq_of_lt hlt], hsections⟩
  rw [← List.range_eq_range'] at hx
  exact (runs_rebase hf hkind hsums hpasses hsize hfuel hx).bind fun _ y hy =>
    runs_pure ⟨⟨rfl, hhigh⟩, hpasses, hsize, hy⟩

/-! ## Imports -/

theorem runs_cstrFrom (hf : f.Usual) (hsize : imageSize ≤ userMemSize) {rva n : ℕ}
    {name : List UInt8} (hrva : rva < imageSize) (hname : name.length + n ≤ nameMax)
    (h : Keeps f.bits image imageSize stop s₀ mem s) :
    Runs short f.bits s₀ (cstrFrom f imageSize rva n name) s fun v t =>
      v = nameFrom f imageSize mem rva n name ∧ Keeps f.bits image imageSize stop s₀ mem t := by
  have hlimit : userMemSize = 2 ^ 21 := rfl
  have hmax : nameMax = 64 := rfl
  have hpow := hf.pow_le
  induction n generalizing name s with
  | zero => exact runs_pure ⟨rfl, h⟩
  | succ n ih =>
    rw [cstrFrom, nameFrom]
    by_cases hin : (rva + name.length) % 2 ^ f.bits < imageSize
    · rw [if_pos hin, if_pos hin]
      rw [Nat.mod_eq_of_lt (by omega)] at hin
      refine (h.passed (by omega)).bind fun _ t ht => ?_
      refine (ht.read (hf.within_read hsize (by omega))).bind fun byte u hu => ?_
      obtain ⟨rfl, hu⟩ := hu
      dsimp only
      split_ifs
      · exact runs_pure ⟨rfl, hu⟩
      · exact runs_pure ⟨rfl, hu⟩
      · exact ih (by rw [List.length_append, List.length_singleton]; omega) hu
    · rw [if_neg hin, if_neg hin]
      exact runs_pure ⟨rfl, h⟩

theorem runs_imageCstr (hf : f.Usual) (hsize : imageSize ≤ userMemSize) (rva : ℕ)
    (h : Keeps f.bits image imageSize stop s₀ mem s) :
    Runs short f.bits s₀ (imageCstr f imageSize rva) s fun v t =>
      v = nameAt f imageSize mem rva ∧ Keeps f.bits image imageSize stop s₀ mem t := by
  unfold imageCstr nameAt
  by_cases hrva : rva ≥ imageSize
  · rw [if_pos hrva, if_pos hrva]
    exact runs_pure ⟨rfl, h⟩
  · rw [if_neg hrva, if_neg hrva]
    exact runs_cstrFrom hf hsize (Nat.lt_of_not_le hrva) (by decide) h

theorem runs_findExport (hf : f.Usual) (hsize : imageSize ≤ userMemSize) (dllName : List UInt8)
    (entry : ℕ) (h : Keeps f.bits image imageSize stop s₀ mem s) :
    Runs short f.bits s₀ (findExport f imageSize dllName entry) s fun e t =>
      exportOf f imageSize mem dllName entry = some e ∧
        Keeps f.bits image imageSize stop s₀ mem t := by
  unfold findExport exportOf
  by_cases hordinal : entry / f.ordinalFlag % 2 = 1
  · rw [if_pos hordinal, if_pos hordinal]
    cases resolveOrdinal dllName (entry % 2 ^ 16) with
    | none => exact h.throw _
    | some e => exact runs_pure ⟨rfl, h⟩
  rw [if_neg hordinal, if_neg hordinal]
  refine (runs_imageCstr hf hsize _ h).bind fun name t ht => ?_
  obtain ⟨rfl, ht⟩ := ht
  cases nameAt f imageSize mem ((entry + 2) % 2 ^ f.bits) with
  | none => exact ht.throw _
  | some function =>
    rw [Option.bind_some]
    dsimp only
    cases resolve dllName function with
    | none => exact ht.throw _
    | some e => exact runs_pure ⟨rfl, ht⟩

/-- The imports of a DLL are bound inside the image, with thunks behind it. -/
theorem runs_bindEntries (hf : f.Usual) (hsize : imageSize ≤ userMemSize) {d : Descriptor}
    {dllName : List UInt8} {nextThunk₀ nextThunk i : ℕ} {mem₀ : ℕ → UInt8}
    (hat : AtEntry f imageSize d dllName nextThunk₀ mem₀ i nextThunk mem)
    (hnames : Exact f.bits (d.namesRva + i * f.word + f.word) imageSize)
    (hslot : d.lookup f mem i ≠ 0 →
      (∃ e, exportOf f imageSize mem dllName (d.lookup f mem i) = some e) →
      (nextThunk + f.thunkSize) % 2 ^ f.bits ≤ userMemStart + userMapSize →
      Exact f.bits (d.iatRva + i * f.word + f.word) imageSize)
    (hfuel : short ∨ imageSize < d.namesRva + i * f.word + fuel ∧ 0 < fuel)
    (hstart : userMemStart ≤ nextThunk) (hthunk : nextThunk < 2 ^ 24)
    (h : Keeps f.bits image imageSize nextThunk s₀ mem s) :
    Runs short f.bits s₀ (bindEntries f imageSize d.namesRva d.iatRva dllName fuel i nextThunk) s
      fun v t => ∃ j mem', AtEntry f imageSize d dllName nextThunk₀ mem₀ j v mem' ∧
        (d.namesRva + j * f.word + f.word) % 2 ^ f.bits ≤ imageSize ∧ d.lookup f mem' j = 0 ∧
        (nextThunk ≤ v ∧ v < 2 ^ 24) ∧ Keeps f.bits image imageSize v s₀ mem' t := by
  have hlimit : userMemSize = 2 ^ 21 := rfl
  have hmap : userMemStart + userMapSize < 2 ^ 24 := by decide
  have hpow := hf.pow_le
  have hword := hf.word
  have hthunkSize := hf.thunkSize
  induction fuel generalizing i nextThunk mem s with
  | zero => exact h.out_of_fuel (hfuel.resolve_right (by omega))
  | succ fuel ih =>
    rw [bindEntries]
    dsimp only
    refine (h.check hnames _).bind fun _ t ht => ?_
    obtain ⟨hlt, hle, ht⟩ := ht
    refine (ht.read (hf.within_read hsize hle)).bind fun entry u hu => ?_
    obtain ⟨hentry, hu⟩ := hu
    rw [show entry = d.lookup f mem i from hentry]
    have hnext : ∀ rva, rva + (i + 1) * f.word = rva + i * f.word + f.word := fun rva => by ring
    by_cases hzero : d.lookup f mem i = 0
    · rw [if_pos hzero]
      exact runs_pure ⟨i, mem, hat, by rwa [Nat.mod_eq_of_lt hlt], hzero, ⟨le_rfl, hthunk⟩, hu⟩
    rw [if_neg hzero]
    refine (runs_findExport hf hsize dllName _ hu).bind fun e v hv => ?_
    obtain ⟨he, hv⟩ := hv
    refine (hv.check (.of_lt (by omega)) _).bind fun _ x hx => ?_
    obtain ⟨hlt', harea, hx⟩ := hx
    have harea' : (nextThunk + f.thunkSize) % 2 ^ f.bits ≤ userMemStart + userMapSize := by
      rwa [Nat.mod_eq_of_lt hlt']
    refine ((hx.mono le_rfl (Nat.le_add_right _ f.thunkSize)).writeBytes ?_).bind fun _ y hy => ?_
    · rw [hf.thunk]
      intro x hx
      rw [touches_iff hlt'.le] at hx
      omega
    refine (hy.check (hslot hzero ⟨e, he⟩ harea') _).bind fun _ z hz => ?_
    obtain ⟨hslotLt, hslotLe, hz⟩ := hz
    refine (hz.write _ (hf.within_write hsize hslotLe)).bind fun _ k hk => ?_
    have hstep := hat.next (by rwa [Nat.mod_eq_of_lt hlt]) hzero he harea'
      (by rwa [Nat.mod_eq_of_lt hslotLt])
    rw [Nat.mod_eq_of_lt hlt'] at hstep ⊢
    refine (ih hstep (.of_lt (by rw [hnext]; omega))
      (fun _ _ _ => .of_lt (by rw [hnext]; omega)) (hfuel.imp_right fun hfuel => ?_) (by omega)
      (by omega) hk).mono fun v t hv => ?_
    · rw [hnext]
      omega
    · obtain ⟨j, mem', hj, hlast, hnull, hbounds, hkeeps⟩ := hv
      exact ⟨j, mem', hj, hlast, hnull, ⟨by omega, hbounds.2⟩, hkeeps⟩

theorem runs_resolveImports (hf : f.Usual) (hsums : Sums f image s₀.mem)
    (hsize : (headersOf f image).sizeOfImage ≤ userMemSize) {rva nextThunk : ℕ}
    (hat : AtDescriptor f image s₀.mem rva nextThunk mem)
    (hrva : Exact f.bits (rva + 20) (headersOf f image).sizeOfImage)
    (hfuel : short ∨ 2 * (headersOf f image).sizeOfImage < rva + fuel ∧ 0 < fuel)
    (hstart : userMemStart ≤ nextThunk) (hthunk : nextThunk < 2 ^ 24)
    (h : Keeps f.bits image (headersOf f image).sizeOfImage nextThunk s₀ mem s) :
    Runs short f.bits s₀ (resolveImports f (headersOf f image).sizeOfImage fuel rva nextThunk) s
      fun v t => ∃ mem', Keeps f.bits image (headersOf f image).sizeOfImage v s₀ mem' t := by
  have hlimit : userMemSize = 2 ^ 21 := rfl
  have hpow := hf.pow_le
  induction fuel generalizing rva nextThunk mem s with
  | zero => exact h.out_of_fuel (hfuel.resolve_right (by omega))
  | succ fuel ih =>
    rw [resolveImports]
    refine (h.check hrva _).bind fun _ t ht => ?_
    obtain ⟨hlt, hle, ht⟩ := ht
    refine (ht.read (hf.within_read hsize (by omega))).bind fun int u hu => ?_
    obtain ⟨hint, hu⟩ := hu
    refine (hu.read (hf.within_read hsize (by omega))).bind fun name v hv => ?_
    obtain ⟨hname, hv⟩ := hv
    refine (hv.read (hf.within_read hsize (by omega))).bind fun iat x hx => ?_
    obtain ⟨hiat, hx⟩ := hx
    have hd : descriptorAt f mem rva = ⟨int, name, iat⟩ := by rw [hint, hname, hiat]; rfl
    have hin : (rva + 20) % 2 ^ f.bits ≤ (headersOf f image).sizeOfImage := by
      rwa [Nat.mod_eq_of_lt hlt]
    by_cases hnull : int = 0 ∧ name = 0 ∧ iat = 0
    · rw [if_pos hnull]
      exact runs_pure ⟨mem, hx⟩
    rw [if_neg hnull]
    refine (runs_imageCstr hf hsize name hx).bind fun dll y hy => ?_
    obtain ⟨rfl, hy⟩ := hy
    dsimp only
    refine hy.guard fun hempty => ?_
    rw [not_or] at hempty
    have hnext := @AtDescriptor.next f image s₀.mem rva nextThunk
    have hbinds : Binds f image s₀.mem (descriptorAt f mem rva) nextThunk mem :=
      ⟨⟨rva, hat, hin, rfl⟩, by rw [hd]; exact hnull, by rw [hd]; exact hempty.1,
        by rw [hd]; exact hempty.2⟩
    have hstep := fun i v mem' => @hnext i v mem mem' hat hin hbinds.notNull hbinds.names hbinds.iat
    have hnames := hsums.names _ _ _ hbinds
    have hslots := hsums.slots _ _ _ hbinds
    rw [hd] at hstep hnames hslots
    refine (runs_bindEntries hf hsize (@AtEntry.first f _ ⟨int, name, iat⟩ _ nextThunk mem)
      (by rwa [Nat.zero_mul, Nat.add_zero]) (by rwa [Nat.zero_mul, Nat.add_zero])
      (hfuel.imp_right fun hfuel => by omega) hstart hthunk hy).bind fun next z hz => ?_
    obtain ⟨j, mem', hj, hlast, hend, hbounds, hz⟩ := hz
    exact ih (hstep j next mem' hj hlast hend) (.of_lt (by rw [Nat.mod_eq_of_lt hlt]; omega))
      (hfuel.imp_right fun hfuel => by rw [Nat.mod_eq_of_lt hlt]; omega) (by omega) hbounds.2 hz

/-- A PE loader that accepts no sum that has wrapped ends, and stays inside. -/
theorem runs_load (hf : f.Usual) (hkind : f.relocKind ≠ 0) (hsums : Sums f image s₀.mem)
    (hfuel : short ∨ 2 ^ 32 ≤ fuel) (h : Keeps f.bits image 0 0 s₀ s₀.mem s) :
    Runs short f.bits s₀ (loadWith f image fuel) s fun img t => Passes f image ∧
      Kept f.bits image (headersOf f image).sizeOfImage img.stop s₀ t := by
  have hlimit : userMemSize = 2 ^ 21 := rfl
  have hstart : userMemStart = 3 * 2 ^ 22 := rfl
  have hpow := hf.pow_le
  unfold loadWith
  refine (runs_layOut hf hkind hsums hfuel h).bind fun r t hr => ?_
  obtain ⟨hd, highest⟩ := r
  obtain ⟨⟨rfl, hhigh⟩, hpasses, hsize, mem, hrelocated, ht⟩ := hr
  dsimp only at hhigh ⊢
  rw [Nat.max_eq_left hhigh]
  refine (runs_readDirectory hf ht _).bind fun d u hu => ?_
  obtain ⟨rfl, hu⟩ := hu
  by_cases himports : HasImports f image
  · rw [if_pos (show _ ∧ _ from himports)]
    have hfirst : firstThunk f image =
        (userMemStart + (headersOf f image).sizeOfImage + 0xFFF) / 0x1000 * 0x1000 := by
      rw [firstThunk, hf.addr_eq hsize, pageAlign, Nat.mod_eq_of_lt (by omega)]
    refine (runs_resolveImports hf hsums hsize (.first hrelocated himports)
      (hsums.imports himports ⟨mem, hrelocated⟩) (hfuel.imp_right fun hfuel => by omega)
      (by omega) (by omega) (hu.mono le_rfl (Nat.zero_le _))).bind fun next v hv => ?_
    obtain ⟨mem', hv⟩ := hv
    exact runs_pure ⟨hpasses, hv.kept⟩
  · rw [if_neg (show ¬ (_ ∧ _) from himports)]
    exact runs_pure ⟨hpasses, hu.kept.mono le_rfl (Nat.zero_le _)⟩

/-! ## Confinement -/

variable {arch : Arch} {img : LoadedImage}

/-- A load from a memory, with an empty log. -/
def loadFrom (arch : Arch) (image : Image) (fuel : ℕ) (mem : ℕ → UInt8) :
    Except (Option Error) LoadedImage × Bus :=
  (load arch image fuel).run ⟨mem, []⟩

/-- No sum wraps and passes its check. -/
def NoWrap (arch : Arch) (image : Image) : Prop :=
  ∀ fuel mem n, .passed n ∈ (loadFrom arch image fuel mem).2.log → n < 2 ^ (format arch).bits

/-- The loader ends, no sum wraps into an accepted value, and an accepted file has been read and
loaded inside the file, the image and what is reserved for the process. -/
structure Confined (arch : Arch) (image : Image) : Prop where
  ends : ∀ mem, ∃ fuel, (loadFrom arch image fuel mem).1 ≠ .error none
  noWrap : NoWrap arch image
  inside : ∀ fuel mem img t, loadFrom arch image fuel mem = (.ok img, t) →
    ∀ a ∈ t.log, a.Inside (format arch).bits image (headersOf (format arch) image).sizeOfImage

theorem runs_loadFrom (hsums : ∀ mem, Sums (format arch) image mem) (fuel : ℕ) (mem : ℕ → UInt8) :
    Runs (fuel < 2 ^ 32) (format arch).bits ⟨mem, []⟩ (load arch image fuel) ⟨mem, []⟩ fun img t =>
      Passes (format arch) image ∧ Kept (format arch).bits image
        (headersOf (format arch) image).sizeOfImage img.stop ⟨mem, []⟩ t :=
  runs_load (format_usual arch) (format_relocKind arch) (hsums mem) (Nat.lt_or_ge _ _)
    ⟨fun _ ha => .inl ha, rfl⟩

theorem noWrap (hsums : ∀ mem, Sums (format arch) image mem) : NoWrap arch image := by
  intro fuel mem n hn
  have hruns := (runs_loadFrom hsums fuel mem).post
  unfold Prog.Post at hruns
  unfold loadFrom at hn
  cases hr : (load arch image fuel).run ⟨mem, []⟩ with
  | mk r t =>
    rw [hr] at hruns hn
    cases r with
    | ok img => exact (hruns.2.no_wrap hn).resolve_left List.not_mem_nil
    | error e => exact (hruns.2 n hn).resolve_left List.not_mem_nil

/-- On x86_64 no file makes a sum wrap. -/
theorem noWrap_x86_64 (image : Image) : NoWrap .x86_64 image :=
  noWrap fun mem => sums_of_bits (by decide) (by decide) image mem

theorem ends (hsums : ∀ mem, Sums (format arch) image mem) (mem : ℕ → UInt8) :
    (loadFrom arch image (2 ^ 32) mem).1 ≠ .error none := by
  intro hnone
  have hfails := Prog.Post.of_error (runs_loadFrom hsums (2 ^ 32) mem).post
    (Prog.run_eq_of_fst hnone)
  exact absurd (hfails.1 rfl) (Nat.lt_irrefl _)

theorem Sums.inside (hsums : ∀ mem, Sums (format arch) image mem)
    (hsize : Passes (format arch) image →
      (headersOf (format arch) image).sizeOfImage ≤ userMapSize)
    (hr : loadFrom arch image fuel mem = (.ok img, t)) (ha : a ∈ t.log) :
    a.Inside (format arch).bits image (headersOf (format arch) image).sizeOfImage := by
  obtain ⟨hpasses, hkept⟩ := Prog.Post.of_ok (runs_loadFrom hsums fuel mem).post hr
  have hle := hsize hpasses
  have hin := (hkept a ha).resolve_left List.not_mem_nil
  cases a with
  | file off n => exact hin
  | read addr n => exact hin
  | write addr n => exact fun x hx => ⟨(hin x hx).1, by have := (hin x hx).2; omega⟩
  | passed n => exact hin

/-! ## The image is cleared -/

theorem grows_readAt (off n : ℕ) (e : Error) : Grows (readAt f image off n e) :=
  (grows_readFile image _ n).ite (grows_throw _)

theorem grows_readSection (hd : Headers) (i : ℕ) : Grows (readSection f image hd i) :=
  (grows_readAt _ _ _).bind fun _ => (grows_readAt _ _ _).bind fun _ =>
    (grows_readAt _ _ _).bind fun _ => (grows_readAt _ _ _).bind fun _ => grows_pure _

theorem grows_copySection (sec : Section) : Grows (copySection f image sec) :=
  ((grows_copyFile image _ _ _).ite (grows_throw _)).ite (grows_pure ())

theorem grows_loadSection (hd : Headers) (highest i : ℕ) :
    Grows (loadSection f image hd highest i) :=
  (grows_readSection hd i).bind fun sec => (grows_check _ _ _).bind fun _ =>
    (grows_copySection sec).bind fun _ => grows_pure _

theorem grows_readDirectory (hd : Headers) (index : ℕ) :
    Grows (readDirectory f image hd index) := by
  have hread : ∀ off, Grows (readOrZero f image off 4) := fun off =>
    (grows_readFile image _ _).ite (grows_pure 0)
  exact (hread _).bind fun _ => (hread _).bind fun _ => grows_pure _

/-- An accepted file without imports and relocations has had its whole image cleared. -/
theorem clears_image (hrel : ¬ HasRelocations f image) (himports : ¬ HasImports f image)
    (hr : (loadWith f image fuel).run s = (.ok img, t)) :
    .write userMemStart (headersOf f image).sizeOfImage ∈ t.log := by
  unfold loadWith at hr
  obtain ⟨⟨hd, highest⟩, u, hlay, hr⟩ := Prog.run_bind_ok.1 hr
  obtain ⟨d, v, hdir, hr⟩ := Prog.run_bind_ok.1 hr
  unfold layOut at hlay
  simp only [Prog.run_bind_ok, check_ok, Prog.run_pure_ok] at hlay
  obtain ⟨h', w, hheaders, _, _, ⟨-, rfl⟩, _, x, hzero, _, y, hsections, _, z, hrebase, hh, rfl⟩ :=
    hlay
  obtain ⟨-, rfl, -⟩ := readHeaders_ok hheaders
  cases hh
  obtain ⟨rfl, -⟩ := readDirectory_ok hdir
  dsimp only at hr
  rw [if_neg (show ¬ (_ ∧ _) from himports)] at hr
  cases hr
  refine (grows_readDirectory _ _).mem_log hdir ?_
  have hcleared := (Grows.foldlM (grows_loadSection _) _ _).mem_log hsections
    (a := .write userMemStart (headersOf f image).sizeOfImage) (by
      cases hzero
      exact List.mem_append_right _ (List.mem_singleton_self _))
  unfold rebase at hrebase
  split_ifs at hrebase
  · obtain ⟨d, u, hdir, hrebase⟩ := Prog.run_bind_ok.1 hrebase
    obtain ⟨rfl, -⟩ := readDirectory_ok hdir
    dsimp only at hrebase
    rw [if_neg (show ¬ (_ ∧ _) from hrel)] at hrebase
    cases hrebase
    exact (grows_readDirectory _ _).mem_log hdir hcleared
  · cases hrebase
    exact hcleared

/-- **Confinement of the PE loaders.** A file is loaded inside what is reserved for the process if
its `SizeOfImage`, where it passes the checks of headers and sections, is at most `USER_MAP_SIZE`,
and on i386 no sum wraps into a value that passes its check. Of the files that are neither relocated
nor bound, those with a larger image are not confined. -/
theorem pe_confined (arch : Arch) (image : Image) :
    ((arch = .i386 → ∀ mem, Sums pe32 image mem) →
      (Passes (format arch) image →
        (headersOf (format arch) image).sizeOfImage ≤ userMapSize) → Confined arch image) ∧
      (¬ HasRelocations (format arch) image → ¬ HasImports (format arch) image →
        Confined arch image → Passes (format arch) image →
          (headersOf (format arch) image).sizeOfImage ≤ userMapSize) := by
  constructor
  · intro h hsize
    have hsums : ∀ mem, Sums (format arch) image mem := by
      cases arch with
      | i386 => exact h rfl
      | x86_64 => exact fun mem => sums_of_bits (by decide) (by decide) image mem
    exact ⟨fun mem => ⟨_, ends hsums mem⟩, noWrap hsums,
      fun fuel mem img t hr a ha => Sums.inside hsums hsize hr ha⟩
  · intro hrel himports hconfined hpasses
    have hpow := (format_usual arch).pow_le
    have hmap : userMapSize < 2 ^ 32 := by decide
    have hend : userMemStart + userMapSize < 2 ^ 32 := by decide
    obtain ⟨img, t, hr⟩ := hpasses.load hrel himports 0 ⟨fun _ => 0, []⟩
    have hin := hconfined.inside _ _ _ _ hr _ (clears_image hrel himports hr)
    by_contra hlarge
    have hbehind := (hin _ (touches_add (Nat.lt_of_not_le hlarge) (hmap.trans_le hpow))).2
    rw [Nat.mod_eq_of_lt (hend.trans_le hpow)] at hbehind
    exact absurd hbehind (Nat.lt_irrefl _)

/-- A PE32 file with one section, at the load base. -/
def plainPe : Image where
  bytes := [0x4D, 0x5A] ++ bytesOf 58 0 ++ bytesOf 4 0x40 ++ bytesOf 4 0x4550 ++
    bytesOf 2 0x14C ++ bytesOf 2 1 ++ bytesOf 12 0 ++ bytesOf 2 224 ++ bytesOf 2 0 ++
    bytesOf 2 0x10B ++ bytesOf 14 0 ++ bytesOf 4 0x1000 ++ bytesOf 8 0 ++ bytesOf 4 0xC00000 ++
    bytesOf 24 0 ++ bytesOf 4 0x2000 ++ bytesOf 164 0 ++
    (bytesOf 8 0 ++ bytesOf 4 0x10 ++ bytesOf 4 0x1000 ++ bytesOf 4 4 ++ bytesOf 4 0x160 ++
      bytesOf 16 0) ++ [0x90, 0x90, 0x90, 0xC3]
  beyond := fun _ => 0

theorem pe_confined_plain : Confined .i386 plainPe := by
  have hcount : (headersOf pe32 plainPe).numSections = 1 := by decide +kernel
  have hmoved : ¬ Relocates pe32 plainPe := fun h => h.moved (by decide +kernel)
  have himports : ¬ HasImports pe32 plainPe := fun h => h.1 (by decide +kernel)
  have hblocks : ∀ mem₀ offset mem, ¬ AtBlock pe32 plainPe mem₀ offset mem := by
    intro mem₀ offset mem h
    induction h with
    | first h => exact hmoved h
    | next _ _ _ _ ih => exact ih
  have hdescriptors : ∀ mem₀ rva next mem, ¬ AtDescriptor pe32 plainPe mem₀ rva next mem := by
    intro mem₀ rva next mem h
    induction h with
    | first _ h => exact himports h
    | next _ _ _ _ _ _ _ _ ih => exact ih
  refine (pe_confined .i386 plainPe).1 (fun _ mem => ?_) fun _ => by decide +kernel
  exact
    { size := fun _ => .of_lt (by decide +kernel)
      sections := fun _ i hi _ _ => by
        obtain rfl : i = 0 := by omega
        exact .of_lt (by decide +kernel)
      table := fun h => absurd h hmoved
      blocks := fun _ _ h => absurd h (hblocks _ _ _)
      patches := fun _ _ h => absurd h (hblocks _ _ _)
      imports := fun h => absurd h himports
      names := fun _ _ _ h => absurd h.reached.choose_spec.1 (hdescriptors _ _ _ _)
      slots := fun _ _ _ h => absurd h.reached.choose_spec.1 (hdescriptors _ _ _ _) }

/-- It is accepted. -/
example : ((load .i386 plainPe 1).run ⟨fun _ => 0, []⟩).1 = .ok ⟨0xC01000, 0xC02000⟩ := by
  decide +kernel

/-- A PE32 file whose image is larger than what is reserved. -/
def largePe : Image where
  bytes := [0x4D, 0x5A] ++ bytesOf 58 0 ++ bytesOf 4 0x40 ++ bytesOf 4 0x4550 ++
    bytesOf 2 0x14C ++ bytesOf 14 0 ++ bytesOf 2 224 ++ bytesOf 2 0 ++
    bytesOf 2 0x10B ++ bytesOf 14 0 ++ bytesOf 4 0x100 ++ bytesOf 8 0 ++ bytesOf 4 0xC00000 ++
    bytesOf 24 0 ++ bytesOf 4 0x100000 ++ bytesOf 164 0
  beyond := fun _ => 0

/-- It is accepted, and all of its image is cleared. -/
theorem pe_not_confined : ¬ ∀ arch image, Confined arch image := by
  intro h
  have hin := (h .i386 largePe).inside 1 (fun _ => 0) ⟨0xC00100, 0xD00000⟩ _
    (Prog.run_eq_of_fst (by decide +kernel)) (.write 0xC00000 0x100000) (by decide +kernel)
  exact absurd (hin 0xC80000 (by decide +kernel)).2 (by decide)

end Pe

end Loader

end Tcmk
