import Tcmk.Fs.Ownership

/-!
# When a command fails

`Serves d time cs` says of a device that it carries out the commands `cs`, one after the other,
when the first of them starts at `time`: each is within the disk, and no wait of it ends with a
fault. A program `Performs` the commands if it succeeds exactly when the device serves them, and
fails with an I/O error otherwise. So whether a flush or the data loop of `write` fails can be
told from the state before it.
-/

namespace Tcmk

open Lib

/-- A disk command of the file system. -/
structure Transfer where
  lba : UInt32
  count : ℕ
  writes : Bool
  deriving DecidableEq

namespace Transfer

/-- The number of waits: one before the sectors and one for each; after a write, two more. -/
def length (c : Transfer) : ℕ := c.count + if c.writes then 3 else 1

theorem length_write (lba : UInt32) (count : ℕ) : length ⟨lba, count, true⟩ = count + 3 := rfl

/-- The sector that wait `k` is for. -/
def sector (c : Transfer) (k : ℕ) : ℕ :=
  if 1 ≤ k ∧ k ≤ c.count then c.lba.toNat + (k - 1) else c.lba.toNat

end Transfer

/-- The waits of all these commands. -/
def waits (cs : List Transfer) : ℕ := (cs.map Transfer.length).sum

namespace Disk

variable {d d' : Disk} {time : ℕ} {cs cs' : List Transfer} {c : Transfer}

/-- The device carries out one command. -/
def ServesOne (d : Disk) (time : ℕ) (c : Transfer) : Prop :=
  d.InRange c.lba.toNat c.count ∧ ∀ k < c.length, d.fault (time + k) (c.sector k) = none

/-- The device carries out these commands. -/
def Serves (d : Disk) : ℕ → List Transfer → Prop
  | _, [] => True
  | time, c :: cs => d.ServesOne time c ∧ d.Serves (time + c.length) cs

instance (d : Disk) (lba count : ℕ) : Decidable (d.InRange lba count) :=
  inferInstanceAs (Decidable (_ ∧ _ ∧ _))

instance (d : Disk) (time : ℕ) (c : Transfer) : Decidable (d.ServesOne time c) :=
  inferInstanceAs (Decidable (_ ∧ _))

instance Serves.decidable (d : Disk) : ∀ time cs, Decidable (d.Serves time cs)
  | _, [] => instDecidableTrue
  | time, c :: cs =>
    have := Serves.decidable d (time + c.length) cs
    inferInstanceAs (Decidable (_ ∧ _))

theorem serves_append :
    d.Serves time (cs ++ cs') ↔ d.Serves time cs ∧ d.Serves (time + waits cs) cs' := by
  induction cs generalizing time with
  | nil => simp [Serves, waits]
  | cons c cs ih =>
    simp only [List.cons_append, Serves, ih, and_assoc]
    rw [show time + c.length + waits cs = time + waits (c :: cs) by
      simp only [waits, List.map_cons, List.sum_cons]
      omega]

theorem waits_append (cs cs' : List Transfer) : waits (cs ++ cs') = waits cs + waits cs' := by
  simp only [waits, List.map_append, List.sum_append]

/-- What is on the disk does not matter. -/
theorem SameDevice.serves (h : SameDevice d d') : d'.Serves time cs ↔ d.Serves time cs := by
  induction cs generalizing time with
  | nil => rfl
  | cons c cs ih =>
    rw [Serves, Serves, ih, ServesOne, ServesOne, InRange, InRange, h.present, h.totalSectors,
      h.fault]

end Disk

/-! ## The driver -/

namespace Block

variable {s : Fs}

theorem await_served (lba : ℕ) :
    Prog.Post (await lba) s
      (fun _ t => t = s.withDisk (s.disk.atTime (s.disk.time + 1)) ∧
        s.disk.fault s.disk.time lba = none)
      (fun _ _ => s.disk.fault s.disk.time lba ≠ none) := by
  rw [await]
  simp only [Prog.post_bind, Prog.post_get, Prog.post_modify]
  cases s.disk.fault s.disk.time lba with
  | none => exact ⟨rfl, rfl⟩
  | some e => exact fun h => by cases h

theorem setupLba_served (lba : UInt32) (count : ℕ) :
    Prog.Post (setupLba lba count) s
      (fun _ t => t = s.withDisk (s.disk.atTime (s.disk.time + 1)) ∧
        s.disk.InRange lba.toNat count ∧ s.disk.fault s.disk.time lba.toNat = none)
      (fun _ _ => ¬ (s.disk.InRange lba.toNat count ∧
        s.disk.fault s.disk.time lba.toNat = none)) := by
  rw [setupLba]
  simp only [Prog.post_bind, Prog.post_get]
  have hlt := s.disk.totalSectors.toNat_lt
  split
  · rename_i h
    exact fun hin => by simp [hin.1.1] at h
  rename_i hpresent
  split
  · exact fun hin => by have := hin.1.2.1; omega
  split
  · exact fun hin => by have := hin.1.2.2; omega
  · exact (await_served lba.toNat).mono
      (fun _ t ht => ⟨ht.1, ⟨by simpa using hpresent, by omega, by omega⟩, ht.2⟩)
      fun _ _ h hin => h hin.2

/-- The state before wait `k` of a command that has been served so far. -/
structure Waiting (s : Fs) (c : Transfer) (k : ℕ) (t : Fs) : Prop where
  device : Disk.SameDevice s.disk t.disk
  time : t.disk.time = s.disk.time + k
  inRange : s.disk.InRange c.lba.toNat c.count
  served : ∀ j < k, s.disk.fault (s.disk.time + j) (c.sector j) = none

variable {t u : Fs} {c : Transfer} {k : ℕ}

/-- One more wait of the command. -/
theorem Waiting.await (h : Waiting s c k t) (hk : k < c.length) :
    Prog.Post (await (c.sector k)) t (fun _ u => Waiting s c (k + 1) u)
      fun _ _ => ¬ s.disk.ServesOne s.disk.time c := by
  refine (await_served (c.sector k)).mono (fun _ u ⟨hu, hnone⟩ => ?_) fun _ _ hfault hserved => ?_
  · subst hu
    rw [h.device.fault, h.time] at hnone
    refine ⟨h.device.trans ⟨rfl, rfl, rfl⟩, ?_, h.inRange, fun j hj => ?_⟩
    · show t.disk.time + 1 = _
      rw [h.time, Nat.add_assoc]
    · rcases Nat.lt_succ_iff_lt_or_eq.1 hj with hj | rfl
      · exact h.served j hj
      · exact hnone
  · rw [h.device.fault, h.time] at hfault
    exact hfault (hserved.2 k hk)

/-- A change of the state that is not of the device. -/
theorem Waiting.congr (h : Waiting s c k t) (hdevice : Disk.SameDevice t.disk u.disk)
    (htime : u.disk.time = t.disk.time) : Waiting s c k u :=
  ⟨h.device.trans hdevice, htime.trans h.time, h.inRange, h.served⟩

theorem waiting_setupLba (c : Transfer) :
    Prog.Post (setupLba c.lba c.count) s (fun _ t => Waiting s c 1 t)
      fun _ _ => ¬ s.disk.ServesOne s.disk.time c := by
  have hzero : c.sector 0 = c.lba.toNat := if_neg (by omega)
  have hpos : 0 < c.length := by
    rw [Transfer.length]
    split <;> omega
  refine (setupLba_served c.lba c.count).mono (fun _ t ht => ?_) fun _ _ h hserved => h ?_
  · obtain ⟨rfl, hin, hnone⟩ := ht
    refine ⟨⟨rfl, rfl, rfl⟩, rfl, hin, fun j hj => ?_⟩
    rw [Nat.lt_one_iff.1 hj, hzero]
    exact hnone
  · exact ⟨hserved.1, by rw [← hzero]; exact hserved.2 0 hpos⟩

theorem sector_succ {i : ℕ} (hi : i < c.count) : c.lba.toNat + i = c.sector (i + 1) := by
  rw [Transfer.sector, if_pos ⟨by omega, by omega⟩, Nat.add_sub_cancel]

theorem write_served {lba : UInt32} {count length : ℕ} {source : Fs → ℕ → UInt8}
    (hcount : 0 < count) (hlength : count * sectorSize ≤ length) :
    Prog.Post (write lba count length source) s
      (fun _ t => Waiting s ⟨lba, count, true⟩ (count + 3) t)
      fun _ _ => ¬ s.disk.ServesOne s.disk.time ⟨lba, count, true⟩ := by
  have hlast : ∀ k, count < k → (⟨lba, count, true⟩ : Transfer).sector k = lba.toNat :=
    fun k hk => if_neg fun h => Nat.not_lt.2 h.2 hk
  rw [write, if_neg (Nat.ne_of_gt hcount), if_neg (Nat.not_lt.2 hlength)]
  simp only [Prog.post_bind, Prog.post_yield]
  refine (waiting_setupLba ⟨lba, count, true⟩).mono (fun _ t ht => ?_) fun _ _ h => h
  refine (Prog.Post.forRange (I := fun i t => Waiting s ⟨lba, count, true⟩ (i + 1) t) count ht
    fun i t _ hi ht => ?_).mono (fun _ t ht => ?_) fun _ _ h => h
  · rw [Nat.zero_add] at hi
    simp only [Prog.post_bind, Prog.post_modify]
    rw [@sector_succ ⟨lba, count, true⟩ i hi]
    exact (ht.await (by rw [Transfer.length_write]; omega)).mono
      (fun _ u hu => hu.congr ⟨rfl, rfl, rfl⟩ rfl) fun _ _ h => h
  · rw [Nat.zero_add] at ht
    rw [← hlast (count + 1) (by omega)]
    refine (ht.await (by rw [Transfer.length_write]; omega)).mono (fun _ u hu => ?_) fun _ _ h => h
    rw [hlast (count + 1) (by omega), ← hlast (count + 2) (by omega)]
    exact hu.await (by rw [Transfer.length_write]; omega)

end Block

/-! ## The file system's programs -/

namespace Fs

variable {s t : Fs} {cs cs' : List Transfer} {index : ℕ}

/-- The program succeeds if the device serves these commands, and otherwise fails with an I/O
error. -/
def Performs {α : Type} (x : FsProg α) (s : Fs) (cs : List Transfer) : Prop :=
  Prog.Post x s
    (fun _ t => s.disk.Serves s.disk.time cs ∧ Disk.SameDevice s.disk t.disk ∧
      t.disk.time = s.disk.time + waits cs)
    fun stop _ => stop = .err .io ∧ ¬ s.disk.Serves s.disk.time cs

theorem performs_one {x : FsProg Unit} {c : Transfer}
    (h : Prog.Post x s (fun _ t => Block.Waiting s c c.length t)
      fun stop _ => stop = .err .io ∧ ¬ s.disk.ServesOne s.disk.time c) : Performs x s [c] := by
  refine Prog.Post.mono h (fun _ _ ht => ⟨⟨⟨ht.inRange, ht.served⟩, trivial⟩, ht.device, ?_⟩)
    fun _ _ h => ⟨h.1, fun hserved => h.2 hserved.1⟩
  rw [ht.time, waits, List.map_singleton, List.sum_singleton]

theorem performs_nil {x : FsProg Unit} (h : Prog.Post x s (fun _ t => t.disk = s.disk)
    fun _ _ => False) : Performs x s [] :=
  Prog.Post.mono h (fun _ _ ht => ⟨trivial, ht ▸ .refl _, ht ▸ rfl⟩) fun _ _ h => h.elim

/-- One program after the other. -/
theorem Performs.bind {α β : Type} {x : FsProg α} {f : α → FsProg β} {Q : α → Fs → Prop}
    {E : Stop → Fs → Prop} (h : Performs x s cs) (hx : Prog.Post x s Q E)
    (hf : ∀ a t, Q a t → Performs (f a) t cs') : Performs (x >>= f) s (cs ++ cs') := by
  refine Prog.post_bind.2 ((Prog.Post.and h hx).mono (fun a t ⟨⟨hserved, hdevice, htime⟩, ha⟩ => ?_)
    fun _ _ ⟨⟨he, hnot⟩, _⟩ => ⟨he, fun h => hnot (Disk.serves_append.1 h).1⟩)
  refine Prog.Post.mono (hf a t ha) (fun _ u ⟨hserved', hdevice', htime'⟩ => ?_)
    fun _ _ ⟨he, hnot⟩ => ⟨he, fun h => hnot ?_⟩
  · rw [hdevice.serves, htime] at hserved'
    exact ⟨Disk.serves_append.2 ⟨hserved, hserved'⟩, hdevice.trans hdevice', by
      rw [htime', htime, Disk.waits_append, Nat.add_assoc]⟩
  · rw [hdevice.serves, htime]
    exact (Disk.serves_append.1 h).2

theorem Performs.modify {α : Type} {f : Fs → Fs} {g : Unit → FsProg α}
    (h : Performs (g ()) (f s) cs) (hdisk : (f s).disk = s.disk) :
    Performs (Prog.modify f >>= g) s cs := by
  unfold Performs at h ⊢
  rw [hdisk] at h
  exact h

/-- A loop of programs that each perform one command. -/
theorem performs_forRange {body : ℕ → FsProg Unit} {c : ℕ → Transfer} {I : Fs → Prop} (count : ℕ)
    {start : ℕ} (hs : I s) (hbody : ∀ i t, I t → Performs (body i) t [c i])
    (hkeep : ∀ i t, I t → Prog.Post (body i) t (fun _ u => I u) fun _ _ => True) :
    Performs (Prog.forRange count start body) s ((List.range' start count).map c) := by
  induction count generalizing start s with
  | zero => exact performs_nil rfl
  | succ count ih =>
    rw [List.range'_succ, List.map_cons, ← List.singleton_append]
    exact (hbody start s hs).bind (hkeep start s hs) fun _ t ht => ih ht

/-- The commands of `flush_inodes`. -/
def inodeTransfers (partLba : UInt32) : List Transfer :=
  (List.range' 0 4).map fun chunk =>
    ⟨partLba + UInt32.ofNat inodeTableSector + UInt32.ofNat chunk * 8, 8, true⟩

theorem performs_write {lba : UInt32} {count length : ℕ} {source : Fs → ℕ → UInt8}
    (hcount : 0 < count) (hlength : count * sectorSize ≤ length) :
    Performs (io (Block.write lba count length source)) s [⟨lba, count, true⟩] :=
  performs_one (post_io.2 ((Block.write_served hcount hlength).mono (fun _ _ h => h)
    fun _ _ h => ⟨rfl, h⟩))

theorem performs_flushInodes : Performs flushInodes s (inodeTransfers s.partLba) := by
  refine performs_forRange (I := fun t => t.partLba = s.partLba) 4 rfl (fun i t ht => ?_)
    fun i t ht => ?_
  · unfold Performs
    simp only [Prog.post_bind, Prog.post_get]
    rw [ht]
    exact performs_write (by decide) (Nat.le_refl _)
  · simp only [Prog.post_bind, Prog.post_get]
    exact (keepsTables_write (by decide) (Nat.le_refl _) fun _ => rfl).mono
      (fun _ _ h => h.partLba.trans ht) fun _ _ _ => trivial

end Fs

end Tcmk
