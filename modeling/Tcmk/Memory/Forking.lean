import Tcmk.Memory.Accounting

/-!
# `fork` copies the memory of a process

`clone_user_space` shares the frames of a process with its copy, and the page fault handler (`ex14`
of `idt/i386.rs`) makes a page of its own of it when one of the two writes. `Eager` says what this
is to look like: each space has its own bytes, `fork` copies them all, and a page that is reserved
reads as zeros until it is written. Every run of the kernel is a run of `Eager` with the same
results (`fork_copies`).

Only the user's 4 MiB are modelled. A page with a window's pixels is `shared`: it is not copied, and
nothing is said of what it reads as.
-/

namespace Tcmk

open Lib

/-! ## Access to the memory -/

/-- Whether the processor lets Ring 3 read or write a page. -/
def Pte.allows (write : Bool) (e : Pte) : Bool := e.present && e.user && (e.writable || !write)

namespace Mmu

/-- An access to an address, and its page fault. -/
def touch (arch : Arch) (m : Mmu) (cr3 vaddr : ℕ) (write : Bool) : Bool × Mmu :=
  match userPte arch vaddr with
  | none => (false, m)
  | some i =>
    if (m.pte cr3 i).allows write then (true, m)
    else if (m.pte cr3 i).present = false then m.handleDemandFault arch cr3 vaddr
    else if write then m.handleCowFault arch cr3 vaddr
    else (false, m)

/-- The frame that an address is in, if the access is allowed. -/
def reach (arch : Arch) (m : Mmu) (cr3 vaddr : ℕ) (write : Bool) : Option ℕ :=
  (userPte arch vaddr).bind fun i =>
    if (m.pte cr3 i).allows write then some (m.pte cr3 i).frame else none

/-- A load, which is tried again after a page fault. -/
def load (arch : Arch) (m : Mmu) (cr3 vaddr : ℕ) : Option UInt8 × Mmu :=
  let m := (m.touch arch cr3 vaddr false).2
  ((m.reach arch cr3 vaddr false).map fun frame => m.mem frame (vaddr % frameSize), m)

def writeByte (m : Mmu) (frame off : ℕ) (b : UInt8) : Mmu :=
  { m with mem := Function.update m.mem frame (Function.update (m.mem frame) off b) }

/-- A store. -/
def store (arch : Arch) (m : Mmu) (cr3 vaddr : ℕ) (b : UInt8) : Bool × Mmu :=
  let m := (m.touch arch cr3 vaddr true).2
  match m.reach arch cr3 vaddr true with
  | none => (false, m)
  | some frame => (true, m.writeByte frame (vaddr % frameSize) b)

end Mmu

/-- What can happen, with its result. -/
inductive ForkEvent
  | create (made : Option ℕ)
  | destroy (cr3 : ℕ)
  | reserve (cr3 start len : ℕ)
  | map (cr3 vaddr phys len : ℕ)
  | clone (cr3 : ℕ) (made : Option ℕ)
  | load (cr3 vaddr : ℕ) (b : UInt8)
  | store (cr3 vaddr : ℕ) (b : UInt8)
  /-- an access that ends the process -/
  | fault (cr3 vaddr : ℕ) (write : Bool)
  deriving DecidableEq

namespace Mmu

/-- The kernel gives this result. An access does not fail for want of a frame. -/
def Gives (arch : Arch) (m : Mmu) : ForkEvent → Prop
  | .create made => made = (m.createUserSpace arch).1
  | .destroy c | .reserve c _ _ => m.Live c
  | .map c _ phys len => m.Live c ∧ Outside arch phys len
  | .clone c made => m.Live c ∧ made = (m.cloneUserSpace arch c).1
  | .load c vaddr b => m.Live c ∧ (m.load arch c vaddr).1 = some b
  | .store c vaddr b => m.Live c ∧ (m.store arch c vaddr b).1 = true
  | .fault c vaddr write =>
    m.Live c ∧ m.pool.alloc.isSome = true ∧ (m.touch arch c vaddr write).2.reach arch c
      vaddr write = none

def afterFork (arch : Arch) (m : Mmu) : ForkEvent → Mmu
  | .create _ => (m.createUserSpace arch).2
  | .destroy c => m.destroyUserSpace arch c
  | .reserve c start len => (m.reserveUserRange arch c start len).2
  | .map c vaddr phys len => (m.mapUserFrames arch c vaddr phys len).2
  | .clone c _ => (m.cloneUserSpace arch c).2
  | .load c vaddr _ => (m.load arch c vaddr).2
  | .store c vaddr b => (m.store arch c vaddr b).2
  | .fault c vaddr write => (m.touch arch c vaddr write).2

instance (arch : Arch) (m : Mmu) (ev : ForkEvent) : Decidable (m.Gives arch ev) :=
  match ev with
  | .create _ => inferInstanceAs (Decidable (_ = _))
  | .destroy c | .reserve c _ _ => inferInstanceAs (Decidable (m.Live c))
  | .map .. | .clone .. | .load .. | .store .. | .fault .. => inferInstanceAs (Decidable (_ ∧ _))

end Mmu

/-- What happens with the frames of the kernel. -/
def ForkStep (arch : Arch) (m : Mmu) (ev : ForkEvent) (m' : Mmu) : Prop :=
  m.Gives arch ev ∧ m' = m.afterFork arch ev

/-! ## Memory that is copied -/

inductive EagerPage
  | unmapped
  | shared
  | data (bytes : ℕ → UInt8)

/-- A page in the copy. -/
def EagerPage.forked : EagerPage → EagerPage
  | .shared => .unmapped
  | page => page

/-- The pages of each space. -/
abbrev Eager := ℕ → Option (ℕ → EagerPage)

namespace Eager

def empty : Eager := fun _ => none

def page (e : Eager) (c i : ℕ) : EagerPage :=
  match e c with
  | some pages => pages i
  | none => .unmapped

def setPage (e : Eager) (c i : ℕ) (p : EagerPage) : Eager :=
  Function.update e c ((e c).map fun pages => Function.update pages i p)

/-- A page that is reserved reads as zeros, unless there is something already. -/
def reservePage (e : Eager) (c i : ℕ) : Eager :=
  match e.page c i with
  | .unmapped => e.setPage c i (.data fun _ => 0)
  | _ => e

def reservePages (arch : Arch) (c : ℕ) : ℕ → ℕ → Eager → Eager
  | 0, _, e => e
  | n + 1, page, e =>
    match userPte arch (page * frameSize) with
    | none => e
    | some i => reservePages arch c n (page + 1) (e.reservePage c i)

def reserve (arch : Arch) (e : Eager) (c start len : ℕ) : Eager :=
  if len = 0 then e
  else
    reservePages arch c ((start + len - 1) % 2 ^ arch.wordBits / frameSize + 1 - start / frameSize)
      (start / frameSize) e

def mapPages (arch : Arch) (c : ℕ) : ℕ → ℕ → Eager → Eager
  | 0, _, e => e
  | n + 1, vaddr, e =>
    match userPte arch vaddr with
    | none => e
    | some i => mapPages arch c n (vaddr + frameSize) (e.setPage c i .shared)

def map (arch : Arch) (e : Eager) (c vaddr phys len : ℕ) : Eager :=
  if len = 0 then e
  else if vaddr % frameSize ≠ 0 ∨ phys % frameSize ≠ 0 then e
  else mapPages arch c ((len + frameSize - 1) % 2 ^ arch.wordBits / frameSize) vaddr e

end Eager

/-- The same with memory that is copied. -/
def EagerStep (arch : Arch) (e : Eager) (ev : ForkEvent) (e' : Eager) : Prop :=
  match ev with
  | .create none => e' = e
  | .create (some c) => e c = none ∧ e' = Function.update e c (some fun _ => .unmapped)
  | .destroy c => e' = Function.update e c none
  | .reserve c start len => e' = e.reserve arch c start len
  | .map c vaddr phys len => e' = e.map arch c vaddr phys len
  | .clone _ none => e' = e
  | .clone src (some c) =>
    e c = none ∧ e' = Function.update e c (some fun i => (e.page src i).forked)
  | .load c vaddr b => e' = e ∧ ∃ i, userPte arch vaddr = some i ∧
      (e.page c i = .shared ∨ ∃ bytes, e.page c i = .data bytes ∧ b = bytes (vaddr % frameSize))
  | .store c vaddr b => ∃ i, userPte arch vaddr = some i ∧
      (e.page c i = .shared ∧ e' = e ∨ ∃ bytes, e.page c i = .data bytes ∧
        e' = e.setPage c i (.data (Function.update bytes (vaddr % frameSize) b)))
  | .fault c vaddr _ => e' = e ∧ ∀ i, userPte arch vaddr = some i → e.page c i = .unmapped

/-! ## The relation -/

/-- What a page table entry stands for. -/
inductive Pte.Shows (mem : ℕ → ℕ → UInt8) : Pte → EagerPage → Prop
  | empty : Shows mem .empty .unmapped
  | reserved : Shows mem .reserved (.data fun _ => 0)
  | window (frame : ℕ) (hout : indexOf frame = none) : Shows mem (.window frame) .shared
  | owned (k : ℕ) (hk : k < poolFrames) : Shows mem (.owned (frameAddr k))
    (.data (mem (frameAddr k)))
  | cow (k : ℕ) (hk : k < poolFrames) :
      Shows mem (Pte.owned (frameAddr k)).toCow (.data (mem (frameAddr k)))

/-- What the bytes of the frames in use are shows in the entries. -/
theorem Pte.Shows.keep {entry : Pte} {p : EagerPage} {mem mem' : ℕ → ℕ → UInt8}
    (h : entry.Shows mem p)
    (hmem : ∀ k, entry.index = some k → mem' (frameAddr k) = mem (frameAddr k)) :
    entry.Shows mem' p := by
  cases h with
  | empty => exact .empty
  | reserved => exact .reserved
  | window frame hout => exact .window frame hout
  | owned k hk =>
    rw [← hmem k (by simp [indexOf_frameAddr hk])]
    exact .owned k hk
  | cow k hk =>
    rw [← hmem k (by simp [indexOf_frameAddr hk])]
    exact .cow k hk

namespace Mmu

/-- The spaces show what is in `e`. -/
structure Views (m : Mmu) (e : Eager) : Prop where
  live : ∀ c, (e c).isSome = true ↔ m.Live c
  shows : ∀ c i, i < userPages → (m.pte c i).Shows m.mem (e.page c i)

theorem views_boot : boot.Views Eager.empty := ⟨fun _ => .rfl, fun _ _ _ => .empty⟩

end Mmu

namespace Eager

variable {e : Eager} {c c' i j : ℕ} {p : EagerPage}

theorem setPage_isSome (e : Eager) (c i : ℕ) (p : EagerPage) (c' : ℕ) :
    (e.setPage c i p c').isSome = (e c').isSome := by
  unfold setPage
  by_cases hc : c' = c
  · rw [hc, Function.update_self, Option.isSome_map]
  · rw [Function.update_of_ne hc]

theorem setPage_page (hlive : (e c).isSome = true) (i : ℕ) (p : EagerPage) (c' j : ℕ) :
    (e.setPage c i p).page c' j = if c' = c ∧ j = i then p else e.page c' j := by
  obtain ⟨pages, hpages⟩ := Option.isSome_iff_exists.1 hlive
  unfold setPage page
  by_cases hc : c' = c
  · rw [hc, Function.update_self, hpages]
    simp only [Option.map_some, true_and, Function.update_apply]
  · rw [Function.update_of_ne hc, if_neg fun h => hc h.1]

theorem setPage_same (hlive : (e c).isSome = true) (h : e.page c i = p) : e.setPage c i p = e := by
  obtain ⟨pages, hpages⟩ := Option.isSome_iff_exists.1 hlive
  unfold page at h
  rw [hpages] at h
  unfold setPage
  rw [hpages, ← h]
  dsimp only [Option.map_some]
  rw [Function.update_eq_self, ← hpages, Function.update_eq_self]

end Eager

namespace Mmu

variable {arch : Arch} {m m' : Mmu} {e e' : Eager} {owed : ℕ → ℕ} {c c' i j k phys : ℕ}
  {entry : Pte}
  {p : EagerPage}

/-- One page changes. -/
theorem Views.set (h : m.Views e) (hlive : ∀ c', m'.Live c' ↔ m.Live c') (hc : m.Live c)
    (hpte : ∀ c' j, ¬(c' = c ∧ j = i) → m'.pte c' j = m.pte c' j)
    (hmem : ∀ c' j k, ¬(c' = c ∧ j = i) → j < userPages → (m.pte c' j).index = some k →
      m'.mem (frameAddr k) = m.mem (frameAddr k))
    (hnew : (m'.pte c i).Shows m'.mem p) : m'.Views (e.setPage c i p) where
  live := fun c' => by
    rw [Eager.setPage_isSome, hlive]
    exact h.live c'
  shows := fun c' j hj => by
    rw [Eager.setPage_page ((h.live c).2 hc)]
    split_ifs with heq
    · rw [heq.1, heq.2]
      exact hnew
    · rw [hpte c' j heq]
      exact (h.shows c' j hj).keep fun k hk => hmem c' j k heq hj hk

/-- A page entry is written, and the memory stays as it is. -/
theorem Views.setPte (h : m.Views e) (hc : m.Live c) (hnew : entry.Shows m.mem p) :
    (m.setPte c i entry).Views (e.setPage c i p) := by
  refine h.set (setPte_live m c i entry) hc (fun c' j hne => ?_) (fun _ _ _ _ _ _ => ?_) ?_
  · rw [setPte_pte hc, if_neg hne]
  · rw [setPte_mem]
  · rw [setPte_mem, setPte_self hc]
    exact hnew

/-- Only the pool changes, or memory that is not in use. -/
theorem Views.congr (h : m.Views e) (hspaces : m'.spaces = m.spaces)
    (hmem : ∀ c j k, j < userPages → (m.pte c j).index = some k → m'.mem (frameAddr k) =
      m.mem (frameAddr k)) : m'.Views e where
  live := fun c => (h.live c).trans (live_congr hspaces c).symm
  shows := fun c i hi => by
    rw [pte_congr hspaces]
    exact (h.shows c i hi).keep fun k hk => hmem c i k hi hk

/-! ## Ranges of pages -/

theorem setPte_same (h : m.pte c i = entry) : m.setPte c i entry = m := by
  unfold Mmu.setPte
  cases hsp : m.spaces c with
  | none => rfl
  | some sp =>
    have hentry : sp.pte i = entry := by
      rw [← h]
      unfold pte
      rw [hsp]
    dsimp only
    rw [← hentry, Function.update_eq_self]
    unfold Mmu.put
    rw [← hsp, Function.update_eq_self]

theorem Views.reservePage (h : m.Views e) (hc : m.Live c) (hi : i < userPages) :
    (m.reservePage c i).Views (e.reservePage c i) ∧ (m.reservePage c i).Live c := by
  have hshows := h.shows c i hi
  unfold Mmu.reservePage Eager.reservePage
  generalize hentry : m.pte c i = entry at hshows
  generalize hpage : e.page c i = p at hshows
  cases hshows with
  | empty => exact ⟨h.setPte hc .reserved, (setPte_live ..).2 hc⟩
  | reserved =>
    refine ⟨?_, (setPte_live ..).2 hc⟩
    change (m.setPte c i .reserved).Views e
    rw [setPte_same hentry]
    exact h
  | window frame hout => exact ⟨h, hc⟩
  | owned k hk => exact ⟨h, hc⟩
  | cow k hk => exact ⟨h, hc⟩

theorem Views.reservePages (h : m.Views e) (hc : m.Live c) (n page : ℕ) :
    (Mmu.reservePages arch c n page m).2.Views (Eager.reservePages arch c n page e) := by
  induction n generalizing m e page with
  | zero => exact h
  | succ n ih =>
    rw [Mmu.reservePages, Eager.reservePages]
    cases hi : userPte arch (page * frameSize) with
    | none => exact h
    | some i =>
      obtain ⟨h', hc'⟩ := h.reservePage hc (userPte_lt hi)
      exact ih h' hc' _

theorem Views.reserveUserRange (h : m.Views e) (hc : m.Live c) (start len : ℕ) :
    (m.reserveUserRange arch c start len).2.Views (e.reserve arch c start len) := by
  unfold Mmu.reserveUserRange Eager.reserve
  split_ifs
  · exact h
  · exact h.reservePages hc _ _

theorem Views.mapPages (h : m.Views e) (hc : m.Live c) {n vaddr phys : ℕ}
    (hout : ∀ a < n, indexOf ((phys + a * frameSize) % 2 ^ arch.physBits) = none) :
    (Mmu.mapPages arch c n vaddr phys m).2.Views (Eager.mapPages arch c n vaddr e) := by
  induction n generalizing m e vaddr phys with
  | zero => exact h
  | succ n ih =>
    rw [Mmu.mapPages, Eager.mapPages]
    cases hi : userPte arch vaddr with
    | none => exact h
    | some i =>
      have hwindow : indexOf (phys % 2 ^ arch.physBits) = none := by
        simpa using hout 0 (Nat.succ_pos n)
      refine ih (h.setPte hc (.window _ hwindow)) ((setPte_live ..).2 hc) fun a ha => ?_
      rw [Nat.add_assoc, Nat.add_comm frameSize, ← Nat.succ_mul]
      exact hout (a + 1) (Nat.succ_lt_succ ha)

theorem Views.mapUserFrames (h : m.Views e) (hc : m.Live c) {vaddr phys len : ℕ}
    (hout : Outside arch phys len) :
    (m.mapUserFrames arch c vaddr phys len).2.Views (e.map arch c vaddr phys len) := by
  unfold Mmu.mapUserFrames Eager.map
  split_ifs
  · exact h
  · exact h
  · exact h.mapPages hc hout

/-! ## Creation and destruction -/

/-- A frame that an entry names is in use. -/
theorem Accounted.inUse (h : m.Accounted arch owed) (hi : i < userPages)
    (hk : (m.pte c i).index = some k) (hlt : k < poolFrames) : m.InUse (frameAddr k) := by
  intro k' hk'
  rw [indexOf_frameAddr hlt] at hk'
  obtain rfl := Option.some.inj hk'
  have hpos : 0 < m.mapped k := refs_pos.2 ⟨(c, i), h.slot (live_of_pte hk) hi, hk⟩
  have hcount := h.count k
  omega

/-- As `Views`, for all spaces but one. -/
structure ViewsBut (m : Mmu) (e : Eager) (dst : ℕ) : Prop where
  live : ∀ c ≠ dst, (e c).isSome = true ↔ m.Live c
  shows : ∀ c ≠ dst, ∀ i < userPages, (m.pte c i).Shows m.mem (e.page c i)

/-- The space that has been left out is put in. -/
theorem ViewsBut.put {dst : ℕ} {pages : ℕ → EagerPage} (h : m.ViewsBut e dst) (hdst : m.Live dst)
    (hpages : ∀ i < userPages, (m.pte dst i).Shows m.mem (pages i)) :
    m.Views (Function.update e dst (some pages)) where
  live := fun c => by
    by_cases hc : c = dst
    · rw [hc, Function.update_self]
      exact iff_of_true rfl hdst
    · rw [Function.update_of_ne hc]
      exact h.live c hc
  shows := fun c i hi => by
    unfold Eager.page
    by_cases hc : c = dst
    · rw [hc, Function.update_self]
      exact hpages i hi
    · rw [Function.update_of_ne hc]
      exact h.shows c hc i hi

/-- The spaces change at one place, and the memory where it is not in use. -/
theorem Views.but {dst : ℕ} {space : Option Space} (h : m.Views e)
    (hspaces : m'.spaces = Function.update m.spaces dst space)
    (hmem : ∀ c j k, j < userPages → (m.pte c j).index = some k → m'.mem (frameAddr k) =
      m.mem (frameAddr k)) : m'.ViewsBut e dst where
  live := fun c hc => by
    unfold Live
    rw [hspaces, Function.update_of_ne hc]
    exact h.live c
  shows := fun c hc i hi => by
    have hpte : m'.pte c i = m.pte c i := by
      unfold pte
      rw [hspaces, Function.update_of_ne hc]
    rw [hpte]
    exact (h.shows c i hi).keep fun k hk => hmem c i k hi hk

theorem Views.create {made : Option ℕ} (h : m.Views e) (hacc : m.Accounted arch owed)
    (hcreate : (made, m') = m.createUserSpace arch) :
    ∃ e', EagerStep arch e (.create made) e' ∧ m'.Views e' := by
  have hcreated := createUserSpace_spec hacc
  rw [← hcreate] at hcreated
  have hmem : ∀ c j k, j < userPages → (m.pte c j).index = some k → m'.mem (frameAddr k) = m.mem
    (frameAddr k) :=
    fun c j k hj hk => hcreated.keeps _ (hacc.inUse hj hk (Pte.index_lt hk))
  cases made with
  | none => exact ⟨e, rfl, h.congr (hcreated.failed rfl) hmem⟩
  | some c =>
    obtain ⟨hdead, -, sp, hspaces, hempty⟩ := hcreated.made c rfl
    have hnone : e c = none := by simpa using (h.live c).not.2 hdead
    refine ⟨_, ⟨hnone, rfl⟩, (h.but hspaces hmem).put ?_ fun i _ => ?_⟩
    · unfold Live
      rw [hspaces, Function.update_self]
      rfl
    · unfold pte
      rw [hspaces, Function.update_self]
      dsimp only
      rw [hempty]
      exact .empty

/-- A space that is given up is no longer seen. -/
theorem ViewsBut.destroy {dst : ℕ} (h : m.ViewsBut e dst) (hdst : dst ≠ 0) :
    (m.destroyUserSpace arch dst).Views (Function.update e dst none) := by
  obtain ⟨hspaces, hmem⟩ := @destroyUserSpace_of_ne arch m dst hdst
  refine ⟨fun c => ?_, fun c i hi => ?_⟩
  · unfold Live
    rw [hspaces]
    by_cases hc : c = dst
    · rw [hc, Function.update_self, Function.update_self]
      rfl
    · rw [Function.update_of_ne hc, Function.update_of_ne hc]
      exact h.live c hc
  · unfold pte Eager.page
    rw [hspaces, hmem]
    by_cases hc : c = dst
    · rw [hc, Function.update_self, Function.update_self]
      exact .empty
    · rw [Function.update_of_ne hc, Function.update_of_ne hc]
      exact h.shows c hc i hi

theorem Views.toBut (h : m.Views e) (dst : ℕ) : m.ViewsBut e dst :=
  ⟨fun c _ => h.live c, fun c _ => h.shows c⟩

/-! ## `fork` -/

theorem copyFrame_self (m : Mmu) (src dst : ℕ) : (m.copyFrame src dst).mem dst = m.mem src :=
  Function.update_self ..

theorem copyFrame_of_ne {src dst q : ℕ} (h : q ≠ dst) : (m.copyFrame src dst).mem q = m.mem q :=
  Function.update_of_ne h ..

/-- The pages that are not in `is` have been copied. -/
structure Copying (m : Mmu) (e : Eager) (src dst : ℕ) (is : List ℕ) :
    Prop extends ViewsBut m e dst where
  copied : ∀ i < userPages, i ∉ is → (m.pte dst i).Shows m.mem (e.page src i).forked
  blank : ∀ i ∈ is, m.pte dst i = .empty

namespace Copying

variable {src dst : ℕ} {is : List ℕ}

/-- The page that is copied next, if its entries and those of the others are as they should be. -/
theorem next (h : m.Copying e src dst (i :: is)) (hi : i ∉ is) (hlive : ∀ c, m'.Live c ↔ m.Live c)
    (hothers : ∀ c ≠ dst, ∀ j < userPages, (m'.pte c j).Shows m'.mem (e.page c j))
    (hdst : ∀ j ≠ i, m'.pte dst j = m.pte dst j)
    (hmem : ∀ j k, j < userPages → (m.pte dst j).index = some k → m'.mem (frameAddr k) =
      m.mem (frameAddr k))
    (hnew : (m'.pte dst i).Shows m'.mem (e.page src i).forked) : m'.Copying e src dst is where
  live := fun c hc => (h.live c hc).trans (hlive c).symm
  shows := hothers
  copied := fun j hj hnot => by
    by_cases hji : j = i
    · rw [hji]
      exact hnew
    · rw [hdst j hji]
      exact (h.copied j hj fun hmem => (List.mem_cons.1 hmem).elim hji hnot).keep fun k hk =>
        hmem j k hj hk
  blank := fun j hj => by
    rw [hdst j fun heq => hi (heq ▸ hj)]
    exact h.blank j (List.mem_cons_of_mem _ hj)

/-- Nothing is to be copied. -/
theorem skip (h : m.Copying e src dst (i :: is)) (hi : i ∉ is)
    (hpage : (e.page src i).forked = .unmapped) : m.Copying e src dst is :=
  h.next hi (fun _ => .rfl) h.shows (fun _ _ => rfl) (fun _ _ _ _ => rfl) (by
    rw [h.blank i List.mem_cons_self, hpage]
    exact .empty)

/-- The entry of the copy is written. -/
theorem set (h : m.Copying e src dst (i :: is)) (hi : i ∉ is) (hdst : m.Live dst)
    (hspaces : m'.spaces = m.spaces)
    (hmem : ∀ c j k, j < userPages → (m.pte c j).index = some k → m'.mem (frameAddr k) =
      m.mem (frameAddr k))
    (hnew : entry.Shows m'.mem (e.page src i).forked) :
    (m'.setPte dst i entry).Copying e src dst is := by
  have hdst' := live_of_spaces hspaces hdst
  refine h.next hi (fun c => (setPte_live ..).trans (live_congr hspaces c)) (fun c hc j hj => ?_)
    (fun j hj => ?_)
    (fun j k hj hk => ?_) ?_
  · rw [setPte_pte hdst', if_neg fun hand => hc hand.1, pte_congr hspaces, setPte_mem]
    exact (h.shows c hc j hj).keep fun k hk => hmem c j k hj hk
  · rw [setPte_pte hdst', if_neg fun hand => hj hand.2, pte_congr hspaces]
  · rw [setPte_mem]
    exact hmem dst j k hj hk
  · rw [setPte_self hdst', setPte_mem]
    exact hnew

/-- A page with a frame is copied. -/
theorem frame (h : m.Copying e src dst (i :: is)) (hcloning : Cloning arch m owed src dst (i :: is))
    (hi : i ∉ is) (hlt : i < userPages) (hk : k < poolFrames)
    (hentry : (m.pte src i).frame = frameAddr k) (hpresent : (m.pte src i).present = true)
    (hshared : (m.pte src i).shared = false)
    (hcow : (m.pte src i).toCow = (Pte.owned (frameAddr k)).toCow)
    (hpage : e.page src i = .data (m.mem (frameAddr k)))
    (hdone : (cloneEntry src dst i m).1 = true) :
    (cloneEntry src dst i m).2.Copying e src dst is := by
  have hindex : (m.pte src i).index = some k := by
    rw [Pte.index_of_present hpresent, hentry, indexOf_frameAddr hk]
  unfold cloneEntry at hdone ⊢
  dsimp only at hdone ⊢
  rw [if_neg (by rw [hshared]; exact Bool.false_ne_true), if_neg fun hand => by
    rw [hpresent] at hand
    exact absurd hand.1 Bool.false_ne_true.symm,
      if_neg (by rw [hpresent]; exact Bool.false_ne_true.symm)] at hdone ⊢
  rw [hentry] at hdone ⊢
  cases hshare : m.pool.share (frameAddr k) with
  | some pool =>
    dsimp only
    rw [hcow]
    have hsrc : (m.withPool pool).Live src := hcloning.src_live
    have hdst : ((m.withPool pool).setPte src i (Pte.owned (frameAddr k)).toCow).Live dst :=
      (setPte_live ..).2 hcloning.dst_live
    refine h.next hi (fun c => (setPte_live ..).trans (setPte_live ..)) (fun c hc j hj => ?_)
      (fun j hj => ?_)
      (fun _ _ _ _ => by rw [setPte_mem, setPte_mem]; rfl) ?_
    · rw [setPte_pte hdst, if_neg fun hand => hc hand.1, setPte_pte hsrc, setPte_mem, setPte_mem]
      split_ifs with hand
      · rw [hand.1, hand.2, hpage]
        exact .cow k hk
      · exact h.shows c hc j hj
    · rw [setPte_pte hdst, if_neg fun hand => hj hand.2, setPte_pte hsrc, if_neg fun hand =>
        hj hand.2]
      rfl
    · rw [setPte_self hdst, setPte_mem, setPte_mem, hpage]
      exact .cow k hk
  | none =>
    rw [hshare] at hdone
    dsimp only at hdone ⊢
    cases halloc : m.alloc with
    | none =>
      rw [halloc] at hdone
      exact absurd hdone Bool.false_ne_true
    | some r =>
      obtain ⟨copy, m₁⟩ := r
      dsimp only
      obtain ⟨hpool, hspaces, -⟩ := alloc_eq halloc
      have hsound := hcloning.accounted.sound
      have hkeep : ∀ c j k', j < userPages → (m.pte c j).index = some k' →
          (m₁.copyFrame (frameAddr k) copy).mem (frameAddr k') = m.mem (frameAddr k') :=
          fun c j k' hj hk' => by
        have huse := hcloning.accounted.inUse hj hk' (Pte.index_lt hk')
        exact (copyFrame_of_ne (alloc_fresh hsound halloc huse)).trans
          (alloc_keeps hsound halloc huse).1
      have hcontent : (m₁.copyFrame (frameAddr k) copy).mem copy = m.mem (frameAddr k) :=
        (copyFrame_self ..).trans
          (alloc_keeps hsound halloc (hcloning.accounted.inUse hlt hindex hk)).1
      obtain ⟨k', hk', hcopy, -⟩ := FramePool.alloc_eq_some hpool
      have hshows : (Pte.owned copy).Shows (m₁.copyFrame (frameAddr k) copy).mem
        (.data (m.mem (frameAddr k))) := by
        rw [← hcontent, hcopy]
        exact .owned k' hk'
      have hcopied : (m₁.copyFrame (frameAddr k) copy).spaces = m.spaces := hspaces
      exact h.set hi hcloning.dst_live hcopied hkeep (by
        rw [hpage]
        exact hshows)

theorem round (h : m.Copying e src dst (i :: is)) (hcloning : Cloning arch m owed src dst (i :: is))
    (hi : i ∉ is) (hdone : (cloneEntry src dst i m).1 = true) :
    (cloneEntry src dst i m).2.Copying e src dst is := by
  have hlt := (hcloning.clear i List.mem_cons_self).1
  have hshows := h.shows src hcloning.ne i hlt
  generalize hentry : m.pte src i = entry at hshows
  generalize hpage : e.page src i = page at hshows
  cases hshows with
  | empty =>
    have hsame : (cloneEntry src dst i m).2 = m := by
      unfold cloneEntry
      rw [hentry]
      rfl
    rw [hsame]
    exact h.skip hi (by rw [hpage]; rfl)
  | reserved =>
    have hset : (cloneEntry src dst i m).2 = m.setPte dst i .reserved := by
      unfold cloneEntry
      rw [hentry]
      rfl
    rw [hset]
    exact h.set hi hcloning.dst_live rfl (fun _ _ _ _ _ => rfl) (by rw [hpage]; exact .reserved)
  | window frame hout =>
    have hsame : (cloneEntry src dst i m).2 = m := by
      unfold cloneEntry
      rw [hentry]
      rfl
    rw [hsame]
    exact h.skip hi (by rw [hpage]; rfl)
  | owned k hk =>
    exact h.frame hcloning hi hlt hk (by rw [hentry]; rfl) (by rw [hentry]; rfl)
      (by rw [hentry]; rfl)
      (by rw [hentry]) hpage hdone
  | cow k hk =>
    exact h.frame hcloning hi hlt hk (by rw [hentry]; rfl) (by rw [hentry]; rfl)
      (by rw [hentry]; rfl)
      (by rw [hentry]; rfl) hpage hdone

/-- The whole loop, if it does not run out of frames. -/
theorem entries (h : m.Copying e src dst is) (hcloning : Cloning arch m owed src dst is)
    (his : is.Nodup) :
    (cloneEntries src dst is m).2.ViewsBut e dst ∧
      ((cloneEntries src dst is m).1 = true →
        (cloneEntries src dst is m).2.Copying e src dst [] ∧
        (cloneEntries src dst is m).2.Live dst) := by
  induction is generalizing m with
  | nil => exact ⟨h.toViewsBut, fun _ => ⟨h, hcloning.dst_live⟩⟩
  | cons i is ih =>
    obtain ⟨hi, his⟩ := List.nodup_cons.1 his
    have hentry := h.round hcloning hi
    obtain ⟨hdone, hfailed⟩ := hcloning.entry hi
    unfold cloneEntries
    generalize cloneEntry src dst i m = r at hentry hdone hfailed
    obtain ⟨lasted, m₁⟩ := r
    cases lasted with
    | false =>
      have hsame : m₁ = m := hfailed rfl
      dsimp only
      rw [hsame]
      exact ⟨h.toViewsBut, Bool.noConfusion⟩
    | true => exact ih (hentry rfl) (hdone rfl) his

end Copying

theorem Views.clone {made : Option ℕ} {src : ℕ} (h : m.Views e) (hacc : m.Accounted arch owed)
    (hsrc : m.Live src)
    (hclone : (made, m') = m.cloneUserSpace arch src) :
    ∃ e', EagerStep arch e (.clone src made) e' ∧ m'.Views e' := by
  have hcreated := createUserSpace_spec hacc
  unfold Mmu.cloneUserSpace at hclone
  split_ifs at hclone with hzero
  · cases hclone
    exact ⟨e, rfl, h⟩
  generalize hr : m.createUserSpace arch = r at hclone hcreated
  obtain ⟨dst, m₁⟩ := r
  cases dst with
  | none =>
    cases hclone
    obtain ⟨e', hstep, hviews⟩ := h.create hacc hr.symm
    exact ⟨e', hstep, hviews⟩
  | some dst =>
    have hcloning := hcreated.cloning hsrc rfl
    obtain ⟨hdead, hdst, sp, hspaces, hempty⟩ := hcreated.made dst rfl
    have hnone : e dst = none := by simpa using (h.live dst).not.2 hdead
    have hblank : ∀ i, m₁.pte dst i = .empty := fun i => by
      unfold pte
      rw [hspaces, Function.update_self]
      exact hempty i
    have hbut : m₁.ViewsBut e dst := h.but hspaces fun c j k hj hk =>
      hcreated.keeps _ (hacc.inUse hj hk (Pte.index_lt hk))
    have hcopying : m₁.Copying e src dst (List.range userPages) :=
      ⟨hbut, fun i hi hnot => absurd (List.mem_range.2 hi) hnot, fun i _ => hblank i⟩
    obtain ⟨hbut', hall⟩ := hcopying.entries hcloning List.nodup_range
    dsimp only at hclone
    generalize cloneEntries src dst (List.range userPages) m₁ = r at hclone hbut' hall
    obtain ⟨lasted, m₂⟩ := r
    cases lasted with
    | true =>
      cases hclone
      obtain ⟨hcopied, hlive⟩ := hall rfl
      exact ⟨_, ⟨hnone, rfl⟩, hbut'.put hlive fun i hi => hcopied.copied i hi List.not_mem_nil⟩
    | false =>
      cases hclone
      have hviews := @ViewsBut.destroy arch m₂ e dst hbut' hdst
      rw [← hnone, Function.update_eq_self] at hviews
      exact ⟨e, rfl, hviews⟩

/-! ## Access -/

/-- What has been found at a page, after its page fault. -/
inductive Reached (m : Mmu) (found : Option ℕ) (full write : Bool) (c i : ℕ) : EagerPage → Prop
  | unmapped (hfound : found = none) : Reached m found full write c i .unmapped
  | shared (frame : ℕ) (hfound : found = some frame) (hout : indexOf frame = none) :
      Reached m found full write c i .shared
  | data (k : ℕ) (hk : k < poolFrames) (hfound : found = some (frameAddr k))
      (hentry : m.pte c i = .owned (frameAddr k) ∨ write = false ∧
        m.pte c i = (Pte.owned (frameAddr k)).toCow) :
      Reached m found full write c i (.data (m.mem (frameAddr k)))
  /-- there is no frame left -/
  | full (bytes : ℕ → UInt8) (hfound : found = none) (hfull : full = true) :
      Reached m found full write c i (.data bytes)

/-- A page fault changes nothing that can be seen. -/
structure Touched (arch : Arch) (m : Mmu) (e : Eager) (owed : ℕ → ℕ) (c vaddr i : ℕ) (write : Bool)
    (m' : Mmu) : Prop where
  accounted : m'.Accounted arch owed
  views : m'.Views e
  live : m'.Live c
  reached : Reached m' (m'.reach arch c vaddr write) m.pool.alloc.isNone write c i (e.page c i)

section

variable {vaddr : ℕ} {write : Bool}

theorem reach_of_pte (hi : userPte arch vaddr = some i) (hentry : m.pte c i = entry) :
    m.reach arch c vaddr write = if entry.allows write then some entry.frame else none := by
  unfold reach
  rw [hi, Option.bind_some, hentry]

/-- The page is there already. -/
theorem Touched.of_allowed (h : m.Views e) (hacc : m.Accounted arch owed) (hc : m.Live c)
    (hi : userPte arch vaddr = some i) (hk : k < poolFrames)
    (hpage : e.page c i = .data (m.mem (frameAddr k)))
    (hentry : m.pte c i = .owned (frameAddr k) ∨ write = false ∧
      m.pte c i = (Pte.owned (frameAddr k)).toCow) : Touched arch m e owed c vaddr i write m := by
  refine ⟨hacc, h, hc, ?_⟩
  rw [hpage]
  refine .data k hk ?_ hentry
  rcases hentry with hentry | ⟨rfl, hentry⟩
  · rw [reach_of_pte hi hentry]
    rfl
  · rw [reach_of_pte hi hentry]
    rfl

theorem Accounted.ne_zero (hacc : m.Accounted arch owed) (hc : m.Live c) : c ≠ 0 := by
  obtain ⟨k, -, hk⟩ := mem_roots.1 (hacc.root c hc).1
  exact hk ▸ frameAddr_ne_zero k

theorem Touched.demand (h : m.Views e) (hacc : m.Accounted arch owed) (hc : m.Live c)
    (hi : userPte arch vaddr = some i) (hentry : m.pte c i = .reserved) (hpage : e.page c i = .data
      fun _ => 0) : Touched arch m e owed c vaddr i write (m.handleDemandFault arch c vaddr).2 := by
  have hacc' := hacc.handleDemandFault hc vaddr
  unfold handleDemandFault at hacc' ⊢
  rw [if_neg (hacc.ne_zero hc), hi] at hacc' ⊢
  dsimp only at hacc' ⊢
  have hdemand : ¬ ((m.pte c i).present = true ∨ (m.pte c i).demand = false) := by
    rw [hentry]
    exact fun h => h.elim Bool.false_ne_true Bool.false_ne_true.symm
  rw [if_neg hdemand] at hacc' ⊢
  cases halloc : m.alloc with
  | none =>
    have hfull : m.pool.alloc = none := Option.map_eq_none_iff.1 halloc
    refine ⟨hacc, h, hc, ?_⟩
    rw [hpage]
    refine .full _ ?_ (by rw [hfull]; rfl)
    rw [reach_of_pte hi hentry]
    rfl
  | some r =>
    obtain ⟨frame, m₁⟩ := r
    rw [halloc] at hacc'
    dsimp only at hacc' ⊢
    obtain ⟨hpool, hspaces, hmem⟩ := alloc_eq halloc
    obtain ⟨k, hk, rfl, -⟩ := FramePool.alloc_eq_some hpool
    have hc' := live_of_spaces hspaces hc
    have hzero : m₁.mem (frameAddr k) = fun _ => 0 := by rw [hmem, Function.update_self]
    have hviews : m₁.Views e := h.congr hspaces fun c j k' hj hk' =>
      (alloc_keeps hacc.sound halloc (hacc.inUse hj hk' (Pte.index_lt hk'))).1
    have hset : (m₁.setPte c i (.owned (frameAddr k))).Views
      (e.setPage c i (.data (m₁.mem (frameAddr k)))) :=
      hviews.setPte hc' (.owned k hk)
    rw [hzero, Eager.setPage_same ((h.live c).2 hc) hpage] at hset
    have hself : (m₁.setPte c i (.owned (frameAddr k))).pte c i = .owned (frameAddr k) :=
      setPte_self hc' i _
    refine ⟨hacc', hset, (setPte_live ..).2 hc', ?_⟩
    rw [hpage, ← hzero, ← setPte_mem m₁ c i (.owned (frameAddr k))]
    refine .data k hk ?_ (.inl hself)
    rw [reach_of_pte hi hself]
    rfl

theorem Touched.cow (h : m.Views e) (hacc : m.Accounted arch owed) (hc : m.Live c)
    (hi : userPte arch vaddr = some i) (hk : k < poolFrames)
    (hentry : m.pte c i = (Pte.owned (frameAddr k)).toCow)
    (hpage : e.page c i = .data (m.mem (frameAddr k))) :
    Touched arch m e owed c vaddr i true (m.handleCowFault arch c vaddr).2 := by
  have hacc' := hacc.handleCowFault hc vaddr
  have hlive := (h.live c).2 hc
  have huse := hacc.inUse (userPte_lt hi) (by
    rw [hentry, Pte.index_toCow, Pte.index_owned, indexOf_frameAddr hk]) hk
  unfold handleCowFault at hacc' ⊢
  rw [if_neg (hacc.ne_zero hc), hi] at hacc' ⊢
  dsimp only at hacc' ⊢
  rw [hentry, if_neg fun h => h.elim Bool.false_ne_true.symm Bool.false_ne_true.symm] at hacc' ⊢
  by_cases hlast : m.pool.refcount (Pte.owned (frameAddr k)).toCow.frame ≤ 1
  · -- the last owner gets the page as it is
    rw [if_pos hlast] at hacc' ⊢
    have hset : (m.setPte c i (.owned (frameAddr k))).Views
      (e.setPage c i (.data (m.mem (frameAddr k)))) :=
      h.setPte hc (.owned k hk)
    rw [Eager.setPage_same hlive hpage] at hset
    have hself : (m.setPte c i (.owned (frameAddr k))).pte c i = .owned (frameAddr k) :=
      setPte_self hc i _
    refine ⟨hacc', hset, (setPte_live ..).2 hc, ?_⟩
    rw [hpage, ← setPte_mem m c i (.owned (frameAddr k))]
    refine .data k hk ?_ (.inl hself)
    exact reach_of_pte hi hself
  rw [if_neg hlast] at hacc' ⊢
  cases halloc : m.alloc with
  | none =>
    have hfull : m.pool.alloc = none := Option.map_eq_none_iff.1 halloc
    refine ⟨hacc, h, hc, ?_⟩
    rw [hpage]
    refine .full _ ?_ (by rw [hfull]; rfl)
    exact reach_of_pte hi hentry
  | some r =>
    -- the page is copied to a frame of its own
    obtain ⟨copy, m₁⟩ := r
    rw [halloc] at hacc'
    dsimp only at hacc' ⊢
    obtain ⟨hpool, hspaces, -⟩ := alloc_eq halloc
    obtain ⟨k', hk', rfl, -⟩ := FramePool.alloc_eq_some hpool
    set m₂ := m₁.copyFrame (frameAddr k) (frameAddr k') with hm₂
    have hspaces₂ : m₂.spaces = m.spaces := hspaces
    have hc₂ : m₂.Live c := live_of_spaces hspaces₂ hc
    have hcontent : m₂.mem (frameAddr k') = m.mem (frameAddr k) :=
      (copyFrame_self ..).trans (alloc_keeps hacc.sound halloc huse).1
    have hviews : m₂.Views e := h.congr hspaces₂ fun c j k'' hj hk'' => by
      have huse := hacc.inUse hj hk'' (Pte.index_lt hk'')
      exact (copyFrame_of_ne (alloc_fresh hacc.sound halloc huse)).trans
        (alloc_keeps hacc.sound halloc huse).1
    have hset : (m₂.setPte c i (.owned (frameAddr k'))).Views
      (e.setPage c i (.data (m₂.mem (frameAddr k')))) :=
      hviews.setPte hc₂ (.owned k' hk')
    rw [hcontent, Eager.setPage_same hlive hpage] at hset
    have hself : (m₂.setPte c i (.owned (frameAddr k'))).pte c i = .owned (frameAddr k') :=
      setPte_self hc₂ i _
    refine ⟨hacc', hset.congr rfl fun _ _ _ _ _ => rfl, (setPte_live ..).2 hc₂, ?_⟩
    rw [hpage, ← hcontent, ← setPte_mem m₂ c i (.owned (frameAddr k'))]
    refine .data k' hk' ?_ (.inl hself)
    exact reach_of_pte hi hself

theorem touched (h : m.Views e) (hacc : m.Accounted arch owed) (hc : m.Live c)
    (hi : userPte arch vaddr = some i) :
    Touched arch m e owed c vaddr i write (m.touch arch c vaddr write).2 := by
  have hshows := h.shows c i (userPte_lt hi)
  unfold touch
  rw [hi]
  dsimp only
  generalize hentry : m.pte c i = entry at hshows
  generalize hpage : e.page c i = page at hshows
  cases hshows with
  | empty =>
    have hsame : (m.handleDemandFault arch c vaddr).2 = m := by
      unfold handleDemandFault
      rw [if_neg (hacc.ne_zero hc), hi]
      dsimp only
      rw [hentry]
      rfl
    change Touched arch m e owed c vaddr i write (m.handleDemandFault arch c vaddr).2
    rw [hsame]
    refine ⟨hacc, h, hc, ?_⟩
    rw [hpage]
    exact .unmapped (reach_of_pte hi hentry)
  | reserved => exact Touched.demand h hacc hc hi hentry hpage
  | window frame hout =>
    have hallows : (Pte.window frame).allows write = true := rfl
    rw [if_pos hallows]
    refine ⟨hacc, h, hc, ?_⟩
    rw [hpage]
    refine .shared frame ?_ hout
    rw [reach_of_pte hi hentry, if_pos hallows]
    rfl
  | owned k hk =>
    have hallows : (Pte.owned (frameAddr k)).allows write = true := rfl
    rw [if_pos hallows]
    exact Touched.of_allowed h hacc hc hi hk hpage (.inl hentry)
  | cow k hk =>
    cases write with
    | false => exact Touched.of_allowed h hacc hc hi hk hpage (.inr ⟨rfl, hentry⟩)
    | true => exact Touched.cow h hacc hc hi hk hentry hpage

theorem Views.load {b : UInt8} (h : m.Views e) (hacc : m.Accounted arch owed) (hc : m.Live c)
    (hload : (some b, m') = m.load arch c vaddr) :
    m'.Accounted arch owed ∧ m'.Views e ∧ EagerStep arch e (.load c vaddr b) e := by
  unfold Mmu.load at hload
  cases hi : userPte arch vaddr with
  | none =>
    unfold reach at hload
    rw [hi] at hload
    cases congrArg Prod.fst hload
  | some i =>
    obtain ⟨hacc', hviews, -, hreached⟩ := @touched arch m e owed c i vaddr false h hacc hc hi
    have hm : m' = (m.touch arch c vaddr false).2 := congrArg Prod.snd hload
    have hb : some b = _ := congrArg Prod.fst hload
    dsimp only at hb
    rw [← hm] at hacc' hviews hreached hb
    refine ⟨hacc', hviews, rfl, i, hi, ?_⟩
    generalize e.page c i = page at hreached
    cases hreached with
    | unmapped hfound =>
      rw [hfound] at hb
      cases hb
    | shared => exact .inl rfl
    | data k hk hfound =>
      rw [hfound] at hb
      exact .inr ⟨_, rfl, Option.some.inj hb⟩
    | full bytes hfound =>
      rw [hfound] at hb
      cases hb

theorem Accounted.writeByte (hacc : m.Accounted arch owed) (frame off : ℕ) (b : UInt8) :
    (m.writeByte frame off b).Accounted arch owed := hacc.repool rfl hacc.sound fun _ => rfl

theorem writeByte_of_ne {frame off q : ℕ} {b : UInt8} (h : q ≠ frame) :
    (m.writeByte frame off b).mem q = m.mem q := Function.update_of_ne h ..

/-- A byte that is written to a page of its own is seen there only. -/
theorem Views.writeByte (h : m.Views e) (hacc : m.Accounted arch owed) (hc : m.Live c)
    (hi : i < userPages) (hk : k < poolFrames) (hentry : m.pte c i = .owned (frameAddr k)) (off : ℕ)
    (b : UInt8) :
    (m.writeByte (frameAddr k) off b).Views
      (e.setPage c i (.data (Function.update (m.mem (frameAddr k)) off b))) := by
  have hindex : (m.pte c i).index = some k := by rw [hentry, Pte.index_owned, indexOf_frameAddr hk]
  refine h.set (fun _ => .rfl) hc (fun _ _ _ => rfl) (fun c' j k' hne hj hk' => ?_) ?_
  · have hframe : k' ≠ k := by
      rintro rfl
      have hone := hacc.cow c i k' hi hindex fun hcow => by
        rw [hentry] at hcow
        exact absurd hcow.2 Bool.false_ne_true
      have htwo : 1 < m.mapped k' := one_lt_refs (hacc.slot (live_of_pte hindex) hi)
        (hacc.slot (live_of_pte hk') hj)
        (fun heq => hne ⟨(congrArg Prod.fst heq).symm, (congrArg Prod.snd heq).symm⟩) hindex hk'
      exact absurd htwo (Nat.not_lt.2 hone)
    exact writeByte_of_ne fun heq => hframe (frameAddr_inj heq)
  · have hpte : (m.writeByte (frameAddr k) off b).pte c i = .owned (frameAddr k) := hentry
    have hmem : (m.writeByte (frameAddr k) off b).mem (frameAddr k) =
        Function.update (m.mem (frameAddr k)) off b := Function.update_self ..
    rw [hpte, ← hmem]
    exact .owned k hk

theorem Views.store {b : UInt8} (h : m.Views e) (hacc : m.Accounted arch owed) (hc : m.Live c)
    (hstore : (true, m') = m.store arch c vaddr b) :
    ∃ e', EagerStep arch e (.store c vaddr b) e' ∧ m'.Accounted arch owed ∧ m'.Views e' := by
  unfold Mmu.store at hstore
  dsimp only at hstore
  cases hi : userPte arch vaddr with
  | none =>
    unfold reach at hstore
    rw [hi] at hstore
    cases congrArg Prod.fst hstore
  | some i =>
    obtain ⟨hacc', hviews, hlive, hreached⟩ := @touched arch m e owed c i vaddr true h hacc hc hi
    generalize hpage : e.page c i = page at hreached
    cases hreached with
    | unmapped hfound =>
      rw [hfound] at hstore
      cases congrArg Prod.fst hstore
    | shared frame hfound hout =>
      rw [hfound] at hstore
      cases congrArg Prod.snd hstore
      refine ⟨e, ⟨i, hi, .inl ⟨hpage, rfl⟩⟩, hacc'.writeByte .., hviews.congr rfl
        fun c j k hj hk => ?_⟩
      refine writeByte_of_ne fun heq => ?_
      rw [← heq, indexOf_frameAddr (Pte.index_lt hk)] at hout
      cases hout
    | data k hk hfound hentry =>
      rw [hfound] at hstore
      cases congrArg Prod.snd hstore
      have hentry := hentry.resolve_right fun hand => absurd hand.1 Bool.false_ne_true.symm
      exact ⟨_, ⟨i, hi, .inr ⟨_, hpage, rfl⟩⟩, hacc'.writeByte ..,
        hviews.writeByte hacc' hlive (userPte_lt hi) hk hentry _ b⟩
    | full bytes hfound =>
      rw [hfound] at hstore
      cases congrArg Prod.fst hstore

theorem Views.fault (h : m.Views e) (hacc : m.Accounted arch owed) (hc : m.Live c)
    (hroom : m.pool.alloc.isSome = true)
    (hfault : (m.touch arch c vaddr write).2.reach arch c vaddr write = none) :
    (m.touch arch c vaddr write).2.Accounted arch owed ∧ (m.touch arch c vaddr write).2.Views e ∧
      EagerStep arch e (.fault c vaddr write) e := by
  cases hi : userPte arch vaddr with
  | none =>
    have hsame : (m.touch arch c vaddr write).2 = m := by
      unfold touch
      rw [hi]
    rw [hsame]
    refine ⟨hacc, h, rfl, fun i hi' => ?_⟩
    rw [hi] at hi'
    cases hi'
  | some i =>
    obtain ⟨hacc', hviews, -, hreached⟩ := @touched arch m e owed c i vaddr write h hacc hc hi
    refine ⟨hacc', hviews, rfl, fun j hj => ?_⟩
    obtain rfl := Option.some.inj (hi.symm.trans hj)
    generalize e.page c i = page at hreached
    cases hreached with
    | unmapped => rfl
    | shared frame hfound =>
      rw [hfault] at hfound
      cases hfound
    | data k hk hfound =>
      rw [hfault] at hfound
      cases hfound
    | full bytes hfound hfull =>
      rw [Option.isNone_iff_eq_none.1 hfull] at hroom
      cases hroom

end

/-! ## Runs -/

/-- The two systems go on alike. -/
theorem fork_step {ev : ForkEvent} (h : m.Views e) (hacc : m.Accounted arch owed)
    (hgives : m.Gives arch ev) :
    ∃ e', EagerStep arch e ev e' ∧ (m.afterFork arch ev).Views e' ∧
      ∃ owed', (m.afterFork arch ev).Accounted arch owed' := by
  cases ev with
  | create made =>
    obtain ⟨e', hstep, hviews⟩ := h.create hacc (Prod.ext hgives rfl)
    exact ⟨e', hstep, hviews, owed, (createUserSpace_spec hacc).accounted⟩
  | destroy c =>
    exact ⟨_, rfl, (h.toBut c).destroy (hacc.ne_zero hgives), owed, hacc.destroy c⟩
  | reserve c start len =>
    exact ⟨_, rfl, h.reserveUserRange hgives start len, owed, hacc.reserveUserRange
      hgives start len⟩
  | map c vaddr phys len =>
    obtain ⟨owed', hacc', -⟩ := @Accounted.mapUserFrames arch m owed c phys hacc hgives.1
      vaddr len hgives.2
    exact ⟨_, rfl, h.mapUserFrames hgives.1 hgives.2, owed', hacc'⟩
  | clone c made =>
    obtain ⟨e', hstep, hviews⟩ := h.clone hacc hgives.1 (Prod.ext hgives.2 rfl)
    exact ⟨e', hstep, hviews, owed, hacc.cloneUserSpace hgives.1⟩
  | load c vaddr b =>
    obtain ⟨hacc', hviews, hstep⟩ := h.load hacc hgives.1 (Prod.ext hgives.2.symm rfl)
    exact ⟨e, hstep, hviews, owed, hacc'⟩
  | store c vaddr b =>
    obtain ⟨e', hstep, hacc', hviews⟩ := h.store hacc hgives.1 (Prod.ext hgives.2.symm rfl)
    exact ⟨e', hstep, hviews, owed, hacc'⟩
  | fault c vaddr write =>
    obtain ⟨hc, hroom, hfault⟩ := hgives
    obtain ⟨hacc', hviews, hstep⟩ := h.fault hacc hc hroom hfault
    exact ⟨e, hstep, hviews, owed, hacc'⟩

theorem fork_simulates {es : List ForkEvent} (hrun : Run (ForkStep arch) boot es m) :
    ∃ e, Run (EagerStep arch) Eager.empty es e ∧ m.Views e ∧ ∃ owed, m.Accounted arch owed :=
  Run.simulate (R := fun m e => m.Views e ∧ ∃ owed, m.Accounted arch owed)
    (fun m e ev m' hR hstep => by
      obtain ⟨hviews, owed, hacc⟩ := hR
      obtain ⟨hgives, rfl⟩ := hstep
      exact fork_step hviews hacc hgives)
    ⟨views_boot, _, accounted_boot arch⟩ hrun

/-- Whatever the kernel does, memory that is copied at each `fork` would have given the same
results. -/
theorem fork_copies {es : List ForkEvent} (hrun : Run (ForkStep arch) boot es m) :
    ∃ e, Run (EagerStep arch) Eager.empty es e := by
  obtain ⟨e, hrun', -⟩ := fork_simulates hrun
  exact ⟨e, hrun'⟩

/-- A process writes a byte and forks; the copy writes another, and the process reads its own. -/
def forkedByte : List ForkEvent :=
  [.create (some poolStart), .reserve poolStart userMemStart frameSize,
    .store poolStart userMemStart 1,
    .clone poolStart (some (frameAddr 3)), .store (frameAddr 3) userMemStart 2,
    .load poolStart userMemStart 1, .load (frameAddr 3) userMemStart 2]

theorem fork_copies_byte : ∃ e, Run (EagerStep .i386) Eager.empty forkedByte e :=
  fork_copies
    (Run.of_plays (by decide +kernel : Plays (Gives .i386) (afterFork .i386) boot forkedByte))

end Mmu

end Tcmk
