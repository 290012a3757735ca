import Tcmk.Lib.Run
import Tcmk.Loader.Bus
import Tcmk.Memory.Frames

/-!
# User address spaces (`mmu_i386.rs` and `mmu_x86_64.rs`)

A process has page tables of its own for the 4 MiB from `userMemStart` on: one table of 1024 entries
on i386, and two of 512 on x86_64. A space is named by the physical address of its page directory,
as in `CR3`; the kernel's own is `0`. The directories above the tables are copies of the kernel's,
and the model keeps their frames only.

A table entry is the record of its bits. `mem` is what the frames hold. The functions get the page
directory that is loaded as an argument, and the flushes of the TLB are left out.
-/

namespace Tcmk

open Lib

/-- `ENTRIES`. -/
def Arch.entries : Arch → ℕ
  | .i386 => 1024
  | .x86_64 => 512

/-- The number of entries of a directory that a process has for itself. -/
def Arch.userTables : Arch → ℕ
  | .i386 => 1
  | .x86_64 => 2

/-- How wide the address in a table entry is. -/
def Arch.physBits : Arch → ℕ
  | .i386 => 32
  | .x86_64 => 52

/-- The number of pages of the user's 4 MiB. -/
def userPages : ℕ := 1024

/-- A page table entry. -/
structure Pte where
  frame : ℕ
  present : Bool
  writable : Bool
  user : Bool
  cow : Bool
  shared : Bool
  demand : Bool
  deriving DecidableEq

namespace Pte

def empty : Pte := ⟨0, false, false, false, false, false, false⟩

/-- `PTE_DEMAND`. -/
def reserved : Pte := { empty with demand := true }

/-- `frame | PTE_PRESENT | PTE_WRITABLE | PTE_USER`. -/
def owned (frame : ℕ) : Pte := ⟨frame, true, true, true, false, false, false⟩

/-- The same with `PTE_SHARED`. -/
def window (frame : ℕ) : Pte := { owned frame with shared := true }

/-- `(entry & !PTE_WRITABLE) | PTE_COW`. -/
def toCow (e : Pte) : Pte := { e with writable := false, cow := true }

/-- `(entry & !PTE_COW) | PTE_WRITABLE`. -/
def reuse (e : Pte) : Pte := { e with cow := false, writable := true }

end Pte

/-- The part of an address space that is not the kernel's. -/
structure Space where
  /-- the frames of the directories, from the lowest level up -/
  dirs : List ℕ
  /-- the frames of the page tables -/
  tables : List ℕ
  pte : ℕ → Pte

/-- `user_pte`: the place of a page's entry in the tables. -/
def userPte (arch : Arch) (vaddr : ℕ) : Option ℕ :=
  let span := arch.entries * frameSize
  let first := userMemStart / span
  if first ≤ vaddr / span ∧ vaddr / span < first + arch.userTables then
    some ((vaddr / span - first) * arch.entries + vaddr / frameSize % arch.entries)
  else none

/-- The frames that the entries of one table name. -/
def tablePages (entries : ℕ) (pte : ℕ → Pte) (base : ℕ) : List ℕ :=
  (List.range' base entries).filterMap fun i => if (pte i).present then some (pte i).frame else none

/-- Each table after the frames that its entries name. -/
def ownedFrom (entries : ℕ) (pte : ℕ → Pte) : ℕ → List ℕ → List ℕ
  | _, [] => []
  | base, pt :: tables =>
    tablePages entries pte base ++ pt :: ownedFrom entries pte (base + entries) tables

/-- What `destroy_user_space` frees, in its order. -/
def Space.owned (arch : Arch) (sp : Space) : List ℕ :=
  ownedFrom arch.entries sp.pte 0 sp.tables ++ sp.dirs

/-- The frames, and the page tables. -/
structure Mmu where
  pool : FramePool
  spaces : ℕ → Option Space
  mem : ℕ → ℕ → UInt8

namespace Mmu

def boot : Mmu := ⟨FramePool.initial, fun _ => none, fun _ _ => 0⟩

/-- The space has been created and not destroyed. -/
def Live (m : Mmu) (cr3 : ℕ) : Prop := (m.spaces cr3).isSome = true

instance (m : Mmu) (cr3 : ℕ) : Decidable (m.Live cr3) := inferInstanceAs (Decidable (_ = _))

def withPool (m : Mmu) (pool : FramePool) : Mmu := { m with pool := pool }

def put (m : Mmu) (cr3 : ℕ) (space : Option Space) : Mmu :=
  { m with spaces := Function.update m.spaces cr3 space }

def pte (m : Mmu) (cr3 i : ℕ) : Pte :=
  match m.spaces cr3 with
  | some sp => sp.pte i
  | none => .empty

def setPte (m : Mmu) (cr3 i : ℕ) (e : Pte) : Mmu :=
  match m.spaces cr3 with
  | some sp => m.put cr3 (some { sp with pte := Function.update sp.pte i e })
  | none => m

/-- `frames::alloc`: the frame is cleared. -/
def alloc (m : Mmu) : Option (ℕ × Mmu) :=
  m.pool.alloc.map fun r =>
    (r.1, { m with pool := r.2, mem := Function.update m.mem r.1 fun _ => 0 })

/-- `frames::free`. -/
def free (m : Mmu) (phys : ℕ) : Mmu := m.withPool (m.pool.free phys)

/-- `copy_nonoverlapping`, for a frame. -/
def copyFrame (m : Mmu) (src dst : ℕ) : Mmu :=
  { m with mem := Function.update m.mem dst (m.mem src) }

/-- The frames of a space that is being given up. -/
def abandon (arch : Arch) (m : Mmu) (sp : Space) : Mmu :=
  m.withPool (m.pool.freeAll (sp.owned arch))

/-! ## Creation and destruction -/

/-- `create_user_space`. When x86_64 runs out of frames at a page table, the entries that it has not
set yet are the kernel's, and nothing that they name is in the pool. -/
def createUserSpace (arch : Arch) (m : Mmu) : Option ℕ × Mmu :=
  match arch with
  | .i386 =>
    match m.alloc with
    | none => (none, m)
    | some (pd, m) =>
      match m.alloc with
      | none => (none, m.free pd)
      | some (pt, m) => (some pd, m.put pd (some ⟨[pd], [pt], fun _ => .empty⟩))
  | .x86_64 =>
    match m.alloc with
    | none => (none, m)
    | some (pml4, m) =>
      match m.alloc with
      | none => (none, m.free pml4)
      | some (pdpt, m) =>
        match m.alloc with
        | none => (none, (m.free pml4).free pdpt)
        | some (pd, m) =>
          match m.alloc with
          | none => (none, m.abandon .x86_64 ⟨[pd, pdpt, pml4], [], fun _ => .empty⟩)
          | some (pt, m) =>
            match m.alloc with
            | none => (none, m.abandon .x86_64 ⟨[pd, pdpt, pml4], [pt], fun _ => .empty⟩)
            | some (pt', m) =>
              (some pml4, m.put pml4 (some ⟨[pd, pdpt, pml4], [pt, pt'], fun _ => .empty⟩))

/-- `destroy_user_space`. -/
def destroyUserSpace (arch : Arch) (m : Mmu) (cr3 : ℕ) : Mmu :=
  if cr3 = 0 then m
  else
    match m.spaces cr3 with
    | none => m
    | some sp => (m.abandon arch sp).put cr3 none

/-! ## Ranges of pages -/

/-- One round of `reserve_user_range`. -/
def reservePage (m : Mmu) (cr3 i : ℕ) : Mmu :=
  if (m.pte cr3 i).present then m else m.setPte cr3 i .reserved

/-- The loop of `reserve_user_range`. -/
def reservePages (arch : Arch) (cr3 : ℕ) : ℕ → ℕ → Mmu → Bool × Mmu
  | 0, _, m => (true, m)
  | n + 1, page, m =>
    match userPte arch (page * frameSize) with
    | none => (false, m)
    | some i => reservePages arch cr3 n (page + 1) (m.reservePage cr3 i)

/-- `reserve_user_range`. -/
def reserveUserRange (arch : Arch) (m : Mmu) (cr3 start len : ℕ) : Bool × Mmu :=
  if len = 0 then (true, m)
  else
    let first := start / frameSize
    let last := (start + len - 1) % 2 ^ arch.wordBits / frameSize
    reservePages arch cr3 (last + 1 - first) first m

/-- The loop of `map_user_frames`. -/
def mapPages (arch : Arch) (cr3 : ℕ) : ℕ → ℕ → ℕ → Mmu → Bool × Mmu
  | 0, _, _, m => (true, m)
  | n + 1, vaddr, phys, m =>
    match userPte arch vaddr with
    | none => (false, m)
    | some i =>
      mapPages arch cr3 n (vaddr + frameSize) (phys + frameSize)
        (m.setPte cr3 i (.window (phys % 2 ^ arch.physBits)))

/-- `map_user_frames`, for the space of a process. -/
def mapUserFrames (arch : Arch) (m : Mmu) (cr3 vaddr phys len : ℕ) : Bool × Mmu :=
  if len = 0 then (true, m)
  else if vaddr % frameSize ≠ 0 ∨ phys % frameSize ≠ 0 then (false, m)
  else mapPages arch cr3 ((len + frameSize - 1) % 2 ^ arch.wordBits / frameSize) vaddr phys m

/-! ## Page faults -/

/-- `handle_demand_fault`. -/
def handleDemandFault (arch : Arch) (m : Mmu) (cr3 vaddr : ℕ) : Bool × Mmu :=
  if cr3 = 0 then (false, m)
  else
    match userPte arch vaddr with
    | none => (false, m)
    | some i =>
      if (m.pte cr3 i).present ∨ (m.pte cr3 i).demand = false then (false, m)
      else
        match m.alloc with
        | none => (false, m)
        | some (frame, m) => (true, m.setPte cr3 i (.owned frame))

/-- `handle_cow_fault`. -/
def handleCowFault (arch : Arch) (m : Mmu) (cr3 vaddr : ℕ) : Bool × Mmu :=
  if cr3 = 0 then (false, m)
  else
    match userPte arch vaddr with
    | none => (false, m)
    | some i =>
      let entry := m.pte cr3 i
      if entry.present = false ∨ entry.cow = false then (false, m)
      else if m.pool.refcount entry.frame ≤ 1 then (true, m.setPte cr3 i entry.reuse)
      else
        match m.alloc with
        | none => (false, m)
        | some (copy, m) =>
          (true, ((m.copyFrame entry.frame copy).setPte cr3 i (.owned copy)).free entry.frame)

/-! ## `fork` -/

/-- One round of `clone_user_space`. It fails if there is no frame for a copy. -/
def cloneEntry (src dst i : ℕ) (m : Mmu) : Bool × Mmu :=
  let entry := m.pte src i
  if entry.shared then (true, m)
  else if entry.present = false ∧ entry.demand = false then (true, m)
  else if entry.present = false then (true, m.setPte dst i entry)
  else
    match m.pool.share entry.frame with
    | some pool => (true, ((m.withPool pool).setPte src i entry.toCow).setPte dst i entry.toCow)
    | none =>
      match m.alloc with
      | none => (false, m)
      | some (copy, m) => (true, (m.copyFrame entry.frame copy).setPte dst i (.owned copy))

/-- The loop of `clone_user_space`. -/
def cloneEntries (src dst : ℕ) : List ℕ → Mmu → Bool × Mmu
  | [], m => (true, m)
  | i :: is, m =>
    match cloneEntry src dst i m with
    | (false, m) => (false, m)
    | (true, m) => cloneEntries src dst is m

/-- `clone_user_space`. -/
def cloneUserSpace (arch : Arch) (m : Mmu) (src : ℕ) : Option ℕ × Mmu :=
  if src = 0 then (none, m)
  else
    match m.createUserSpace arch with
    | (none, m) => (none, m)
    | (some dst, m) =>
      match cloneEntries src dst (List.range userPages) m with
      | (true, m) => (some dst, m)
      | (false, m) => (none, m.destroyUserSpace arch dst)

end Mmu

/-! ## Runs -/

/-- A call of the memory management. -/
inductive MmuEvent
  | create
  | destroy (cr3 : ℕ)
  | reserve (cr3 start len : ℕ)
  | map (cr3 vaddr phys len : ℕ)
  | demandFault (cr3 vaddr : ℕ)
  | cowFault (cr3 vaddr : ℕ)
  | clone (cr3 : ℕ)
  deriving DecidableEq

namespace Mmu

def after (arch : Arch) (m : Mmu) : MmuEvent → Mmu
  | .create => (m.createUserSpace arch).2
  | .destroy cr3 => m.destroyUserSpace arch cr3
  | .reserve cr3 start len => (m.reserveUserRange arch cr3 start len).2
  | .map cr3 vaddr phys len => (m.mapUserFrames arch cr3 vaddr phys len).2
  | .demandFault cr3 vaddr => (m.handleDemandFault arch cr3 vaddr).2
  | .cowFault cr3 vaddr => (m.handleCowFault arch cr3 vaddr).2
  | .clone cr3 => (m.cloneUserSpace arch cr3).2

/-- The memory does not touch the pool. -/
def Outside (arch : Arch) (phys len : ℕ) : Prop :=
  ∀ i < (len + frameSize - 1) % 2 ^ arch.wordBits / frameSize,
    indexOf ((phys + i * frameSize) % 2 ^ arch.physBits) = none

instance (arch : Arch) (phys len : ℕ) : Decidable (Outside arch phys len) :=
  inferInstanceAs (Decidable (∀ i < _, _))

/-- The calls are made for spaces that exist, and `map_user_frames` for memory outside the pool. -/
def Enabled (arch : Arch) (m : Mmu) : MmuEvent → Prop
  | .create => True
  | .destroy cr3 | .reserve cr3 _ _ | .demandFault cr3 _ | .cowFault cr3 _ | .clone cr3 =>
    m.Live cr3
  | .map cr3 _ phys len => m.Live cr3 ∧ Outside arch phys len

instance (arch : Arch) (m : Mmu) (e : MmuEvent) : Decidable (m.Enabled arch e) :=
  match e with
  | .create => instDecidableTrue
  | .destroy cr3 | .reserve cr3 _ _ | .demandFault cr3 _ | .cowFault cr3 _ | .clone cr3 =>
    inferInstanceAs (Decidable (m.Live cr3))
  | .map _ _ _ _ => inferInstanceAs (Decidable (_ ∧ _))

end Mmu

/-- One call. -/
def MmuStep (arch : Arch) (m : Mmu) (e : MmuEvent) (m' : Mmu) : Prop :=
  m.Enabled arch e ∧ m' = m.after arch e

end Tcmk
