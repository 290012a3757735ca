import Tcmk.Memory.Forking
import Tcmk.Memory.Splitting

/-!
# What a system call takes for memory of its caller (`mmu::is_user_accessible`)

A system call checks an address of its caller with `is_user_accessible`, which reads the tables that
are loaded. When the caller itself loads from the address, the processor reads them, and the page
fault handler gets it what is missing. So a page that is reserved and has no frame yet is refused,
though the program may use it; and on x86_64, where the check ignores the upper 16 bits, an address
that no load can have is accepted. These are the only differences (`validator_agrees_iff`).
-/

namespace Tcmk

open Lib

/-- `IDENTITY_TABLES` of `mmu_i386.rs`. -/
def identityTables : ℕ := 8

/-- The entry, as the processor reads it. -/
def Pte.entry (e : Pte) : PageEntry := ⟨e.frame, e.present, e.writable, e.user, false⟩

/-- The tables with the page tables of a process among them. -/
def installed (arch : Arch) (mem : ℕ → ℕ → PageEntry) (sp : Space) (t i : ℕ) : PageEntry :=
  match sp.tables.findIdx? (· == t) with
  | some n => (sp.pte (n * arch.entries + i)).entry
  | none => mem t i

/-! ## The check -/

/-- `is_user_accessible` of i386. `identity` says where `IDENTITY_PAGE_TABLES` are. -/
def userAccessible386 (identity : ℕ → ℕ) (mem : ℕ → ℕ → PageEntry) (cr3 addr : ℕ) : Bool :=
  if addr / 2 ^ 22 = userPde then
    let pde := mem cr3 userPde
    if !pde.present then false
    else
      let pte := mem pde.addr (addr / 2 ^ 12 % 1024)
      pte.present && pte.user
  else if addr / pageSize ≥ identityTables * 1024 then false
  else (mem (identity (addr / pageSize / 1024)) (addr / pageSize % 1024)).user

/-- `mmu::is_user_accessible`. -/
def isUserAccessible (arch : Arch) (identity : ℕ → ℕ) (mem : ℕ → ℕ → PageEntry) (cr3 addr : ℕ) :
    Bool :=
  match arch with
  | .i386 => userAccessible386 identity mem cr3 addr
  | .x86_64 => userAccessible mem cr3 addr

/-! ## The processor -/

/-- The entries that lead to an address. -/
def walk (arch : Arch) (mem : ℕ → ℕ → PageEntry) (cr3 addr : ℕ) : List PageEntry :=
  match arch with
  | .i386 =>
    let pde := mem cr3 (addr / 2 ^ 22 % 1024)
    [pde, mem pde.addr (addr / 2 ^ 12 % 1024)]
  | .x86_64 =>
    let pml4e := mem cr3 (addr / 2 ^ 39 % 512)
    let pdpte := mem pml4e.addr (addr / 2 ^ 30 % 512)
    let pde := mem pdpte.addr (addr / 2 ^ 21 % 512)
    if pde.huge then [pml4e, pdpte, pde]
      else [pml4e, pdpte, pde, mem pde.addr (addr / 2 ^ 12 % 512)]

/-- Ring 3 may read there. -/
def opens (arch : Arch) (mem : ℕ → ℕ → PageEntry) (cr3 addr : ℕ) : Bool :=
  (walk arch mem cr3 addr).all fun e => e.present && e.user

/-- The page fault finds no page. -/
def missing (arch : Arch) (mem : ℕ → ℕ → PageEntry) (cr3 addr : ℕ) : Bool :=
  (walk arch mem cr3 addr).any fun e => !e.present

/-- The upper 17 bits of an address of x86_64 are alike. -/
def canonical (arch : Arch) (addr : ℕ) : Bool :=
  match arch with
  | .i386 => true
  | .x86_64 => addr < 2 ^ 47 || 2 ^ 64 - 2 ^ 47 ≤ addr

/-- A load in Ring 3 by the process with these tables completes, after a page fault if need be. -/
def Mmu.loads (arch : Arch) (mem : ℕ → ℕ → PageEntry) (m : Mmu) (cr3 addr : ℕ) (sp : Space) :
    Bool :=
  if canonical arch addr = false then false
  else if opens arch (installed arch mem sp) cr3 addr then true
  else if missing arch (installed arch mem sp) cr3 addr then
    match m.handleDemandFault arch cr3 addr with
    | (false, _) => false
    | (true, m') =>
      match m'.spaces cr3 with
      | none => false
      | some sp' => opens arch (installed arch mem sp') cr3 addr
  else false

/-! ## The tables of a process -/

/-- What `create_user_space` has written to the directories of a process. All other entries are
copies of the kernel's, which can be open or not. -/
structure Directories (arch : Arch) (identity : ℕ → ℕ) (mem : ℕ → ℕ → PageEntry) (cr3 : ℕ)
    (sp : Space) where
  nodup : sp.tables.Nodup
  length : sp.tables.length = arch.userTables
  cr3_not_mem : cr3 ∉ sp.tables
  pdpt : ℕ
  pd : ℕ
  /-- the way to the page tables on x86_64 -/
  x86_64 : arch = .x86_64 → pdpt ∉ sp.tables ∧ pd ∉ sp.tables ∧ mem cr3 0 = .table pdpt ∧
    mem pdpt 0 = .table pd ∧
    ∀ n pt, sp.tables[n]? = some pt → mem pd (userMemStart / largePageSize + n) = .table pt
  /-- the way to the page table on i386 -/
  i386 : arch = .i386 → ∀ pt ∈ sp.tables, mem cr3 userPde = .table pt
  /-- the tables of the kernel, which map all their pages -/
  identity_table : arch = .i386 → ∀ t < identityTables, t ≠ userPde →
    identity t ∉ sp.tables ∧ mem cr3 t = .table (identity t) ∧ ∀ i,
    (mem (identity t) i).present = true
  /-- devices are not for Ring 3 -/
  beyond : arch = .i386 → ∀ t, identityTables ≤ t → t < 1024 → (mem cr3 t).addr ∉ sp.tables ∧
    ∀ i, (mem (mem cr3 t).addr i).user = false

variable {arch : Arch} {identity : ℕ → ℕ} {mem : ℕ → ℕ → PageEntry} {cr3 addr i : ℕ} {sp : Space}

@[simp] theorem PageEntry.table_addr (phys : ℕ) : (PageEntry.table phys).addr = phys := rfl

theorem installed_of_not_mem {t : ℕ} (h : t ∉ sp.tables) : installed arch mem sp t = mem t := by
  funext i
  unfold installed
  have hnone : sp.tables.findIdx? (· == t) = none :=
    List.findIdx?_eq_none_iff.2 fun p hp => by simpa using fun heq : p = t => h (heq ▸ hp)
  rw [hnone]

theorem installed_of_get {n t : ℕ} (hnodup : sp.tables.Nodup) (h : sp.tables[n]? = some t) (i : ℕ) :
    installed arch mem sp t i = (sp.pte (n * arch.entries + i)).entry := by
  obtain ⟨hn, hget⟩ := List.getElem?_eq_some_iff.1 h
  unfold installed
  have hsome : sp.tables.findIdx? (· == t) = some n := by
    rw [List.findIdx?_eq_some_iff_getElem]
    refine ⟨hn, by simp [hget], fun j hj => ?_⟩
    have hne : sp.tables[j] ≠ t := fun heq => by
      have hjn := (hnodup.getElem_inj_iff).1 (heq.trans hget.symm)
      omega
    simpa using hne
  rw [hsome]

theorem userAccessible_eq (mem : ℕ → ℕ → PageEntry) (cr3 addr : ℕ) :
    userAccessible mem cr3 addr = opens .x86_64 mem cr3 addr := by
  unfold userAccessible opens walk
  dsimp only
  generalize mem cr3 (addr / 2 ^ 39 % 512) = pml4e
  generalize mem pml4e.addr (addr / 2 ^ 30 % 512) = pdpte
  generalize mem pdpte.addr (addr / 2 ^ 21 % 512) = pde
  generalize mem pde.addr (addr / 2 ^ 12 % 512) = pte
  obtain ⟨_, present₄, _, user₄, _⟩ := pml4e
  obtain ⟨_, present₃, _, user₃, _⟩ := pdpte
  obtain ⟨_, present₂, _, user₂, huge⟩ := pde
  cases present₄ <;> cases user₄ <;> cases present₃ <;> cases user₃ <;> cases present₂ <;>
    cases user₂ <;>
    cases huge <;> simp

namespace Directories

variable (d : Directories arch identity mem cr3 sp)

include d

theorem exists_table {n : ℕ} (hn : n < arch.userTables) : ∃ pt, sp.tables[n]? = some pt :=
  ⟨_, List.getElem?_eq_getElem (d.length.symm ▸ hn)⟩

/-- On i386 the check and the processor agree on what is open. -/
theorem userAccessible386_eq (harch : arch = .i386) (haddr : addr < 2 ^ 32) :
    userAccessible386 identity (installed arch mem sp) cr3 addr =
    opens .i386 (installed arch mem sp) cr3 addr := by
  have hcr3 : installed arch mem sp cr3 = mem cr3 := installed_of_not_mem d.cr3_not_mem
  have hdir : addr / 2 ^ 22 % 1024 = addr / 2 ^ 22 := Nat.mod_eq_of_lt (by omega)
  have hpde : addr / pageSize / 1024 = addr / 2 ^ 22 := by unfold pageSize; omega
  have hpte : addr / pageSize % 1024 = addr / 2 ^ 12 % 1024 := rfl
  unfold userAccessible386 opens walk
  dsimp only
  rw [hcr3, hdir, hpde, hpte]
  by_cases huser : addr / 2 ^ 22 = userPde
  · obtain ⟨pt, hpt⟩ := d.exists_table (n := 0) (by cases arch <;> decide)
    rw [if_pos huser, huser, d.i386 harch pt (List.mem_of_getElem? hpt)]
    simp [PageEntry.table, PageEntry.kernel]
  rw [if_neg huser]
  by_cases hbeyond : addr / pageSize ≥ identityTables * 1024
  · obtain ⟨hnot, hmmio⟩ :=
      d.beyond harch (addr / 2 ^ 22) (by unfold identityTables at hbeyond ⊢; omega) (by omega)
    have huser' := hmmio (addr / 2 ^ 12 % 1024)
    rw [if_pos hbeyond, installed_of_not_mem hnot]
    simp only [List.all_cons, huser', Bool.and_false, Bool.false_and]
  · obtain ⟨hnot, hpde, hpresent⟩ :=
      d.identity_table harch (addr / 2 ^ 22) (by unfold identityTables at hbeyond ⊢; omega) huser
    rw [if_neg hbeyond, hpde, installed_of_not_mem hnot]
    simp only [PageEntry.table, PageEntry.kernel, List.all_cons, List.all_nil, Bool.and_true,
      Bool.true_and]
    rw [installed_of_not_mem hnot, hpresent, Bool.true_and]

theorem isUserAccessible_eq (haddr : arch.IsUsize addr) :
    isUserAccessible arch identity (installed arch mem sp) cr3 addr =
    opens arch (installed arch mem sp) cr3 addr := by
  cases harch : arch with
  | i386 =>
    subst harch
    exact d.userAccessible386_eq rfl haddr
  | x86_64 => exact userAccessible_eq ..

/-- The walk to a page of the user's 4 MiB ends with its entry, and all entries before are open. -/
theorem walk_eq (hi : userPte arch addr = some i) :
    ∃ upper, walk arch (installed arch mem sp) cr3 addr = upper ++ [(sp.pte i).entry] ∧
      ∀ e ∈ upper, e.present = true ∧ e.user = true := by
  have hcr3 : installed arch mem sp cr3 = mem cr3 := installed_of_not_mem d.cr3_not_mem
  have hopen : ∀ t, (PageEntry.table t).present = true ∧ (PageEntry.table t).user = true :=
    fun _ => ⟨rfl, rfl⟩
  unfold userPte at hi
  dsimp only at hi
  split_ifs at hi with hin
  obtain rfl := Option.some.inj hi
  cases harch : arch with
  | i386 =>
    subst harch
    obtain ⟨pt, hpt⟩ := d.exists_table (n := 0) (by decide)
    have hdir : addr / 2 ^ 22 % 1024 = userPde := by
      simp only [Arch.entries, Arch.userTables, frameSize, userMemStart] at hin
      unfold userPde
      omega
    have hplace :
      (addr / (Arch.i386.entries * frameSize) - userMemStart / (Arch.i386.entries * frameSize)) *
        Arch.i386.entries + addr / frameSize % Arch.i386.entries = 0 * Arch.i386.entries + addr /
        2 ^ 12 % 1024 := by
      simp only [Arch.entries, Arch.userTables, frameSize, userMemStart] at hin ⊢
      omega
    refine ⟨[.table pt], ?_, fun e he => List.mem_singleton.1 he ▸ hopen pt⟩
    unfold walk
    dsimp only
    rw [hcr3, hdir, d.i386 rfl pt (List.mem_of_getElem? hpt),
      hplace, ← installed_of_get d.nodup hpt]
    rfl
  | x86_64 =>
    subst harch
    obtain ⟨hpdpt, hpd, hcr3_zero, hpdpt_zero, htables⟩ := d.x86_64 rfl
    simp only [Arch.entries, Arch.userTables, frameSize, userMemStart] at hin
    obtain ⟨pt, hpt⟩ := d.exists_table (n := addr / 2 ^ 21 - 6) (show _ < 2 by omega)
    have h4 : addr / 2 ^ 39 % 512 = 0 := by omega
    have h3 : addr / 2 ^ 30 % 512 = 0 := by omega
    have h2 : addr / 2 ^ 21 % 512 = userMemStart / largePageSize + (addr / 2 ^ 21 - 6) := by
      unfold userMemStart largePageSize
      omega
    have hplace :
      (addr / (Arch.x86_64.entries * frameSize) - userMemStart /
        (Arch.x86_64.entries * frameSize)) *
        Arch.x86_64.entries + addr / frameSize % Arch.x86_64.entries =
        (addr / 2 ^ 21 - 6) * Arch.x86_64.entries + addr / 2 ^ 12 % 512 := by
      simp only [Arch.entries, frameSize, userMemStart]
      omega
    have hpml4e : installed .x86_64 mem sp cr3 0 = .table d.pdpt := by rw [hcr3, hcr3_zero]
    have hpdpte : installed .x86_64 mem sp d.pdpt 0 = .table d.pd := by
      rw [installed_of_not_mem hpdpt, hpdpt_zero]
    have hpde : installed .x86_64 mem sp d.pd (userMemStart / largePageSize + (addr / 2 ^ 21 - 6)) =
      .table pt := by
      rw [installed_of_not_mem hpd, htables _ pt hpt]
    refine ⟨[.table d.pdpt, .table d.pd, .table pt], ?_, ?_⟩
    · unfold walk
      simp only [h4, h3, h2, hpml4e, PageEntry.table_addr, hpdpte, hpde]
      rw [hplace, ← installed_of_get d.nodup hpt]
      rfl
    · simp [hopen]

/-- The tables are the same whatever their entries are. -/
def withPte (pte : ℕ → Pte) : Directories arch identity mem cr3 { sp with pte := pte } :=
  ⟨d.nodup, d.length, d.cr3_not_mem, d.pdpt, d.pd, d.x86_64, d.i386, d.identity_table, d.beyond⟩

theorem opens_eq (hi : userPte arch addr = some i) :
    opens arch (installed arch mem sp) cr3 addr = ((sp.pte i).present && (sp.pte i).user) := by
  obtain ⟨upper, hwalk, hopen⟩ := d.walk_eq hi
  have hupper : (upper.all fun e => e.present && e.user) = true :=
    List.all_eq_true.2 fun e he => by simp [hopen e he]
  unfold opens
  rw [hwalk, List.all_append, hupper]
  simp [Pte.entry]

theorem missing_eq (hi : userPte arch addr = some i) :
    missing arch (installed arch mem sp) cr3 addr = !(sp.pte i).present := by
  obtain ⟨upper, hwalk, hopen⟩ := d.walk_eq hi
  have hupper : (upper.any fun e => !e.present) = false :=
    List.any_eq_false.2 fun e he => by simp [hopen e he]
  unfold missing
  rw [hwalk, List.any_append, hupper]
  simp [Pte.entry]

end Directories

theorem canonical_of_userPte (hi : userPte arch addr = some i) : canonical arch addr = true := by
  cases arch with
  | i386 => rfl
  | x86_64 =>
    unfold userPte at hi
    dsimp only at hi
    split_ifs at hi with hin
    simp only [Arch.entries, Arch.userTables, frameSize, userMemStart] at hin
    unfold canonical
    simp only [Bool.or_eq_true, decide_eq_true_eq]
    omega

namespace Mmu

variable {m : Mmu}

/-- The page is reserved and has no frame, and there is one for it. -/
def Waiting (arch : Arch) (m : Mmu) (cr3 addr : ℕ) : Prop :=
  ∃ i, userPte arch addr = some i ∧ (m.pte cr3 i).present = false ∧ (m.pte cr3 i).demand = true ∧
    m.pool.alloc.isSome = true

theorem pte_of_space (hsp : m.spaces cr3 = some sp) (i : ℕ) : m.pte cr3 i = sp.pte i := by
  unfold pte
  rw [hsp]

/-- The handler helps if the page is waiting, and then the page is open. -/
theorem loads_of_waiting (hzero : cr3 ≠ 0) (hsp : m.spaces cr3 = some sp)
    (d : Directories arch identity mem cr3 sp)
    (hwaiting : m.Waiting arch cr3 addr) :
    opens arch (installed arch mem sp) cr3 addr = false ∧ m.loads arch mem cr3 addr sp = true := by
  obtain ⟨i, hi, habsent, hdemand, hroom⟩ := hwaiting
  rw [pte_of_space hsp] at habsent hdemand
  have hclosed : opens arch (installed arch mem sp) cr3 addr = false := by
    rw [d.opens_eq hi, habsent]; rfl
  have hmissing : missing arch (installed arch mem sp) cr3 addr = true := by
    rw [d.missing_eq hi, habsent]; rfl
  obtain ⟨⟨frame, pool⟩, halloc⟩ := Option.isSome_iff_exists.1 hroom
  have hm : m.alloc =
    some (frame, { m with pool := pool, mem := Function.update m.mem frame fun _ => 0 }) := by
    unfold Mmu.alloc
    rw [halloc]
    rfl
  have hhandler : m.handleDemandFault arch cr3 addr =
      (true, Mmu.setPte { m with pool := pool, mem := Function.update m.mem frame fun _ => 0 } cr3 i
        (.owned frame)) := by
    unfold handleDemandFault
    rw [if_neg hzero, hi]
    dsimp only
    rw [pte_of_space hsp, habsent, hdemand, if_neg fun h => h.elim Bool.false_ne_true
      Bool.false_ne_true.symm, hm]
  have hspaces :
    (Mmu.setPte { m with pool := pool, mem := Function.update m.mem frame fun _ => 0 } cr3 i
      (.owned frame)).spaces cr3 =
      some { sp with pte := Function.update sp.pte i (.owned frame) } := by
    rw [setPte_spaces (m := { m with pool := pool, mem := Function.update m.mem frame fun _ => 0 })
      hsp, Function.update_self]
  refine ⟨hclosed, ?_⟩
  unfold loads
  rw [canonical_of_userPte hi, if_neg Bool.false_ne_true.symm, hclosed, if_neg Bool.false_ne_true,
    hmissing, if_pos rfl, hhandler]
  dsimp only
  rw [hspaces]
  dsimp only
  rw [(d.withPte _).opens_eq hi]
  dsimp only
  rw [Function.update_self]
  rfl

/-- The handler does not help if no page is waiting. -/
theorem loads_of_not_waiting (hwaiting : ¬m.Waiting arch cr3 addr) :
    m.loads arch mem cr3 addr sp =
    (canonical arch addr && opens arch (installed arch mem sp) cr3 addr) := by
  have hhandler : (m.handleDemandFault arch cr3 addr).1 = false := by
    unfold handleDemandFault
    split_ifs
    · rfl
    split
    · rfl
    next i hi =>
    split_ifs with hno
    · rfl
    split
    · rfl
    next halloc =>
    obtain ⟨hpool, -, -⟩ := alloc_eq halloc
    refine absurd ⟨i, hi, ?_, ?_, by rw [hpool]; rfl⟩ hwaiting
    · simpa using fun hp => hno (.inl hp)
    · simpa using fun hp => hno (.inr hp)
  unfold loads
  cases canonical arch addr with
  | false => rfl
  | true =>
    rw [if_neg Bool.false_ne_true.symm, Bool.true_and]
    cases opens arch (installed arch mem sp) cr3 addr with
    | true => rfl
    | false =>
      generalize m.handleDemandFault arch cr3 addr = r at hhandler
      obtain ⟨recovered, m'⟩ := r
      obtain rfl : recovered = false := hhandler
      rw [if_neg Bool.false_ne_true]
      split_ifs <;> rfl

/-- The check agrees with the processor and the page fault handler except on pages that wait for a
frame, and on addresses that are not canonical. -/
theorem validator_agrees_iff {es : List ForkEvent} (hrun : Run (ForkStep arch) boot es m)
    (hsp : m.spaces cr3 = some sp) (d : Directories arch identity mem cr3 sp)
    (haddr : arch.IsUsize addr) :
    (isUserAccessible arch identity (installed arch mem sp) cr3 addr = true ↔
        m.loads arch mem cr3 addr sp = true) ↔
      ¬m.Waiting arch cr3 addr ∧
        (canonical arch addr = true ∨ opens arch (installed arch mem sp) cr3 addr = false) := by
  obtain ⟨-, -, -, owed, hacc⟩ := fork_simulates hrun
  have hzero : cr3 ≠ 0 := hacc.ne_zero (by unfold Live; rw [hsp]; rfl)
  rw [d.isUserAccessible_eq haddr]
  by_cases hwaiting : m.Waiting arch cr3 addr
  · obtain ⟨hclosed, hloads⟩ := loads_of_waiting hzero hsp d hwaiting
    rw [hclosed, hloads]
    exact iff_of_false (fun h => Bool.false_ne_true (h.2 rfl)) fun h => h.1 hwaiting
  · rw [loads_of_not_waiting hwaiting]
    cases canonical arch addr <;> cases opens arch (installed arch mem sp) cr3 addr <;>
      simp [hwaiting]

/-- The identity tables of a small kernel, and the directory of its first process. -/
def firstTables (t i : ℕ) : PageEntry :=
  if t = poolStart then
    if i = userPde then .table (frameAddr 1)
    else if i < identityTables then .table (i * frameSize)
    else .absent
  else .kernel (t * 1024 + i * frameSize)

def firstDirectories (h : sp.tables = [frameAddr 1]) :
    Directories .i386 (· * frameSize) firstTables poolStart sp where
  nodup := by rw [h]; exact List.nodup_singleton _
  length := by rw [h]; rfl
  cr3_not_mem := by rw [h]; decide
  pdpt := 0
  pd := 0
  x86_64 := fun h => (by cases h)
  i386 := fun _ pt hpt => by
    rw [h, List.mem_singleton] at hpt
    rw [hpt]
    rfl
  identity_table := by
    rw [h]
    intro _ t ht hne
    unfold identityTables at ht
    have hsmall : t * frameSize ≠ poolStart := by
      unfold frameSize poolStart
      omega
    refine ⟨fun hmem => ?_, ?_, fun i => ?_⟩
    · have heq := List.mem_singleton.1 hmem
      unfold frameAddr frameSize poolStart at heq
      omega
    · unfold firstTables identityTables
      rw [if_pos rfl, if_neg hne, if_pos ht]
    · unfold firstTables
      rw [if_neg hsmall]
      rfl
  beyond := by
    rw [h]
    intro _ t ht _
    have hentry : firstTables poolStart t = .absent := by
      unfold firstTables identityTables at *
      rw [if_pos rfl, if_neg fun heq => ?_, if_neg (by omega)]
      unfold userPde at heq
      omega
    rw [hentry]
    exact ⟨by decide, fun i => rfl⟩

/-- A process reserves a page and does not touch it. -/
def untouchedPage : List ForkEvent :=
  [.create (some poolStart), .reserve poolStart userMemStart frameSize]

theorem run_untouched :
    Run (ForkStep .i386) boot untouchedPage (untouchedPage.foldl (afterFork .i386) boot) :=
  Run.of_plays (by decide +kernel : Plays (Gives .i386) (afterFork .i386) boot untouchedPage)

theorem untouched_space :
    ∃ sp, (untouchedPage.foldl (afterFork .i386) boot).spaces poolStart = some sp ∧
    sp.tables = [frameAddr 1] := by
  have htables : ((untouchedPage.foldl (afterFork .i386) boot).spaces poolStart).map Space.tables =
    some [frameAddr 1] := by decide +kernel
  exact Option.map_eq_some_iff.1 htables

theorem validator_agrees_untouched : ∃ sp,
    (isUserAccessible .i386 (· * frameSize) (installed .i386 firstTables sp) poolStart
        userMemStart = true ↔
      (untouchedPage.foldl (afterFork .i386) boot).loads .i386 firstTables poolStart
        userMemStart sp = true) ↔
      ¬(untouchedPage.foldl (afterFork .i386) boot).Waiting .i386 poolStart userMemStart ∧
        (canonical .i386 userMemStart = true ∨
          opens .i386 (installed .i386 firstTables sp) poolStart userMemStart = false) := by
  obtain ⟨sp, hsp, htables⟩ := untouched_space
  exact ⟨sp, validator_agrees_iff run_untouched hsp (firstDirectories htables)
    (by unfold Arch.IsUsize; decide)⟩

/-- The program may read the page that it has reserved, and a system call may not. -/
theorem validator_refuses_untouched :
    ¬ ∀ (arch : Arch) (es : List ForkEvent) (m : Mmu) (identity : ℕ → ℕ)
      (mem : ℕ → ℕ → PageEntry) (cr3 addr : ℕ) (sp : Space), Run (ForkStep arch) boot es m →
      m.spaces cr3 = some sp → Nonempty (Directories arch identity mem cr3 sp) →
      arch.IsUsize addr → (isUserAccessible arch identity (installed arch mem sp) cr3 addr = true ↔
      m.loads arch mem cr3 addr sp = true) := by
  intro h
  obtain ⟨sp, hsp, htables⟩ := untouched_space
  have hwaiting : (untouchedPage.foldl (afterFork .i386) boot).Waiting .i386 poolStart
    userMemStart :=
    ⟨0, by decide +kernel, by decide +kernel, by decide +kernel, by decide +kernel⟩
  have hagrees := h .i386 untouchedPage _ _ _ poolStart userMemStart sp run_untouched hsp
    ⟨firstDirectories htables⟩ (by unfold Arch.IsUsize; decide)
  obtain ⟨hclosed, hloads⟩ := loads_of_waiting (by decide) hsp (firstDirectories htables) hwaiting
  rw [(firstDirectories htables).isUserAccessible_eq (by unfold Arch.IsUsize; decide), hclosed,
    hloads] at hagrees
  exact Bool.false_ne_true (hagrees.2 rfl)

end Mmu

end Tcmk
