import Tcmk.Arch
import Tcmk.Lib.Run

/-!
# Opening kernel pages to Ring 3 (`protect_user_range` of `mmu_x86_64.rs`)

The boot code maps the first 1 GiB with pages of 2 MiB, none of them for Ring 3.
`protect_user_range` splits the 2 MiB that a range touches into a table of 4 KiB pages, drawn from a
pool of eight, and opens the pages of the range. Each split has a table of its own.

So the open pages are those that have been asked for, as long as the pool lasts, and a call that
runs out of tables has opened no other page (`protected_pages`). An entry of a table is the record
of its bits, and the flushes of the TLB are left out.
-/

namespace Tcmk

open Lib

/-- `LARGE_PAGE_SIZE`. -/
def largePageSize : ℕ := 2 * 1024 * 1024

/-- `ENTRIES`. -/
def tableEntries : ℕ := 512

/-- `MAX_SPLITS`. -/
def maxSplits : ℕ := 8

/-- `IDENTITY_MAPPED_BYTES`. -/
def identityMappedBytes : ℕ := 1024 * 1024 * 1024

/-- Where `PD_LAPIC` maps. -/
def lapicBase : ℕ := 0xC0000000

/-- An entry of a table of any level. -/
structure PageEntry where
  addr : ℕ
  present : Bool
  writable : Bool
  user : Bool
  huge : Bool
  deriving DecidableEq

namespace PageEntry

def absent : PageEntry := ⟨0, false, false, false, false⟩

/-- `phys | PTE_PRESENT | PTE_WRITABLE`. -/
def kernel (phys : ℕ) : PageEntry := ⟨phys, true, true, false, false⟩

/-- The same with `PTE_USER`. -/
def table (phys : ℕ) : PageEntry := { kernel phys with user := true }

/-- The same as `kernel`, with the bit of a large page. -/
def large (phys : ℕ) : PageEntry := { kernel phys with huge := true }

end PageEntry

/-- `is_user_accessible`, from a table of the highest level. -/
def userAccessible (mem : ℕ → ℕ → PageEntry) (pml4 addr : ℕ) : Bool :=
  let pml4e := mem pml4 (addr / 2 ^ 39 % 512)
  if !pml4e.present || !pml4e.user then false
  else
    let pdpte := mem pml4e.addr (addr / 2 ^ 30 % 512)
    if !pdpte.present || !pdpte.user then false
    else
      let pde := mem pdpte.addr (addr / 2 ^ 21 % 512)
      if !pde.present || !pde.user then false
      else if pde.huge then true
      else
        let pte := mem pde.addr (addr / 2 ^ 12 % 512)
        pte.present && pte.user

/-- The addresses of the tables in the kernel's image, which are pages of their own. -/
structure KernelLayout where
  pml4 : ℕ
  pdpt : ℕ
  pd : ℕ
  pdLapic : ℕ
  /-- `SPLIT_TABLES` -/
  split : ℕ → ℕ
  pdpt_ne : pdpt ≠ pml4
  pd_ne : pd ≠ pml4 ∧ pd ≠ pdpt
  lapic_ne : pdLapic ≠ pml4 ∧ pdLapic ≠ pdpt ∧ pdLapic ≠ pd
  split_ne : ∀ k < maxSplits, split k ≠ pml4 ∧ split k ≠ pdpt ∧ split k ≠ pd ∧ split k ≠ pdLapic
  split_inj : ∀ j < maxSplits, ∀ k < maxSplits, split j = split k → j = k

/-- The entries of the tables by their addresses, and `SPLIT_OWNER`. -/
structure KernelTables where
  mem : ℕ → ℕ → PageEntry
  owner : ℕ → Option ℕ

namespace KernelTables

/-- The tables that the boot code has set up. -/
def boot (l : KernelLayout) : KernelTables where
  mem := fun t i =>
    if t = l.pml4 then if i = 0 then .table l.pdpt else .absent
    else if t = l.pdpt then
      if i = 0 then .table l.pd else if i = 3 then .kernel l.pdLapic else .absent
    else if t = l.pd then .large (i * largePageSize)
    else if t = l.pdLapic then .large (lapicBase + i * largePageSize)
    else .absent
  owner := fun _ => none

/-- `table_entry(..).write(..)`. -/
def modify (m : KernelTables) (t i : ℕ) (f : PageEntry → PageEntry) : KernelTables :=
  { m with mem := Function.update m.mem t (Function.update (m.mem t) i (f (m.mem t i))) }

/-- `split_table_for`. -/
def splitTableFor (l : KernelLayout) (m : KernelTables) (pdIndex : ℕ) : Option (ℕ × KernelTables) :=
  match (List.range maxSplits).find? fun k => m.owner k == some pdIndex with
  | some k => some (l.split k, m)
  | none =>
    match (List.range maxSplits).find? fun k => m.owner k == none with
    | some k => some (l.split k, { m with owner := Function.update m.owner k (some pdIndex) })
    | none => none

/-- Split the entry of the page directory, if that has not been done. -/
def splitEntry (l : KernelLayout) (m : KernelTables) (pd pdIndex : ℕ) : Option (ℕ × KernelTables) :=
  if (m.mem pd pdIndex).huge then
    match m.splitTableFor l pdIndex with
    | none => none
    | some (pt, m) =>
      let base := pdIndex * largePageSize
      let m := (List.range' 0 tableEntries).foldl
        (fun m i => m.modify pt i fun _ => .kernel (base + i * pageSize)) m
      some (pt, m.modify pd pdIndex fun _ => .table pt)
  else some ((m.mem pd pdIndex).addr, m)

/-- Open the pages from `first` to `last` that are in the 2 MiB of an entry. -/
def openPages (m : KernelTables) (pt pdIndex first last : ℕ) : KernelTables :=
  let pageLo := pdIndex * largePageSize / pageSize
  let lo := max first pageLo
  let hi := min last (pageLo + tableEntries - 1)
  (List.range' lo (hi + 1 - lo)).foldl
    (fun m page => m.modify pt (page - pageLo) fun e => { e with user := true, writable := true }) m

/-- The loop over the entries of the page directory. It ends early if there is no table left. -/
def protectEntries (l : KernelLayout) (pd first last : ℕ) :
    List ℕ → KernelTables → Bool × KernelTables
  | [], m => (true, m)
  | pdIndex :: rest, m =>
    match m.splitEntry l pd pdIndex with
    | none => (false, m)
    | some (pt, m) => protectEntries l pd first last rest (m.openPages pt pdIndex first last)

/-- `protect_user_range`, and whether the pool has lasted. -/
def protectUserRange (l : KernelLayout) (m : KernelTables) (start len : ℕ) : Bool × KernelTables :=
  if len = 0 then (true, m)
  else
    let pdpt := (m.mem l.pml4 0).addr
    let pd := (m.mem pdpt 0).addr
    let firstPage := start / pageSize
    let lastPage := (start + len - 1) / pageSize
    let firstPd := start / largePageSize
    let lastPd := (start + len - 1) / largePageSize
    match protectEntries l pd firstPage lastPage (List.range' firstPd (lastPd + 1 - firstPd)) m with
    | (false, m) => (false, m)
    | (true, m) =>
      let m := m.modify l.pml4 0 fun e => { e with user := true }
      (true, m.modify pdpt 0 fun e => { e with user := true })

/-- `is_user_accessible`. -/
def isUserAccessible (l : KernelLayout) (m : KernelTables) (addr : ℕ) : Bool :=
  userAccessible m.mem l.pml4 addr

/-- The address that the processor finds in the tables. -/
def translate (l : KernelLayout) (m : KernelTables) (addr : ℕ) : Option ℕ :=
  let pml4e := m.mem l.pml4 (addr / 2 ^ 39 % 512)
  if !pml4e.present then none
  else
    let pdpte := m.mem pml4e.addr (addr / 2 ^ 30 % 512)
    if !pdpte.present then none
    else
      let pde := m.mem pdpte.addr (addr / 2 ^ 21 % 512)
      if !pde.present then none
      else if pde.huge then some (pde.addr + addr % largePageSize)
      else
        let pte := m.mem pde.addr (addr / 2 ^ 12 % 512)
        if !pte.present then none else some (pte.addr + addr % pageSize)

end KernelTables

/-- A call of `protect_user_range` with a range in the first 1 GiB. The event also says whether the
pool has lasted. -/
structure ProtectCall where
  start : ℕ
  len : ℕ
  served : Bool
  deriving DecidableEq

def ProtectStep (l : KernelLayout) (m : KernelTables) (c : ProtectCall) (m' : KernelTables) :
    Prop :=
  c.start + c.len ≤ identityMappedBytes ∧ (c.served, m') = m.protectUserRange l c.start c.len

namespace KernelTables

variable {l : KernelLayout} {m m' : KernelTables} {opened : ℕ → Prop} {i j k pt first last : ℕ}

/-! ## Loops over a table -/

theorem foldl_modify (m : KernelTables) (t : ℕ) (f : ℕ → PageEntry → PageEntry) {base lo : ℕ}
    (hlo : base ≤ lo) (n : ℕ) :
    (List.range' lo n).foldl (fun m page => m.modify t (page - base) (f (page - base))) m =
      { m with mem := Function.update m.mem t fun j =>
          if lo ≤ base + j ∧ base + j < lo + n then f j (m.mem t j) else m.mem t j } := by
  induction n with
  | zero =>
    have hsame : (fun j => if lo ≤ base + j ∧ base + j < lo + 0 then f j (m.mem t j)
      else m.mem t j) = m.mem t :=
      funext fun j => if_neg (by omega)
    rw [hsame, Function.update_eq_self]
    rfl
  | succ n ih =>
    rw [List.range'_1_concat, List.foldl_concat, ih]
    unfold modify
    dsimp only
    rw [Function.update_self, Function.update_idem]
    refine congrArg (fun g => { m with mem := Function.update m.mem t g }) (funext fun j => ?_)
    rw [Function.update_apply]
    by_cases hj : j = lo + n - base
    · rw [if_pos hj, if_neg (by omega), if_pos (by omega), hj]
    · rw [if_neg hj]
      exact if_congr (by omega) rfl rfl

/-! ## The invariant -/

/-- The entry of the page directory is as the boot code has left it. -/
structure Whole (l : KernelLayout) (m : KernelTables) (opened : ℕ → Prop) (i : ℕ) : Prop where
  entry : m.mem l.pd i = .large (i * largePageSize)
  closed : ∀ p, p / tableEntries = i → ¬opened p
  free : ∀ k < maxSplits, m.owner k ≠ some i

/-- The entry leads to a table of its own, with these pages open. -/
structure SplitInto (l : KernelLayout) (m : KernelTables) (opened : ℕ → Prop) (i k : ℕ) : Prop where
  lt : k < maxSplits
  owner : m.owner k = some i
  entry : m.mem l.pd i = .table (l.split k)
  page : ∀ j < tableEntries, ∃ user, m.mem (l.split k) j =
    { PageEntry.kernel (i * largePageSize + j * pageSize) with user := user } ∧
      (user = true ↔ opened (i * tableEntries + j))

/-- The pages that are open to Ring 3 are `opened`. -/
structure Sound (l : KernelLayout) (m : KernelTables) (opened : ℕ → Prop) : Prop where
  pml4 : m.mem l.pml4 = (boot l).mem l.pml4
  pdpt : m.mem l.pdpt = (boot l).mem l.pdpt
  lapic : m.mem l.pdLapic = (boot l).mem l.pdLapic
  entries : ∀ i < tableEntries, Whole l m opened i ∨ ∃ k, SplitInto l m opened i k
  opened_lt : ∀ p, opened p → p < tableEntries * tableEntries

theorem sound_boot (l : KernelLayout) : Sound l (boot l) fun _ => False where
  pml4 := rfl
  pdpt := rfl
  lapic := rfl
  entries := fun i _ => .inl
    { entry := by
        unfold boot
        dsimp only
        rw [if_neg l.pd_ne.1, if_neg l.pd_ne.2, if_pos rfl]
      closed := fun _ _ => id
      free := fun _ _ h => (by cases h) }
  opened_lt := fun _ => False.elim

/-- The pages from `first` to `last` in the 2 MiB of an entry. -/
def Asked (first last i p : ℕ) : Prop := p / tableEntries = i ∧ first ≤ p ∧ p ≤ last

theorem openPages_mem (m : KernelTables) (pt i first last : ℕ) :
    (m.openPages pt i first last).owner = m.owner ∧
      (∀ t ≠ pt, (m.openPages pt i first last).mem t = m.mem t) ∧
      ∀ j < tableEntries, (m.openPages pt i first last).mem pt j =
        if first ≤ i * tableEntries + j ∧ i * tableEntries + j ≤ last then
          { m.mem pt j with user := true, writable := true } else m.mem pt j := by
  have hlo : i * largePageSize / pageSize = i * tableEntries := by
    unfold largePageSize pageSize tableEntries
    omega
  unfold openPages
  dsimp only
  rw [hlo, foldl_modify m pt (fun _ e => { e with user := true, writable := true })
    (Nat.le_max_right ..)]
  refine ⟨rfl, fun t ht => Function.update_of_ne ht .., fun j hj => ?_⟩
  dsimp only
  rw [Function.update_self]
  unfold tableEntries at hj ⊢
  exact if_congr (by omega) rfl rfl

/-- The other entries do not notice a change in the table of a split. -/
theorem Sound.of_table (h : Sound l m opened) {opened' : ℕ → Prop} (hk : k < maxSplits)
    (hmem : ∀ t ≠ l.split k, m'.mem t = m.mem t) (howner : m'.owner = m.owner)
    (hother : ∀ p, p / tableEntries ≠ i → (opened' p ↔ opened p)) (hi : m.owner k = some i)
    (hsplit : SplitInto l m' opened' i k) (hlt : ∀ p, opened' p → p < tableEntries * tableEntries) :
    Sound l m' opened' := by
  obtain ⟨hne4, hne3, hne2, hnelapic⟩ := l.split_ne k hk
  refine ⟨(hmem _ hne4.symm).trans h.pml4, (hmem _ hne3.symm).trans h.pdpt,
    (hmem _ hnelapic.symm).trans h.lapic, fun j hj => ?_, hlt⟩
  by_cases hij : j = i
  · rw [hij]
    exact .inr ⟨k, hsplit⟩
  rcases h.entries j hj with hwhole | ⟨k', hsplit'⟩
  · refine .inl ⟨?_, fun p hp hopen => hwhole.closed p hp ((hother p (hp ▸ hij)).1 hopen),
      fun k' hk' => ?_⟩
    · rw [hmem _ hne2.symm]
      exact hwhole.entry
    · rw [howner]
      exact hwhole.free k' hk'
  · have hne : l.split k' ≠ l.split k := fun heq => by
      have howner' := hsplit'.owner
      rw [l.split_inj k' hsplit'.lt k hk heq, hi] at howner'
      exact hij (Option.some.inj howner').symm
    refine .inr ⟨k', hsplit'.lt, howner ▸ hsplit'.owner, ?_, fun q hq => ?_⟩
    · rw [hmem _ hne2.symm]
      exact hsplit'.entry
    · obtain ⟨user, hpage, huser⟩ := hsplit'.page q hq
      refine ⟨user, (congrFun (hmem _ hne) q).trans hpage, huser.trans (hother _ ?_).symm⟩
      rw [Nat.mul_comm, Nat.mul_add_div (by decide), Nat.div_eq_of_lt hq]
      exact hij

theorem Sound.openPages (h : Sound l m opened) (hsplit : SplitInto l m opened i k)
    (hi : i < tableEntries) (first last : ℕ) :
    Sound l (m.openPages (l.split k) i first last) fun p => opened p ∨ Asked first last i p := by
  obtain ⟨howner, hmem, hopen⟩ := m.openPages_mem (l.split k) i first last
  have hpd := (l.split_ne k hsplit.lt).2.2.1
  refine h.of_table hsplit.lt hmem howner (fun p hp => or_iff_left fun hasked => hp hasked.1)
    hsplit.owner ⟨hsplit.lt, howner ▸ hsplit.owner, ?_, fun j hj => ?_⟩ fun p hp => ?_
  · rw [hmem _ hpd.symm]
    exact hsplit.entry
  · obtain ⟨user, hpage, huser⟩ := hsplit.page j hj
    have hdiv : (i * tableEntries + j) / tableEntries = i := by
      rw [Nat.mul_comm, Nat.mul_add_div (by decide), Nat.div_eq_of_lt hj]
      rfl
    rw [hopen j hj, hpage]
    by_cases hasked : first ≤ i * tableEntries + j ∧ i * tableEntries + j ≤ last
    · rw [if_pos hasked]
      exact ⟨true, rfl, iff_of_true rfl (.inr ⟨hdiv, hasked⟩)⟩
    · rw [if_neg hasked]
      exact ⟨user, rfl, huser.trans (or_iff_left fun h => hasked h.2).symm⟩
  · rcases hp with hp | hp
    · exact h.opened_lt p hp
    · have hdiv := hp.1
      unfold tableEntries at hdiv hi ⊢
      omega

/-- An entry that is whole gets a table that no other entry has. -/
theorem splitTableFor_whole (hwhole : Whole l m opened i) {r : ℕ × KernelTables}
    (h : m.splitTableFor l i = some r) : ∃ k < maxSplits, m.owner k = none ∧
      r = (l.split k, { m with owner := Function.update m.owner k (some i) }) := by
  have hnone : ((List.range maxSplits).find? fun k => m.owner k == some i) = none :=
    List.find?_eq_none.2 fun k hk heq => hwhole.free k (List.mem_range.1 hk) (eq_of_beq heq)
  unfold splitTableFor at h
  rw [hnone] at h
  dsimp only at h
  cases hfind : (List.range maxSplits).find? fun k => m.owner k == none with
  | none =>
    rw [hfind] at h
    cases h
  | some k =>
    rw [hfind] at h
    exact ⟨k, List.mem_range.1 (List.mem_of_find?_eq_some hfind),
      eq_of_beq (List.find?_some (p := fun k => m.owner k == none) hfind), (Option.some.inj h).symm⟩

/-- The tables after an entry has been split. -/
theorem Sound.of_split (h : Sound l m opened) (hk : k < maxSplits)
    (hwhole : Whole l m opened i) (hfree : m.owner k = none)
    (howner : m'.owner = Function.update m.owner k (some i))
    (hmem : ∀ t, t ≠ l.split k → t ≠ l.pd → m'.mem t = m.mem t)
    (hpd : m'.mem l.pd = Function.update (m.mem l.pd) i (.table (l.split k)))
    (hpage : ∀ j < tableEntries, m'.mem (l.split k) j =
      .kernel (i * largePageSize + j * pageSize)) :
    SplitInto l m' opened i k ∧ Sound l m' opened := by
  obtain ⟨hne4, hne3, hne2, hnelapic⟩ := l.split_ne k hk
  have hsplit : SplitInto l m' opened i k := by
    refine ⟨hk, by rw [howner, Function.update_self], by rw [hpd, Function.update_self],
      fun j hj => ?_⟩
    have hdiv : (i * tableEntries + j) / tableEntries = i := by
      rw [Nat.mul_comm, Nat.mul_add_div (by decide), Nat.div_eq_of_lt hj]
      rfl
    exact ⟨false, hpage j hj, iff_of_false Bool.false_ne_true (hwhole.closed _ hdiv)⟩
  refine ⟨hsplit, (hmem _ hne4.symm l.pd_ne.1.symm).trans h.pml4,
    (hmem _ hne3.symm l.pd_ne.2.symm).trans h.pdpt,
    (hmem _ hnelapic.symm l.lapic_ne.2.2).trans h.lapic, fun j hj => ?_, h.opened_lt⟩
  by_cases hij : j = i
  · rw [hij]
    exact .inr ⟨k, hsplit⟩
  rcases h.entries j hj with hwhole' | ⟨k', hsplit'⟩
  · refine .inl ⟨?_, hwhole'.closed, fun k' hk' => ?_⟩
    · rw [hpd, Function.update_of_ne hij]
      exact hwhole'.entry
    · rw [howner, Function.update_apply]
      split_ifs
      · exact fun heq => hij (Option.some.inj heq).symm
      · exact hwhole'.free k' hk'
  · have hkk : k' ≠ k := fun heq => by
      have howner' := hsplit'.owner
      rw [heq, hfree] at howner'
      cases howner'
    have hne : l.split k' ≠ l.split k := fun heq => hkk (l.split_inj k' hsplit'.lt k hk heq)
    refine .inr ⟨k', hsplit'.lt, ?_, ?_, fun q hq => ?_⟩
    · rw [howner, Function.update_of_ne hkk]
      exact hsplit'.owner
    · rw [hpd, Function.update_of_ne hij]
      exact hsplit'.entry
    · rw [hmem _ hne (l.split_ne k' hsplit'.lt).2.2.1]
      exact hsplit'.page q hq

/-- Splitting an entry opens no page, and the entry has a table after it. -/
theorem Sound.splitEntry (h : Sound l m opened) (hi : i < tableEntries) {r : ℕ × KernelTables}
    (hr : m.splitEntry l l.pd i = some r) :
    ∃ k, r.1 = l.split k ∧ SplitInto l r.2 opened i k ∧ Sound l r.2 opened := by
  unfold KernelTables.splitEntry at hr
  rcases h.entries i hi with hwhole | ⟨k, hsplit⟩
  · rw [if_pos (by rw [hwhole.entry]; rfl)] at hr
    cases htable : m.splitTableFor l i with
    | none =>
      rw [htable] at hr
      cases hr
    | some r' =>
      obtain ⟨k, hk, hfree, rfl⟩ := splitTableFor_whole hwhole htable
      rw [htable] at hr
      dsimp only at hr
      have hfold := foldl_modify { m with owner := Function.update m.owner k (some i) } (l.split k)
        (fun j _ => .kernel (i * largePageSize + j * pageSize)) (Nat.le_refl 0) tableEntries
      simp only [Nat.sub_zero, Nat.zero_add, Nat.zero_le, true_and] at hfold
      rw [hfold] at hr
      obtain rfl := Option.some.inj hr
      have hne := (l.split_ne k hk).2.2.1
      refine ⟨k, rfl, h.of_split hk hwhole hfree rfl (fun t ht ht' => ?_) ?_ fun j hj => ?_⟩
      · exact (Function.update_of_ne ht' ..).trans (Function.update_of_ne ht ..)
      · unfold modify
        dsimp only
        rw [Function.update_self, Function.update_of_ne hne.symm]
      · unfold modify
        dsimp only
        rw [Function.update_of_ne hne, Function.update_self, if_pos hj]
  · rw [if_neg (by rw [hsplit.entry]; exact Bool.false_ne_true)] at hr
    obtain rfl := Option.some.inj hr
    exact ⟨k, congrArg PageEntry.addr hsplit.entry, hsplit, h⟩

theorem Sound.congr {opened' : ℕ → Prop} (h : Sound l m opened) (hiff : ∀ p, opened p ↔ opened' p) :
    Sound l m opened' :=
  (funext fun p => propext (hiff p) : opened = opened') ▸ h

/-- The loop opens the pages that have been asked for in the entries it has got to. -/
theorem Sound.protectEntries (first last : ℕ) {is : List ℕ} (h : Sound l m opened)
    (his : ∀ i ∈ is, i < tableEntries) :
    ∃ done, done <+: is ∧
    ((KernelTables.protectEntries l l.pd first last is m).1 = true → done = is) ∧
      Sound l (KernelTables.protectEntries l l.pd first last is m).2
        fun p => opened p ∨ ∃ i ∈ done, Asked first last i p := by
  induction is generalizing m opened with
  | nil =>
    refine ⟨[], List.prefix_refl _, fun _ => rfl, h.congr fun p => (or_iff_left ?_).symm⟩
    rintro ⟨i, hi, -⟩
    cases hi
  | cons i is ih =>
    unfold KernelTables.protectEntries
    cases hsplit : m.splitEntry l l.pd i with
    | none =>
      refine ⟨[], List.nil_prefix, Bool.noConfusion, h.congr fun p => (or_iff_left ?_).symm⟩
      rintro ⟨i, hi, -⟩
      cases hi
    | some r =>
      have hi := his i List.mem_cons_self
      obtain ⟨k, hk, hinto, hsound⟩ := h.splitEntry hi hsplit
      obtain ⟨done, hprefix, hall, hdone⟩ := ih (hsound.openPages hinto hi first last)
        fun j hj => his j (List.mem_cons_of_mem _ hj)
      dsimp only
      rw [hk]
      refine ⟨i :: done, List.cons_prefix_cons.2 ⟨rfl, hprefix⟩, fun hlast =>
        congrArg _ (hall hlast), hdone.congr fun p => ?_⟩
      rw [or_assoc, List.exists_mem_cons_iff]

/-- The pages of a range. -/
def PageOf (start len p : ℕ) : Prop :=
  0 < len ∧ start / pageSize ≤ p ∧ p ≤ (start + len - 1) / pageSize

/-- The pages of a range are those of the 2 MiB it touches. -/
theorem pageOf_iff {start len p : ℕ} (hlen : 0 < len) :
    PageOf start len p ↔ ∃ i ∈ List.range' (start / largePageSize)
      ((start + len - 1) / largePageSize + 1 - start / largePageSize),
      Asked (start / pageSize) ((start + len - 1) / pageSize) i p := by
  unfold PageOf Asked
  constructor
  · rintro ⟨-, hfirst, hlast⟩
    refine ⟨p / tableEntries, List.mem_range'_1.2 ?_, rfl, hfirst, hlast⟩
    unfold pageSize at hfirst hlast
    unfold largePageSize tableEntries
    omega
  · rintro ⟨i, -, -, hfirst, hlast⟩
    exact ⟨hlen, hfirst, hlast⟩

/-- The entries above the page directory are open already. -/
theorem modify_user {t i : ℕ} (ht : (m.mem t i).user = true) :
    m.modify t i (fun e => { e with user := true }) = m := by
  have hsame : { m.mem t i with user := true } = m.mem t i := by
    rw [← ht]
  unfold modify
  dsimp only
  rw [hsame, Function.update_eq_self, Function.update_eq_self]

theorem Sound.pml4_zero (h : Sound l m opened) : m.mem l.pml4 0 = .table l.pdpt := by
  rw [h.pml4]
  unfold boot
  dsimp only
  rw [if_pos rfl, if_pos rfl]

theorem Sound.pdpt_zero (h : Sound l m opened) : m.mem l.pdpt 0 = .table l.pd := by
  rw [h.pdpt]
  unfold boot
  dsimp only
  rw [if_neg l.pdpt_ne, if_pos rfl, if_pos rfl]

/-- A call opens pages of its range, and all of them if the pool lasts. -/
theorem Sound.protectUserRange (h : Sound l m opened) {start len : ℕ}
    (hle : start + len ≤ identityMappedBytes) :
    ∃ opened', Sound l (m.protectUserRange l start len).2 opened' ∧
      (∀ p, opened p → opened' p) ∧ (∀ p, opened' p → opened p ∨ PageOf start len p) ∧
      ((m.protectUserRange l start len).1 = true → ∀ p, PageOf start len p → opened' p) := by
  unfold KernelTables.protectUserRange
  split_ifs with hlen
  · exact ⟨opened, h, fun _ => id, fun _ => .inl, fun _ p hp => absurd hp.1 (by omega)⟩
  have hpd : (m.mem (m.mem l.pml4 0).addr 0).addr = l.pd := by
    rw [h.pml4_zero]
    exact congrArg PageEntry.addr h.pdpt_zero
  have hin : ∀ i ∈ List.range' (start / largePageSize)
      ((start + len - 1) / largePageSize + 1 - start / largePageSize), i < tableEntries :=
      fun i hi => by
    have hi := List.mem_range'_1.1 hi
    unfold identityMappedBytes at hle
    unfold largePageSize at hi
    unfold tableEntries
    omega
  obtain ⟨done, hprefix, hall, hsound⟩ := h.protectEntries (start / pageSize)
    ((start + len - 1) / pageSize) hin
  have honly : ∀ p,
    (opened p ∨ ∃ i ∈ done, Asked (start / pageSize) ((start + len - 1) / pageSize) i p) →
      opened p ∨ PageOf start len p := by
    rintro p (hp | ⟨i, hi, hasked⟩)
    · exact .inl hp
    · exact .inr ⟨by omega, hasked.2⟩
  dsimp only
  rw [hpd]
  obtain ⟨lasted, m', hloop⟩ : ∃ lasted m', KernelTables.protectEntries l l.pd (start / pageSize)
      ((start + len - 1) / pageSize) (List.range' (start / largePageSize)
        ((start + len - 1) / largePageSize + 1 - start / largePageSize)) m =
        (lasted, m') := ⟨_, _, rfl⟩
  rw [hloop] at hall hsound ⊢
  cases lasted with
  | false => exact ⟨_, hsound, fun _ => .inl, honly, Bool.noConfusion⟩
  | true =>
    have hpml4 : (m'.mem l.pml4 0).user = true := by rw [hsound.pml4_zero]; rfl
    have hpdpt : (m'.mem (m.mem l.pml4 0).addr 0).user = true := by
      rw [h.pml4_zero]
      exact congrArg PageEntry.user hsound.pdpt_zero
    dsimp only
    rw [modify_user hpml4, modify_user hpdpt]
    refine ⟨_, hsound, fun _ => .inl, honly, fun _ p hp => .inr ?_⟩
    rw [hall rfl]
    exact (pageOf_iff hp.1).1 hp

/-! ## The walk through the tables -/

theorem Sound.pml4_pos (h : Sound l m opened) (hi : i ≠ 0) : m.mem l.pml4 i = .absent := by
  rw [h.pml4]
  unfold boot
  dsimp only
  rw [if_pos rfl, if_neg hi]

theorem Sound.pdpt_three (h : Sound l m opened) : m.mem l.pdpt 3 = .kernel l.pdLapic := by
  rw [h.pdpt]
  unfold boot
  dsimp only
  rw [if_neg l.pdpt_ne, if_pos rfl, if_neg (by decide), if_pos rfl]

theorem Sound.pdpt_other (h : Sound l m opened) (hi : i ≠ 0) (hi' : i ≠ 3) :
    m.mem l.pdpt i = .absent := by
  rw [h.pdpt]
  unfold boot
  dsimp only
  rw [if_neg l.pdpt_ne, if_pos rfl, if_neg hi, if_neg hi']

theorem Sound.lapic_entry (h : Sound l m opened) (i : ℕ) :
    m.mem l.pdLapic i = .large (lapicBase + i * largePageSize) := by
  rw [h.lapic]
  unfold boot
  dsimp only
  rw [if_neg l.lapic_ne.1, if_neg l.lapic_ne.2.1, if_neg l.lapic_ne.2.2, if_pos rfl]

/-- The page number that the walk takes from an address: its bits 12 to 47. -/
def walkPage (addr : ℕ) : ℕ := addr / pageSize % 2 ^ 36

theorem isUserAccessible_iff (h : Sound l m opened) (addr : ℕ) :
    m.isUserAccessible l addr = true ↔ opened (walkPage addr) := by
  have hhigh : addr / 2 ^ 39 % 512 ≠ 0 ∨ addr / 2 ^ 30 % 512 ≠ 0 → ¬opened (walkPage addr) :=
    fun hne hopen => by
    have hlt := h.opened_lt _ hopen
    unfold walkPage pageSize tableEntries at hlt
    omega
  unfold isUserAccessible userAccessible
  dsimp only
  by_cases h4 : addr / 2 ^ 39 % 512 = 0
  swap
  · rw [h.pml4_pos h4]
    exact iff_of_false Bool.false_ne_true (hhigh (.inl h4))
  simp only [h4, h.pml4_zero, PageEntry.table, PageEntry.kernel, Bool.not_true, Bool.or_self,
    Bool.false_eq_true, if_false]
  by_cases h3 : addr / 2 ^ 30 % 512 = 0
  swap
  · by_cases h3' : addr / 2 ^ 30 % 512 = 3
    · simp only [h3', h.pdpt_three, PageEntry.kernel, Bool.not_true, Bool.not_false,
        Bool.or_true, if_true]
      exact iff_of_false Bool.false_ne_true (hhigh (.inr h3))
    · simp only [h.pdpt_other h3 h3', PageEntry.absent, Bool.not_false, Bool.or_self, if_true]
      exact iff_of_false Bool.false_ne_true (hhigh (.inr h3))
  simp only [h3, h.pdpt_zero, PageEntry.table, PageEntry.kernel, Bool.not_true, Bool.or_self,
    Bool.false_eq_true, if_false]
  have hpage : walkPage addr = addr / 2 ^ 21 % 512 * tableEntries + addr / 2 ^ 12 % 512 := by
    unfold walkPage pageSize tableEntries
    omega
  rw [hpage]
  have hlt : ∀ a, a % 512 < tableEntries := fun a => Nat.mod_lt a (by decide)
  rcases h.entries _ (hlt (addr / 2 ^ 21)) with hwhole | ⟨k, hsplit⟩
  · simp only [hwhole.entry, PageEntry.large, PageEntry.kernel, Bool.not_true, Bool.not_false,
      Bool.or_true, if_true]
    refine iff_of_false Bool.false_ne_true (hwhole.closed _ ?_)
    rw [Nat.mul_comm, Nat.mul_add_div (by decide), Nat.div_eq_of_lt (hlt _)]
    rfl
  · obtain ⟨user, hentry, huser⟩ := hsplit.page _ (hlt (addr / 2 ^ 12))
    simp only [hsplit.entry, hentry, PageEntry.table, PageEntry.kernel, Bool.not_true, Bool.or_self,
      Bool.false_eq_true, if_false, Bool.true_and]
    exact huser

/-- What the boot code maps: the first 1 GiB, and the last 1 GiB below 4 GiB. -/
def IdentityMapped (addr : ℕ) : Prop := addr < identityMappedBytes ∨ lapicBase ≤ addr ∧
    addr < 2 ^ 32

/-- What is mapped is mapped to itself. -/
theorem translate_eq (h : Sound l m opened) {addr : ℕ} (haddr : addr < 2 ^ 48) :
    (IdentityMapped addr → m.translate l addr = some addr) ∧
      (¬IdentityMapped addr → m.translate l addr = none) := by
  unfold translate IdentityMapped identityMappedBytes lapicBase
  dsimp only
  by_cases h4 : addr / 2 ^ 39 % 512 = 0
  swap
  · rw [h.pml4_pos h4]
    exact ⟨fun hmap => absurd hmap (by omega), fun _ => rfl⟩
  simp only [h4, h.pml4_zero, PageEntry.table, PageEntry.kernel, Bool.not_true, Bool.false_eq_true,
    if_false]
  by_cases h3 : addr / 2 ^ 30 % 512 = 0
  swap
  · by_cases h3' : addr / 2 ^ 30 % 512 = 3
    · simp only [h3', h.pdpt_three, h.lapic_entry, PageEntry.kernel, PageEntry.large, Bool.not_true,
        Bool.false_eq_true, if_false, if_true]
      refine ⟨fun _ => congrArg some ?_, fun hmap => absurd hmap (by omega)⟩
      unfold lapicBase largePageSize
      omega
    · simp only [h.pdpt_other h3 h3', PageEntry.absent, Bool.not_false, if_true]
      exact ⟨fun hmap => absurd hmap (by omega), fun _ => trivial⟩
  simp only [h3, h.pdpt_zero, PageEntry.table, PageEntry.kernel, Bool.not_true, Bool.false_eq_true,
    if_false]
  refine ⟨fun _ => ?_, fun hmap => absurd hmap (by omega)⟩
  have hlt : ∀ a, a % 512 < tableEntries := fun a => Nat.mod_lt a (by decide)
  rcases h.entries _ (hlt (addr / 2 ^ 21)) with hwhole | ⟨k, hsplit⟩
  · simp only [hwhole.entry, PageEntry.large, PageEntry.kernel, Bool.not_true, Bool.false_eq_true,
      if_false, if_true]
    refine congrArg some ?_
    unfold largePageSize
    omega
  · obtain ⟨user, hentry, -⟩ := hsplit.page _ (hlt (addr / 2 ^ 12))
    simp only [hsplit.entry, hentry, PageEntry.table, PageEntry.kernel, Bool.not_true,
      Bool.false_eq_true, if_false]
    refine congrArg some ?_
    unfold largePageSize pageSize
    omega

/-! ## Runs -/

/-- The page is one of those that a call has asked for. -/
def Requested (calls : List ProtectCall) (p : ℕ) : Prop := ∃ c ∈ calls, PageOf c.start c.len p

theorem Sound.run {calls : List ProtectCall} (h : Sound l m opened)
    (hrun : Run (ProtectStep l) m calls m') :
    ∃ opened', Sound l m' opened' ∧ (∀ p, opened p → opened' p) ∧
      (∀ p, opened' p → opened p ∨ Requested calls p) ∧
      ((∀ c ∈ calls, c.served = true) → ∀ p, Requested calls p → opened' p) := by
  induction hrun generalizing opened with
  | nil =>
    refine ⟨opened, h, fun _ => id, fun _ => .inl, fun _ p hp => ?_⟩
    obtain ⟨c, hc, -⟩ := hp
    cases hc
  | @cons m m₁ m' c calls hstep _ ih =>
    obtain ⟨opened₁, h₁, hkeep₁, honly₁, hall₁⟩ := h.protectUserRange hstep.1
    rw [← hstep.2] at h₁ hall₁
    obtain ⟨opened₂, h₂, hkeep₂, honly₂, hall₂⟩ := ih h₁
    refine ⟨opened₂, h₂, fun p hp => hkeep₂ p (hkeep₁ p hp), fun p hp => ?_, fun hserved p hp => ?_⟩
    · rcases honly₂ p hp with hp | ⟨c', hc', hp⟩
      · exact (honly₁ p hp).imp_right fun hp => ⟨c, List.mem_cons_self, hp⟩
      · exact .inr ⟨c', List.mem_cons_of_mem _ hc', hp⟩
    · obtain ⟨c', hc', hp⟩ := hp
      rcases List.mem_cons.1 hc' with rfl | hc'
      · exact hkeep₂ p (hall₁ (hserved _ List.mem_cons_self) p hp)
      · exact hall₂ (fun c hc => hserved c (List.mem_cons_of_mem _ hc)) p ⟨c', hc', hp⟩

theorem protectStep_of {c : ProtectCall} (hle : c.start + c.len ≤ identityMappedBytes)
    (hserved : (m.protectUserRange l c.start c.len).1 = c.served) :
    ProtectStep l m c (m.protectUserRange l c.start c.len).2 :=
  ⟨hle, Prod.ext hserved.symm rfl⟩

/-- Whatever has been asked for, no other page is open, and what is mapped is mapped to itself. If
the pool has lasted, the open pages are those that have been asked for. And one more call opens no
page but those of its own range, even if it runs out of tables, and closes none. -/
theorem protected_pages {calls : List ProtectCall} (hrun : Run (ProtectStep l) (boot l) calls m) :
    (∀ addr, m.isUserAccessible l addr = true → Requested calls (walkPage addr)) ∧
      ((∀ c ∈ calls, c.served = true) →
        ∀ addr, m.isUserAccessible l addr = true ↔ Requested calls (walkPage addr)) ∧
      (∀ addr < 2 ^ 48, (IdentityMapped addr → m.translate l addr = some addr) ∧
        (¬IdentityMapped addr → m.translate l addr = none)) ∧
      ∀ start len, start + len ≤ identityMappedBytes → ∀ addr,
        ((m.protectUserRange l start len).2.isUserAccessible l addr = true →
          m.isUserAccessible l addr = true ∨ PageOf start len (walkPage addr)) ∧
        (m.isUserAccessible l addr = true →
          (m.protectUserRange l start len).2.isUserAccessible l addr = true) := by
  obtain ⟨opened, hsound, -, honly, hall⟩ := (sound_boot l).run hrun
  have hopen : ∀ p, opened p → Requested calls p := fun p hp => (honly p hp).resolve_left id
  refine ⟨fun addr haddr => hopen _ ((isUserAccessible_iff hsound addr).1 haddr),
    fun hserved addr => ?_, fun addr haddr => translate_eq hsound haddr,
    fun start len hle addr => ?_⟩
  · rw [isUserAccessible_iff hsound]
    exact ⟨hopen _, hall hserved _⟩
  · obtain ⟨opened', hsound', hkeep, hown, -⟩ := hsound.protectUserRange hle
    rw [isUserAccessible_iff hsound', isUserAccessible_iff hsound]
    exact ⟨hown _, hkeep _⟩

/-- Tables one after the other. -/
def adjacent : KernelLayout where
  pml4 := 0
  pdpt := pageSize
  pd := 2 * pageSize
  pdLapic := 3 * pageSize
  split := fun k => (4 + k) * pageSize
  pdpt_ne := by decide
  pd_ne := by decide
  lapic_ne := by decide
  split_ne := by decide
  split_inj := by decide

/-- A range over two entries of the page directory. -/
def acrossEntries : ProtectCall := ⟨0xDFF000, 2 * pageSize, true⟩

theorem protected_pages_across :
    ((boot adjacent).protectUserRange adjacent acrossEntries.start
      acrossEntries.len).2.isUserAccessible
      adjacent 0xE00123 = true ↔ Requested [acrossEntries] (walkPage 0xE00123) :=
  (protected_pages (.cons (protectStep_of (by decide) (by decide +kernel)) (.nil _))).2.1
    (by decide) _

end KernelTables

end Tcmk
