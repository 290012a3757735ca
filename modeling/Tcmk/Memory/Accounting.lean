import Tcmk.Memory.Paging

/-!
# The references to the frames

The count of a frame is the number of the entries that name it, one more if it holds a page table or
a directory, and the references that are *owed*: counted, but in no table yet, or lost
(`Mmu.Accounted`). A frame with several entries is mapped read-only and copy-on-write by all of
them. Every call keeps this, and what is owed stays the same, except that `map_user_frames`
overwrites entries without freeing what they name.
-/

namespace Tcmk

open Lib

/-- The frame of the pool that an entry names. -/
def Pte.index (e : Pte) : Option ℕ := if e.present then indexOf e.frame else none

/-- The entry is mapped read-only, to be copied. -/
def Pte.IsCow (e : Pte) : Prop := e.writable = false ∧ e.cow = true

@[simp] theorem Pte.index_empty : Pte.empty.index = none := rfl

@[simp] theorem Pte.index_reserved : Pte.reserved.index = none := rfl

@[simp] theorem Pte.index_owned (frame : ℕ) : (Pte.owned frame).index = indexOf frame := by
  simp [Pte.index, Pte.owned]

@[simp] theorem Pte.index_window (frame : ℕ) : (Pte.window frame).index = indexOf frame := by
  simp [Pte.index, Pte.window, Pte.owned]

@[simp] theorem Pte.index_toCow (e : Pte) : e.toCow.index = e.index := rfl

@[simp] theorem Pte.index_reuse (e : Pte) : e.reuse.index = e.index := rfl

theorem Pte.index_of_absent {e : Pte} (h : e.present = false) : e.index = none := by
  simp [Pte.index, h]

theorem Pte.index_of_present {e : Pte} (h : e.present = true) : e.index = indexOf e.frame := by
  simp [Pte.index, h]

theorem Pte.index_lt {e : Pte} {k : ℕ} (h : e.index = some k) : k < poolFrames := by
  unfold Pte.index at h
  split_ifs at h
  exact indexOf_lt h

theorem Pte.isCow_toCow (e : Pte) : e.toCow.IsCow := ⟨rfl, rfl⟩

theorem userPte_lt {arch : Arch} {vaddr i : ℕ} (h : userPte arch vaddr = some i) :
    i < userPages := by
  simp only [userPte] at h
  split_ifs at h with hin
  cases h
  cases arch <;> simp only [Arch.entries, Arch.userTables, userPages] at hin ⊢ <;> omega

/-- Where a page directory can be. -/
@[irreducible] def roots : Finset ℕ := (Finset.range poolFrames).image frameAddr

/-- The entries of the page tables, each by its space and its place. -/
@[irreducible] def slots : Finset (ℕ × ℕ) := roots ×ˢ Finset.range userPages

theorem mem_roots {cr3 : ℕ} : cr3 ∈ roots ↔ ∃ i < poolFrames, frameAddr i = cr3 := by
  simp [roots]

theorem mem_slots {cr3 i : ℕ} : (cr3, i) ∈ slots ↔ cr3 ∈ roots ∧ i < userPages := by
  simp [slots]

namespace Mmu

/-- The number of entries that name a frame. -/
def mapped (m : Mmu) (k : ℕ) : ℕ := refs slots (fun r => (m.pte r.1 r.2).index) k

/-- The frames of the tables of a space. -/
def chain (m : Mmu) (cr3 : ℕ) : List ℕ :=
  match m.spaces cr3 with
  | some sp => sp.dirs ++ sp.tables
  | none => []

/-- The number of tables that a frame is. -/
def tabled (m : Mmu) (k : ℕ) : ℕ := ∑ cr3 ∈ roots, tally (m.chain cr3) k

structure Accounted (arch : Arch) (m : Mmu) (owed : ℕ → ℕ) : Prop where
  sound : m.pool.Sound
  count : ∀ k, m.pool.refs k = m.mapped k + m.tabled k + owed k
  root : ∀ c, m.Live c → c ∈ roots ∧ c ∈ m.chain c
  full : ∀ c sp, m.spaces c = some sp → sp.tables.length = arch.userTables
  /-- A frame is one table at most, and then no entry names it. -/
  apart : ∀ k, 0 < m.tabled k → m.tabled k = 1 ∧ m.mapped k = 0
  /-- A frame has one entry that is not copy-on-write at most, and then no other. -/
  cow : ∀ c i k, i < userPages → (m.pte c i).index = some k → ¬ (m.pte c i).IsCow → m.mapped k ≤ 1

variable {arch : Arch} {m m' : Mmu} {owed owed' : ℕ → ℕ} {c c' i j k phys : ℕ}
  {e : Pte} {sp : Space}

/-! ## Reading the tables -/

theorem pte_of_dead (h : ¬ m.Live c) (i : ℕ) : m.pte c i = .empty := by
  unfold Live at h
  unfold pte
  cases hc : m.spaces c with
  | none => rfl
  | some sp => simp [hc] at h

theorem live_of_pte (h : (m.pte c i).index = some k) : m.Live c := by
  by_contra hdead
  rw [pte_of_dead hdead] at h
  cases h

theorem exists_space (h : m.Live c) : ∃ sp, m.spaces c = some sp := Option.isSome_iff_exists.1 h

theorem setPte_pool (m : Mmu) (c i : ℕ) (e : Pte) : (m.setPte c i e).pool = m.pool := by
  unfold setPte
  split <;> rfl

theorem setPte_mem (m : Mmu) (c i : ℕ) (e : Pte) : (m.setPte c i e).mem = m.mem := by
  unfold setPte
  split <;> rfl

theorem setPte_spaces (h : m.spaces c = some sp) (i : ℕ) (e : Pte) :
    (m.setPte c i e).spaces =
      Function.update m.spaces c (some { sp with pte := Function.update sp.pte i e }) := by
  unfold setPte
  rw [h]
  rfl

theorem setPte_live (m : Mmu) (c i : ℕ) (e : Pte) (c' : ℕ) :
    (m.setPte c i e).Live c' ↔ m.Live c' := by
  unfold Live
  cases hc : m.spaces c with
  | none => simp [setPte, hc]
  | some sp =>
    rw [setPte_spaces hc]
    by_cases hc' : c' = c
    · subst hc'
      simp [hc]
    · rw [Function.update_of_ne hc']

theorem setPte_chain (m : Mmu) (c i : ℕ) (e : Pte) (c' : ℕ) :
    (m.setPte c i e).chain c' = m.chain c' := by
  unfold chain
  cases hc : m.spaces c with
  | none => simp [setPte, hc]
  | some sp =>
    rw [setPte_spaces hc]
    by_cases hc' : c' = c
    · subst hc'
      simp [hc]
    · rw [Function.update_of_ne hc']

theorem setPte_pte (h : m.Live c) (i : ℕ) (e : Pte) (c' j : ℕ) :
    (m.setPte c i e).pte c' j = if c' = c ∧ j = i then e else m.pte c' j := by
  obtain ⟨sp, hc⟩ := exists_space h
  unfold pte
  rw [setPte_spaces hc]
  by_cases hc' : c' = c
  · subst hc'
    by_cases hj : j = i
    · subst hj
      simp
    · simp [hj, hc]
  · rw [Function.update_of_ne hc', if_neg fun hand => hc' hand.1]

theorem setPte_self (h : m.Live c) (i : ℕ) (e : Pte) : (m.setPte c i e).pte c i = e := by
  rw [setPte_pte h, if_pos ⟨rfl, rfl⟩]

theorem setPte_full (hfull : ∀ c sp, m.spaces c = some sp → sp.tables.length = arch.userTables)
    (c i : ℕ) (e : Pte) :
    ∀ c' sp, (m.setPte c i e).spaces c' = some sp → sp.tables.length = arch.userTables := by
  intro c' sp' hc'
  cases hc : m.spaces c with
  | none =>
    have hsame : m.setPte c i e = m := by simp [setPte, hc]
    exact hfull c' sp' (hsame ▸ hc')
  | some sp =>
    rw [setPte_spaces hc] at hc'
    by_cases heq : c' = c
    · subst heq
      rw [Function.update_self] at hc'
      cases hc'
      exact hfull c' sp hc
    · rw [Function.update_of_ne heq] at hc'
      exact hfull c' sp' hc'

theorem setPte_tabled (m : Mmu) (c i : ℕ) (e : Pte) (k : ℕ) :
    (m.setPte c i e).tabled k = m.tabled k := by
  unfold tabled
  simp only [setPte_chain]

theorem setPte_mapped (h : m.Live c) (hslot : (c, i) ∈ slots) (e : Pte) (k : ℕ) :
    (m.setPte c i e).mapped k + one (m.pte c i).index k = m.mapped k + one e.index k := by
  have hupdate : (fun r : ℕ × ℕ => ((m.setPte c i e).pte r.1 r.2).index) =
      Function.update (fun r : ℕ × ℕ => (m.pte r.1 r.2).index) (c, i) e.index := by
    funext r
    rw [setPte_pte h, Function.update_apply]
    by_cases hr : r = (c, i)
    · rw [if_pos hr, if_pos ⟨congrArg Prod.fst hr, congrArg Prod.snd hr⟩]
    · rw [if_neg hr, if_neg fun hand => hr (Prod.ext hand.1 hand.2)]
  unfold mapped
  rw [hupdate]
  exact refs_update (h := fun r : ℕ × ℕ => (m.pte r.1 r.2).index) hslot e.index k

theorem pte_congr (h : m'.spaces = m.spaces) (c i : ℕ) : m'.pte c i = m.pte c i := by
  unfold pte
  rw [h]

theorem mapped_congr (h : m'.spaces = m.spaces) (k : ℕ) : m'.mapped k = m.mapped k := by
  unfold mapped
  simp only [pte_congr h]

theorem chain_congr (h : m'.spaces = m.spaces) (c : ℕ) : m'.chain c = m.chain c := by
  unfold chain
  rw [h]

theorem tabled_congr (h : m'.spaces = m.spaces) (k : ℕ) : m'.tabled k = m.tabled k := by
  unfold tabled
  simp only [chain_congr h]

theorem live_congr (h : m'.spaces = m.spaces) (c : ℕ) : m'.Live c ↔ m.Live c := by
  unfold Live
  rw [h]

namespace Accounted

theorem slot (h : m.Accounted arch owed) (hlive : m.Live c) (hi : i < userPages) : (c, i) ∈ slots :=
  mem_slots.2 ⟨(h.root c hlive).1, hi⟩

/-- If one entry for a frame is copy-on-write, all of them are. -/
theorem all_cow (h : m.Accounted arch owed) (hi : i < userPages) (hk : (m.pte c i).index = some k)
    (hcow : (m.pte c i).IsCow) (hj : j < userPages) (hk' : (m.pte c' j).index = some k) :
    (m.pte c' j).IsCow := by
  by_contra hnot
  have hne : (c, i) ≠ (c', j) := by
    rintro ⟨⟩
    exact hnot hcow
  have htwo : 1 < m.mapped k :=
    one_lt_refs (h.slot (live_of_pte hk) hi) (h.slot (live_of_pte hk') hj) hne hk hk'
  have hone := h.cow c' j k hj hk' hnot
  omega

/-- Only the pool and what is owed change. -/
theorem repool (h : m.Accounted arch owed) (hspaces : m'.spaces = m.spaces) (hsound : m'.pool.Sound)
    (hrefs : ∀ k, m'.pool.refs k + owed k = m.pool.refs k + owed' k) : m'.Accounted arch owed' where
  sound := hsound
  count := fun k => by
    have hcount := h.count k
    have heq := hrefs k
    rw [mapped_congr hspaces, tabled_congr hspaces]
    omega
  root := fun c hlive => by
    rw [chain_congr hspaces]
    exact h.root c ((live_congr hspaces c).1 hlive)
  full := by
    rw [hspaces]
    exact h.full
  apart := fun k => by
    rw [mapped_congr hspaces, tabled_congr hspaces]
    exact h.apart k
  cow := fun c i k => by
    rw [mapped_congr hspaces, pte_congr hspaces]
    exact h.cow c i k

/-- An entry is written. The frame that it names, if any, has no other entry, or the others and the
new one are copy-on-write. -/
theorem setPte (h : m.Accounted arch owed) (hlive : m.Live c) (hi : i < userPages) (e : Pte)
    (howed : ∀ k, owed' k + one e.index k = owed k + one (m.pte c i).index k)
    (hnew : ∀ k, e.index = some k → m.tabled k = 0 ∧
      ((m.setPte c i e).mapped k ≤ 1 ∨
        e.IsCow ∧ ∃ c' j, j < userPages ∧ (m.pte c' j).index = some k ∧ (m.pte c' j).IsCow)) :
    (m.setPte c i e).Accounted arch owed' := by
  have hmapped := fun k => setPte_mapped hlive (h.slot hlive hi) e k
  refine ⟨(setPte_pool m c i e).symm ▸ h.sound, fun k => ?_, fun c' hc' => ?_,
    setPte_full h.full c i e, fun k hk => ?_, fun c' j k hj hk hnot => ?_⟩
  · have hcount := h.count k
    have hk := hmapped k
    have heq := howed k
    rw [setPte_pool, setPte_tabled]
    omega
  · rw [setPte_chain]
    exact h.root c' ((setPte_live m c i e c').1 hc')
  · rw [setPte_tabled] at hk ⊢
    obtain ⟨hone, hzero⟩ := h.apart k hk
    refine ⟨hone, ?_⟩
    have hno : e.index ≠ some k := fun heq => by
      have hk0 := (hnew k heq).1
      omega
    have hk := hmapped k
    have hone : one e.index k = 0 := if_neg hno
    omega
  · -- An entry for `k` that is not copy-on-write: the new one, or another.
    rw [setPte_pte hlive] at hk hnot
    split_ifs at hk hnot with heq
    · exact ((hnew k hk).2.resolve_right fun hcow => hnot hcow.1)
    · by_cases hek : e.index = some k
      · refine (hnew k hek).2.resolve_right fun hcow => ?_
        obtain ⟨-, c'', j', hj', hk', hcow⟩ := hcow
        exact hnot (h.all_cow hj' hk' hcow hj hk)
      · have hone : one e.index k = 0 := if_neg hek
        have hold := h.cow c' j k hj hk hnot
        have hk := hmapped k
        omega

/-- An entry is written that names no frame of the pool. -/
theorem setPte_none (h : m.Accounted arch owed) (hlive : m.Live c) (hi : i < userPages)
    (he : e.index = none) :
    (m.setPte c i e).Accounted arch fun k => owed k + one (m.pte c i).index k :=
  h.setPte hlive hi e (fun k => by rw [he, one_none, Nat.add_zero]) fun k hk => by
    rw [he] at hk
    cases hk

end Accounted

/-! ## Frames in hand -/

/-- The frames in `hand` have been allocated and are in no table yet. -/
structure Holding (arch : Arch) (m : Mmu) (owed : ℕ → ℕ) (hand : List ℕ) : Prop where
  accounted : m.Accounted arch fun k => owed k + tally hand k
  fresh : ∀ k, 0 < tally hand k → m.pool.refs k = 1
  root : ∀ phys ∈ hand, phys ∈ roots

theorem alloc_eq (halloc : m.alloc = some (phys, m')) :
    m.pool.alloc = some (phys, m'.pool) ∧ m'.spaces = m.spaces ∧
      m'.mem = Function.update m.mem phys fun _ => 0 := by
  obtain ⟨r, hr, heq⟩ := Option.map_eq_some_iff.1 halloc
  cases heq
  exact ⟨hr, rfl, rfl⟩

namespace Holding

variable {hand frames : List ℕ}

theorem nil (h : m.Accounted arch owed) : m.Holding arch owed [] :=
  ⟨h, fun _ hk => absurd hk (Nat.lt_irrefl 0), fun _ hmem => absurd hmem List.not_mem_nil⟩

/-- Nothing refers to a frame in hand. -/
theorem unused (h : m.Holding arch owed hand) (hk : 0 < tally hand k) :
    m.mapped k = 0 ∧ m.tabled k = 0 ∧ owed k = 0 ∧ tally hand k = 1 := by
  have hone := h.fresh k hk
  have hcount := h.accounted.count k
  omega

theorem alloc (h : m.Holding arch owed hand) (halloc : m.alloc = some (phys, m')) :
    m'.Holding arch owed (phys :: hand) := by
  obtain ⟨hpool, hspaces, -⟩ := alloc_eq halloc
  have hsound := h.accounted.sound
  obtain ⟨-, -, hzero, hrefs⟩ := FramePool.alloc_refs hsound hpool
  obtain ⟨i, hi, hphys, -⟩ := FramePool.alloc_eq_some hpool
  refine ⟨h.accounted.repool hspaces (hsound.alloc hpool) fun k => ?_, fun k hk => ?_, ?_⟩
  · rw [hrefs k, tally_cons]
    omega
  · rw [hrefs k]
    rw [tally_cons] at hk
    by_cases hself : indexOf phys = some k
    · rw [hself, one_self, hzero k hself]
    · have hother : one (indexOf phys) k = 0 := if_neg hself
      rw [hother] at hk ⊢
      exact h.fresh k hk
  · rintro p hp
    rcases List.mem_cons.1 hp with rfl | hp
    · exact mem_roots.2 ⟨i, hi, hphys.symm⟩
    · exact h.root p hp

/-- The frames in hand are given back. -/
theorem freeAll (h : m.Holding arch owed hand) (hperm : frames.Perm hand) :
    (m.withPool (m.pool.freeAll frames)).Accounted arch owed := by
  have hle : ∀ k, tally frames k ≤ m.pool.refs k := fun k => by
    have hcount := h.accounted.count k
    rw [tally_perm hperm]
    omega
  obtain ⟨hsound, hrefs⟩ := h.accounted.sound.freeAll hle
  refine h.accounted.repool rfl hsound fun k => ?_
  have hk := hrefs k
  rw [tally_perm hperm] at hk
  simp only [withPool]
  omega

theorem copyFrame (h : m.Holding arch owed hand) (src dst : ℕ) :
    (m.copyFrame src dst).Holding arch owed hand :=
  ⟨h.accounted.repool rfl h.accounted.sound fun _ => rfl, h.fresh, h.root⟩

/-- A frame in hand is entered in a page table. -/
theorem enter (h : m.Holding arch owed [phys]) (hlive : m.Live c) (hi : i < userPages)
    (he : e.index = indexOf phys) :
    (m.setPte c i e).Accounted arch fun k => owed k + one (m.pte c i).index k := by
  refine h.accounted.setPte hlive hi e (fun k => ?_) fun k hk => ?_
  · rw [he, tally_cons, tally_nil]
    omega
  · have hpos : 0 < tally [phys] k := by
      rw [tally_cons, ← he, hk, one_self]
      omega
    obtain ⟨hmapped, htabled, -, -⟩ := h.unused hpos
    refine ⟨htabled, .inl ?_⟩
    have hset := setPte_mapped hlive (h.accounted.slot hlive hi) e k
    rw [hk, one_self] at hset
    omega

end Holding

/-- An empty space is made of the frames in hand. -/
theorem Holding.put {hand dirs tables : List ℕ} (h : m.Holding arch owed hand)
    (hperm : (dirs ++ tables).Perm hand) (hc : c ∈ dirs) (hlen : tables.length = arch.userTables) :
    ¬ m.Live c ∧ (m.put c (some ⟨dirs, tables, fun _ => .empty⟩)).Accounted arch owed := by
  have hmem : c ∈ hand := hperm.subset (List.mem_append_left _ hc)
  have hroot := h.root c hmem
  obtain ⟨r, hr, hrc⟩ := mem_roots.1 hroot
  have hindex : indexOf c = some r := hrc ▸ indexOf_frameAddr hr
  have hpos : ∀ l : List ℕ, c ∈ l → 0 < tally l r := fun l hl =>
    List.count_pos_iff.2 (List.mem_filterMap.2 ⟨c, hl, hindex⟩)
  -- A live space would have its directory among the tables.
  have hdead : ¬ m.Live c := fun hlive => by
    have hzero := (h.unused (hpos hand hmem)).2.1
    have hle : tally (m.chain c) r ≤ m.tabled r :=
      Finset.single_le_sum (f := fun c => tally (m.chain c) r) (fun _ _ => Nat.zero_le _) hroot
    have hmine := hpos _ (h.accounted.root c hlive).2
    omega
  set m' := m.put c (some ⟨dirs, tables, fun _ => .empty⟩) with hm'
  have hpte : ∀ c' i, m'.pte c' i = m.pte c' i := fun c' i => by
    by_cases hc' : c' = c
    · subst hc'
      rw [pte_of_dead hdead]
      simp [hm', pte, Mmu.put]
    · simp [hm', pte, Mmu.put, hc']
  have hmapped : ∀ k, m'.mapped k = m.mapped k := fun k => by
    unfold mapped
    simp only [hpte]
  have hchain : ∀ c', m'.chain c' = if c' = c then dirs ++ tables else m.chain c' := fun c' => by
    by_cases hc' : c' = c
    · subst hc'
      simp [hm', chain, Mmu.put]
    · simp [hm', chain, Mmu.put, hc']
  have htabled : ∀ k, m'.tabled k = m.tabled k + tally hand k := fun k => by
    have hnil : m.chain c = [] := by
      have hnone : m.spaces c = none := by simpa [Live] using hdead
      simp [chain, hnone]
    unfold tabled
    rw [← Finset.add_sum_erase _ _ hroot, ← Finset.add_sum_erase _
      (fun c => tally (m.chain c) k) hroot, hchain c, if_pos rfl, hnil, tally_perm hperm,
      Finset.sum_congr rfl fun c' hc' => by rw [hchain, if_neg (Finset.ne_of_mem_erase hc')]]
    simp only [tally_nil]
    omega
  refine ⟨hdead, ⟨h.accounted.sound, fun k => ?_, fun c' hc' => ?_, fun c' sp hsp => ?_,
    fun k hk => ?_, fun c' i k => ?_⟩⟩
  · have hcount := h.accounted.count k
    rw [hmapped, htabled]
    have hpool : m'.pool = m.pool := rfl
    rw [hpool]
    omega
  · rw [hchain]
    by_cases heq : c' = c
    · rw [if_pos heq, heq]
      exact ⟨hroot, List.mem_append_left _ hc⟩
    · rw [if_neg heq]
      have hlive : m.Live c' := by simpa [hm', Live, Mmu.put, heq] using hc'
      exact h.accounted.root c' hlive
  · by_cases heq : c' = c
    · subst heq
      simp only [hm', Mmu.put, Function.update_self] at hsp
      cases hsp
      exact hlen
    · simp only [hm', Mmu.put, Function.update_of_ne heq] at hsp
      exact h.accounted.full c' sp hsp
  · rw [htabled] at hk ⊢
    rw [hmapped]
    by_cases hk' : 0 < tally hand k
    · obtain ⟨hzero, hzero', -, hone⟩ := h.unused hk'
      omega
    · have hold := h.accounted.apart k (by omega)
      omega
  · rw [hpte, hmapped]
    exact h.accounted.cow c' i k

/-! ## Creation -/

/-- A frame that is referred to, or not one of the pool's. -/
def InUse (m : Mmu) (phys : ℕ) : Prop := ∀ k, indexOf phys = some k → 0 < m.pool.refs k

/-- A frame that is allocated was not in use. -/
theorem alloc_fresh (hsound : m.pool.Sound) (halloc : m.alloc = some (phys, m')) {p : ℕ}
    (hp : m.InUse p) : p ≠ phys := by
  obtain ⟨hpool, -, -⟩ := alloc_eq halloc
  obtain ⟨-, -, hzero, -⟩ := FramePool.alloc_refs hsound hpool
  obtain ⟨i, hi, hphys, -⟩ := FramePool.alloc_eq_some hpool
  rintro rfl
  have hindex : indexOf p = some i := hphys ▸ indexOf_frameAddr hi
  have hpos := hp i hindex
  have hno := hzero i hindex
  omega

theorem alloc_keeps (hsound : m.pool.Sound) (halloc : m.alloc = some (phys, m')) {p : ℕ}
    (hp : m.InUse p) : m'.mem p = m.mem p ∧ m'.InUse p := by
  obtain ⟨hpool, -, hmem⟩ := alloc_eq halloc
  refine ⟨by rw [hmem, Function.update_of_ne (alloc_fresh hsound halloc hp)], fun k hk => ?_⟩
  have hpos := hp k hk
  rw [(FramePool.alloc_refs hsound hpool).2.2.2 k]
  omega

/-- `m'` is `m` after some allocations. -/
structure Allocated (arch : Arch) (m : Mmu) (owed : ℕ → ℕ) (m' : Mmu) (hand : List ℕ) : Prop where
  holding : m'.Holding arch owed hand
  spaces : m'.spaces = m.spaces
  keeps : ∀ p, m.InUse p → m'.mem p = m.mem p ∧ m'.InUse p

/-- What a call that makes a space comes to: no space, and the frames are as before, or a new one
that is empty. -/
structure Created (arch : Arch) (m : Mmu) (owed : ℕ → ℕ) (r : Option ℕ × Mmu) : Prop where
  accounted : r.2.Accounted arch owed
  failed : r.1 = none → r.2.spaces = m.spaces
  made : ∀ c, r.1 = some c → ¬ m.Live c ∧ c ≠ 0 ∧
    ∃ sp, r.2.spaces = Function.update m.spaces c (some sp) ∧ ∀ i, sp.pte i = .empty
  keeps : ∀ p, m.InUse p → r.2.mem p = m.mem p

namespace Allocated

variable {hand frames dirs tables : List ℕ} {m'' : Mmu}

theorem nil (h : m.Accounted arch owed) : Allocated arch m owed m [] :=
  ⟨.nil h, rfl, fun _ hp => ⟨rfl, hp⟩⟩

theorem alloc (h : Allocated arch m owed m' hand) (halloc : m'.alloc = some (phys, m'')) :
    Allocated arch m owed m'' (phys :: hand) := by
  refine ⟨h.holding.alloc halloc, (alloc_eq halloc).2.1.trans h.spaces, fun p hp => ?_⟩
  obtain ⟨hmem, huse⟩ := h.keeps p hp
  obtain ⟨hmem', huse'⟩ := alloc_keeps h.holding.accounted.sound halloc huse
  exact ⟨hmem'.trans hmem, huse'⟩

theorem giveUp (h : Allocated arch m owed m' hand) (hperm : frames.Perm hand) :
    Created arch m owed (none, m'.withPool (m'.pool.freeAll frames)) where
  accounted := h.holding.freeAll hperm
  failed := fun _ => h.spaces
  made := fun _ => by rintro ⟨⟩
  keeps := fun p hp => (h.keeps p hp).1

theorem put (h : Allocated arch m owed m' hand) (hperm : (dirs ++ tables).Perm hand) (hc : c ∈ dirs)
    (hlen : tables.length = arch.userTables) :
    Created arch m owed (some c, m'.put c (some ⟨dirs, tables, fun _ => .empty⟩)) := by
  obtain ⟨hdead, haccounted⟩ := h.holding.put hperm hc hlen
  obtain ⟨r, -, hr⟩ := mem_roots.1 (h.holding.root c (hperm.subset (List.mem_append_left _ hc)))
  refine ⟨haccounted, by rintro ⟨⟩, fun c' hc' => ?_, fun p hp => (h.keeps p hp).1⟩
  cases hc'
  refine ⟨fun hlive => hdead ((live_congr h.spaces c).2 hlive), hr ▸ frameAddr_ne_zero r, _,
    congrArg (fun s => Function.update s c _) h.spaces, fun _ => rfl⟩

end Allocated

theorem tablePages_empty (entries base : ℕ) : tablePages entries (fun _ => .empty) base = [] := by
  simp [tablePages, Pte.empty]

/-- An empty space is its directories and tables. -/
theorem owned_empty (arch : Arch) (dirs tables : List ℕ) :
    (Space.owned arch ⟨dirs, tables, fun _ => .empty⟩) = tables ++ dirs := by
  have hfrom : ∀ base, ownedFrom arch.entries (fun _ => Pte.empty) base tables = tables := by
    induction tables with
    | nil => exact fun _ => rfl
    | cons pt tables ih =>
      intro base
      rw [ownedFrom, tablePages_empty, ih, List.nil_append]
  rw [Space.owned, hfrom]

theorem createUserSpace_spec (h : m.Accounted arch owed) :
    Created arch m owed (m.createUserSpace arch) := by
  have h0 := Allocated.nil h
  cases arch with
  | i386 =>
    unfold createUserSpace
    dsimp only
    split
    · exact h0.giveUp .nil
    · next pd m1 ha1 =>
      have h1 := h0.alloc ha1
      split
      · exact h1.giveUp (.refl [pd])
      · next pt m2 ha2 => exact (h1.alloc ha2).put (.swap pt pd []) (List.mem_singleton.2 rfl) rfl
  | x86_64 =>
    unfold createUserSpace
    dsimp only
    split
    · exact h0.giveUp .nil
    · next pml4 m1 ha1 =>
      have h1 := h0.alloc ha1
      split
      · exact h1.giveUp (.refl [pml4])
      · next pdpt m2 ha2 =>
        have h2 := h1.alloc ha2
        split
        · exact h2.giveUp (.swap pdpt pml4 [])
        · next pd m3 ha3 =>
          have h3 := h2.alloc ha3
          split
          · rw [abandon, owned_empty]
            exact h3.giveUp (.refl _)
          · next pt m4 ha4 =>
            have h4 := h3.alloc ha4
            split
            · rw [abandon, owned_empty]
              exact h4.giveUp (.refl _)
            · next pt' m5 ha5 =>
              have hperm : ([pd, pdpt, pml4] ++ [pt, pt']).Perm [pt', pt, pd, pdpt, pml4] :=
                List.perm_append_comm.trans (.swap pt' pt _)
              exact (h4.alloc ha5).put hperm (by simp) rfl

/-! ## Destruction -/

theorem tally_tablePages (entries : ℕ) (pte : ℕ → Pte) (base k : ℕ) :
    tally (tablePages entries pte base) k =
      ((List.range' base entries).filterMap fun i => (pte i).index).count k := by
  unfold tally tablePages
  rw [List.filterMap_filterMap]
  congr 1
  refine List.filterMap_congr fun i _ => ?_
  unfold Pte.index
  split_ifs <;> rfl

theorem tally_ownedFrom (entries : ℕ) (pte : ℕ → Pte) (base k : ℕ) (tables : List ℕ) :
    tally (ownedFrom entries pte base tables) k =
      ((List.range' base (entries * tables.length)).filterMap fun i => (pte i).index).count k +
        tally tables k := by
  induction tables generalizing base with
  | nil => rfl
  | cons pt tables ih =>
    have hsplit : entries * (pt :: tables).length = entries + entries * tables.length := by
      rw [List.length_cons, Nat.mul_succ, Nat.add_comm]
    rw [ownedFrom, tally_append, tally_cons, ih, tally_tablePages, tally_cons, hsplit,
      ← List.range'_append_1, List.filterMap_append, List.count_append]
    omega

/-- What is freed are the frames that the entries name and those of the tables. -/
theorem tally_owned (hlen : sp.tables.length = arch.userTables) (k : ℕ) :
    tally (sp.owned arch) k =
      refs (Finset.range userPages) (fun i => (sp.pte i).index) k +
      tally (sp.dirs ++ sp.tables) k := by
  have hpages : arch.entries * sp.tables.length = userPages := by
    rw [hlen]
    cases arch <;> rfl
  rw [Space.owned, tally_append, tally_ownedFrom, hpages, refs_range, List.range_eq_range',
    tally_append]
  omega

theorem put_none_pte (m : Mmu) (c c' i : ℕ) :
    (m.put c none).pte c' i = if c' = c then .empty else m.pte c' i := by
  by_cases hc : c' = c
  · subst hc
    simp [pte, Mmu.put]
  · simp [pte, Mmu.put, hc]

theorem put_none_chain (m : Mmu) (c c' : ℕ) :
    (m.put c none).chain c' = if c' = c then [] else m.chain c' := by
  by_cases hc : c' = c
  · subst hc
    simp [chain, Mmu.put]
  · simp [chain, Mmu.put, hc]

theorem put_none_live (m : Mmu) (c c' : ℕ) : (m.put c none).Live c' ↔ c' ≠ c ∧ m.Live c' := by
  by_cases hc : c' = c
  · subst hc
    simp [Live, Mmu.put]
  · simp [Live, Mmu.put, hc]

theorem refs_none {ι : Type} (T : Finset ι) (k : ℕ) : refs T (fun _ => (none : Option ℕ)) k = 0 :=
  Finset.sum_eq_zero fun _ _ => one_none k

theorem put_none_mapped (hsp : m.spaces c = some sp) (hroot : c ∈ roots) (k : ℕ) :
    (m.put c none).mapped k + refs (Finset.range userPages) (fun i => (sp.pte i).index) k =
    m.mapped k := by
  have hgen : ∀ T : Finset ℕ, refs (roots ×ˢ T) (fun r => ((m.put c none).pte r.1 r.2).index) k +
      refs T (fun i => (sp.pte i).index) k =
      refs (roots ×ˢ T) (fun r => (m.pte r.1 r.2).index) k := by
    intro T
    have hrow : refs (roots ×ˢ T) (fun r => ((m.put c none).pte r.1 r.2).index) k +
        refs T (fun j => (m.pte c j).index) k =
        refs (roots ×ˢ T) (fun r => (m.pte r.1 r.2).index) k +
        refs T (fun j => ((m.put c none).pte c j).index) k :=
      @refs_row ℕ ℕ _ roots c ℕ _ T (fun r => (m.pte r.1 r.2).index)
        (fun r => ((m.put c none).pte r.1 r.2).index) hroot
        (fun s hs => by rw [put_none_pte, if_neg hs]) k
    have hold : (fun j => (m.pte c j).index) = fun j => (sp.pte j).index := by
      simp [pte, hsp]
    have hnew : (fun j => ((m.put c none).pte c j).index) = fun _ => none := by
      simp [put_none_pte]
    rwa [hold, hnew, refs_none, Nat.add_zero] at hrow
  unfold mapped slots
  exact hgen _

theorem put_none_tabled (hsp : m.spaces c = some sp) (hroot : c ∈ roots) (k : ℕ) :
    (m.put c none).tabled k + tally (sp.dirs ++ sp.tables) k = m.tabled k := by
  have hchain : m.chain c = sp.dirs ++ sp.tables := by simp [chain, hsp]
  unfold tabled
  rw [← Finset.add_sum_erase _ _ hroot, ← Finset.add_sum_erase _
    (fun c => tally (m.chain c) k) hroot, put_none_chain, if_pos rfl, hchain,
    Finset.sum_congr rfl fun c' hc' => by rw [put_none_chain, if_neg (Finset.ne_of_mem_erase hc')]]
  rw [tally_nil]
  omega

/-- A space is taken away, and its references with it. -/
theorem Accounted.remove (h : m.Accounted arch owed) (hsp : m.spaces c = some sp) :
    (m.put c none).Accounted arch fun k => owed k + tally (sp.owned arch) k := by
  have hroot := (h.root c (by simp [Live, hsp])).1
  have hmapped := put_none_mapped hsp hroot
  have htabled := put_none_tabled hsp hroot
  have howned := tally_owned (h.full c sp hsp)
  refine ⟨h.sound, fun k => ?_, fun c' hc' => ?_, fun c' sp' hsp' => ?_, fun k hk => ?_,
    fun c' i k hi hk hnot => ?_⟩
  · have hcount := h.count k
    have hmap := hmapped k
    have htab := htabled k
    have hpool : (m.put c none).pool = m.pool := rfl
    rw [hpool, howned k]
    omega
  · obtain ⟨hne, hlive⟩ := (put_none_live m c c').1 hc'
    rw [put_none_chain, if_neg hne]
    exact h.root c' hlive
  · by_cases hne : c' = c
    · subst hne
      simp [Mmu.put] at hsp'
    · simp only [Mmu.put, Function.update_of_ne hne] at hsp'
      exact h.full c' sp' hsp'
  · have hmap := hmapped k
    have htab := htabled k
    have hold := h.apart k (by omega)
    omega
  · rw [put_none_pte] at hk hnot
    split_ifs at hk hnot
    · cases hk
    · have hold := h.cow c' i k hi hk hnot
      have hmap := hmapped k
      omega

theorem Accounted.destroy (h : m.Accounted arch owed) (c : ℕ) :
    (m.destroyUserSpace arch c).Accounted arch owed := by
  unfold destroyUserSpace
  split_ifs
  · exact h
  split
  · exact h
  · next sp hsp =>
    have hremove := h.remove hsp
    have hle : ∀ k, tally (sp.owned arch) k ≤ m.pool.refs k := fun k => by
      have hcount := hremove.count k
      have hpool : (m.put c none).pool = m.pool := rfl
      rw [hpool] at hcount
      omega
    obtain ⟨hsound, hrefs⟩ := h.sound.freeAll hle
    refine hremove.repool rfl hsound fun k => ?_
    have hk := hrefs k
    simp only [abandon, withPool, Mmu.put]
    omega

theorem destroyUserSpace_of_ne (hc : c ≠ 0) :
    (m.destroyUserSpace arch c).spaces = Function.update m.spaces c none ∧
      (m.destroyUserSpace arch c).mem = m.mem := by
  unfold destroyUserSpace
  rw [if_neg hc]
  split
  · next hnone => exact ⟨by rw [← hnone, Function.update_eq_self], rfl⟩
  · exact ⟨rfl, rfl⟩

/-! ## Ranges of pages -/

theorem Accounted.reservePage (h : m.Accounted arch owed) (hlive : m.Live c) (hi : i < userPages) :
    (m.reservePage c i).Accounted arch owed ∧ (m.reservePage c i).Live c := by
  unfold Mmu.reservePage
  split_ifs with hpresent
  · exact ⟨h, hlive⟩
  · have hset := h.setPte_none hlive hi Pte.index_reserved
    rw [Pte.index_of_absent (Bool.eq_false_of_not_eq_true hpresent)] at hset
    exact ⟨by simpa using hset, (setPte_live m c i _ c).2 hlive⟩

theorem Accounted.reservePages (h : m.Accounted arch owed) (hlive : m.Live c) (n page : ℕ) :
    (reservePages arch c n page m).2.Accounted arch owed := by
  induction n generalizing m page with
  | zero => exact h
  | succ n ih =>
    rw [Mmu.reservePages]
    split
    · exact h
    · next i hi =>
      obtain ⟨h', hlive'⟩ := h.reservePage hlive (userPte_lt hi)
      exact ih h' hlive' _

theorem Accounted.reserveUserRange (h : m.Accounted arch owed) (hlive : m.Live c) (start len : ℕ) :
    (m.reserveUserRange arch c start len).2.Accounted arch owed := by
  unfold Mmu.reserveUserRange
  split_ifs
  · exact h
  · exact h.reservePages hlive _ _

/-- `map_user_frames` loses the references in the entries that it overwrites. -/
theorem Accounted.mapPages (h : m.Accounted arch owed) (hlive : m.Live c) {n vaddr phys : ℕ}
    (hout : ∀ a < n, indexOf ((phys + a * frameSize) % 2 ^ arch.physBits) = none) :
    ∃ owed', (Mmu.mapPages arch c n vaddr phys m).2.Accounted arch owed' ∧
      ((∀ a < n, (userPte arch (vaddr + a * frameSize)).bind (fun i => (m.pte c i).index) = none) →
        owed' = owed) := by
  induction n generalizing m owed vaddr phys with
  | zero => exact ⟨owed, h, fun _ => rfl⟩
  | succ n ih =>
    rw [Mmu.mapPages]
    split
    · exact ⟨owed, h, fun _ => rfl⟩
    · next i hi =>
      have hwindow : (Pte.window (phys % 2 ^ arch.physBits)).index = none := by
        simpa using hout 0 (Nat.succ_pos n)
      have hset := h.setPte_none hlive (userPte_lt hi) hwindow
      obtain ⟨owed', h', hspare⟩ := @ih _ _ hset ((setPte_live ..).2 hlive) (vaddr + frameSize)
        (phys + frameSize) fun a ha => by
        rw [Nat.add_assoc, Nat.add_comm frameSize, ← Nat.succ_mul]
        exact hout (a + 1) (Nat.succ_lt_succ ha)
      refine ⟨owed', h', fun hnone => ?_⟩
      have hfirst : (m.pte c i).index = none := by
        have hzero := hnone 0 (Nat.succ_pos n)
        rwa [Nat.zero_mul, Nat.add_zero, hi] at hzero
      rw [hspare fun a ha => ?_, hfirst]
      · rfl
      · have hnext := hnone (a + 1) (Nat.succ_lt_succ ha)
        rw [Nat.succ_mul, Nat.add_comm (a * frameSize), ← Nat.add_assoc] at hnext
        cases hj : userPte arch (vaddr + frameSize + a * frameSize) with
        | none => rfl
        | some j =>
          rw [hj] at hnext
          rw [Option.bind_some, setPte_pte hlive]
          split_ifs
          · exact hwindow
          · exact hnext

/-! ## Page faults -/

theorem live_of_spaces (h : m'.spaces = m.spaces) (hlive : m.Live c) : m'.Live c :=
  (live_congr h c).2 hlive

theorem Accounted.handleDemandFault (h : m.Accounted arch owed) (hlive : m.Live c) (vaddr : ℕ) :
    (m.handleDemandFault arch c vaddr).2.Accounted arch owed := by
  unfold Mmu.handleDemandFault
  split_ifs
  · exact h
  split
  · exact h
  next i hi =>
  split_ifs with hno
  · exact h
  split
  · exact h
  next frame m₁ halloc =>
  obtain ⟨-, hspaces, -⟩ := alloc_eq halloc
  have habsent : (m₁.pte c i).index = none := by
    rw [pte_congr hspaces]
    exact Pte.index_of_absent (Bool.eq_false_of_not_eq_true fun hp => hno (.inl hp))
  have hset := ((Holding.nil h).alloc halloc).enter (live_of_spaces hspaces hlive) (userPte_lt hi)
    (Pte.index_owned frame)
  rw [habsent] at hset
  simpa using hset

/-- `free` drops one of the references that are owed. -/
theorem Accounted.free (h : m.Accounted arch fun k => owed k + one (indexOf phys) k) :
    (m.free phys).Accounted arch owed := by
  have hrefs := @FramePool.Sound.free_refs _ phys h.sound fun i hi => by
    have hcount := h.count i
    rw [hi, one_self] at hcount
    omega
  exact h.repool rfl (h.sound.free phys) fun k => by
    have hk := hrefs k
    have hpool : (m.free phys).pool = m.pool.free phys := rfl
    rw [hpool]
    omega

/-- The last entry for a frame may be made writable. -/
theorem Accounted.reuse (h : m.Accounted arch owed) (hlive : m.Live c) (hi : i < userPages)
    (hpresent : (m.pte c i).present = true) (hlast : m.pool.refcount (m.pte c i).frame ≤ 1) :
    (m.setPte c i (m.pte c i).reuse).Accounted arch owed := by
  refine h.setPte hlive hi _ (fun k => by rw [Pte.index_reuse]) fun k hk => ?_
  rw [Pte.index_reuse] at hk
  have hset := setPte_mapped hlive (h.slot hlive hi) (m.pte c i).reuse k
  rw [Pte.index_reuse] at hset
  have hone : 0 < m.mapped k := refs_pos.2 ⟨(c, i), h.slot hlive hi, hk⟩
  have hcount := h.count k
  have hframe := hk
  rw [Pte.index_of_present hpresent] at hframe
  unfold FramePool.refcount at hlast
  rw [hframe] at hlast
  dsimp only at hlast
  omega

theorem Accounted.handleCowFault (h : m.Accounted arch owed) (hlive : m.Live c) (vaddr : ℕ) :
    (m.handleCowFault arch c vaddr).2.Accounted arch owed := by
  unfold Mmu.handleCowFault
  split_ifs
  · exact h
  split
  · exact h
  next i hi =>
  dsimp only
  split_ifs with hno hlast
  · exact h
  · exact h.reuse hlive (userPte_lt hi) (by simpa using fun hp => hno (.inl hp)) hlast
  split
  · exact h
  next copy m₁ halloc =>
  obtain ⟨-, hspaces, -⟩ := alloc_eq halloc
  have hpresent : (m.pte c i).present = true := by simpa using fun hp => hno (.inl hp)
  have hheld := (Holding.nil h).alloc halloc
  have hset := (hheld.copyFrame (m.pte c i).frame copy).enter (live_of_spaces hspaces hlive)
    (userPte_lt hi) (Pte.index_owned copy)
  have hold : ((m₁.copyFrame (m.pte c i).frame copy).pte c i).index = indexOf
    (m.pte c i).frame := by
    have hpte : (m₁.copyFrame (m.pte c i).frame copy).pte c i = m.pte c i := pte_congr hspaces c i
    rw [hpte, Pte.index_of_present hpresent]
  rw [hold] at hset
  exact hset.free

/-! ## `fork` -/

/-- The loop of `clone_user_space` has got to the entries in `is`. -/
structure Cloning (arch : Arch) (m : Mmu) (owed : ℕ → ℕ) (src dst : ℕ) (is : List ℕ) : Prop where
  accounted : m.Accounted arch owed
  src_live : m.Live src
  dst_live : m.Live dst
  ne : src ≠ dst
  clear : ∀ i ∈ is, i < userPages ∧ (m.pte dst i).index = none

namespace Cloning

variable {src dst : ℕ} {is : List ℕ}

/-- A round writes the entries of one page only. -/
theorem next (h : Cloning arch m owed src dst (i :: is)) (hi : i ∉ is)
    (haccounted : m'.Accounted arch owed)
    (hlive : ∀ c, m.Live c → m'.Live c) (hpte : ∀ j ≠ i, m'.pte dst j = m.pte dst j) :
    Cloning arch m' owed src dst is where
  accounted := haccounted
  src_live := hlive _ h.src_live
  dst_live := hlive _ h.dst_live
  ne := h.ne
  clear := fun j hj => by
    rw [hpte j fun heq => hi (heq ▸ hj)]
    exact h.clear j (List.mem_cons_of_mem _ hj)

/-- The entry of the copy is written. -/
theorem set (h : Cloning arch m owed src dst (i :: is)) (hi : i ∉ is)
    (hspaces : m'.spaces = m.spaces)
    (haccounted : (m'.setPte dst i e).Accounted arch owed) :
    Cloning arch (m'.setPte dst i e) owed src dst is := by
  refine h.next hi haccounted (fun c hc => (setPte_live ..).2 (live_of_spaces hspaces hc))
    fun j hj => ?_
  rw [setPte_pte (live_of_spaces hspaces h.dst_live), if_neg fun hand => hj hand.2,
    pte_congr hspaces]

/-- A page is shared by both. -/
theorem share (h : Cloning arch m owed src dst (i :: is)) (hi : i ∉ is)
    (hpresent : (m.pte src i).present = true) {pool : FramePool}
    (hshare : m.pool.share (m.pte src i).frame = some pool) :
    Cloning arch (((m.withPool pool).setPte src i (m.pte src i).toCow).setPte dst i
      (m.pte src i).toCow) owed
      src dst is := by
  obtain ⟨hlt, hclear⟩ := h.clear i List.mem_cons_self
  obtain ⟨⟨k, hk, -⟩, hrefs⟩ := FramePool.share_refs hshare
  have hindex : (m.pte src i).toCow.index = some k := by
    rw [Pte.index_toCow, Pte.index_of_present hpresent, hk]
  have hshared : (m.withPool pool).Accounted arch fun r => owed r + one (some k) r :=
    h.accounted.repool rfl (h.accounted.sound.share hshare) fun r => by
      have hr := hrefs r
      rw [hk] at hr
      simp only [withPool]
      omega
  have hold : ((m.withPool pool).pte src i).index = some k := by
    rw [← hindex]
    rfl
  have hslot := hshared.slot (c := src) h.src_live hlt
  have hpos : 0 < (m.withPool pool).mapped k := refs_pos.2 ⟨(src, i), hslot, hold⟩
  -- The entry of the parent is made read-only.
  have hparent : ((m.withPool pool).setPte src i (m.pte src i).toCow).Accounted arch
      fun r => owed r + one (some k) r := by
    refine hshared.setPte h.src_live hlt _ (fun r => by rw [hindex, hold]) fun r hr => ?_
    obtain rfl := Option.some.inj (hindex.symm.trans hr)
    refine ⟨?_, ?_⟩
    · by_contra htabled
      have hapart := hshared.apart k (Nat.pos_of_ne_zero htabled)
      omega
    · by_cases hcow : ((m.withPool pool).pte src i).IsCow
      · exact .inr ⟨Pte.isCow_toCow _, src, i, hlt, hold, hcow⟩
      · have hset := setPte_mapped (m := m.withPool pool) h.src_live hslot (m.pte src i).toCow k
        have hle := hshared.cow src i k hlt hold hcow
        rw [hold, hindex] at hset
        omega
  -- The child's entry takes the reference that has been counted.
  have hdst : ((m.withPool pool).setPte src i (m.pte src i).toCow).Live dst :=
    (setPte_live ..).2 h.dst_live
  have hsrc : ((m.withPool pool).setPte src i (m.pte src i).toCow).pte src i =
    (m.pte src i).toCow :=
    setPte_self (m := m.withPool pool) h.src_live i _
  have hclear' : (((m.withPool pool).setPte src i (m.pte src i).toCow).pte dst i).index = none := by
    rw [setPte_pte (m := m.withPool pool) h.src_live, if_neg fun hand => h.ne hand.1.symm]
    exact hclear
  refine h.next hi (hparent.setPte hdst hlt _ (fun r => ?_) fun r hr => ?_)
    (fun c hc => (setPte_live ..).2 ((setPte_live ..).2 hc)) fun j hj => ?_
  · rw [hclear', hindex, one_none, Nat.add_zero]
  · obtain rfl := Option.some.inj (hindex.symm.trans hr)
    refine ⟨?_, .inr ⟨Pte.isCow_toCow _, src, i, hlt, by rw [hsrc, hindex], by
      rw [hsrc]
      exact Pte.isCow_toCow _⟩⟩
    by_contra htabled
    have hapart := hparent.apart k (Nat.pos_of_ne_zero htabled)
    have hset := setPte_mapped (m := m.withPool pool) h.src_live hslot (m.pte src i).toCow k
    rw [hold, hindex] at hset
    omega
  · rw [setPte_pte hdst, if_neg fun hand => hj hand.2,
      setPte_pte (m := m.withPool pool) h.src_live, if_neg fun hand => hj hand.2]
    rfl

theorem entry (h : Cloning arch m owed src dst (i :: is)) (hi : i ∉ is) :
    ((cloneEntry src dst i m).1 = true → Cloning arch (cloneEntry src dst i m).2 owed src dst is) ∧
      ((cloneEntry src dst i m).1 = false → (cloneEntry src dst i m).2 = m) := by
  obtain ⟨hlt, hclear⟩ := h.clear i List.mem_cons_self
  unfold cloneEntry
  dsimp only
  have hskip : Cloning arch m owed src dst is := h.next hi h.accounted (fun _ => id) fun _ _ => rfl
  split_ifs with hshared hempty hpresent
  · exact ⟨fun _ => hskip, False.elim⟩
  · exact ⟨fun _ => hskip, False.elim⟩
  · refine ⟨fun _ => h.set hi rfl ?_, False.elim⟩
    have hset := h.accounted.setPte_none h.dst_live hlt (Pte.index_of_absent hpresent)
    rw [hclear] at hset
    simpa using hset
  · have hpresent := Bool.eq_true_of_not_eq_false hpresent
    split
    · next pool hshare => exact ⟨fun _ => h.share hi hpresent hshare, Bool.noConfusion⟩
    · split
      · exact ⟨Bool.noConfusion, fun _ => rfl⟩
      · next copy m₁ halloc =>
        obtain ⟨-, hspaces, -⟩ := alloc_eq halloc
        have hcopied := ((Holding.nil h.accounted).alloc halloc).copyFrame (m.pte src i).frame copy
        have hset := hcopied.enter (live_of_spaces hspaces h.dst_live) hlt (Pte.index_owned copy)
        have hold : (m₁.copyFrame (m.pte src i).frame copy).pte dst i = m.pte dst i :=
          pte_congr hspaces dst i
        rw [hold, hclear] at hset
        exact ⟨fun _ => @set arch m (m₁.copyFrame (m.pte src i).frame copy) owed i (.owned copy)
          src dst is h hi
          hspaces (by simpa using hset), Bool.noConfusion⟩

theorem entries (h : Cloning arch m owed src dst is) (his : is.Nodup) :
    (cloneEntries src dst is m).2.Accounted arch owed := by
  induction is generalizing m with
  | nil => exact h.accounted
  | cons i is ih =>
    obtain ⟨hi, his⟩ := List.nodup_cons.1 his
    obtain ⟨hdone, hfailed⟩ := h.entry hi
    unfold cloneEntries
    cases hentry : cloneEntry src dst i m with
    | mk lasted m₁ =>
      rw [hentry] at hdone hfailed
      cases lasted with
      | false =>
        have hsame : m₁ = m := hfailed rfl
        dsimp only
        rw [hsame]
        exact h.accounted
      | true => exact ih (hdone rfl) his

end Cloning

/-- A new space is empty, and there is nothing else that is new. -/
theorem Created.cloning {r : Option ℕ × Mmu} (h : Created arch m owed r) {src dst : ℕ}
    (hlive : m.Live src) (hdst : r.1 = some dst) :
    Cloning arch r.2 owed src dst (List.range userPages) := by
  obtain ⟨hdead, -, sp, hspaces, hempty⟩ := h.made dst hdst
  have hne : src ≠ dst := fun heq => hdead (heq ▸ hlive)
  refine ⟨h.accounted, ?_, ?_, hne, fun i hi => ⟨List.mem_range.1 hi, ?_⟩⟩
  · unfold Live
    rw [hspaces, Function.update_of_ne hne]
    exact hlive
  · unfold Live
    rw [hspaces, Function.update_self]
    rfl
  · unfold pte
    rw [hspaces, Function.update_self]
    dsimp only
    rw [hempty, Pte.index_empty]

theorem Accounted.cloneUserSpace (h : m.Accounted arch owed) (hlive : m.Live c) :
    (m.cloneUserSpace arch c).2.Accounted arch owed := by
  have hcreated := createUserSpace_spec h
  unfold Mmu.cloneUserSpace
  split_ifs
  · exact h
  split
  · next m₁ hcreate =>
    rw [hcreate] at hcreated
    exact hcreated.accounted
  · next dst m₁ hcreate =>
    rw [hcreate] at hcreated
    have hentries := (hcreated.cloning hlive rfl).entries List.nodup_range
    split
    · next m₂ hloop =>
      rw [hloop] at hentries
      exact hentries
    · next m₂ hloop =>
      rw [hloop] at hentries
      exact hentries.destroy dst

/-! ## Runs -/

/-- `map_user_frames` overwrites no entry that names a frame of the pool. -/
def Spares (arch : Arch) (m : Mmu) : MmuEvent → Prop
  | .map cr3 vaddr _ len => ∀ a < (len + frameSize - 1) % 2 ^ arch.wordBits / frameSize,
      (userPte arch (vaddr + a * frameSize)).bind (fun i => (m.pte cr3 i).index) = none
  | _ => True

instance (arch : Arch) (m : Mmu) (e : MmuEvent) : Decidable (m.Spares arch e) := by
  cases e
  case map => exact inferInstanceAs (Decidable (∀ a < _, _))
  all_goals exact instDecidableTrue

theorem Accounted.mapUserFrames (h : m.Accounted arch owed) (hlive : m.Live c) {vaddr len : ℕ}
    (hout : Outside arch phys len) : ∃ owed',
    (m.mapUserFrames arch c vaddr phys len).2.Accounted arch owed' ∧
      (m.Spares arch (.map c vaddr phys len) → owed' = owed) := by
  unfold Mmu.mapUserFrames
  split_ifs
  · exact ⟨owed, h, fun _ => rfl⟩
  · exact ⟨owed, h, fun _ => rfl⟩
  · exact h.mapPages hlive hout

theorem Accounted.step {ev : MmuEvent} (h : m.Accounted arch owed) (hen : m.Enabled arch ev)
    (hspare : m.Spares arch ev) : (m.after arch ev).Accounted arch owed := by
  cases ev with
  | create => exact (createUserSpace_spec h).accounted
  | destroy c => exact h.destroy c
  | reserve c start len => exact h.reserveUserRange hen start len
  | map c vaddr phys len =>
    obtain ⟨owed', h', hsame⟩ := h.mapUserFrames hen.1 hen.2
    exact hsame hspare ▸ h'
  | demandFault c vaddr => exact h.handleDemandFault hen vaddr
  | cowFault c vaddr => exact h.handleCowFault hen vaddr
  | clone c => exact h.cloneUserSpace hen

theorem mapped_boot (k : ℕ) : boot.mapped k = 0 := refs_none slots k

theorem accounted_boot (arch : Arch) : boot.Accounted arch fun _ => 0 where
  sound := FramePool.sound_initial
  count := fun k => by
    have htabled : boot.tabled k = 0 := Finset.sum_eq_zero fun _ _ => rfl
    rw [mapped_boot, htabled]
    rfl
  root := fun _ hlive => absurd hlive Bool.false_ne_true
  full := fun _ _ hsp => (by cases hsp)
  apart := fun k hk => by
    have htabled : boot.tabled k = 0 := Finset.sum_eq_zero fun _ _ => rfl
    omega
  cow := fun _ _ _ _ hk => (by cases hk)

/-- The frame holds a page table or a directory of a live space. -/
def IsTable (m : Mmu) (k : ℕ) : Prop := ∃ c, ∃ phys ∈ m.chain c, indexOf phys = some k

theorem Accounted.tabled_pos (h : m.Accounted arch owed) : 0 < m.tabled k ↔ m.IsTable k := by
  unfold tabled
  rw [Finset.sum_pos_iff]
  refine exists_congr fun c => ⟨fun hc => ?_, fun ⟨phys, hmem, hk⟩ => ⟨?_, ?_⟩⟩
  · exact List.mem_filterMap.1 (List.count_pos_iff.1 hc.2)
  · refine (h.root c ?_).1
    unfold Live
    unfold chain at hmem
    split at hmem
    · next hsp => rw [hsp]; rfl
    · cases hmem
  · exact List.count_pos_iff.2 (List.mem_filterMap.2 ⟨phys, hmem, hk⟩)

/-- Nothing is taken if nothing is referred to. -/
theorem Accounted.used_zero (h : m.Accounted arch fun _ => 0) (hdead : ∀ c, ¬ m.Live c) :
    m.pool.used = 0 := by
  have hrefs : ∀ k, m.pool.refs k = 0 := fun k => by
    have hmapped : ¬ 0 < m.mapped k := fun hpos => by
      obtain ⟨⟨c, i⟩, -, hk⟩ := refs_pos.1 hpos
      exact hdead c (live_of_pte hk)
    have htabled : ¬ 0 < m.tabled k := fun hpos => by
      obtain ⟨c, phys, hmem, -⟩ := h.tabled_pos.1 hpos
      have hnone : m.spaces c = none := by simpa [Live] using hdead c
      unfold chain at hmem
      rw [hnone] at hmem
      cases hmem
    have hcount := h.count k
    omega
  rw [h.sound.used, Finset.card_eq_zero, Finset.eq_empty_iff_forall_notMem]
  intro k hk
  have hpos := (h.sound.bit_iff k).1 (FramePool.mem_taken.1 hk).2
  rw [hrefs k] at hpos
  exact absurd hpos (Nat.lt_irrefl 0)

theorem accounted_run {es : List MmuEvent}
    (hrun : Run (fun m e m' => MmuStep arch m e m' ∧ m.Spares arch e) boot es m) :
    m.Accounted arch fun _ => 0 :=
  Run.invariant (I := fun m => m.Accounted arch fun _ => 0)
    (fun _ _ _ h hstep => hstep.1.2 ▸ h.step hstep.1.1 hstep.2) (accounted_boot arch) hrun

/-- The counts of the frames are right in every state, and so are the bits and `USED`; a frame of
several entries is read-only and copy-on-write in all of them; and nothing stays taken when there
are no spaces left. -/
theorem frames_accounted {es : List MmuEvent}
    (hrun : Run (fun m e m' => MmuStep arch m e m' ∧ m.Spares arch e) boot es m) :
    (∀ k, (m.IsTable k → m.pool.refs k = m.mapped k + 1) ∧
      (¬ m.IsTable k → m.pool.refs k = m.mapped k)) ∧
      (∀ k, m.pool.bit k = true ↔ 0 < m.pool.refs k) ∧ m.pool.used = m.pool.taken.card ∧
      (∀ c i c' j k, i < userPages → j < userPages → c ≠ c' → (m.pte c i).index = some k →
        (m.pte c' j).index = some k → (m.pte c i).IsCow ∧ (m.pte c' j).IsCow) ∧
      ((∀ c, ¬ m.Live c) → m.pool.used = boot.pool.used) := by
  have h := accounted_run hrun
  refine ⟨fun k => ⟨fun htable => ?_, fun htable => ?_⟩, h.sound.bit_iff, h.sound.used,
    fun c i c' j k hi hj hne hk hk' => ?_, h.used_zero⟩
  · have hcount := h.count k
    have hone := (h.apart k (h.tabled_pos.2 htable)).1
    omega
  · have hcount := h.count k
    have hzero : ¬ 0 < m.tabled k := fun hpos => htable (h.tabled_pos.1 hpos)
    omega
  · have htwo : 1 < m.mapped k := one_lt_refs (h.slot (live_of_pte hk) hi)
      (h.slot (live_of_pte hk') hj)
      (fun heq => hne (congrArg Prod.fst heq)) hk hk'
    constructor
    · by_contra hnot
      have hle := h.cow c i k hi hk hnot
      omega
    · by_contra hnot
      have hle := h.cow c' j k hj hk' hnot
      omega

/-- A page of a process, a shared page and a page of its own in the copy. -/
def forkedPage : List MmuEvent :=
  [.create, .reserve poolStart userMemStart frameSize, .demandFault poolStart userMemStart,
    .clone poolStart, .cowFault poolStart userMemStart]

theorem run_of_plays {es : List MmuEvent}
    (h : Plays (fun m e => m.Enabled arch e ∧ m.Spares arch e) (Mmu.after arch) boot es) :
    Run (fun m e m' => MmuStep arch m e m' ∧ m.Spares arch e) boot es
      (es.foldl (Mmu.after arch) boot) :=
  (Run.of_plays h).mono fun _ _ _ hstep => ⟨⟨hstep.1.1, hstep.2⟩, hstep.1.2⟩

theorem frames_accounted_forked : (forkedPage.foldl (Mmu.after .i386) boot).pool.used =
    (forkedPage.foldl (Mmu.after .i386) boot).pool.taken.card :=
  (frames_accounted (run_of_plays (by decide +kernel : Plays _ _ boot forkedPage))).2.2.1

/-! A call that changes entries changes those of one space. -/

theorem setPte_other (hc : c' ≠ c) (i : ℕ) (e : Pte) :
    (m.setPte c i e).spaces c' = m.spaces c' := by
  cases hsp : m.spaces c with
  | none => simp [Mmu.setPte, hsp]
  | some sp => rw [setPte_spaces hsp, Function.update_of_ne hc]

theorem reservePages_other (hc : c' ≠ c) (n page : ℕ) :
    (Mmu.reservePages arch c n page m).2.spaces c' = m.spaces c' := by
  induction n generalizing m page with
  | zero => rfl
  | succ n ih =>
    rw [Mmu.reservePages]
    split
    · rfl
    · rw [ih]
      unfold Mmu.reservePage
      split_ifs
      · rfl
      · exact setPte_other hc ..

theorem reserveUserRange_other (hc : c' ≠ c) (start len : ℕ) :
    (m.reserveUserRange arch c start len).2.spaces c' = m.spaces c' := by
  unfold Mmu.reserveUserRange
  split_ifs
  · rfl
  · exact reservePages_other hc ..

theorem mapPages_other (hc : c' ≠ c) (n vaddr phys : ℕ) :
    (Mmu.mapPages arch c n vaddr phys m).2.spaces c' = m.spaces c' := by
  induction n generalizing m vaddr phys with
  | zero => rfl
  | succ n ih =>
    rw [Mmu.mapPages]
    split
    · rfl
    · rw [ih, setPte_other hc]

theorem mapUserFrames_other (hc : c' ≠ c) (vaddr phys len : ℕ) :
    (m.mapUserFrames arch c vaddr phys len).2.spaces c' = m.spaces c' := by
  unfold Mmu.mapUserFrames
  split_ifs
  · rfl
  · rfl
  · exact mapPages_other hc ..

theorem handleDemandFault_other (hc : c' ≠ c) (vaddr : ℕ) :
    (m.handleDemandFault arch c vaddr).2.spaces c' = m.spaces c' := by
  unfold Mmu.handleDemandFault
  split_ifs
  · rfl
  split
  · rfl
  split_ifs
  · rfl
  split
  · rfl
  next halloc => rw [setPte_other hc, (alloc_eq halloc).2.1]

/-- A process maps kernel memory where it has a page, and ends. -/
def overwrittenPage : List MmuEvent :=
  [.create, .reserve poolStart userMemStart frameSize, .demandFault poolStart userMemStart,
    .map poolStart userMemStart 0x00800000 frameSize, .destroy poolStart]

/-- Without the condition a frame stays taken. -/
theorem overwritten_frame_lost : ¬ ∀ (es : List MmuEvent) (m : Mmu), Run (MmuStep .i386) boot es m →
    (∀ c, ¬ m.Live c) → m.pool.used = boot.pool.used := by
  intro h
  have hplays : Plays (Mmu.Enabled .i386) (Mmu.after .i386) boot overwrittenPage := by
    decide +kernel
  have hused := h overwrittenPage _ (Run.of_plays hplays) fun c => ?_
  · exact absurd hused (by decide +kernel)
  obtain ⟨-, -, sp, hspaces, -⟩ := (createUserSpace_spec (accounted_boot .i386)).made poolStart
    (by decide +kernel)
  unfold overwrittenPage
  simp only [List.foldl_cons, List.foldl_nil, Mmu.after]
  unfold Live
  rw [(destroyUserSpace_of_ne (by decide)).1]
  by_cases hc : c = poolStart
  · rw [hc, Function.update_self]
    exact Bool.false_ne_true
  · rw [Function.update_of_ne hc, mapUserFrames_other hc, handleDemandFault_other hc,
      reserveUserRange_other hc, hspaces, Function.update_of_ne hc]
    exact Bool.false_ne_true

end Mmu

end Tcmk
