import Tcmk.Wm.Window

/-!
# What lies in an open page

The blocks of the heap lie one above the other, and a window's block starts on a page. Its last
page reaches beyond it unless its length is a multiple of the page size, and what lies there is the
start of the next block, wherever that block's alignment puts it. So the pages of the windows hold
nothing but the windows exactly if the lengths are such multiples (`window_isolation`).
-/

namespace Tcmk

open Lib

/-! ## Alignment -/

theorem le_alignUp {align : ℕ} (h : 0 < align) (x : ℕ) : x ≤ alignUp x align := by
  unfold alignUp
  have hdiv := Nat.div_add_mod (x + align - 1) align
  have hmod := Nat.mod_lt (x + align - 1) h
  rw [Nat.mul_comm] at hdiv
  omega

theorem alignUp_le {align x y : ℕ} (h : 0 < align) (hy : align ∣ y) (hxy : x ≤ y) :
    alignUp x align ≤ y := by
  obtain ⟨n, rfl⟩ := hy
  have hlt : (x + align - 1) / align < n + 1 := by
    rw [Nat.div_lt_iff_lt_mul h, Nat.add_mul, Nat.one_mul, Nat.mul_comm n]
    omega
  unfold alignUp
  rw [Nat.mul_comm align]
  exact Nat.mul_le_mul_right _ (Nat.le_of_lt_succ hlt)

theorem dvd_alignUp (x align : ℕ) : align ∣ alignUp x align := Nat.dvd_mul_left ..

theorem alignUp_of_dvd {align x : ℕ} (h : 0 < align) (hx : align ∣ x) : alignUp x align = x :=
  Nat.le_antisymm (alignUp_le h hx (Nat.le_refl x)) (le_alignUp h x)

/-- The page that the address before `x` is in ends at `x` rounded up. -/
theorem last_le_alignUp {align x : ℕ} (h : 0 < align) (hx : 0 < x) :
    ((x - 1) / align + 1) * align ≤ alignUp x align := by
  obtain ⟨n, hn⟩ := dvd_alignUp x align
  have hle := le_alignUp h x
  rw [hn] at hle ⊢
  rw [Nat.mul_comm align]
  refine Nat.mul_le_mul_right _ (Nat.succ_le_of_lt (Nat.div_lt_of_lt_mul ?_))
  omega

/-- A page number, and the addresses of the page. -/
theorem page_eq_iff (addr page : ℕ) :
    addr / pageSize = page ↔ page * pageSize ≤ addr ∧ addr < (page + 1) * pageSize := by
  unfold pageSize
  omega

/-! ## The heap -/

/-- The blocks lie one above the other below `top`, each where its alignment puts it. -/
inductive Stacked : List Block → ℕ → Prop
  | nil : Stacked [] heapStart
  | cons {bs : List Block} {top : ℕ} {b : Block} :
      Stacked bs top → 0 < b.align → b.start = alignUp top b.align → 0 < b.len →
      Stacked (b :: bs) b.limit

namespace Stacked

variable {bs pre post : List Block} {b c : Block} {top : ℕ}

theorem drop (h : Stacked (pre ++ bs) top) : ∃ top', Stacked bs top' ∧ top' ≤ top := by
  induction pre generalizing top with
  | nil => exact ⟨top, h, Nat.le_refl top⟩
  | cons b pre ih =>
    cases h with
    | cons hrest halign hstart hlen =>
      obtain ⟨top', hbs, hle⟩ := ih hrest
      refine ⟨top', hbs, Nat.le_trans hle (Nat.le_trans (le_alignUp halign _) ?_)⟩
      rw [← hstart]
      exact Nat.le_add_right ..

theorem len_pos (h : Stacked bs top) (hb : b ∈ bs) : 0 < b.len := by
  obtain ⟨pre, post, rfl⟩ := List.append_of_mem hb
  obtain ⟨_, hdrop, -⟩ := h.drop
  cases hdrop with
  | cons _ _ _ hlen => exact hlen

theorem limit_le (h : Stacked bs top) (hb : b ∈ bs) : b.limit ≤ top := by
  obtain ⟨pre, post, rfl⟩ := List.append_of_mem hb
  obtain ⟨_, hdrop, hle⟩ := h.drop
  cases hdrop with
  | cons => exact hle

/-- Earlier blocks lie below. -/
theorem earlier (h : Stacked (pre ++ b :: post) top) (hc : c ∈ post) : c.limit ≤ b.start := by
  obtain ⟨_, hdrop, -⟩ := h.drop
  cases hdrop with
  | cons hrest halign hstart _ =>
    rw [hstart]
    exact Nat.le_trans (hrest.limit_le hc) (le_alignUp halign _)

/-- The next block starts where its alignment puts it. -/
theorem next (h : Stacked (pre ++ c :: b :: post) top) : c.start = alignUp b.limit c.align := by
  obtain ⟨_, hdrop, -⟩ := h.drop
  cases hdrop with
  | cons hrest _ hstart _ =>
    cases hrest with
    | cons => exact hstart

end Stacked

namespace Desktop

variable {s s' : Desktop} {es : List DesktopEvent} {wordBits : ℕ}

/-- The pages of a block. -/
def Spans (b : Block) (page : ℕ) : Prop :=
  b.start / pageSize ≤ page ∧ page ≤ (b.limit - 1) / pageSize

/-- The blocks are stacked, and the open pages are all pages of blocks that start on a page. -/
structure Laid (s : Desktop) : Prop where
  stacked : Stacked s.blocks s.heap.nextFree
  opened : ∀ o ∈ s.opened, o.block ∈ s.blocks ∧ pageSize ∣ o.block.start ∧ Spans o.block o.page ∧
    ∃ o' ∈ s.opened, o'.block = o.block ∧ o'.page = (o.block.limit - 1) / pageSize

theorem kmalloc_cases (s : Desktop) (size align : ℕ) :
    s.kmalloc size align = (none, s) ∨ ∃ b : Block, 0 < b.align ∧ b.align = align ∧
      b.start = alignUp s.heap.nextFree b.align ∧ 0 < b.len ∧ b.len = size ∧
      s.kmalloc size align =
        (some b, { s with heap := ⟨b.limit⟩, blocks := b :: s.blocks }) := by
  unfold kmalloc
  cases halloc : s.heap.kmallocAligned size align with
  | none => exact .inl rfl
  | some r =>
    unfold Heap.kmallocAligned at halloc
    simp only at halloc
    split_ifs at halloc with hbad
    obtain ⟨hsize, halign⟩ := not_or.1 hbad
    have hpos : 0 < align := by
      obtain ⟨n, rfl⟩ := Classical.not_not.1 halign
      exact Nat.two_pow_pos n
    obtain rfl := Option.some.inj halloc
    exact .inr ⟨⟨alignUp s.heap.nextFree align, size, align⟩, hpos, rfl, rfl,
      Nat.pos_of_ne_zero hsize, rfl, rfl⟩

/-- A new block. -/
theorem Laid.push (h : s.Laid) {b : Block} (halign : 0 < b.align)
    (hstart : b.start = alignUp s.heap.nextFree b.align) (hlen : 0 < b.len) :
    ({ s with heap := ⟨b.limit⟩, blocks := b :: s.blocks } : Desktop).Laid where
  stacked := .cons h.stacked halign hstart hlen
  opened o ho := by
    obtain ⟨hmem, hrest⟩ := h.opened o ho
    exact ⟨List.mem_cons_of_mem _ hmem, hrest⟩

/-- Pages of one block are opened, the last one among them. -/
theorem Laid.open (h : s.Laid) {b : Block} {new : List OpenPage} (hb : b ∈ s.blocks)
    (hstart : pageSize ∣ b.start) (hblock : ∀ o ∈ new, o.block = b ∧ Spans b o.page)
    (hlast : ∃ o ∈ new, o.page = (b.limit - 1) / pageSize) :
    ({ s with opened := new ++ s.opened } : Desktop).Laid where
  stacked := h.stacked
  opened o ho := by
    rcases List.mem_append.1 ho with ho | ho
    · obtain ⟨rfl, hspans⟩ := hblock o ho
      obtain ⟨o', ho', hpage⟩ := hlast
      exact ⟨hb, hstart, hspans, o', List.mem_append_left _ ho', (hblock o' ho').1, hpage⟩
    · obtain ⟨hmem, hdvd, hspans, o', ho', hsame⟩ := h.opened o ho
      exact ⟨hmem, hdvd, hspans, o', List.mem_append_right _ ho', hsame⟩

/-- The pages that the loop opens, when it does not leave the user's region. -/
theorem mapPages_spec (space : ℕ) (b : Block) (n vaddr page : ℕ) (opened : List OpenPage)
    (hlow : userPde * 2 ^ 22 ≤ vaddr) (hhigh : vaddr + n * pageSize ≤ (userPde + 1) * 2 ^ 22) :
    ∃ new, mapPages space b n vaddr page opened = (true, new ++ opened) ∧
      (∀ o ∈ new, o.block = b ∧ page ≤ o.page ∧ o.page < page + n) ∧
      ∀ i < n, ∃ o ∈ new, o.page = page + i := by
  induction n generalizing vaddr page opened with
  | zero =>
    exact ⟨[], rfl, fun o ho => absurd ho List.not_mem_nil, fun i hi =>
      absurd hi (Nat.not_lt_zero i)⟩
  | succ n ih =>
    have hpde : vaddr / 2 ^ 22 = userPde := by
      unfold userPde pageSize at *
      omega
    obtain ⟨new, heq, hnew, hall⟩ := ih (vaddr + pageSize) (page + 1) (⟨space, page, b⟩ :: opened)
      (Nat.le_trans hlow (Nat.le_add_right ..)) (by unfold pageSize at *; omega)
    refine ⟨new ++ [⟨space, page, b⟩], ?_, fun o ho => ?_, fun i hi => ?_⟩
    · rw [mapPages, if_neg (not_not.2 hpde), heq]
      simp
    · rcases List.mem_append.1 ho with ho | ho
      · obtain ⟨hblock, hle, hlt⟩ := hnew o ho
        exact ⟨hblock, by omega, by omega⟩
      · rw [List.mem_singleton.1 ho]
        exact ⟨rfl, Nat.le_refl _, Nat.lt_add_of_pos_right (Nat.succ_pos n)⟩
    · rcases i with _ | i
      · exact ⟨_, List.mem_append_right _ (List.mem_singleton_self _), rfl⟩
      · obtain ⟨o, ho, hpage⟩ := hall i (Nat.lt_of_succ_lt_succ hi)
        exact ⟨o, List.mem_append_left _ ho, by omega⟩

/-- The number of pages that `map_user_frames` opens takes it just to the block's last page. -/
theorem last_page {b : Block} (hstart : pageSize ∣ b.start) (hlen : 0 < b.len) :
    b.start / pageSize + (b.len + pageSize - 1) / pageSize = (b.limit - 1) / pageSize + 1 := by
  unfold Block.limit pageSize at *
  omega

theorem Laid.mapUserFrames (h : s.Laid) (space : ℕ) {n : ℕ} {b : Block} (hb : b ∈ s.blocks)
    (hstart : pageSize ∣ b.start) (hlen : 0 < b.len) (hn : n < windowMapSlots)
    (hsize : b.len ≤ windowMapSlot) :
    ∃ s', s.mapUserFrames space (windowMapBase + n * windowMapSlot) b = (true, s') ∧ s'.Laid := by
  have hlast := last_page hstart hlen
  obtain ⟨new, heq, hnew, hall⟩ := mapPages_spec space b ((b.len + pageSize - 1) / pageSize)
    (windowMapBase + n * windowMapSlot) (b.start / pageSize) s.opened
    (by unfold userPde windowMapBase windowMapSlot; omega)
    (by unfold userPde windowMapBase windowMapSlot windowMapSlots pageSize at *; omega)
  refine ⟨{ s with opened := new ++ s.opened }, ?_, h.open hb hstart (fun o ho => ?_) ?_⟩
  · unfold Desktop.mapUserFrames
    rw [if_neg (Nat.ne_of_gt hlen), if_neg]
    · simp only [heq]
    · have hdvd := Nat.mod_eq_zero_of_dvd hstart
      unfold windowMapBase windowMapSlot pageSize at *
      omega
  · obtain ⟨hblock, hle, hlt⟩ := hnew o ho
    exact ⟨hblock, hle, by omega⟩
  · obtain ⟨o, ho, hpage⟩ := hall ((b.len + pageSize - 1) / pageSize - 1)
      (by unfold pageSize at *; omega)
    exact ⟨o, ho, by unfold pageSize at *; omega⟩

theorem Laid.protectUserRange (h : s.Laid) {b : Block} (hb : b ∈ s.blocks)
    (hstart : pageSize ∣ b.start) (hlen : 0 < b.len) : (s.protectUserRange b).Laid := by
  have hfirst : b.start / pageSize ≤ (b.limit - 1) / pageSize :=
    Nat.div_le_div_right (Nat.le_sub_one_of_lt (Nat.lt_add_of_pos_right hlen))
  unfold Desktop.protectUserRange
  rw [if_neg (Nat.ne_of_gt hlen)]
  refine h.open hb hstart (fun o ho => ?_) ?_
  · obtain ⟨page, hpage, rfl⟩ := List.mem_map.1 ho
    obtain ⟨i, hi, rfl⟩ := List.mem_range'.1 hpage
    refine ⟨rfl, Nat.le_add_right .., ?_⟩
    show b.start / pageSize + 1 * i ≤ (b.start + b.len - 1) / pageSize
    omega
  · refine ⟨_, List.mem_map.2 ⟨(b.limit - 1) / pageSize, List.mem_range'.2
      ⟨(b.limit - 1) / pageSize - b.start / pageSize, ?_, ?_⟩, rfl⟩, rfl⟩
    · show _ < (b.limit - 1) / pageSize + 1 - _
      omega
    · omega

theorem place_laid (h : s.Laid) (slot : Option ℕ) (w : Window) : (s.place slot w).2.Laid := by
  unfold place
  split <;> exact ⟨h.stacked, h.opened⟩

theorem Laid.create (h : s.Laid) (owner space width height : ℕ) (system : Bool) :
    (s.create wordBits owner space width height system).2.Laid := by
  unfold Desktop.create
  by_cases hzero : width = 0 ∨ height = 0
  · rw [if_pos hzero]
    exact h
  · rw [if_neg hzero]
    simp only
    by_cases hslot : s.freeSlot = none ∧ s.windows.length ≥ maxWindows
    · rw [if_pos hslot]
      exact h
    · rw [if_neg hslot]
      rcases s.kmalloc_cases (width * height * 4 % 2 ^ wordBits) pageSize with
        heq | ⟨b, halign, hpage, hstart, hlen, hsize, heq⟩
      · rw [heq]
        exact h
      · have hpush := h.push halign hstart hlen
        have hdvd : pageSize ∣ b.start := hstart ▸ hpage ▸ dvd_alignUp ..
        have hmem : b ∈ b :: s.blocks := List.mem_cons_self
        rw [heq]
        simp only
        split_ifs with hspace hfull
        · exact hpush
        · obtain ⟨hn, hbytes⟩ := not_or.1 hfull
          obtain ⟨s', hmap, hlaid⟩ := hpush.mapUserFrames space hmem hdvd hlen
            (Nat.lt_of_not_le hn) (hsize ▸ Nat.le_of_not_lt hbytes)
          simp only [hmap]
          exact place_laid hlaid _ _
        · exact place_laid (hpush.protectUserRange hmem hdvd hlen) _ _
        · exact place_laid hpush _ _

theorem Laid.step (h : s.Laid) {e : DesktopEvent} (hstep : DesktopStep wordBits s e s') :
    s'.Laid := by
  obtain rfl := hstep
  cases e with
  | kmalloc size align =>
    rcases s.kmalloc_cases size align with heq | ⟨b, halign, -, hstart, hlen, -, heq⟩
    · simp only [after, heq]
      exact h
    · simp only [after, heq]
      exact h.push halign hstart hlen
  | create owner space width height system => exact h.create owner space width height system
  | close owner => exact ⟨h.stacked, h.opened⟩

theorem laid_run (h : Run (DesktopStep wordBits) boot es s) : s.Laid :=
  h.invariant (I := Laid) (fun _ _ _ h hstep => h.step hstep)
    ⟨.nil, fun _ ho => absurd ho List.not_mem_nil⟩

/-! ## What the pages hold -/

/-- An open page lies in the window's block. -/
def Filled (o : OpenPage) : Prop := ∀ addr, addr / pageSize = o.page → o.block.Covers addr

/-- No byte of another block lies in an open page. -/
def Private (s : Desktop) (o : OpenPage) : Prop :=
  ∀ b ∈ s.blocks, b ≠ o.block → ∀ addr, addr / pageSize = o.page → ¬ b.Covers addr

/-- The open pages hold the windows and nothing else. -/
def Isolated (s : Desktop) : Prop := ∀ o ∈ s.opened, Filled o ∧ s.Private o

/-- The block that is allocated next after `b` starts beyond the last page of `b`. -/
def Apart (s : Desktop) (b : Block) : Prop :=
  ∀ pre c post, s.blocks = pre ++ c :: b :: post →
    alignUp b.limit pageSize ≤ alignUp b.limit c.align

theorem Laid.filled_iff (h : s.Laid) :
    (∀ o ∈ s.opened, Filled o) ↔ ∀ o ∈ s.opened, pageSize ∣ o.block.len := by
  constructor
  · intro hfilled o ho
    obtain ⟨hmem, hstart, -, o', ho', hblock, hpage⟩ := h.opened o ho
    have hlen := h.stacked.len_pos hmem
    -- The last byte of the last page is in the block.
    have hlast := hfilled o' ho' (((o.block.limit - 1) / pageSize + 1) * pageSize - 1) (by
      rw [hpage]
      unfold pageSize
      omega)
    rw [hblock] at hlast
    have hlt := hlast.2
    unfold Block.limit pageSize at *
    omega
  · intro hlens o ho addr haddr
    obtain ⟨hmem, hstart, hspans, -⟩ := h.opened o ho
    have hlen := hlens o ho
    have hpos := h.stacked.len_pos hmem
    obtain ⟨hlow, hhigh⟩ := (page_eq_iff addr o.page).1 haddr
    unfold Spans at hspans
    constructor
    · unfold Block.limit pageSize at *
      omega
    · unfold Block.limit pageSize at *
      omega

/-- Another block lies before the window's, or after the block that comes next. -/
theorem Laid.other (h : s.Laid) {b c : Block} (hb : b ∈ s.blocks) (hc : c ∈ s.blocks)
    (hne : c ≠ b) : c.limit ≤ b.start ∨ ∃ pre d post, s.blocks = pre ++ d :: b :: post ∧
      d.start = alignUp b.limit d.align ∧ d.start ≤ c.start := by
  obtain ⟨pre, post, heq⟩ := List.append_of_mem hb
  have hstacked := h.stacked
  rw [heq] at hstacked hc
  rcases List.mem_append.1 hc with hc | hc
  · -- `d` is the last block of `pre`, and `c` is `d` or one that comes later.
    obtain ⟨pre', d, rfl⟩ := (List.eq_nil_or_concat pre).resolve_left fun hnil => by
      rw [hnil] at hc
      exact List.not_mem_nil hc
    rw [List.concat_eq_append] at hc heq hstacked
    rw [List.append_assoc] at heq hstacked
    refine .inr ⟨pre', d, post, heq, hstacked.next, ?_⟩
    rcases List.mem_append.1 hc with hc | hc
    · obtain ⟨p, q, rfl⟩ := List.append_of_mem hc
      have hassoc : p ++ c :: q ++ ([d] ++ b :: post) = p ++ c :: (q ++ d :: b :: post) := by simp
      rw [hassoc] at hstacked
      have hbelow := hstacked.earlier (c := d) (by simp)
      exact Nat.le_trans (Nat.le_add_right ..) hbelow
    · exact Nat.le_of_eq (congrArg Block.start (List.mem_singleton.1 hc).symm)
  · rcases List.mem_cons.1 hc with rfl | hc
    · exact absurd rfl hne
    · exact .inl (hstacked.earlier hc)

theorem Laid.private_iff (h : s.Laid) :
    (∀ o ∈ s.opened, s.Private o) ↔ ∀ o ∈ s.opened, s.Apart o.block := by
  constructor
  · intro hprivate o ho pre c post heq
    obtain ⟨hmem, -, -, o', ho', hblock, hpage⟩ := h.opened o ho
    have hstacked := h.stacked
    rw [heq] at hstacked
    have hc : c ∈ s.blocks := by rw [heq]; simp
    have hstart : c.start = alignUp o.block.limit c.align := hstacked.next
    have hbelow : o.block.limit ≤ c.start := hstacked.earlier List.mem_cons_self
    have hlen := h.stacked.len_pos hmem
    have hlen' := h.stacked.len_pos hc
    by_contra hlt
    rw [← hstart] at hlt
    -- The first byte of the next block is then in the last page.
    have hmul := (@alignUp_le pageSize o.block.limit
      (((o.block.limit - 1) / pageSize + 1) * pageSize) (by decide) (Nat.dvd_mul_left ..)
      (by unfold pageSize; omega))
    refine hprivate o' ho' c hc ?_ c.start ?_ ⟨Nat.le_refl _, Nat.lt_add_of_pos_right hlen'⟩
    · rw [hblock]
      rintro rfl
      unfold Block.limit at hbelow
      omega
    · rw [hpage, page_eq_iff]
      unfold Block.limit pageSize at *
      omega
  · intro hapart o ho c hc hne addr haddr hcovers
    obtain ⟨hmem, hstart, hspans, -⟩ := h.opened o ho
    obtain ⟨hlow, hhigh⟩ := (page_eq_iff addr o.page).1 haddr
    have hlen := h.stacked.len_pos hmem
    obtain ⟨hfrom, hto⟩ := hcovers
    unfold Spans at hspans
    rcases h.other hmem hc hne with hbelow | ⟨pre, d, post, heq, hnext, hle⟩
    · unfold Block.limit pageSize at *
      omega
    · have hpages := hapart o ho pre d post heq
      rw [← hnext] at hpages
      have hup := @last_le_alignUp pageSize _ (by decide)
        (Nat.lt_of_lt_of_le hlen (Nat.le_add_left o.block.len o.block.start))
      have hend : (o.page + 1) * pageSize ≤ ((o.block.limit - 1) / pageSize + 1) * pageSize :=
        Nat.mul_le_mul_right _ (Nat.succ_le_succ hspans.2)
      have hfar : addr < c.start :=
        Nat.lt_of_lt_of_le hhigh (Nat.le_trans hend (Nat.le_trans hup (Nat.le_trans hpages hle)))
      exact Nat.lt_irrefl addr (Nat.lt_of_lt_of_le hfar hfrom)

end Desktop

open Desktop (Filled)

/-- **Isolation.** In every state of a run from the boot on, the pages opened for windows hold
nothing but the windows exactly if the byte counts of these windows are multiples of the page size.
No byte of another block lies in them exactly if after each of these windows the next block is
aligned beyond the window's last page. -/
theorem window_isolation {wordBits : ℕ} {es : List DesktopEvent} {s : Desktop}
    (hrun : Run (DesktopStep wordBits) Desktop.boot es s) :
    (s.Isolated ↔ ∀ o ∈ s.opened, pageSize ∣ o.block.len) ∧
      ((∀ o ∈ s.opened, s.Private o) ↔ ∀ o ∈ s.opened, s.Apart o.block) := by
  have h := Desktop.laid_run hrun
  refine ⟨⟨fun hisolated => h.filled_iff.1 fun o ho => (hisolated o ho).1, fun hlens o ho => ?_⟩,
    h.private_iff⟩
  refine ⟨h.filled_iff.2 hlens o ho, h.private_iff.2 (fun o ho pre c post heq => ?_) o ho⟩
  -- A window that ends on a page boundary leaves no tail.
  obtain ⟨-, hstart, -⟩ := h.opened o ho
  have hstacked := h.stacked
  rw [heq] at hstacked
  have hbelow : o.block.limit ≤ c.start := hstacked.earlier List.mem_cons_self
  have hlimit : pageSize ∣ o.block.limit := Nat.dvd_add hstart (hlens o ho)
  rw [alignUp_of_dvd (by decide) hlimit, ← hstacked.next]
  exact hbelow

/-- A window of 32 by 32 pixels takes one page, and a stack after it does not reach into it. -/
theorem window_isolation_page :
    ((Desktop.boot.after 32 (.create 1 5 32 32 false)).after 32 (.kmalloc 16384 16)).Isolated := by
  refine (@window_isolation _ [.create 1 5 32 32 false, .kmalloc 16384 16] _
    (.cons rfl (.cons rfl (.nil _)))).1.2 ?_
  decide +kernel

/-- A window of 10 by 10 pixels, and a task's stack behind it in the window's page. -/
theorem window_isolation_fails : ¬ ∀ (wordBits : ℕ) (es : List DesktopEvent) (s : Desktop),
    Run (DesktopStep wordBits) Desktop.boot es s → s.Isolated := by
  intro hall
  have hrun : Run (DesktopStep 32) Desktop.boot [.create 1 5 10 10 false, .kmalloc 16384 16]
      ((Desktop.boot.after 32 (.create 1 5 10 10 false)).after 32 (.kmalloc 16384 16)) :=
    .cons rfl (.cons rfl (.nil _))
  have hblock : (⟨0x00800190, 16384, 16⟩ : Block) ∈ ((Desktop.boot.after 32
      (.create 1 5 10 10 false)).after 32 (.kmalloc 16384 16)).blocks := by decide +kernel
  obtain ⟨o, ho, hpage, hbuffer⟩ : ∃ o ∈ ((Desktop.boot.after 32
      (.create 1 5 10 10 false)).after 32 (.kmalloc 16384 16)).opened,
      o.page = 0x800 ∧ o.block = ⟨0x00800000, 400, 4096⟩ := by decide +kernel
  refine (hall 32 _ _ hrun o ho).2 _ hblock (by rw [hbuffer]; decide) 0x00800190 ?_
    ⟨Nat.le_refl _, by decide⟩
  rw [hpage]
  decide

end Tcmk
