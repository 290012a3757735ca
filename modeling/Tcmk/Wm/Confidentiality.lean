import Tcmk.Lib.Unwinding
import Tcmk.Wm.Isolation
import Tcmk.Wm.Keyboard

/-!
# Who reads a key

Nothing empties a slot's ring when its window is closed or a new one takes the slot, and a slot's
keys can be polled by any task. `keyboard_confidentiality`: in a run in which keys go to windows in
use only, new windows find an empty ring, and tasks poll other tasks' slots only while they are
empty, a task reads exactly keys typed into windows of its own, in order and once each, and what it
reads does not depend on the keys typed into other windows.

**The history.** `Watched` keeps beside the window manager what was delivered and to whom, which of
it is still in a ring, and every key that a task has taken.

**Two runs.** States are `Alike` to a task if the windows and the focus are the same and the task's
own rings hold the same keys; where in the ring they lie may differ.

**The focus.** A window that is closed gives the focus back to the shell, so that only the shell's
own command can give it to a slot that is not in use: `properRun_of_aims`.
-/

namespace Tcmk

open Lib

namespace KeyRing

variable {q q' : KeyRing} {l : List UInt8} {key : UInt8}

/-- The ring holds these keys, the oldest first. -/
def Waiting (q : KeyRing) (l : List UInt8) : Prop :=
  ∃ n, l.length < keyQueue ∧ q.tail = n % keyQueue ∧ q.head = (n + l.length) % keyQueue ∧
    Holds (· % keyQueue) q.keys n l

theorem waiting_initial : initial.Waiting [] := ⟨0, by decide, rfl, rfl, .nil⟩

theorem Waiting.hasKey_iff (h : q.Waiting l) : q.hasKey = true ↔ l ≠ [] := by
  obtain ⟨n, hlen, htail, hhead, -⟩ := h
  rw [hasKey, bne_iff_ne, htail, hhead, ← List.length_pos_iff]
  unfold keyQueue at *
  omega

theorem Waiting.full_iff (h : q.Waiting l) : q.full = true ↔ l.length + 1 = keyQueue := by
  obtain ⟨n, hlen, htail, hhead, -⟩ := h
  rw [full, beq_iff_eq, htail, hhead]
  unfold keyQueue at *
  omega

theorem Waiting.deliver (h : q.Waiting l) (hfull : q.full = false) (key : UInt8) :
    (q.deliverKey key).Waiting (l ++ [key]) := by
  have hroom : l.length + 1 ≠ keyQueue := fun hlen => by
    rw [h.full_iff.2 hlen] at hfull
    cases hfull
  obtain ⟨n, hlen, htail, hhead, hkeys⟩ := h
  rw [deliverKey, hfull]
  refine ⟨n, ?_, htail, ?_, ?_⟩
  · rw [List.length_append, List.length_singleton]
    omega
  · show (q.head + 1) % keyQueue = _
    rw [hhead, List.length_append, List.length_singleton, Nat.mod_add_mod, Nat.add_assoc]
  · show Holds _ (Function.update q.keys q.head key) n _
    rw [hhead]
    refine hkeys.push fun k hk => ?_
    unfold keyQueue at *
    omega

theorem Waiting.poll_nil (h : q.Waiting []) : q.pollKey = (0, q) := by
  obtain ⟨n, -, htail, hhead, -⟩ := h
  rw [pollKey, if_pos (htail.trans hhead.symm)]

theorem Waiting.poll_cons (h : q.Waiting (key :: l)) :
    q.pollKey.1 = key ∧ q.pollKey.2.Waiting l := by
  have hne : ¬ q.tail = q.head := by
    have hkey := h.hasKey_iff.2 (List.cons_ne_nil _ _)
    rwa [hasKey, bne_iff_ne] at hkey
  obtain ⟨n, hlen, htail, hhead, hkeys⟩ := h
  rw [List.length_cons] at hlen hhead
  rw [pollKey, if_neg hne]
  refine ⟨?_, n + 1, Nat.lt_of_succ_lt hlen, ?_, ?_, hkeys.tail⟩
  · rw [htail]
    exact hkeys.head
  · show (q.tail + 1) % keyQueue = _
    rw [htail, Nat.mod_add_mod]
  · show q.head = _
    rw [hhead]
    congr 1
    omega

theorem deliverKey_full (h : q.full = true) : q.deliverKey key = q := by
  rw [deliverKey, h]
  rfl

end KeyRing

namespace Gui

variable {wordBits : ℕ} {s t : Gui} {e : GuiEvent} {index task window i : ℕ} {ascii : UInt8}

/-! ## Frames -/

/-- The owner of a window in use. -/
def recipient (s : Gui) (index : ℕ) : Option ℕ :=
  match s.desktop.windows[index]? with
  | none => none
  | some w => if w.used then some w.owner else none

theorem recipient_eq_some : s.recipient index = some task ↔ s.Owns task index := by
  unfold recipient Owns
  cases s.desktop.windows[index]? with
  | none => simp
  | some w => cases hused : w.used <;> simp [hused]

theorem recipient_ne_none : s.recipient index ≠ none ↔ s.InUse index := by
  unfold recipient InUse
  cases s.desktop.windows[index]? with
  | none => simp
  | some w => cases hused : w.used <;> simp [hused]

/-- The window lands in one slot of the table. -/
theorem place_windows {d : Desktop} {slot : Option ℕ} (hslot : d.freeSlot = slot) (w : Window) :
    ∃ index, (d.place slot w).1 = some index ∧ (d.place slot w).2.windows[index]? = some w ∧
      ∀ i, i ≠ index → (d.place slot w).2.windows[i]? = d.windows[i]? := by
  cases slot with
  | none =>
    refine ⟨d.windows.length, rfl, List.getElem?_concat_length, fun i hi => ?_⟩
    rcases Nat.lt_or_gt_of_ne hi with hlt | hgt
    · exact List.getElem?_append_left hlt
    · show (d.windows ++ [w])[i]? = _
      rw [List.getElem?_eq_none (Nat.le_of_lt hgt), List.getElem?_eq_none]
      rw [List.length_append, List.length_singleton]
      omega
  | some index =>
    obtain ⟨hlt, -⟩ := List.findIdx?_eq_some_iff_getElem.1 hslot
    exact ⟨index, rfl, List.getElem?_set_self hlt, fun i hi => List.getElem?_set_ne hi.symm⟩

/-- The table is as it was, or one slot has a new window of the owner. -/
def Placed (d : Desktop) (owner : ℕ) (r : Option ℕ × Desktop) : Prop :=
  r.1 = none ∧ r.2.windows = d.windows ∨ ∃ index w, r.1 = some index ∧ w.used = true ∧
    w.owner = owner ∧ r.2.windows[index]? = some w ∧ ∀ i, i ≠ index → r.2.windows[i]? =
    d.windows[i]?

theorem placed_place {d d' : Desktop} {owner : ℕ} {w : Window} (hwindows : d'.windows = d.windows)
    (hused : w.used = true) (howner : w.owner = owner) :
    Placed d owner (d'.place d.freeSlot w) := by
  have hslot : d'.freeSlot = d.freeSlot := by rw [Desktop.freeSlot, Desktop.freeSlot, hwindows]
  obtain ⟨index, hfst, hself, hother⟩ := place_windows hslot w
  exact .inr ⟨index, w, hfst, hused, howner, hself, fun i hi =>
    (hother i hi).trans (by rw [hwindows])⟩

/-- `create` fails and leaves the table as it is, or it places a window of the owner. -/
theorem create_place (d : Desktop) (owner space width height : ℕ) (system : Bool) :
    ((d.create wordBits owner space width height system).1 = none ∧
        (d.create wordBits owner space width height system).2.windows = d.windows) ∨
      ∃ (d' : Desktop) (w : Window), d'.windows = d.windows ∧ w.used = true ∧ w.owner = owner ∧
        w.width = width ∧ w.height = height ∧ w.system = system ∧
        d.create wordBits owner space width height system = d'.place d.freeSlot w := by
  unfold Desktop.create
  by_cases hzero : width = 0 ∨ height = 0
  · rw [if_pos hzero]
    exact .inl ⟨rfl, rfl⟩
  rw [if_neg hzero]
  simp only
  by_cases hslot : d.freeSlot = none ∧ d.windows.length ≥ maxWindows
  · rw [if_pos hslot]
    exact .inl ⟨rfl, rfl⟩
  rw [if_neg hslot]
  obtain hnone | ⟨b, -, -, -, -, -, hsome⟩ :=
    Desktop.kmalloc_cases d (width * height * 4 % 2 ^ wordBits) pageSize
  · rw [hnone]
    exact .inl ⟨rfl, rfl⟩
  rw [hsome]
  simp only
  split_ifs with hspace hfull hsystem
  · exact .inl ⟨rfl, rfl⟩
  · have hmap : ∀ (s : Desktop) (vaddr : ℕ), (s.mapUserFrames space vaddr b).2.windows =
      s.windows :=
      fun s vaddr => by
        unfold Desktop.mapUserFrames
        split_ifs <;> rfl
    generalize hr : Desktop.mapUserFrames _ _ _ _ = r
    obtain ⟨ok, d'⟩ := r
    have hwindows : d'.windows = d.windows := by
      have := hmap _ _ ▸ congrArg (fun r : Bool × Desktop => r.2.windows) hr
      exact this.symm
    cases ok with
    | false => exact .inl ⟨rfl, hwindows⟩
    | true => exact .inr ⟨d', _, hwindows, rfl, rfl, rfl, rfl, rfl, rfl⟩
  · refine .inr ⟨_, _, ?_, rfl, rfl, rfl, rfl, rfl, rfl⟩
    unfold Desktop.protectUserRange
    split_ifs <;> rfl
  · refine .inr ⟨_, _, ?_, rfl, rfl, rfl, rfl, rfl, rfl⟩
    rfl

theorem placed_create (d : Desktop) (owner space width height : ℕ) (system : Bool) :
    Placed d owner (d.create wordBits owner space width height system) := by
  obtain hnone | ⟨d', w, hwindows, hused, howner, -, -, -, heq⟩ :=
    @create_place wordBits d owner space width height system
  · exact .inl hnone
  · rw [heq]
    exact placed_place hwindows hused howner

/-- The window manager apart from the rings. -/
def SameWindows (s t : Gui) : Prop :=
  t.desktop = s.desktop ∧ t.focused = s.focused ∧ t.shell = s.shell

theorem deliverKey_same : SameWindows s (s.deliverKey index ascii) := by
  unfold deliverKey
  split_ifs <;> exact ⟨rfl, rfl, rfl⟩

theorem pollKey_same : SameWindows s (s.pollKey window).2 := by
  unfold pollKey
  split_ifs <;> exact ⟨rfl, rfl, rfl⟩

theorem SameWindows.owns (h : SameWindows s t) : t.Owns task index ↔ s.Owns task index := by
  rw [Owns, h.1]
  rfl

theorem pollKey_of_ne (hi : i ≠ window) : (s.pollKey window).2.rings i = s.rings i := by
  unfold pollKey
  split_ifs
  · rfl
  · exact Function.update_of_ne hi ..

theorem pollKey_none (h : s.hasKey window = false) : s.pollKey window = (0, s) := by
  unfold pollKey
  split_ifs with hmax
  · rfl
  have hring : (s.rings window).pollKey = (0, s.rings window) := by
    rw [hasKey, decide_eq_true (not_le.1 hmax), Bool.true_and, KeyRing.hasKey,
      bne_eq_false_iff_eq] at h
    rw [KeyRing.pollKey, if_pos h]
  rw [hring, Function.update_eq_self]

theorem firstWindowOf_owns (h : s.firstWindowOf task = some window) : s.Owns task window := by
  obtain ⟨hlt, hw, -⟩ := List.findIdx?_eq_some_iff_getElem.1 h
  simp only [Bool.and_eq_true, beq_iff_eq] at hw
  exact ⟨_, List.getElem?_eq_getElem hlt, hw.1.1, hw.2⟩

theorem target_of_focus {f : ℕ} (h : s.target = some f) :
    s.focused = some f ∧ s.shell ≠ some f := by
  unfold target at h
  split_ifs at h with hshell
  exact ⟨h, fun hf => hshell (h.trans hf.symm)⟩

/-- What a step must respect: a window takes a slot with an empty ring, a key goes to a window in
use, and a task polls a slot with keys only if the window is its own. -/
def Proper (wordBits : ℕ) (s : Gui) : GuiEvent → Prop
  | .create owner space width height system =>
    ∀ index ∈ (s.create wordBits owner space width height system).1, s.hasKey index = false
  | .startShell owner space width height =>
    ∀ index ∈ (s.create wordBits owner space width height true).1, s.hasKey index = false
  | .key _ => ∀ f ∈ s.target, s.InUse f
  | .pollKey task window => s.hasKey window = true → s.Owns task window
  | _ => True

instance : Decidable (s.Owns task index) := decidable_of_iff _ recipient_eq_some

instance : Decidable (s.InUse index) := decidable_of_iff _ recipient_ne_none

instance : Decidable (s.Enabled e) := by
  cases e <;> unfold Enabled <;> infer_instance

instance : Decidable (s.Proper wordBits e) := by
  cases e <;> unfold Proper <;> infer_instance

/-! ## What a step does to the windows -/

theorem create_rings (owner space width height : ℕ) (system : Bool) :
    (s.create wordBits owner space width height system).2.rings = s.rings := by
  unfold create
  split <;> rfl

/-- A new window is in use, and the other windows are what they were. -/
theorem create_owns {owner space width height : ℕ} {system : Bool}
    (h : (s.create wordBits owner space width height system).2.Owns task i) :
    s.Owns task i ∨
      (s.create wordBits owner space width height system).1 = some i ∧ task = owner := by
  have hplaced := @placed_create wordBits s.desktop owner space width height system
  unfold create at h ⊢
  generalize s.desktop.create wordBits owner space width height system = r at hplaced h ⊢
  obtain ⟨r, d⟩ := r
  cases r with
  | none =>
    rcases hplaced with ⟨-, hwindows⟩ | ⟨_, _, ⟨⟩, -⟩
    obtain ⟨w, hw, hused, howner⟩ := h
    exact .inl ⟨w, hwindows ▸ hw, hused, howner⟩
  | some index =>
    rcases hplaced with ⟨⟨⟩, -⟩ | ⟨_, w', ⟨⟩, -, howner', hself, hother⟩
    obtain ⟨w, hw, hused, howner⟩ := h
    by_cases hi : i = index
    · subst hi
      obtain rfl := Option.some.inj (hself.symm.trans hw)
      exact .inr ⟨rfl, howner.symm.trans howner'⟩
    · exact .inl ⟨w, (hother i hi).symm.trans hw, hused, howner⟩

theorem focus_same : (s.focus index).desktop = s.desktop ∧ (s.focus index).rings = s.rings := by
  unfold focus
  split_ifs <;> exact ⟨rfl, rfl⟩

theorem startShell_same (owner space width height : ℕ) :
    (s.startShell wordBits owner space width height).desktop =
        (s.create wordBits owner space width height true).2.desktop ∧
      (s.startShell wordBits owner space width height).rings = s.rings := by
  have hrings := @create_rings wordBits s owner space width height true
  unfold startShell
  generalize s.create wordBits owner space width height true = r at hrings ⊢
  obtain ⟨r, t⟩ := r
  cases r with
  | none => exact ⟨rfl, hrings⟩
  | some id =>
    obtain ⟨hdesktop, hrings'⟩ := @focus_same { t with shell := some id } id
    exact ⟨hdesktop, hrings'.trans hrings⟩

theorem closeOwnedBy_owns {owner : ℕ} (h : (s.closeOwnedBy owner).Owns task i) : s.Owns task i := by
  obtain ⟨w, hw, hused, howner⟩ := h
  rw [closeOwnedBy, Desktop.closeOwnedBy, List.getElem?_map] at hw
  cases hold : s.desktop.windows[i]? with
  | none =>
    rw [hold] at hw
    cases hw
  | some w' =>
    rw [hold] at hw
    obtain rfl := Option.some.inj hw
    simp only at hused howner
    split_ifs at hused howner with hskip
    exact ⟨w', hold, hused, howner⟩

/-- The windows that a task owns after a step that touches no ring: old ones, and one that took a
slot. -/
structure Rearranges (s t : Gui) : Prop where
  rings : t.rings = s.rings
  owns : ∀ task i, t.Owns task i → s.Owns task i ∨ s.hasKey i = false

theorem Rearranges.of_desktop (hdesktop : t.desktop = s.desktop) (hrings : t.rings = s.rings) :
    Rearranges s t := by
  refine ⟨hrings, fun task i h => ?_⟩
  obtain ⟨w, hw, hrest⟩ := h
  exact .inl ⟨w, hdesktop ▸ hw, hrest⟩

theorem kmalloc_windows (d : Desktop) (size align : ℕ) :
    (d.kmalloc size align).2.windows = d.windows := by
  rcases d.kmalloc_cases size align with heq | ⟨b, -, -, -, -, -, heq⟩ <;> rw [heq]

theorem rearranges_kmalloc (size align : ℕ) :
    Rearranges s { s with desktop := (s.desktop.kmalloc size align).2 } := by
  refine ⟨rfl, fun task i h => ?_⟩
  obtain ⟨w, hw, hrest⟩ := h
  exact .inl ⟨w, kmalloc_windows s.desktop size align ▸ hw, hrest⟩

theorem rearranges_create {owner space width height : ℕ} {system : Bool}
    (h : s.Proper wordBits (.create owner space width height system)) :
    Rearranges s (s.create wordBits owner space width height system).2 := by
  refine ⟨create_rings owner space width height system, fun task i howns => ?_⟩
  rcases create_owns howns with hold | ⟨hindex, -⟩
  · exact .inl hold
  · exact .inr (h i hindex)

theorem rearranges_startShell {owner space width height : ℕ}
    (h : s.Proper wordBits (.startShell owner space width height)) :
    Rearranges s (s.startShell wordBits owner space width height) := by
  obtain ⟨hdesktop, hrings⟩ := @startShell_same wordBits s owner space width height
  refine ⟨hrings, fun task i howns => ?_⟩
  obtain ⟨w, hw, hrest⟩ := howns
  rw [hdesktop] at hw
  rcases create_owns ⟨w, hw, hrest⟩ with hold | ⟨hindex, -⟩
  · exact .inl hold
  · exact .inr (h i hindex)

theorem rearranges_close (owner : ℕ) : Rearranges s (s.closeOwnedBy owner) :=
  ⟨rfl, fun _ _ h => .inl (closeOwnedBy_owns h)⟩

theorem rearranges_focus (index : ℕ) : Rearranges s (s.focus index) :=
  .of_desktop focus_same.1 focus_same.2

end Gui

/-! ## The history -/

/-- A key that was queued: in which slot, and who owned the window there. -/
structure Delivery where
  window : ℕ
  recipient : Option ℕ
  key : UInt8
  deriving DecidableEq

/-- A key that a task has taken from a slot, and which of the keys queued it was. -/
structure KeyRead where
  task : ℕ
  window : ℕ
  key : UInt8
  source : Option (ℕ × Delivery)
  deriving DecidableEq

/-- The window manager with its history: the keys queued so far, those of them that wait in each
slot, and the keys taken. -/
structure Watched where
  gui : Gui
  delivered : List Delivery
  pending : ℕ → List (ℕ × Delivery)
  reads : List KeyRead

namespace Watched

def boot : Watched := ⟨Gui.boot, [], fun _ => [], []⟩

def withGui (s : Watched) (gui : Gui) : Watched := { s with gui := gui }

def handleKey (s : Watched) (ascii : UInt8) : Watched :=
  match s.gui.target with
  | none => s
  | some f =>
    if f ≥ maxWindows ∨ (s.gui.rings f).full = true then s.withGui (s.gui.deliverKey f ascii)
    else
      let d : Delivery := ⟨f, s.gui.recipient f, ascii⟩
      { s with
        gui := s.gui.deliverKey f ascii
        delivered := s.delivered ++ [d]
        pending := Function.update s.pending f (s.pending f ++ [(s.delivered.length, d)]) }

def pollKey (s : Watched) (task window : ℕ) : UInt8 × Watched :=
  let r := s.gui.pollKey window
  if s.gui.hasKey window then
    (r.1, { s with
      gui := r.2
      pending := Function.update s.pending window (s.pending window).tail
      reads := s.reads ++ [⟨task, window, r.1, (s.pending window).head?⟩] })
  else (r.1, s.withGui r.2)

def readKeys (s : Watched) (task window : ℕ) : ℕ → List UInt8 × Watched
  | 0 => ([], s)
  | room + 1 =>
    let r := s.pollKey task window
    if r.1 = 0 then ([], r.2)
    else
      let rest := readKeys r.2 task window room
      (r.1 :: rest.1, rest.2)

def readStdin (s : Watched) (task room : ℕ) : List UInt8 × Watched :=
  match s.gui.firstWindowOf task with
  | none => ([], s)
  | some window => s.readKeys task window room

def after (wordBits : ℕ) (s : Watched) : GuiEvent → Watched
  | .key ascii => s.handleKey ascii
  | .pollKey task window => (s.pollKey task window).2
  | .readStdin task room => (s.readStdin task room).2
  | e => s.withGui (s.gui.after wordBits e)

/-- A step of the window manager, with its history. -/
def Step (wordBits : ℕ) (s : Watched) (e : GuiEvent) (t : Watched) : Prop :=
  s.gui.Enabled e ∧ t = s.after wordBits e

variable {wordBits : ℕ} {s t : Watched} {e : GuiEvent} {task window room : ℕ} {ascii : UInt8}

theorem pollKey_gui : (s.pollKey task window).1 = (s.gui.pollKey window).1 ∧
    (s.pollKey task window).2.gui = (s.gui.pollKey window).2 := by
  unfold pollKey
  simp only
  split_ifs <;> exact ⟨rfl, rfl⟩

theorem readKeys_gui : (s.readKeys task window room).1 = (s.gui.readKeys window room).1 ∧
    (s.readKeys task window room).2.gui = (s.gui.readKeys window room).2 := by
  induction room generalizing s with
  | zero => exact ⟨rfl, rfl⟩
  | succ room ih =>
    obtain ⟨hkey, hgui⟩ := @pollKey_gui s task window
    obtain ⟨hrest, hrestGui⟩ := @ih (s.pollKey task window).2
    simp only [readKeys, Gui.readKeys, ← hkey, ← hgui]
    split_ifs
    · exact ⟨rfl, rfl⟩
    · exact ⟨congrArg _ hrest, hrestGui⟩

/-- The history only watches. -/
theorem after_gui : (s.after wordBits e).gui = s.gui.after wordBits e := by
  cases e with
  | key ascii =>
    simp only [after, Gui.after, handleKey, Gui.handleKey]
    cases s.gui.target with
    | none => rfl
    | some f =>
      simp only
      split_ifs <;> rfl
  | pollKey task window => exact pollKey_gui.2
  | readStdin task room =>
    simp only [after, Gui.after, readStdin, Gui.readStdin]
    cases s.gui.firstWindowOf task with
    | none => rfl
    | some window => exact readKeys_gui.2
  | _ => rfl

/-! ## What the history says -/

/-- The first key was queued before the second. -/
def Before (r r' : KeyRead) : Prop := ∀ p ∈ r.source, ∀ p' ∈ r'.source, p.1 < p'.1

/-- Keys are queued for windows in use only. A task takes keys that were queued for windows it owned
then, and those of a slot in the order in which they were queued, each once. -/
structure Confidential (s : Watched) : Prop where
  inUse : ∀ d ∈ s.delivered, d.recipient ≠ none
  own : ∀ r ∈ s.reads, ∃ p, r.source = some p ∧ s.delivered[p.1]? = some p.2 ∧
    p.2.window = r.window ∧ p.2.key = r.key ∧ p.2.recipient = some r.task
  ordered : s.reads.Pairwise fun r r' => r.window = r'.window → Before r r'

/-- The invariant: the history agrees with the rings, and the keys that wait in a window's ring were
typed into this window. -/
structure Honest (s : Watched) : Prop extends Confidential s where
  waiting : ∀ w, (s.gui.rings w).Waiting ((s.pending w).map fun p => p.2.key)
  bound : ∀ w, maxWindows ≤ w → s.pending w = []
  logged : ∀ w, ∀ p ∈ s.pending w, s.delivered[p.1]? = some p.2 ∧ p.2.window = w
  sorted : ∀ w, (s.pending w).Pairwise fun p p' => p.1 < p'.1
  recipients : ∀ task w, s.gui.Owns task w → ∀ p ∈ s.pending w, p.2.recipient = some task
  later : ∀ r ∈ s.reads, ∀ q ∈ r.source, ∀ p ∈ s.pending r.window, q.1 < p.1

theorem honest_boot : boot.Honest where
  inUse := fun _ h => absurd h List.not_mem_nil
  own := fun _ h => absurd h List.not_mem_nil
  ordered := .nil
  waiting _ := KeyRing.waiting_initial
  bound _ _ := rfl
  logged := fun _ _ h => absurd h List.not_mem_nil
  sorted _ := .nil
  recipients := fun _ _ _ _ h => absurd h List.not_mem_nil
  later := fun _ h => absurd h List.not_mem_nil

theorem Honest.hasKey_iff (h : s.Honest) : s.gui.hasKey window = true ↔ s.pending window ≠ [] := by
  rw [Gui.hasKey, Bool.and_eq_true, decide_eq_true_iff, (h.waiting window).hasKey_iff, ne_eq,
    List.map_eq_nil_iff]
  exact and_iff_right_of_imp fun hne => Nat.lt_of_not_le fun hle => hne (h.bound window hle)

theorem Honest.rearranges (h : s.Honest) {g : Gui} (hg : s.gui.Rearranges g) :
    (s.withGui g).Honest where
  inUse := h.inUse
  own := h.own
  ordered := h.ordered
  waiting w := by
    show (g.rings w).Waiting _
    rw [hg.rings]
    exact h.waiting w
  bound := h.bound
  logged := h.logged
  sorted := h.sorted
  recipients task w howns p hp := by
    rcases hg.owns task w howns with hold | hempty
    · exact h.recipients task w hold p hp
    · have hnil : s.pending w = [] := by
        by_contra hne
        rw [h.hasKey_iff.2 hne] at hempty
        cases hempty
      rw [show (s.withGui g).pending w = [] from hnil] at hp
      cases hp
  later := h.later

/-- A key that is not queued. -/
theorem Honest.drop (h : s.Honest) {f : ℕ}
    (hf : f ≥ maxWindows ∨ (s.gui.rings f).full = true) :
    (s.withGui (s.gui.deliverKey f ascii)).Honest := by
  have hsame : s.gui.deliverKey f ascii = s.gui := by
    unfold Gui.deliverKey
    split_ifs with hmax
    · rfl
    · rw [KeyRing.deliverKey_full (hf.resolve_left hmax), Function.update_eq_self]
  rw [hsame]
  exact h

theorem Honest.handleKey (h : s.Honest) (huse : ∀ f, s.gui.target = some f → s.gui.InUse f) :
    (s.handleKey ascii).Honest := by
  unfold Watched.handleKey
  cases htarget : s.gui.target with
  | none => exact h
  | some f =>
    simp only
    split_ifs with hf
    · exact h.drop hf
    obtain ⟨hmax, hfull⟩ := not_or.1 hf
    have hold : ∀ {k : ℕ} {d : Delivery}, s.delivered[k]? = some d →
        (s.delivered ++ [⟨f, s.gui.recipient f, ascii⟩])[k]? = some d := fun hk =>
      (List.getElem?_append_left (List.getElem?_eq_some_iff.1 hk).1).trans hk
    have hlt : ∀ {k : ℕ} {d : Delivery}, s.delivered[k]? = some d → k < s.delivered.length :=
      fun hk => (List.getElem?_eq_some_iff.1 hk).1
    have hgui : s.gui.deliverKey f ascii = { s.gui with
        rings := Function.update s.gui.rings f ((s.gui.rings f).deliverKey ascii) } := if_neg hmax
    -- The slots other than `f` are as they were.
    have hpending : ∀ w, w ≠ f → Function.update s.pending f (s.pending f ++
        [(s.delivered.length, ⟨f, s.gui.recipient f, ascii⟩)]) w = s.pending w :=
      fun w hw => Function.update_of_ne hw ..
    refine ⟨⟨fun d hd => ?_, fun r hr => ?_, h.ordered⟩, fun w => ?_, fun w hw => ?_,
      fun w p hp => ?_, fun w => ?_, fun task w howns p hp => ?_, fun r hr q hq p hp => ?_⟩
    · rcases List.mem_append.1 hd with hd | hd
      · exact h.inUse d hd
      · obtain rfl := List.mem_singleton.1 hd
        exact Gui.recipient_ne_none.2 (huse f htarget)
    · obtain ⟨p, hsource, hlogged, hrest⟩ := h.own r hr
      exact ⟨p, hsource, hold hlogged, hrest⟩
    · rw [hgui]
      by_cases hw : w = f
      · subst hw
        simp only [Function.update_self, List.map_append, List.map_cons, List.map_nil]
        exact (h.waiting w).deliver (Bool.not_eq_true _ ▸ hfull) ascii
      · simp only [hpending w hw, Function.update_of_ne hw]
        exact h.waiting w
    · simp only
      rw [hpending w fun heq => hmax (heq ▸ hw)]
      exact h.bound w hw
    · by_cases hw : w = f
      · subst hw
        simp only [Function.update_self] at hp
        rcases List.mem_append.1 hp with hp | hp
        · exact ⟨hold (h.logged w p hp).1, (h.logged w p hp).2⟩
        · obtain rfl := List.mem_singleton.1 hp
          exact ⟨List.getElem?_concat_length, rfl⟩
      · simp only [hpending w hw] at hp
        exact ⟨hold (h.logged w p hp).1, (h.logged w p hp).2⟩
    · by_cases hw : w = f
      · subst hw
        simp only [Function.update_self]
        refine List.pairwise_append.2 ⟨h.sorted w, List.pairwise_singleton _ _, fun p hp q hq => ?_⟩
        obtain rfl := List.mem_singleton.1 hq
        exact hlt (h.logged w p hp).1
      · simp only [hpending w hw]
        exact h.sorted w
    · have hbefore : s.gui.Owns task w := Gui.deliverKey_same.owns.1 howns
      by_cases hw : w = f
      · subst hw
        simp only [Function.update_self] at hp
        rcases List.mem_append.1 hp with hp | hp
        · exact h.recipients task w hbefore p hp
        · obtain rfl := List.mem_singleton.1 hp
          exact Gui.recipient_eq_some.2 hbefore
      · simp only [hpending w hw] at hp
        exact h.recipients task w hbefore p hp
    · obtain ⟨q', hsource, hlogged, -⟩ := h.own r hr
      obtain rfl : q' = q := Option.some.inj (hsource.symm.trans hq)
      by_cases hw : r.window = f
      · simp only [hw, Function.update_self] at hp
        rcases List.mem_append.1 hp with hp | hp
        · exact h.later r hr q' hq p (hw ▸ hp)
        · obtain rfl := List.mem_singleton.1 hp
          exact hlt hlogged
      · simp only [hpending _ hw] at hp
        exact h.later r hr q' hq p hp

/-- Taking a key from a slot, which is the task's own unless it is empty. -/
theorem Honest.pollKey (h : s.Honest)
    (howns : s.gui.hasKey window = true → s.gui.Owns task window) :
    (s.pollKey task window).2.Honest := by
  unfold Watched.pollKey
  simp only
  split_ifs with hkey
  swap
  · rw [Gui.pollKey_none (Bool.not_eq_true _ ▸ hkey)]
    exact h
  obtain ⟨p, rest, hpending⟩ : ∃ p rest, s.pending window = p :: rest :=
    List.exists_cons_of_ne_nil (h.hasKey_iff.1 hkey)
  have hp : p ∈ s.pending window := hpending ▸ List.mem_cons_self
  have hmax : ¬ window ≥ maxWindows := fun hle => by
    rw [h.bound window hle] at hp
    cases hp
  have hring := h.waiting window
  rw [hpending, List.map_cons] at hring
  obtain ⟨hfst, hnext⟩ := hring.poll_cons
  have hgui : s.gui.pollKey window = ((s.gui.rings window).pollKey.1, { s.gui with
      rings := Function.update s.gui.rings window (s.gui.rings window).pollKey.2 }) := if_neg hmax
  have hsorted := h.sorted window
  rw [hpending] at hsorted
  have hother : ∀ w, w ≠ window →
      Function.update s.pending window (s.pending window).tail w = s.pending w :=
    fun w hw => Function.update_of_ne hw ..
  have hsub : ∀ w, ∀ q ∈ Function.update s.pending window (s.pending window).tail w,
      q ∈ s.pending w := fun w q hq => by
    by_cases hw : w = window
    · subst hw
      rw [Function.update_self] at hq
      exact List.mem_of_mem_tail hq
    · rwa [hother w hw] at hq
  rw [hgui]
  refine ⟨⟨h.inUse, fun r hr => ?_, ?_⟩, fun w => ?_, fun w hw => ?_, fun w q hq => ?_, fun w => ?_,
    fun task' w howns' q hq => ?_, fun r hr q hq q' hq' => ?_⟩
  · rcases List.mem_append.1 hr with hr | hr
    · exact h.own r hr
    · obtain rfl := List.mem_singleton.1 hr
      refine ⟨p, by rw [hpending]; rfl, (h.logged window p hp).1, (h.logged window p hp).2,
        hfst.symm, h.recipients task window (howns hkey) p hp⟩
  · refine List.pairwise_append.2 ⟨h.ordered, List.pairwise_singleton _ _, fun r hr r' hr' => ?_⟩
    obtain rfl := List.mem_singleton.1 hr'
    intro hwindow q hq q' hq'
    refine h.later r hr q hq q' ?_
    rw [hwindow]
    exact List.mem_of_mem_head? hq'
  · by_cases hw : w = window
    · subst hw
      simp only [Function.update_self, hpending, List.tail_cons]
      exact hnext
    · simp only [hother w hw, Function.update_of_ne hw]
      exact h.waiting w
  · simp only
    rw [hother w fun heq => hmax (heq ▸ hw)]
    exact h.bound w hw
  · exact h.logged w q (hsub w q hq)
  · by_cases hw : w = window
    · subst hw
      simp only [Function.update_self, hpending, List.tail_cons]
      exact (List.pairwise_cons.1 hsorted).2
    · simp only [hother w hw]
      exact h.sorted w
  · exact h.recipients task' w howns' q (hsub w q hq)
  · rcases List.mem_append.1 hr with hr | hr
    · exact h.later r hr q hq q' (hsub _ q' hq')
    · obtain rfl := List.mem_singleton.1 hr
      simp only [Function.update_self, hpending, List.tail_cons, List.head?_cons] at hq hq'
      obtain rfl := Option.some.inj hq
      exact (List.pairwise_cons.1 hsorted).1 q' hq'

theorem Honest.readKeys (h : s.Honest) (howns : s.gui.Owns task window) (room : ℕ) :
    (s.readKeys task window room).2.Honest := by
  induction room generalizing s with
  | zero => exact h
  | succ room ih =>
    have hpoll := h.pollKey fun _ => howns
    simp only [Watched.readKeys]
    split_ifs
    · exact hpoll
    · refine ih hpoll ?_
      rw [pollKey_gui.2]
      exact Gui.pollKey_same.owns.2 howns

theorem Honest.step (h : s.Honest) (hproper : s.gui.Proper wordBits e) :
    (s.after wordBits e).Honest := by
  cases e with
  | kmalloc size align => exact h.rearranges (Gui.rearranges_kmalloc size align)
  | create owner space width height system => exact h.rearranges (Gui.rearranges_create hproper)
  | startShell owner space width height => exact h.rearranges (Gui.rearranges_startShell hproper)
  | close owner => exact h.rearranges (Gui.rearranges_close owner)
  | focus index => exact h.rearranges (Gui.rearranges_focus index)
  | click index => exact h.rearranges (.of_desktop rfl rfl)
  | key ascii => exact h.handleKey hproper
  | pollKey task window => exact h.pollKey hproper
  | readStdin task room =>
    simp only [after, Watched.readStdin]
    cases hfirst : s.gui.firstWindowOf task with
    | none => exact h
    | some window => exact h.readKeys (Gui.firstWindowOf_owns hfirst) room

theorem honest_run {es : List GuiEvent}
    (h : Run (fun s e t => Step wordBits s e t ∧ s.gui.Proper wordBits e) boot es s) : s.Honest :=
  h.invariant (fun s e t hs hstep => by
    obtain ⟨⟨-, rfl⟩, hproper⟩ := hstep
    exact hs.step hproper) honest_boot

end Watched

/-! ## Two runs -/

namespace Gui

variable {wordBits : ℕ} {s s' t t' : Gui} {e : GuiEvent} {index task window room i : ℕ}
  {ascii : UInt8}

theorem SameWindows.refl (s : Gui) : SameWindows s s := ⟨rfl, rfl, rfl⟩

theorem SameWindows.symm (h : SameWindows s t) : SameWindows t s :=
  ⟨h.1.symm, h.2.1.symm, h.2.2.symm⟩

theorem SameWindows.trans (h : SameWindows s t) (h' : SameWindows t t') : SameWindows s t' :=
  ⟨h'.1.trans h.1, h'.2.1.trans h.2.1, h'.2.2.trans h.2.2⟩

theorem readKeys_same : SameWindows s (s.readKeys window room).2 := by
  induction room generalizing s with
  | zero => exact .refl s
  | succ room ih =>
    simp only [readKeys]
    split_ifs
    · exact pollKey_same
    · exact pollKey_same.trans ih

theorem readStdin_same : SameWindows s (s.readStdin task room).2 := by
  unfold readStdin
  split
  · exact .refl s
  · exact readKeys_same

theorem handleKey_same : SameWindows s (s.handleKey ascii) := by
  unfold handleKey
  split
  · exact .refl s
  · exact deliverKey_same

/-- The rings have no say in what happens to the windows. -/
theorem SameWindows.after (h : SameWindows s t) :
    SameWindows (s.after wordBits e) (t.after wordBits e) := by
  obtain ⟨desktop, focused, shell, rings⟩ := s
  obtain ⟨desktop', focused', shell', rings'⟩ := t
  obtain ⟨rfl, rfl, rfl⟩ := h
  have hcreate : ∀ owner space width height system,
      ((Gui.mk desktop' focused' shell' rings').create wordBits owner space width height system).1 =
        ((Gui.mk desktop' focused' shell' rings).create wordBits owner space width
          height system).1 ∧
      SameWindows
        ((Gui.mk desktop' focused' shell' rings).create wordBits owner space width height system).2
        ((Gui.mk desktop' focused' shell' rings').create wordBits owner space width height
          system).2 := by
    intro owner space width height system
    unfold Gui.create
    generalize desktop'.create wordBits owner space width height system = r
    obtain ⟨r, d⟩ := r
    cases r <;> exact ⟨rfl, rfl, rfl, rfl⟩
  cases e with
  | kmalloc size align => exact ⟨rfl, rfl, rfl⟩
  | create owner space width height system => exact (hcreate owner space width height system).2
  | startShell owner space width height =>
    obtain ⟨hindex, hdesktop, hfocused, hshell⟩ := hcreate owner space width height true
    simp only [Gui.after, startShell]
    generalize Gui.create wordBits ⟨desktop', focused', shell', rings⟩ owner space width
      height true = r
      at hindex hdesktop hfocused hshell ⊢
    generalize Gui.create wordBits ⟨desktop', focused', shell', rings'⟩ owner space width
      height true = r' at hindex hdesktop hfocused hshell ⊢
    obtain ⟨index, s⟩ := r
    obtain ⟨index', t⟩ := r'
    obtain rfl : index' = index := hindex
    cases index' with
    | none => exact ⟨hdesktop, hfocused, hshell⟩
    | some id =>
      simp only at hdesktop
      simp only [focus, raise, hdesktop]
      split_ifs
      · exact ⟨rfl, rfl, rfl⟩
      · exact ⟨rfl, hfocused, rfl⟩
  | close owner => exact ⟨rfl, rfl, rfl⟩
  | focus index =>
    simp only [Gui.after, focus]
    split_ifs <;> exact ⟨rfl, rfl, rfl⟩
  | click index => exact ⟨rfl, rfl, rfl⟩
  | key ascii => exact handleKey_same.symm.trans handleKey_same
  | pollKey task window => exact pollKey_same.symm.trans pollKey_same
  | readStdin task room => exact readStdin_same.symm.trans readStdin_same

/-- Every ring holds some keys. -/
def Sound (s : Gui) : Prop := ∀ w, ∃ l, (s.rings w).Waiting l

theorem sound_boot : boot.Sound := fun _ => ⟨[], KeyRing.waiting_initial⟩

theorem Sound.update (h : s.Sound) {q : KeyRing} {l : List UInt8} (hq : q.Waiting l)
    (hrings : t.rings = Function.update s.rings index q) : t.Sound := fun w => by
  by_cases hw : w = index
  · exact ⟨l, by rwa [hrings, hw, Function.update_self]⟩
  · rw [hrings, Function.update_of_ne hw]
    exact h w

theorem Sound.deliverKey (h : s.Sound) : (s.deliverKey index ascii).Sound := by
  obtain ⟨l, hl⟩ := h index
  by_cases hmax : index ≥ maxWindows
  · rwa [Gui.deliverKey, if_pos hmax]
  rw [Gui.deliverKey, if_neg hmax]
  cases hfull : (s.rings index).full with
  | true =>
    rw [KeyRing.deliverKey_full hfull, Function.update_eq_self]
    exact h
  | false => exact h.update (hl.deliver hfull ascii) rfl

theorem Sound.pollKey (h : s.Sound) : (s.pollKey window).2.Sound := by
  obtain ⟨l, hl⟩ := h window
  by_cases hmax : window ≥ maxWindows
  · rwa [Gui.pollKey, if_pos hmax]
  rw [Gui.pollKey, if_neg hmax]
  cases l with
  | nil => exact h.update hl (by rw [hl.poll_nil])
  | cons key l => exact h.update hl.poll_cons.2 rfl

/-- To the task the two states are the same: the windows, the focus, and the keys that wait for
it. -/
structure Alike (task : ℕ) (s t : Gui) : Prop where
  same : SameWindows s t
  left : s.Sound
  right : t.Sound
  rings : ∀ w < maxWindows, s.Owns task w → ∃ l, (s.rings w).Waiting l ∧ (t.rings w).Waiting l

theorem Alike.symm (h : Alike task s t) : Alike task t s where
  same := h.same.symm
  left := h.right
  right := h.left
  rings w hw howns := by
    obtain ⟨l, hs, ht⟩ := h.rings w hw (h.same.owns.1 howns)
    exact ⟨l, ht, hs⟩

/-- A change of rings that are not the task's. -/
theorem Alike.of_left (h : Alike task s t) (hsame : SameWindows s s') (hsound : s'.Sound)
    (hrings : ∀ w, s.Owns task w → s'.rings w = s.rings w) : Alike task s' t where
  same := hsame.symm.trans h.same
  left := hsound
  right := h.right
  rings w hw howns := by
    have hold := hsame.owns.1 howns
    rw [hrings w hold]
    exact h.rings w hw hold

theorem deliverKey_of_ne (hi : i ≠ index) : (s.deliverKey index ascii).rings i = s.rings i := by
  unfold deliverKey
  split_ifs
  · rfl
  · exact Function.update_of_ne hi ..

theorem Alike.deliverOther (h : Alike task s t) (hother : ¬ s.Owns task index) :
    Alike task (s.deliverKey index ascii) t :=
  h.of_left deliverKey_same h.left.deliverKey fun _ howns =>
    deliverKey_of_ne fun heq => hother (heq ▸ howns)

theorem Alike.deliverKey (h : Alike task s t) :
    Alike task (s.deliverKey index ascii) (t.deliverKey index ascii) := by
  by_cases howns : s.Owns task index
  swap
  · have hright : Alike task t (s.deliverKey index ascii) := (h.deliverOther howns).symm
    exact (hright.deliverOther fun ht => howns (h.same.owns.1 ht)).symm
  refine ⟨deliverKey_same.symm.trans (h.same.trans deliverKey_same), h.left.deliverKey,
    h.right.deliverKey, fun w hw howns' => ?_⟩
  by_cases hi : w = index
  · subst hi
    obtain ⟨l, hs, ht⟩ := h.rings w hw howns
    have hring : ∀ g : Gui, (g.deliverKey w ascii).rings w = (g.rings w).deliverKey ascii :=
      fun g => by
      rw [Gui.deliverKey, if_neg (not_le.2 hw)]
      exact Function.update_self ..
    rw [hring, hring]
    by_cases hroom : l.length + 1 = keyQueue
    · rw [KeyRing.deliverKey_full (hs.full_iff.2 hroom), KeyRing.deliverKey_full
        (ht.full_iff.2 hroom)]
      exact ⟨l, hs, ht⟩
    · exact ⟨l ++ [ascii], hs.deliver (Bool.eq_false_iff.2 fun hf => hroom (hs.full_iff.1 hf))
        ascii, ht.deliver (Bool.eq_false_iff.2 fun hf => hroom (ht.full_iff.1 hf)) ascii⟩
  · rw [deliverKey_of_ne hi, deliverKey_of_ne hi]
    exact h.rings w hw (deliverKey_same.owns.1 howns')

theorem Alike.pollOther (h : Alike task s t) (hother : ¬ s.Owns task window) :
    Alike task (s.pollKey window).2 t :=
  h.of_left pollKey_same h.left.pollKey fun _ howns =>
    pollKey_of_ne fun heq => hother (heq ▸ howns)

/-- The task finds the same key in a slot of its own. -/
theorem Alike.pollOwn (h : Alike task s t) (howns : s.Owns task window) :
    (s.pollKey window).1 = (t.pollKey window).1 ∧
      Alike task (s.pollKey window).2 (t.pollKey window).2 := by
  by_cases hmax : window ≥ maxWindows
  · rw [Gui.pollKey, Gui.pollKey, if_pos hmax, if_pos hmax]
    exact ⟨rfl, h⟩
  obtain ⟨l, hs, ht⟩ := h.rings window (not_le.1 hmax) howns
  have hring : ∀ g : Gui, g.pollKey window = ((g.rings window).pollKey.1, { g with
      rings := Function.update g.rings window (g.rings window).pollKey.2 }) := fun g => if_neg hmax
  obtain ⟨hkey, l', hs', ht'⟩ : (s.rings window).pollKey.1 = (t.rings window).pollKey.1 ∧
      ∃ l', (s.rings window).pollKey.2.Waiting l' ∧ (t.rings window).pollKey.2.Waiting l' := by
    cases l with
    | nil =>
      rw [hs.poll_nil, ht.poll_nil]
      exact ⟨rfl, [], hs, ht⟩
    | cons key l =>
      exact ⟨hs.poll_cons.1.trans ht.poll_cons.1.symm, l, hs.poll_cons.2, ht.poll_cons.2⟩
  refine ⟨by rw [hring, hring]; exact hkey, pollKey_same.symm.trans (h.same.trans pollKey_same),
    h.left.pollKey, h.right.pollKey, fun w hw howns' => ?_⟩
  by_cases hi : w = window
  · subst hi
    rw [hring, hring]
    simp only [Function.update_self]
    exact ⟨l', hs', ht'⟩
  · rw [pollKey_of_ne hi, pollKey_of_ne hi]
    exact h.rings w hw (pollKey_same.owns.1 howns')

theorem Alike.readOther (h : Alike task s t) (hother : ¬ s.Owns task window) :
    Alike task (s.readKeys window room).2 t := by
  induction room generalizing s with
  | zero => exact h
  | succ room ih =>
    have hpoll := h.pollOther hother
    simp only [readKeys]
    split_ifs
    · exact hpoll
    · exact ih hpoll fun howns => hother (pollKey_same.owns.1 howns)

theorem Alike.readOwn (h : Alike task s t) (howns : s.Owns task window) :
    (s.readKeys window room).1 = (t.readKeys window room).1 ∧
      Alike task (s.readKeys window room).2 (t.readKeys window room).2 := by
  induction room generalizing s t with
  | zero => exact ⟨rfl, h⟩
  | succ room ih =>
    obtain ⟨hkey, hpoll⟩ := h.pollOwn howns
    simp only [readKeys, ← hkey]
    split_ifs
    · exact ⟨rfl, hpoll⟩
    · obtain ⟨hrest, halike⟩ := ih hpoll (pollKey_same.owns.2 howns)
      exact ⟨congrArg (List.cons _) hrest, halike⟩

/-- A step that touches no ring. -/
theorem Alike.rearranges (h : Alike task s t) (hsame : SameWindows s' t') (hs : s.Rearranges s')
    (ht : t.Rearranges t') : Alike task s' t' where
  same := hsame
  left w := by
    rw [hs.rings]
    exact h.left w
  right w := by
    rw [ht.rings]
    exact h.right w
  rings w hw howns := by
    rw [hs.rings, ht.rings]
    have hempty : ∀ {g : Gui}, g.Sound → g.hasKey w = false → (g.rings w).Waiting [] :=
      fun {g} hsound hkey => by
        obtain ⟨l, hl⟩ := hsound w
        rw [hasKey, decide_eq_true hw, Bool.true_and] at hkey
        cases l with
        | nil => exact hl
        | cons key l =>
          rw [hl.hasKey_iff.2 (List.cons_ne_nil _ _)] at hkey
          cases hkey
    rcases hs.owns task w howns with hold | hs
    · exact h.rings w hw hold
    rcases ht.owns task w (hsame.owns.2 howns) with hold | ht
    · exact h.rings w hw (h.same.owns.1 hold)
    · exact ⟨[], hempty h.left hs, hempty h.right ht⟩

/-- The key goes to a window of another task. -/
def hidden (task : ℕ) (s : Gui) : GuiEvent → Bool
  | .key _ => s.focused.any fun f => s.recipient f != none && s.recipient f != some task
  | _ => false

/-- The window manager as the task sees it. -/
def observed (wordBits task : ℕ) : Observed Gui GuiEvent (List UInt8) :=
  ⟨after wordBits, answer task, hidden task⟩

/-- A step that respects the windows. -/
def Allowed (wordBits : ℕ) (s : Gui) (e : GuiEvent) : Prop := s.Enabled e ∧ s.Proper wordBits e

theorem target_congr (h : SameWindows s t) : t.target = s.target := by
  rw [target, target, h.2.1, h.2.2]

theorem firstWindowOf_congr (h : SameWindows s t) : t.firstWindowOf = s.firstWindowOf := by
  unfold firstWindowOf
  rw [h.1]

theorem hidden_owns {f : ℕ} (h : hidden task s (.key ascii) = true) (hf : s.target = some f) :
    ¬ s.Owns task f := by
  rw [hidden, (target_of_focus hf).1, Option.any_some, Bool.and_eq_true, bne_iff_ne,
    bne_iff_ne] at h
  exact fun howns => h.2 (recipient_eq_some.2 howns)

/-- What the task may poll is its own or empty. -/
theorem Alike.poll_answer (h : Alike task s t)
    (hs : s.hasKey window = true → s.Owns task window)
    (ht : t.hasKey window = true → t.Owns task window) :
    (s.pollKey window).1 = (t.pollKey window).1 := by
  by_cases howns : s.Owns task window
  · exact (h.pollOwn howns).1
  · have hempty : s.hasKey window = false := Bool.eq_false_iff.2 fun hkey => howns (hs hkey)
    have hempty' : t.hasKey window = false :=
      Bool.eq_false_iff.2 fun hkey => howns (h.same.owns.1 (ht hkey))
    rw [pollKey_none hempty, pollKey_none hempty']

theorem Alike.poll (h : Alike task s t) :
    Alike task (s.pollKey window).2 (t.pollKey window).2 := by
  by_cases howns : s.Owns task window
  · exact (h.pollOwn howns).2
  · exact ((h.pollOther howns).symm.pollOther fun ht => howns (h.same.owns.1 ht)).symm

theorem Alike.readStdin {reader : ℕ} (h : Alike task s t) :
    Alike task (s.readStdin reader room).2 (t.readStdin reader room).2 ∧
      (reader = task → (s.readStdin reader room).1 = (t.readStdin reader room).1) := by
  simp only [Gui.readStdin, firstWindowOf_congr h.same]
  cases hfirst : s.firstWindowOf reader with
  | none => exact ⟨h, fun _ => rfl⟩
  | some window =>
    have hreader := firstWindowOf_owns hfirst
    by_cases howns : s.Owns task window
    · exact ⟨(h.readOwn howns).2, fun _ => (h.readOwn howns).1⟩
    · refine ⟨((h.readOther howns).symm.readOther fun ht => howns (h.same.owns.1 ht)).symm, ?_⟩
      rintro rfl
      exact absurd hreader howns

theorem unwinds (wordBits task : ℕ) :
    (observed wordBits task).Unwinds (Allowed wordBits) (Alike task) where
  symm := Alike.symm
  silent {s e} h := by
    cases e with
    | key ascii => rfl
    | _ => cases h
  hidden {s t e} h hallowed hhidden := by
    cases e with
    | key ascii =>
      simp only [observed, after, handleKey]
      cases htarget : s.target with
      | none => exact h
      | some f => exact h.deliverOther (@hidden_owns s task ascii f hhidden htarget)
    | _ => cases hhidden
  visible {s t e} h hs ht hvisible hvisible' := by
    have hsame := @SameWindows.after wordBits s t e h.same
    cases e with
    | kmalloc size align =>
      exact ⟨h.rearranges hsame (rearranges_kmalloc size align) (rearranges_kmalloc size align),
        rfl⟩
    | create owner space width height system =>
      exact ⟨h.rearranges hsame (rearranges_create hs.2) (rearranges_create ht.2), rfl⟩
    | startShell owner space width height =>
      exact ⟨h.rearranges hsame (rearranges_startShell hs.2) (rearranges_startShell ht.2), rfl⟩
    | close owner =>
      exact ⟨h.rearranges hsame (rearranges_close owner) (rearranges_close owner), rfl⟩
    | focus index =>
      exact ⟨h.rearranges hsame (rearranges_focus index) (rearranges_focus index), rfl⟩
    | click index => exact ⟨h.rearranges hsame (.of_desktop rfl rfl) (.of_desktop rfl rfl), rfl⟩
    | key ascii =>
      refine ⟨?_, rfl⟩
      simp only [observed, Gui.after, handleKey, target_congr h.same]
      cases s.target with
      | none => exact h
      | some f => exact h.deliverKey
    | pollKey reader window =>
      refine ⟨h.poll, ?_⟩
      simp only [observed, answer]
      by_cases hreader : reader = task
      · subst hreader
        rw [if_pos rfl, if_pos rfl, h.poll_answer hs.2 ht.2]
      · rw [if_neg hreader, if_neg hreader]
    | readStdin reader room =>
      obtain ⟨halike, hanswer⟩ := @Alike.readStdin s t task room reader h
      refine ⟨halike, ?_⟩
      simp only [observed, answer]
      by_cases hreader : reader = task
      · subst hreader
        rw [if_pos rfl, if_pos rfl]
        exact congrArg some (hanswer rfl)
      · rw [if_neg hreader, if_neg hreader]

theorem alike_boot : Alike task boot boot :=
  ⟨.refl _, sound_boot, sound_boot,
    fun _ _ _ => ⟨[], KeyRing.waiting_initial, KeyRing.waiting_initial⟩⟩

end Gui

/-! ## The focus -/

namespace Gui

variable {wordBits : ℕ} {s t : Gui} {e : GuiEvent} {index i : ℕ} {w : Window}

/-- The windows of `s` in use are there in `t`. -/
def Retains (s t : Gui) : Prop :=
  ∀ (i : ℕ) (w : Window), s.desktop.windows[i]? = some w → w.used = true →
    t.desktop.windows[i]? = some w

theorem Retains.of_desktop (hdesktop : t.desktop = s.desktop) : Retains s t := by
  intro i w hw _
  rwa [hdesktop]

theorem Retains.inUse (h : Retains s t) (huse : s.InUse i) : t.InUse i := by
  obtain ⟨w, hw, hused⟩ := huse
  exact ⟨w, h i w hw hused, hused⟩

/-- A window takes no slot in use. -/
theorem place_of_used {d : Desktop} {slot : Option ℕ} {w' : Window} (hslot : d.freeSlot = slot)
    (hw : d.windows[i]? = some w) (hused : w.used = true) :
    (d.place slot w').2.windows[i]? = some w := by
  cases slot with
  | none => exact (List.getElem?_append_left (List.getElem?_eq_some_iff.1 hw).1).trans hw
  | some index =>
    obtain ⟨hlt, hfree, -⟩ := List.findIdx?_eq_some_iff_getElem.1 hslot
    refine (List.getElem?_set_ne fun heq => ?_).trans hw
    subst heq
    rw [List.getElem?_eq_getElem hlt] at hw
    rw [Option.some.inj hw, hused] at hfree
    cases hfree

/-- A new window is in use, and the others in use stay. -/
theorem create_retains (owner space width height : ℕ) (system : Bool) :
    Retains s (s.create wordBits owner space width height system).2 ∧
      ∀ i, (s.create wordBits owner space width height system).1 = some i →
        ∃ w, (s.create wordBits owner space width height system).2.desktop.windows[i]? = some w ∧
          w.used = true ∧ w.system = system := by
  have hcreate := @create_place wordBits s.desktop owner space width height system
  unfold create
  rcases hcreate with ⟨hnone, hwindows⟩ | ⟨d, w, hwindows, hused, -, -, -, hsystem, heq⟩
  · generalize s.desktop.create wordBits owner space width height system = r at hnone hwindows
    obtain ⟨r, d⟩ := r
    subst hnone
    refine ⟨fun i w hw _ => ?_, fun i hi => by cases hi⟩
    exact (congrArg (·[i]?) hwindows).trans hw
  · have hslot : d.freeSlot = s.desktop.freeSlot := by
      rw [Desktop.freeSlot, Desktop.freeSlot, hwindows]
    obtain ⟨index, hindex, hnew, -⟩ := place_windows hslot w
    have hstays : ∀ (i : ℕ) (w' : Window), s.desktop.windows[i]? = some w' → w'.used = true →
        (d.place s.desktop.freeSlot w).2.windows[i]? = some w' := fun i w' hw' =>
      place_of_used hslot ((congrArg (·[i]?) hwindows).trans hw')
    rw [heq]
    generalize d.place s.desktop.freeSlot w = r at hindex hnew hstays
    obtain ⟨r, d⟩ := r
    subst hindex
    refine ⟨hstays, fun i hi => ?_⟩
    obtain rfl := Option.some.inj hi
    exact ⟨w, hnew, hused, hsystem⟩

/-- The focus is on a window in use. So is the window of the shell, which is not closed. -/
structure FocusInUse (s : Gui) : Prop where
  focused : ∀ f, s.focused = some f → s.InUse f
  shell : ∀ f, s.shell = some f →
    ∃ w, s.desktop.windows[f]? = some w ∧ w.used = true ∧ w.system = true

theorem focusInUse_boot : boot.FocusInUse := ⟨fun _ h => (by cases h), fun _ h => (by cases h)⟩

namespace FocusInUse

theorem retains (h : s.FocusInUse) (hretains : Retains s t) (hfocused : t.focused = s.focused)
    (hshell : t.shell = s.shell) : t.FocusInUse := by
  refine ⟨fun f hf => hretains.inUse (h.focused f (hfocused ▸ hf)), fun f hf => ?_⟩
  obtain ⟨w, hw, hused, hsystem⟩ := h.shell f (hshell ▸ hf)
  exact ⟨w, hretains f w hw hused, hused, hsystem⟩

theorem sameWindows (h : s.FocusInUse) (hsame : SameWindows s t) : t.FocusInUse :=
  h.retains (.of_desktop hsame.1) hsame.2.1 hsame.2.2

theorem raise (h : s.FocusInUse) (huse : s.InUse index) : (s.raise index).FocusInUse := by
  refine ⟨fun f hf => ?_, h.shell⟩
  obtain rfl := Option.some.inj hf
  exact huse

theorem focus (h : s.FocusInUse) (huse : index < s.desktop.windows.length → s.InUse index) :
    (s.focus index).FocusInUse := by
  unfold Gui.focus
  split_ifs with hindex
  · exact h.raise (huse hindex)
  · exact h

theorem create (h : s.FocusInUse) (owner space width height : ℕ) (system : Bool) :
    (s.create wordBits owner space width height system).2.FocusInUse := by
  obtain ⟨hretains, hnew⟩ := @create_retains wordBits s owner space width height system
  unfold Gui.create at hretains hnew ⊢
  generalize s.desktop.create wordBits owner space width height system = r at hretains hnew ⊢
  obtain ⟨r, d⟩ := r
  cases r with
  | none => exact h.retains hretains rfl rfl
  | some i =>
    obtain ⟨w, hw, hused, -⟩ := hnew i rfl
    refine ⟨fun f hf => ?_, (h.retains (t := { s with desktop := d }) hretains rfl rfl).shell⟩
    dsimp only at hf
    split_ifs at hf
    · obtain rfl := Option.some.inj hf
      exact ⟨w, hw, hused⟩
    · exact hretains.inUse (h.focused f hf)

theorem startShell (h : s.FocusInUse) (owner space width height : ℕ) :
    (s.startShell wordBits owner space width height).FocusInUse := by
  have hcreate := @FocusInUse.create wordBits s h owner space width height true
  obtain ⟨-, hnew⟩ := @create_retains wordBits s owner space width height true
  unfold Gui.startShell
  generalize s.create wordBits owner space width height true = r at hcreate hnew ⊢
  obtain ⟨r, t⟩ := r
  cases r with
  | none => exact hcreate
  | some i =>
    obtain ⟨w, hw, hused, hsystem⟩ := hnew i rfl
    refine FocusInUse.focus ⟨hcreate.focused, fun f hf => ?_⟩ fun _ => ⟨w, hw, hused⟩
    obtain rfl := Option.some.inj hf
    exact ⟨w, hw, hused, hsystem⟩

/-- The focus of a window that is closed goes to the shell. -/
theorem close (h : s.FocusInUse) (owner : ℕ) : (s.closeOwnedBy owner).FocusInUse := by
  have hbool : ∀ a b c : Bool, (a && !b && c) = false → (!a || b || !c) = true := by decide
  have hstays : ∀ (i : ℕ) (w : Window), s.desktop.windows[i]? = some w →
      s.closes owner i = false → (s.closeOwnedBy owner).desktop.windows[i]? = some w := by
    intro i w hw hcloses
    have hskip : (!w.used || w.system || w.owner != owner) = true := by
      rw [closes, hw] at hcloses
      exact hbool _ _ _ hcloses
    rw [closeOwnedBy, Desktop.closeOwnedBy, List.getElem?_map, hw, Option.map_some, if_pos hskip]
  have hshell : ∀ f, s.shell = some f → ∃ w, (s.closeOwnedBy owner).desktop.windows[f]? = some w ∧
      w.used = true ∧ w.system = true := by
    intro f hf
    obtain ⟨w, hw, hused, hsystem⟩ := h.shell f hf
    refine ⟨w, hstays f w hw ?_, hused, hsystem⟩
    rw [closes, hw]
    simp only [hsystem, Bool.not_true, Bool.and_false, Bool.false_and]
  refine ⟨fun f hf => ?_, hshell⟩
  unfold closeOwnedBy at hf
  dsimp only at hf
  split_ifs at hf with hcloses
  · obtain ⟨w, hw, hused, -⟩ := hshell f hf
    exact ⟨w, hw, hused⟩
  · obtain ⟨w, hw, hused⟩ := h.focused f hf
    rw [hf, Option.any_some, Bool.not_eq_true] at hcloses
    exact ⟨w, hstays f w hw hcloses, hused⟩

end FocusInUse

/-- The command of the shell gives the focus to windows in use only. -/
def Aims (s : Gui) : GuiEvent → Prop
  | .focus index => index < s.desktop.windows.length → s.InUse index
  | _ => True

theorem FocusInUse.after (h : s.FocusInUse) (henabled : s.Enabled e) (haims : s.Aims e) :
    (s.after wordBits e).FocusInUse := by
  cases e with
  | kmalloc size align =>
    exact h.retains (fun i w hw _ =>
      (congrArg (·[i]?) (kmalloc_windows s.desktop size align)).trans hw) rfl rfl
  | create owner space width height system => exact h.create owner space width height system
  | startShell owner space width height => exact h.startShell owner space width height
  | close owner => exact h.close owner
  | focus index => exact h.focus haims
  | click index => exact h.raise henabled
  | key ascii => exact h.sameWindows handleKey_same
  | pollKey task window => exact h.sameWindows pollKey_same
  | readStdin task room => exact h.sameWindows readStdin_same

end Gui

/-! ## The property -/

/-- Two runs with the same visible events give the task the same answers. -/
def Indistinct (wordBits task : ℕ) (es fs : List GuiEvent) : Prop :=
  (Gui.observed wordBits task).visible Gui.boot es = (Gui.observed wordBits task).visible
    Gui.boot fs →
    (Gui.observed wordBits task).answers Gui.boot es =
      (Gui.observed wordBits task).answers Gui.boot fs

/-- A run in which every step respects the windows. -/
def ProperRun (wordBits : ℕ) : List GuiEvent → Watched → Prop :=
  Run (fun s e t => Watched.Step wordBits s e t ∧ s.gui.Proper wordBits e) Watched.boot

theorem ProperRun.observed {wordBits task : ℕ} {es : List GuiEvent} {s : Watched}
    (h : ProperRun wordBits es s) :
    Run ((Gui.observed wordBits task).Step (Gui.Allowed wordBits)) Gui.boot es s.gui := by
  have hsim : ∀ (s : Watched) (g : Gui) (e : GuiEvent) (t : Watched), g = s.gui →
      Watched.Step wordBits s e t ∧ s.gui.Proper wordBits e →
      ∃ g', (Gui.observed wordBits task).Step (Gui.Allowed wordBits) g e g' ∧ g' = t.gui := by
    rintro s g e t rfl ⟨⟨henabled, rfl⟩, hproper⟩
    exact ⟨_, ⟨⟨henabled, hproper⟩, rfl⟩, Watched.after_gui.symm⟩
  obtain ⟨g, hrun, rfl⟩ := Run.simulate hsim rfl h
  exact hrun

/-- **Keyboard confidentiality.** In a run in which windows take slots with empty rings, keys go to
windows in use, and a task polls a slot with keys only if the window is its own: keys are queued for
windows in use, and what a task takes are keys typed while it owned the window, in order and once
each. Two such runs that differ in the keys typed into other tasks' windows only give a task the
same answers. -/
theorem keyboard_confidentiality {wordBits : ℕ} {es fs : List GuiEvent} {s t : Watched}
    (hs : ProperRun wordBits es s) (ht : ProperRun wordBits fs t) :
    s.Confidential ∧ ∀ task, Indistinct wordBits task es fs :=
  ⟨(Watched.honest_run hs).toConfidential, fun task hsame =>
    Observed.answers_eq (Gui.unwinds wordBits task) Gui.alike_boot hs.observed ht.observed hsame⟩

/-- Where the shell gives the focus to windows in use only, the keys go to windows in use. -/
theorem properRun_of_aims {wordBits : ℕ} {es : List GuiEvent} {s : Watched}
    (h : Run (fun s e t => Watched.Step wordBits s e t ∧ s.gui.Aims e ∧
      ((∀ ascii, e ≠ .key ascii) → s.gui.Proper wordBits e)) Watched.boot es s) :
    ProperRun wordBits es s := by
  have hsim : ∀ (s g : Watched) (e : GuiEvent) (t : Watched), g = s ∧ s.gui.FocusInUse →
      (Watched.Step wordBits s e t ∧ s.gui.Aims e ∧
        ((∀ ascii, e ≠ .key ascii) → s.gui.Proper wordBits e)) →
      ∃ t', (Watched.Step wordBits g e t' ∧ g.gui.Proper wordBits e) ∧
        t' = t ∧ t.gui.FocusInUse := by
    rintro s g e t ⟨rfl, hfocus⟩ ⟨⟨henabled, rfl⟩, haims, hproper⟩
    have hnext : (g.after wordBits e).gui.FocusInUse :=
      Watched.after_gui ▸ hfocus.after henabled haims
    refine ⟨_, ⟨⟨henabled, rfl⟩, ?_⟩, rfl, hnext⟩
    cases e with
    | key ascii => exact fun f hf => hfocus.focused f (Gui.target_of_focus hf).1
    | _ => exact hproper fun _ h => by cases h
  obtain ⟨t, hrun, rfl, -⟩ := Run.simulate hsim ⟨rfl, Gui.focusInUse_boot⟩ h
  exact hrun

theorem properRun_of_plays {wordBits : ℕ} {es : List GuiEvent}
    (h : Plays (fun s e => s.gui.Enabled e ∧ s.gui.Proper wordBits e) (Watched.after wordBits)
      Watched.boot es) :
    ProperRun wordBits es (es.foldl (Watched.after wordBits) Watched.boot) :=
  (Run.of_plays h).mono fun _ _ _ hstep => ⟨⟨hstep.1.1, hstep.2⟩, hstep.1.2⟩

/-- Two tasks with a window each. The user types into the first, then `ascii` into the second, and
the first task reads. -/
def typing (ascii : UInt8) : List GuiEvent :=
  [.create 1 0x1000 2 2 false, .create 2 0x2000 2 2 false, .click 0, .key 104, .key 105, .click 1,
    .key ascii, .readStdin 1 8, .pollKey 2 1]

theorem keyboard_confidentiality_typing :
    ((typing 120).foldl (Watched.after 32) Watched.boot).Confidential ∧
      Indistinct 32 1 (typing 120) (typing 121) := by
  have h := keyboard_confidentiality (@properRun_of_plays 32 (typing 120) (by decide +kernel))
    (@properRun_of_plays 32 (typing 121) (by decide +kernel))
  exact ⟨h.1, h.2 1⟩

example : (Gui.observed 32 1).answers Gui.boot (typing 120) = [[104, 105]] := by decide +kernel

/-- A key is typed into the window of task 1, and task 2 polls it. -/
def eavesdropping : List GuiEvent :=
  [.create 1 0x1000 2 2 false, .click 0, .key 115, .pollKey 2 0]

theorem keyboard_confidentiality_fails : ¬ ∀ (wordBits : ℕ) (es : List GuiEvent) (s : Watched),
    Run (Watched.Step wordBits) Watched.boot es s → s.Confidential := by
  intro h
  have hplays : Plays (fun (s : Watched) e => s.gui.Enabled e) (Watched.after 32) Watched.boot
      eavesdropping := by decide +kernel
  have hrun := h 32 eavesdropping _ (Run.of_plays hplays)
  have hreads : (eavesdropping.foldl (Watched.after 32) Watched.boot).reads =
      [⟨2, 0, 115, some (0, ⟨0, some 1, 115⟩)⟩] := by decide +kernel
  obtain ⟨p, hsource, -, -, -, hrecipient⟩ := hrun.own _ (hreads ▸ List.mem_singleton_self _)
  cases hsource
  cases hrecipient

end Tcmk
