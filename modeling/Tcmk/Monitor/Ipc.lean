import Tcmk.Lib.Machine
import Tcmk.Lib.Ring

/-!
# The message ring between the layers

Events are posted to a ring of `ringSize` cells and taken out by the desktop loop; `poll` also
writes what it takes out to a circular history. Both calls run with interrupts off, so they are one
step each.

**The abstract queue** (`MessageQueue`). A list of waiting messages that takes no more than
`ringSize - 1` of them, and the list of all messages polled so far.

**Refinement** (`Ipc.Refines`). The ring holds the waiting messages, the history the last polled
ones, and the three counters count posts, polls and refusals modulo `2 ^ 32`.

Main results: `ring_refines_queue`, for every sequence of calls; `counters_wrap`, that the counters
are equal only modulo `2 ^ 32`.
-/

namespace Tcmk

open Lib

/-! ## The ring -/

/-- What a message is about. -/
inductive MessageKind
  | bootComplete
  | appStart
  | appExit
  | fault
  | throttled
  | healthChange
  | note
  deriving DecidableEq, Repr

structure Message where
  kind : MessageKind
  task : ℕ
  a : ℕ
  b : ℕ
  tick : UInt32
  text : String
  deriving DecidableEq, Repr

def Message.empty : Message := ⟨.note, 0, 0, 0, 0, ""⟩

def ringSize : ℕ := 32

def historySize : ℕ := 8

structure Ipc where
  ring : ℕ → Message
  head : ℕ
  tail : ℕ
  history : ℕ → Message
  historyLen : ℕ
  historyNext : ℕ
  posted : UInt32
  consumed : UInt32
  dropped : UInt32
  highWater : ℕ

namespace Ipc

def initial : Ipc := ⟨fun _ => .empty, 0, 0, fun _ => .empty, 0, 0, 0, 0, 0, 0⟩

/-- A full ring drops the message: a producer never waits. -/
def post (s : Ipc) (message : Message) : Bool × Ipc :=
  let next := (s.head + 1) % ringSize
  if next = s.tail then (false, { s with dropped := s.dropped + 1 })
  else
    (true, { s with
      ring := Function.update s.ring s.head message
      head := next
      posted := s.posted + 1
      highWater := max s.highWater ((next + ringSize - s.tail) % ringSize) })

def remember (s : Ipc) (message : Message) : Ipc :=
  { s with
    history := Function.update s.history s.historyNext message
    historyNext := (s.historyNext + 1) % historySize
    historyLen := if s.historyLen < historySize then s.historyLen + 1 else s.historyLen }

def poll (s : Ipc) : Option Message × Ipc :=
  if s.tail = s.head then (none, s)
  else
    (some (s.ring s.tail),
      { s with tail := (s.tail + 1) % ringSize, consumed := s.consumed + 1 }.remember
      (s.ring s.tail))

/-- The `index`-th message of the history; `0` is the newest. -/
def historyAt (s : Ipc) (index : ℕ) : Option Message :=
  if index ≥ s.historyLen then none
  else some (s.history ((s.historyNext + historySize - 1 - index) % historySize))

def depth (s : Ipc) : ℕ := (s.head + ringSize - s.tail) % ringSize

def capacity : ℕ := ringSize - 1

end Ipc

/-! ## Calls and the abstract queue -/

inductive IpcCall
  | post (message : Message)
  | poll

/-- What a call returns. -/
inductive IpcResult
  | posted (taken : Bool)
  | polled (message : Option Message)

def Ipc.call (s : Ipc) : IpcCall → IpcResult × Ipc
  | .post message => (.posted (s.post message).1, (s.post message).2)
  | .poll => (.polled s.poll.1, s.poll.2)

/-- A bounded queue, with everything polled from it so far and the numbers of messages it took and
refused. -/
structure MessageQueue where
  waiting : List Message
  polled : List Message
  taken : ℕ
  refused : ℕ

namespace MessageQueue

def empty : MessageQueue := ⟨[], [], 0, 0⟩

def call (q : MessageQueue) : IpcCall → IpcResult × MessageQueue
  | .post message =>
    if q.waiting.length < Ipc.capacity then
      (.posted true, { q with waiting := q.waiting ++ [message], taken := q.taken + 1 })
    else (.posted false, { q with refused := q.refused + 1 })
  | .poll =>
    match q.waiting with
    | [] => (.polled none, q)
    | message :: rest =>
      (.polled (some message), { q with waiting := rest, polled := q.polled ++ [message] })

end MessageQueue

/-! ## The simulation -/

/-- The ring `s` is the queue `q`. The ring position of the `k`-th message ever taken is
`k % ringSize`, the history position of the `k`-th message ever polled is `k % historySize`. -/
structure Ipc.Refines (s : Ipc) (q : MessageQueue) : Prop where
  bound : q.waiting.length ≤ Ipc.capacity
  tail : s.tail = q.polled.length % ringSize
  head : s.head = (q.polled.length + q.waiting.length) % ringSize
  ring : Holds (· % ringSize) s.ring q.polled.length q.waiting
  historyLen : s.historyLen = min q.polled.length historySize
  historyNext : s.historyNext = q.polled.length % historySize
  history : ∀ k (hk : k < q.polled.length), q.polled.length ≤ k + historySize →
    s.history (k % historySize) = q.polled[k]
  taken : q.taken = q.polled.length + q.waiting.length
  posted : s.posted = UInt32.ofNat q.taken
  consumed : s.consumed = UInt32.ofNat q.polled.length
  dropped : s.dropped = UInt32.ofNat q.refused

theorem ofNat_succ (n : ℕ) : UInt32.ofNat (n + 1) = UInt32.ofNat n + 1 := by
  rw [UInt32.ofNat_add]
  rfl

namespace Ipc.Refines

variable {s : Ipc} {q : MessageQueue}

theorem initial : Ipc.initial.Refines .empty where
  bound := Nat.zero_le _
  tail := rfl
  head := rfl
  ring := .nil
  historyLen := rfl
  historyNext := rfl
  history := fun _ hk => absurd hk (Nat.not_lt_zero _)
  taken := rfl
  posted := rfl
  consumed := rfl
  dropped := rfl

/-- The ring is full when the next head would meet the tail. -/
theorem full_iff (h : s.Refines q) :
    (s.head + 1) % ringSize = s.tail ↔ ¬ q.waiting.length < Ipc.capacity := by
  have hbound := h.bound
  rw [h.head, h.tail]
  simp only [Ipc.capacity, ringSize] at hbound ⊢
  omega

theorem empty_iff (h : s.Refines q) : s.tail = s.head ↔ q.waiting = [] := by
  have hbound := h.bound
  rw [h.head, h.tail, ← List.length_eq_zero_iff]
  simp only [Ipc.capacity, ringSize] at hbound ⊢
  omega

theorem depth_eq (h : s.Refines q) : s.depth = q.waiting.length := by
  have hbound := h.bound
  rw [Ipc.depth, h.head, h.tail]
  simp only [Ipc.capacity, ringSize] at hbound ⊢
  omega

theorem post (h : s.Refines q) (message : Message) :
    (s.call (.post message)).1 = (q.call (.post message)).1 ∧
      (s.call (.post message)).2.Refines (q.call (.post message)).2 := by
  by_cases hroom : q.waiting.length < Ipc.capacity
  · have hnext : ¬ (s.head + 1) % ringSize = s.tail := fun hfull => h.full_iff.1 hfull hroom
    have hcells : ∀ k < q.waiting.length,
        (q.polled.length + k) % ringSize ≠ (q.polled.length + q.waiting.length) % ringSize :=
      fun k hk => by
        simp only [Ipc.capacity, ringSize] at hroom ⊢
        omega
    simp only [Ipc.call, Ipc.post, if_neg hnext, MessageQueue.call, if_pos hroom, true_and]
    exact
      { h with
        bound := by
          rw [List.length_append, List.length_singleton]
          omega
        head := by
          rw [h.head, List.length_append, List.length_singleton, Nat.mod_add_mod, Nat.add_assoc]
        ring := by
          rw [h.head]
          exact h.ring.push hcells
        taken := by
          rw [h.taken, List.length_append, List.length_singleton, Nat.add_assoc]
        posted := by rw [ofNat_succ, h.posted] }
  · simp only [Ipc.call, Ipc.post, if_pos (h.full_iff.2 hroom), MessageQueue.call,
      if_neg hroom, true_and]
    exact { h with dropped := by rw [ofNat_succ, h.dropped] }

/-- Only the newest message's history cell is written, and no other of the last `historySize`
messages lies in it. -/
theorem poll (h : s.Refines q) :
    (s.call .poll).1 = (q.call .poll).1 ∧ (s.call .poll).2.Refines (q.call .poll).2 := by
  cases hq : q.waiting with
  | nil =>
    simp only [Ipc.call, Ipc.poll, if_pos (h.empty_iff.2 hq), MessageQueue.call, hq, true_and]
    exact h
  | cons message rest =>
    have hne : ¬ s.tail = s.head := fun hempty => by
      rw [h.empty_iff, hq] at hempty
      exact List.cons_ne_nil _ _ hempty
    have hring := h.ring
    rw [hq] at hring
    have hmessage : s.ring s.tail = message := by
      rw [h.tail]
      exact hring.head
    have hbound := h.bound
    have htaken := h.taken
    rw [hq, List.length_cons] at hbound htaken
    simp only [Ipc.call, Ipc.poll, if_neg hne, MessageQueue.call, hq, hmessage,
      Ipc.remember, true_and]
    have hpolled : (q.polled ++ [message]).length = q.polled.length + 1 := List.length_append
    refine ⟨by dsimp only; omega, ?_, ?_, ?_, ?_, ?_, fun k hk hlast => ?_, ?_, h.posted,
      ?_, h.dropped⟩
    all_goals dsimp only
    · rw [h.tail, hpolled, Nat.mod_add_mod]
    · rw [h.head, hq, hpolled, List.length_cons]
      congr 1
      omega
    · rw [hpolled]
      exact hring.tail
    · have hlen := h.historyLen
      rw [hpolled]
      split_ifs <;> omega
    · rw [h.historyNext, hpolled, Nat.mod_add_mod]
    · dsimp only at hk hlast
      rw [hpolled] at hk hlast
      rw [h.historyNext]
      rcases Nat.lt_succ_iff_lt_or_eq.1 hk with hold | rfl
      · have hcell : k % historySize ≠ q.polled.length % historySize := by
          simp only [historySize] at hlast ⊢
          omega
        rw [Function.update_of_ne hcell, List.getElem_append_left hold]
        exact h.history k hold (by omega)
      · rw [Function.update_self, List.getElem_append_right (Nat.le_refl _)]
        simp
    · rw [htaken, hpolled]
      omega
    · rw [hpolled, ofNat_succ, h.consumed]

theorem call (h : s.Refines q) (c : IpcCall) :
    (s.call c).1 = (q.call c).1 ∧ (s.call c).2.Refines (q.call c).2 := by
  cases c with
  | post message => exact h.post message
  | poll => exact h.poll

/-- The history gives the last polled messages, newest first. -/
theorem historyAt_eq (h : s.Refines q) (index : ℕ) :
    s.historyAt index = (q.polled.reverse.take historySize)[index]? := by
  have hlen := h.historyLen
  unfold Ipc.historyAt
  split_ifs with hout
  · rw [List.getElem?_eq_none]
    rw [List.length_take, List.length_reverse]
    omega
  · have hin : index < q.polled.length := by omega
    have hlast : index < historySize := by omega
    have hcell : (s.historyNext + historySize - 1 - index) % historySize =
        (q.polled.length - 1 - index) % historySize := by
      rw [h.historyNext]
      simp only [historySize] at hlast ⊢
      omega
    rw [hcell, h.history (q.polled.length - 1 - index) (by omega) (by omega),
      List.getElem?_take_of_lt hlast, List.getElem?_reverse hin, List.getElem?_eq_getElem]

end Ipc.Refines

/-! ## What the queue has taken, given and refused -/

/-- The message that a call left in the ring. -/
def IpcResult.taken : IpcCall → IpcResult → Option Message
  | .post message, .posted true => some message
  | _, _ => none

/-- The message that a poll returned. -/
def IpcResult.message : IpcResult → Option Message
  | .polled message => message
  | .posted _ => none

/-- A post returned `false`. -/
def IpcResult.refused : IpcResult → Bool
  | .posted taken => !taken
  | .polled _ => false

/-- The messages that the posts among the calls left in the ring. -/
def takenMessages (calls : List IpcCall) (results : List IpcResult) : List Message :=
  (calls.zip results).filterMap fun p => p.2.taken p.1

/-- The messages that the polls returned. -/
def polledMessages (results : List IpcResult) : List Message := results.filterMap IpcResult.message

def refusals (results : List IpcResult) : ℕ := results.countP IpcResult.refused

section Concat

variable {calls : List IpcCall} {results : List IpcResult} {c : IpcCall} {r : IpcResult}

theorem takenMessages_concat (h : calls.length = results.length) :
    takenMessages (calls ++ [c]) (results ++ [r]) = takenMessages calls results ++
    (r.taken c).toList := by
  rw [takenMessages, List.zip_append h, List.filterMap_append]
  cases hr : r.taken c <;> simp [takenMessages, hr]

theorem polledMessages_concat :
    polledMessages (results ++ [r]) = polledMessages results ++ r.message.toList := by
  rw [polledMessages, List.filterMap_append]
  cases hr : r.message <;> simp [polledMessages, hr]

theorem refusals_concat :
    refusals (results ++ [r]) = refusals results + if r.refused then 1 else 0 := by
  rw [refusals, List.countP_append, List.countP_singleton, refusals]

end Concat

/-- The books of a queue after `calls` that returned `results`. -/
structure MessageQueue.Accounts (q : MessageQueue) (calls : List IpcCall)
    (results : List IpcResult) : Prop where
  taken : takenMessages calls results = q.polled ++ q.waiting
  count : q.taken = (takenMessages calls results).length
  polled : polledMessages results = q.polled
  refused : refusals results = q.refused

/-- A message goes from the posts to `waiting` and from there to `polled`. -/
theorem MessageQueue.Accounts.call {q : MessageQueue} {calls : List IpcCall}
    {results : List IpcResult} (h : q.Accounts calls results) (hlen : calls.length = results.length)
    (c : IpcCall) : (q.call c).2.Accounts (calls ++ [c]) (results ++ [(q.call c).1]) := by
  obtain ⟨htaken, hcount, hpolled, hrefused⟩ := h
  cases c with
  | post message =>
    by_cases hroom : q.waiting.length < Ipc.capacity
    · simp only [MessageQueue.call, if_pos hroom]
      constructor <;>
        simp [takenMessages_concat hlen, polledMessages_concat, refusals_concat, IpcResult.taken,
          IpcResult.message, IpcResult.refused, htaken, hcount, hpolled, hrefused, Nat.add_assoc]
    · simp only [MessageQueue.call, if_neg hroom]
      constructor <;>
        simp [takenMessages_concat hlen, polledMessages_concat, refusals_concat, IpcResult.taken,
          IpcResult.message, IpcResult.refused, htaken, hcount, hpolled, hrefused]
  | poll =>
    cases hwaiting : q.waiting with
    | nil =>
      simp only [MessageQueue.call, hwaiting]
      constructor <;>
        simp [takenMessages_concat hlen, polledMessages_concat, refusals_concat, IpcResult.taken,
          IpcResult.message, IpcResult.refused, htaken, hcount, hpolled, hrefused]
    | cons message rest =>
      simp only [MessageQueue.call, hwaiting]
      constructor <;>
        simp [takenMessages_concat hlen, polledMessages_concat, refusals_concat, IpcResult.taken,
          IpcResult.message, IpcResult.refused, htaken, hcount, hpolled, hrefused, hwaiting]

theorem MessageQueue.accounts (calls : List IpcCall) :
    (runs MessageQueue.call .empty calls).2.Accounts calls
    (runs MessageQueue.call .empty calls).1 := by
  induction calls using List.reverseRecOn with
  | nil => exact ⟨rfl, rfl, rfl, rfl⟩
  | append_singleton calls c ih =>
    rw [runs_concat_fst, runs_concat_snd]
    exact ih.call length_runs.symm c

/-! ## Runs -/

/-- **The message ring is a bounded queue.** For every sequence of calls the ring answers as the
queue of capacity `ringSize - 1` does. The polled messages are the first of the messages taken, in
their order; the others wait, and `depth` is their number. The counters count modulo `2 ^ 32`, so
`posted` is `consumed + depth` as a word, and the history gives the last polled messages. -/
theorem ring_refines_queue (calls : List IpcCall) :
    let results := (runs Ipc.call .initial calls).1
    let s := (runs Ipc.call .initial calls).2
    results = (runs MessageQueue.call .empty calls).1 ∧
      takenMessages calls results =
        polledMessages results ++ (runs MessageQueue.call .empty calls).2.waiting ∧
      (takenMessages calls results).length = (polledMessages results).length + s.depth ∧
      s.depth ≤ Ipc.capacity ∧
      s.posted = s.consumed + UInt32.ofNat s.depth ∧
      s.posted = UInt32.ofNat (takenMessages calls results).length ∧
      s.dropped = UInt32.ofNat (refusals results) ∧
      ∀ i, s.historyAt i = ((polledMessages results).reverse.take historySize)[i]? := by
  intro results s
  obtain ⟨hresults, hrefines⟩ := @runs_refines _ _ _ _ Ipc.call .initial calls MessageQueue.call
    Ipc.Refines (fun s q c h => h.call c) .empty .initial
  obtain ⟨htaken, hcount, hpolled, hrefused⟩ := MessageQueue.accounts calls
  rw [← hresults] at htaken hcount hpolled hrefused
  have hdepth := hrefines.depth_eq
  refine ⟨hresults, by rw [htaken, hpolled], ?_, ?_, ?_, ?_, ?_, fun i => ?_⟩
  · rw [← hcount, hrefines.taken, hpolled, hdepth]
  · exact hdepth ▸ hrefines.bound
  · rw [hrefines.posted, hrefines.consumed, hrefines.taken, hdepth, UInt32.ofNat_add]
  · rw [hrefines.posted, hcount]
  · rw [hrefines.dropped, hrefused]
  · rw [hrefines.historyAt_eq i, hpolled]

/-- A message is posted and polled, `n` times over. -/
theorem runs_postPoll (message : Message) (n : ℕ) :
    (runs MessageQueue.call .empty (List.replicate n [.post message, .poll]).flatten).2 =
      ⟨[], List.replicate n message, n, 0⟩ := by
  induction n with
  | zero => rfl
  | succ n ih =>
    rw [List.replicate_succ', List.flatten_concat, runs_append, ih, List.replicate_succ']
    rfl

/-- After `2 ^ 32` posts the counter of posts is back at `0`. -/
theorem counters_wrap :
    ¬ ∀ calls : List IpcCall, (runs Ipc.call .initial calls).2.posted.toNat =
      (runs Ipc.call .initial calls).2.consumed.toNat + (runs Ipc.call .initial calls).2.depth := by
  intro h
  obtain ⟨n, hn⟩ : ∃ n, n = 2 ^ 32 - 1 := ⟨_, rfl⟩
  have hbroken := h ((List.replicate n [.post .empty, .poll]).flatten ++ [.post .empty])
  obtain ⟨-, hrefines⟩ := @runs_refines _ _ _ _ Ipc.call .initial
    ((List.replicate n [.post .empty, .poll]).flatten ++ [.post .empty]) MessageQueue.call
    Ipc.Refines (fun s q c h => h.call c) .empty .initial
  have hqueue : (runs MessageQueue.call .empty
      ((List.replicate n [.post .empty, .poll]).flatten ++ [.post .empty])).2 =
        ⟨[.empty], List.replicate n .empty, n + 1, 0⟩ := by
    rw [runs_concat_snd, runs_postPoll]
    rfl
  rw [hrefines.posted, hrefines.consumed, hrefines.depth_eq, hqueue, List.length_replicate,
    List.length_singleton, UInt32.toNat_ofNat', UInt32.toNat_ofNat', hn] at hbroken
  exact absurd hbroken (by decide)

end Tcmk
