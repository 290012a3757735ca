import Tcmk.Lib.Loop
import Tcmk.Fs.Calls

/-!
# Paths and the tree they name

A directory has no list of its entries: an inode names its parent, and the tree is what the
parents make of the table. `Lineage s i chain` says that `chain` leads from the root down to `i`,
through directories. In a table that is a `Tree`, every inode in use has such a chain, and the
names along it are distinct among siblings.

* `resolve_eq` — `resolve` walks the components that count, at most `MAX_DEPTH` of them.
* `pathOf_ends` — the loop of `path_of` ends on every table.
* `Tree.pathOf_resolve` — in a tree, `resolve` finds an inode under the path `path_of` gives.
-/

namespace Tcmk

open Lib

/-- `PATH_MAX`. -/
def pathMax : ℕ := maxDepth * (maxName + 1) + 1

namespace Fs

variable {s t : Fs} {i j : ℕ} {chain chain' : List ℕ} {name : List UInt8}

/-! ## `path_of` -/

/-- One round of the loop of `path_of` that collects the chain of ancestors. The array `chain` is
kept in the order in which the second loop goes through it. -/
def chainRound (s : Fs) : ℕ × List ℕ → (ℕ × List ℕ) ⊕ Option (List ℕ)
  | (current, chain) =>
    if current = rootInode then .inr (some chain)
    else if chain.length ≥ maxDepth then .inr none
    else
      match s.inodeRef current with
      | none => .inr none
      | some inode =>
        if inode.parent.toNat = current then .inr none
        else .inl (inode.parent.toNat, current :: chain)

/-- The second loop of `path_of`, with the bytes written to the buffer so far. -/
def joinNames (s : Fs) : List ℕ → List UInt8 → Option (List UInt8)
  | [], buf => if utf8Valid buf then some buf else none
  | i :: chain, buf =>
    match s.inodeRef i with
    | none => none
    | some inode =>
      if buf.length + 1 + (nameOf inode).length ≥ pathMax then none
      else joinNames s chain (buf ++ slash :: nameOf inode)

/-- `path_of`. A round that goes on makes the chain longer, so that `MAX_DEPTH + 1` rounds are
enough. -/
def pathOf (s : Fs) (index : ℕ) : Option (List UInt8) :=
  if index = rootInode then some [slash]
  else
    match runLoop s.chainRound (maxDepth + 1) (index, []) with
    | some (some chain) => s.joinNames chain []
    | _ => none

theorem chainRound_next {current : ℕ} {chain : List ℕ} {next : ℕ × List ℕ}
    (h : s.chainRound (current, chain) = .inl next) :
    chain.length < maxDepth ∧ next.2 = current :: chain := by
  simp only [chainRound] at h
  split at h
  · cases h
  split at h
  · cases h
  rename_i hdepth
  split at h
  · cases h
  split at h
  · cases h
  cases h
  exact ⟨not_le.1 hdepth, rfl⟩

/-- On every table, parent cycles or not, the loop ends, and `path_of` goes on with its result. -/
theorem pathOf_ends (s : Fs) (index : ℕ) :
    ∃ r, Ends s.chainRound (index, []) r ∧
      s.pathOf index = if index = rootInode then some [slash]
        else r.bind fun chain => s.joinNames chain [] := by
  have hround : ∀ state next, s.chainRound state = .inl next →
      maxDepth - next.2.length < maxDepth - state.2.length := fun state next h => by
    obtain ⟨current, chain⟩ := state
    obtain ⟨hlt, hnext⟩ := chainRound_next h
    rw [hnext, List.length_cons]
    show maxDepth - (chain.length + 1) < maxDepth - chain.length
    omega
  have hfuel : maxDepth - (index, ([] : List ℕ)).2.length < maxDepth + 1 :=
    Nat.lt_succ_of_le (Nat.sub_le _ _)
  obtain ⟨r, hr⟩ := runLoop_of_measure (fun state : ℕ × List ℕ => maxDepth - state.2.length)
    hround hfuel
  refine ⟨r, ends_of_runLoop hr, ?_⟩
  rw [pathOf, hr]
  cases r <;> rfl

/-! ## Names -/

theorem utf8Valid_nameOf (inode : Inode) : utf8Valid (nameOf inode) = true := by
  rw [nameOf]
  split
  · assumption
  · rfl

theorem childOf_some (hname : name ≠ []) {parent : ℕ} (h : s.childOf parent name = some i) :
    i < maxInodes ∧ (s.inodes i).kind ≠ kindFree ∧ (s.inodes i).parent.toNat = parent ∧
      i ≠ rootInode ∧ nameOf (s.inodes i) = name := by
  rw [childOf, if_neg hname] at h
  have hmem := List.mem_range.1 (List.mem_of_find?_eq_some h)
  have hfound := List.find?_some h
  simp only [Bool.and_eq_true, bne_iff_ne, beq_iff_eq] at hfound
  exact ⟨hmem, hfound.1.1.1, hfound.1.1.2, hfound.1.2, hfound.2⟩

theorem childOf_none (hname : name ≠ []) {parent : ℕ} (h : s.childOf parent name = none)
    (hi : i < maxInodes) (hkind : (s.inodes i).kind ≠ kindFree) (hroot : i ≠ rootInode)
    (hparent : (s.inodes i).parent.toNat = parent) : nameOf (s.inodes i) ≠ name := by
  intro heq
  rw [childOf, if_neg hname, List.find?_eq_none] at h
  refine h i (List.mem_range.2 hi) ?_
  simp [hkind, hparent, hroot, heq]

/-! ## Walking down -/

/-- Go from a directory to its children, one name after the other. -/
def walk (s : Fs) : ℕ → List (List UInt8) → Option ℕ
  | current, [] => some current
  | current, part :: parts =>
    if current < maxInodes ∧ (s.inodes current).kind = kindDir then
      (s.childOf current part).bind fun child => s.walk child parts
    else none

theorem walk_append (current : ℕ) (parts parts' : List (List UInt8)) :
    s.walk current (parts ++ parts') =
      (s.walk current parts).bind fun next => s.walk next parts' := by
  induction parts generalizing current with
  | nil => rfl
  | cons part parts ih =>
    simp only [List.cons_append, walk]
    split
    · cases s.childOf current part with
      | none => rfl
      | some child => exact ih child
    · rfl

/-- One component of `resolve`. -/
theorem resolveFrom_cons {part : List UInt8} {parts : List (List UInt8)} {current depth : ℕ}
    (hpart : ¬ (part = [] ∨ part = [dot])) :
    s.resolveFrom (part :: parts) current depth =
      if depth + 1 > maxDepth then none
      else if current < maxInodes ∧ (s.inodes current).kind = kindDir then
        (s.childOf current part).bind fun child => s.resolveFrom parts child (depth + 1)
      else none := by
  rw [resolveFrom, if_neg hpart]
  split
  · rfl
  by_cases hcurrent : current ≥ maxInodes
  · rw [if_neg (fun h => not_lt.2 hcurrent h.1)]
    simp only [inodeRef, if_pos hcurrent]
  · simp only [inodeRef, if_neg hcurrent, not_le.1 hcurrent, true_and, ne_eq, ite_not]
    split
    · cases s.childOf current part <;> rfl
    · rfl

/-- `resolve` skips what does not count, and gives up below `MAX_DEPTH`. -/
theorem resolveFrom_eq (parts : List (List UInt8)) (current : ℕ) {depth : ℕ}
    (hdepth : depth ≤ maxDepth) :
    s.resolveFrom parts current depth =
      if depth + (parts.filter fun p => p != [] && p != [dot]).length ≤ maxDepth then
        s.walk current (parts.filter fun p => p != [] && p != [dot])
      else none := by
  induction parts generalizing current depth with
  | nil => rw [resolveFrom, List.filter_nil, List.length_nil, Nat.add_zero, if_pos hdepth]; rfl
  | cons part parts ih =>
    by_cases hpart : part = [] ∨ part = [dot]
    · have hskip : ¬ (part != [] && part != [dot]) = true := by
        rcases hpart with rfl | rfl <;> decide
      rw [resolveFrom, if_pos hpart, List.filter_cons_of_neg (p := fun p => p != [] && p != [dot])
        hskip, ih current hdepth]
    · have hkeep : (part != [] && part != [dot]) = true := by
        rw [Bool.and_eq_true, bne_iff_ne, bne_iff_ne]
        exact not_or.1 hpart
      rw [List.filter_cons_of_pos (p := fun p => p != [] && p != [dot]) hkeep,
        resolveFrom_cons hpart, List.length_cons]
      by_cases hlast : depth + 1 > maxDepth
      · rw [if_pos hlast, if_neg (by omega)]
      · rw [if_neg hlast, walk]
        have hih := fun child => ih child (not_lt.1 hlast)
        simp only [hih]
        rw [show depth + ((parts.filter fun p => p != [] && p != [dot]).length + 1) =
          depth + 1 + (parts.filter fun p => p != [] && p != [dot]).length by omega]
        by_cases hdir : current < maxInodes ∧ (s.inodes current).kind = kindDir
        · simp only [if_pos hdir]
          cases s.childOf current part with
          | none => exact (ite_self _).symm
          | some child => rfl
        · simp only [if_neg hdir, ite_self]

theorem resolve_eq (path : List UInt8) :
    s.resolve path = if (components path).length ≤ maxDepth then
      s.walk rootInode (components path) else none := by
  rw [resolve, resolveFrom_eq _ _ (Nat.zero_le _), Nat.zero_add]
  rfl

/-! ## Lineages -/

/-- The inodes of `chain`, each in the directory before it, lead from the root to `i`. -/
inductive Lineage (s : Fs) : ℕ → List ℕ → Prop
  | root : Lineage s rootInode []
  | child {i : ℕ} {chain : List ℕ} : i < maxInodes → i ≠ rootInode →
      (s.inodes i).kind ≠ kindFree → (s.inodes (s.inodes i).parent.toNat).kind = kindDir →
      Lineage s (s.inodes i).parent.toNat chain → Lineage s i (chain ++ [i])

namespace Lineage

theorem unique (h : Lineage s i chain) (h' : Lineage s i chain') : chain = chain' := by
  induction h generalizing chain' with
  | root =>
    cases h' with
    | root => rfl
    | child _ hne => exact absurd rfl hne
  | child _ hne _ _ _ ih =>
    cases h' with
    | root => exact absurd rfl hne
    | child _ _ _ _ h' => rw [ih h']

theorem lt (h : Lineage s i chain) : i < maxInodes := by
  cases h with
  | root => decide
  | child hi => exact hi

/-- No inode of a tree is its own parent, but the root. -/
theorem parent_ne (h : Lineage s i chain) (hne : i ≠ rootInode) :
    (s.inodes i).parent.toNat ≠ i := by
  intro heq
  cases h with
  | root => exact hne rfl
  | @child _ chain _ _ _ _ h =>
    rw [heq] at h
    have hlen := congrArg List.length (h.unique (.child ‹_› hne ‹_› ‹_› (by rwa [heq])))
    rw [List.length_append] at hlen
    simp at hlen

/-- Every inode of the chain has a name and a chain of its own. -/
theorem mem (h : Lineage s i chain) (hj : j ∈ chain) :
    j < maxInodes ∧ j ≠ rootInode ∧ (s.inodes j).kind ≠ kindFree := by
  induction h with
  | root => cases hj
  | child hi hne hkind _ _ ih =>
    rcases List.mem_append.1 hj with hj | hj
    · exact ih hj
    · obtain rfl := List.mem_singleton.1 hj
      exact ⟨hi, hne, hkind⟩

/-- The loop of `path_of` collects the chain. -/
theorem runLoop_chainRound (h : Lineage s i chain) {acc : List ℕ} (n : ℕ)
    (hdepth : acc.length + chain.length ≤ maxDepth) :
    runLoop s.chainRound (n + chain.length + 1) (i, acc) = some (some (chain ++ acc)) := by
  induction h generalizing acc with
  | root => exact runLoop_stop _ (by rw [chainRound, if_pos rfl, List.nil_append])
  | @child i chain hi hne hkind hdir h ih =>
    have hself := parent_ne (.child hi hne hkind hdir h) hne
    rw [List.length_append, List.length_singleton] at hdepth ⊢
    have hround : s.chainRound (i, acc) = .inl ((s.inodes i).parent.toNat, i :: acc) := by
      simp only [chainRound]
      rw [if_neg hne, if_neg (by omega)]
      simp only [inodeRef, if_neg (Nat.not_le.2 hi), if_neg hself]
    rw [runLoop_next _ hround, ← Nat.add_assoc, ih (by rw [List.length_cons]; omega),
      List.append_assoc, List.singleton_append]

end Lineage

/-- A path down from an inode with a lineage. -/
theorem walk_lineage {parts : List (List UInt8)} (hparts : ∀ p ∈ parts, p ≠ [])
    (hj : Lineage s j chain) (h : s.walk j parts = some i) :
    ∃ below, below.length = parts.length ∧ Lineage s i (chain ++ below) := by
  induction parts generalizing j chain with
  | nil =>
    cases h
    exact ⟨[], rfl, by rwa [List.append_nil]⟩
  | cons part parts ih =>
    rw [walk] at h
    split at h
    · rename_i hdir
      obtain ⟨child, hchild, hwalk⟩ := Option.bind_eq_some_iff.1 h
      obtain ⟨hlt, hkind, hparent, hroot, -⟩ :=
        childOf_some (hparts part (List.mem_cons_self ..)) hchild
      have hlineage : Lineage s child (chain ++ [child]) :=
        .child hlt hroot hkind (by rw [hparent]; exact hdir.2) (by rwa [hparent])
      obtain ⟨below, hlen, hi⟩ := ih (fun p hp => hparts p (List.mem_cons_of_mem _ hp))
        hlineage hwalk
      exact ⟨child :: below, by rw [List.length_cons, List.length_cons, hlen],
        by rwa [List.append_assoc] at hi⟩
    · cases h

/-! ## Trees -/

/-- What a name in a directory can be. -/
structure ProperName (name : List UInt8) : Prop where
  ne_nil : name ≠ []
  ne_dot : name ≠ [dot]
  slash : slash ∉ name
  length : name.length < maxName

/-- The inodes in use are a tree of directories and files, at most `MAX_DEPTH` deep, in which
siblings have different names. -/
structure Tree (s : Fs) : Prop where
  root : (s.inodes rootInode).kind = kindDir
  lineage : ∀ i < maxInodes, (s.inodes i).kind ≠ kindFree →
    ∃ chain, chain.length ≤ maxDepth ∧ Lineage s i chain
  name : ∀ i < maxInodes, i ≠ rootInode → (s.inodes i).kind ≠ kindFree →
    ProperName (nameOf (s.inodes i))
  siblings : ∀ i < maxInodes, ∀ j < maxInodes, i ≠ rootInode → j ≠ rootInode →
    (s.inodes i).kind ≠ kindFree → (s.inodes j).kind ≠ kindFree →
    (s.inodes i).parent = (s.inodes j).parent → nameOf (s.inodes i) = nameOf (s.inodes j) → i = j

/-- The path of a chain. -/
def joined (s : Fs) (chain : List ℕ) : List UInt8 :=
  chain.flatMap fun i => slash :: nameOf (s.inodes i)

namespace Tree

theorem childOf (h : Tree s) (hi : i < maxInodes) (hroot : i ≠ rootInode)
    (hkind : (s.inodes i).kind ≠ kindFree) :
    s.childOf (s.inodes i).parent.toNat (nameOf (s.inodes i)) = some i := by
  have hname := (h.name i hi hroot hkind).ne_nil
  cases hchild : s.childOf (s.inodes i).parent.toNat (nameOf (s.inodes i)) with
  | none => exact absurd rfl (childOf_none hname hchild hi hkind hroot rfl)
  | some j =>
    obtain ⟨hj, hkind', hparent, hroot', hname'⟩ := childOf_some hname hchild
    rw [h.siblings j hj i hi hroot' hroot hkind' hkind (UInt32.toNat_inj.1 hparent) hname']

theorem walk_root (h : Tree s) (hi : Lineage s i chain) :
    s.walk rootInode (chain.map fun j => nameOf (s.inodes j)) = some i := by
  induction hi with
  | root => rfl
  | child hlt hne hkind hdir hparent ih =>
    rw [List.map_append, walk_append, ih, Option.bind_some, List.map_singleton, walk,
      if_pos ⟨hparent.lt, hdir⟩, h.childOf hlt hne hkind]
    rfl

/-- The components of a chain's path are the names along it. -/
theorem components_joined (h : Tree s) (hi : Lineage s i chain) :
    components (s.joined chain) = chain.map fun j => nameOf (s.inodes j) := by
  induction hi with
  | root => exact components_nil
  | @child i chain hlt hne hkind _ _ ih =>
    have hname := h.name i hlt hne hkind
    rw [joined, List.flatMap_append, List.flatMap_singleton, components_slash, List.map_append,
      List.map_singleton, components_of_notMem hname.slash hname.ne_nil hname.ne_dot]
    exact congrArg (· ++ _) ih

/-- The buffer is large enough for the names of a chain. -/
theorem joinNames (h : Tree s)
    (hchain : ∀ j ∈ chain, j < maxInodes ∧ j ≠ rootInode ∧ (s.inodes j).kind ≠ kindFree)
    {buf : List UInt8} (hbuf : utf8Valid buf = true)
    (hlen : buf.length + chain.length * maxName < pathMax) :
    s.joinNames chain buf = some (buf ++ s.joined chain) := by
  induction chain generalizing buf with
  | nil => rw [Fs.joinNames, if_pos hbuf, joined, List.flatMap_nil, List.append_nil]
  | cons j chain ih =>
    obtain ⟨hj, hroot, hkind⟩ := hchain j (List.mem_cons_self ..)
    have hname := (h.name j hj hroot hkind).length
    rw [List.length_cons] at hlen
    have hstep : (buf ++ slash :: nameOf (s.inodes j)).length + chain.length * maxName <
      pathMax := by
      rw [List.length_append, List.length_cons]
      simp only [maxName, Nat.add_mul, Nat.one_mul] at hlen hname ⊢
      omega
    have hslash : utf8Valid [slash] = true := by decide
    have hvalid : utf8Valid (buf ++ slash :: nameOf (s.inodes j)) = true :=
      utf8Valid_append hbuf (utf8Valid_append hslash (utf8Valid_nameOf _))
    rw [Fs.joinNames]
    simp only [inodeRef, if_neg (Nat.not_le.2 hj)]
    rw [if_neg (by rw [List.length_append, List.length_cons] at hstep; omega),
      ih (fun k hk => hchain k (List.mem_cons_of_mem _ hk)) hvalid hstep, List.append_assoc]
    rfl

/-- **Round trip.** `path_of` gives each inode in use a path, and `resolve` finds it there. -/
theorem pathOf_resolve (h : Tree s) (hi : i < maxInodes) (hkind : (s.inodes i).kind ≠ kindFree) :
    ∃ path, s.pathOf i = some path ∧ s.resolve path = some i := by
  by_cases hroot : i = rootInode
  · subst hroot
    refine ⟨[slash], if_pos rfl, ?_⟩
    rw [resolve_eq, show components [slash] = [] by decide +kernel]
    rfl
  · obtain ⟨chain, hdepth, hlineage⟩ := h.lineage i hi hkind
    have hrun := @Lineage.runLoop_chainRound s i chain hlineage [] (maxDepth - chain.length)
      (by rwa [List.length_nil, Nat.zero_add])
    rw [Nat.sub_add_cancel hdepth, List.append_nil] at hrun
    refine ⟨s.joined chain, ?_, ?_⟩
    · rw [pathOf, if_neg hroot, hrun]
      exact h.joinNames (fun j hj => hlineage.mem hj) rfl (by
        simp only [maxDepth, pathMax, maxName, List.length_nil] at hdepth ⊢
        omega)
    · rw [resolve_eq, h.components_joined hlineage, List.length_map, if_pos hdepth,
        h.walk_root hlineage]

end Tree

end Fs

end Tcmk
