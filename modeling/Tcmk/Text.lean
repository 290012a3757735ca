import Mathlib

/-!
# Strings

A `&str` is a list of bytes that passed `core::str::from_utf8`.
-/

namespace Tcmk

/-- A continuation byte of UTF-8. -/
def isContinuation (b : UInt8) : Bool := 0x80 ≤ b && b ≤ 0xBF

/-- The check of `core::str::from_utf8`: well-formed UTF-8 without surrogates and without
overlong forms. -/
def utf8Valid : List UInt8 → Bool
  | [] => true
  | a :: rest =>
    if a < 0x80 then utf8Valid rest
    else match rest with
      | [] => false
      | b :: rest =>
        if 0xC2 ≤ a && a ≤ 0xDF then isContinuation b && utf8Valid rest
        else match rest with
          | [] => false
          | c :: rest =>
            if 0xE0 ≤ a && a ≤ 0xEF then
              isContinuation b && isContinuation c && (a != 0xE0 || 0xA0 ≤ b) &&
                (a != 0xED || b ≤ 0x9F) && utf8Valid rest
            else match rest with
              | [] => false
              | d :: rest =>
                if 0xF0 ≤ a && a ≤ 0xF4 then
                  isContinuation b && isContinuation c && isContinuation d &&
                    (a != 0xF0 || 0x90 ≤ b) && (a != 0xF4 || b ≤ 0x8F) && utf8Valid rest
                else false

/-- `'/'`. -/
def slash : UInt8 := 47

/-- `'.'`. -/
def dot : UInt8 := 46

/-- `path.split('/')`. -/
def splitPath (path : List UInt8) : List (List UInt8) := path.splitOn slash

/-- `trim_end_matches('/')`. -/
def trimSlashes (path : List UInt8) : List UInt8 := path.rdropWhile (· == slash)

/-- What follows the last `'/'`, or everything. -/
def lastComponent (path : List UInt8) : List UInt8 := path.rtakeWhile (· != slash)

/-- What precedes the last `'/'`, or nothing. -/
def beforeLast (path : List UInt8) : List UInt8 :=
  path.take (path.length - (lastComponent path).length - 1)

/-! ## UTF-8 -/

theorem utf8Valid_append {xs ys : List UInt8} (hx : utf8Valid xs = true)
    (hy : utf8Valid ys = true) : utf8Valid (xs ++ ys) = true := by
  fun_induction utf8Valid xs with
  | case1 => exact hy
  | case2 a rest ha ih =>
    rw [List.cons_append, utf8Valid.eq_def]
    simp_all
  | case4 a ha b rest hlead ih =>
    rw [List.cons_append, List.cons_append, utf8Valid.eq_def]
    simp only [if_neg ha, if_pos hlead]
    simp_all
  | case6 a ha b hlead c rest hlead' ih =>
    rw [List.cons_append, List.cons_append, List.cons_append, utf8Valid.eq_def]
    simp only [if_neg ha, if_neg hlead, if_pos hlead']
    simp_all
  | case8 a ha b hlead c hlead' d rest hlead'' ih =>
    rw [List.cons_append, List.cons_append, List.cons_append, List.cons_append, utf8Valid.eq_def]
    simp only [if_neg ha, if_neg hlead, if_neg hlead', if_pos hlead'']
    simp_all
  | _ => cases hx

/-- A string splits at a slash into two strings. -/
theorem utf8Valid_slash {xs ys : List UInt8} (h : utf8Valid (xs ++ slash :: ys) = true) :
    utf8Valid xs = true ∧ utf8Valid ys = true := by
  have hcont : isContinuation slash = false := by decide
  fun_induction utf8Valid xs with
  | case1 => exact ⟨rfl, by rwa [List.nil_append, utf8Valid.eq_def] at h⟩
  | case2 a rest ha ih =>
    rw [List.cons_append, utf8Valid.eq_def] at h
    simp only [if_pos ha] at h
    exact ih h
  | case3 a ha =>
    rw [List.cons_append, List.nil_append, utf8Valid.eq_def] at h
    simp only [if_neg ha, hcont, Bool.false_and] at h
    split at h
    · cases h
    split at h
    · cases h
    split at h
    · cases h
    split at h
    · cases h
    split at h
    · cases h
    · cases h
  | case4 a ha b rest hlead ih =>
    rw [List.cons_append, List.cons_append, utf8Valid.eq_def] at h
    simp only [if_neg ha, if_pos hlead] at h
    simp only [Bool.and_eq_true] at h ⊢
    exact ⟨⟨h.1, (ih h.2).1⟩, (ih h.2).2⟩
  | case5 a ha b hlead =>
    rw [List.cons_append, List.cons_append, List.nil_append, utf8Valid.eq_def] at h
    simp only [if_neg ha, if_neg hlead, hcont, Bool.false_and, Bool.and_false] at h
    split at h
    · cases h
    split at h
    · cases h
    split at h
    · cases h
    · cases h
  | case6 a ha b hlead c rest hlead' ih =>
    rw [List.cons_append, List.cons_append, List.cons_append, utf8Valid.eq_def] at h
    simp only [if_neg ha, if_neg hlead, if_pos hlead'] at h
    simp only [Bool.and_eq_true] at h ⊢
    exact ⟨⟨h.1, (ih h.2).1⟩, (ih h.2).2⟩
  | case7 a ha b hlead c hlead' =>
    rw [List.cons_append, List.cons_append, List.cons_append, List.nil_append,
      utf8Valid.eq_def] at h
    simp only [if_neg ha, if_neg hlead, if_neg hlead', hcont, Bool.false_and, Bool.and_false] at h
    split at h
    · cases h
    · cases h
  | case8 a ha b hlead c hlead' d rest hlead'' ih =>
    rw [List.cons_append, List.cons_append, List.cons_append, List.cons_append,
      utf8Valid.eq_def] at h
    simp only [if_neg ha, if_neg hlead, if_neg hlead', if_pos hlead''] at h
    simp only [Bool.and_eq_true] at h ⊢
    exact ⟨⟨h.1, (ih h.2).1⟩, (ih h.2).2⟩
  | case9 a ha b hlead c hlead' d rest hlead'' =>
    rw [List.cons_append, List.cons_append, List.cons_append, List.cons_append,
      utf8Valid.eq_def] at h
    simp only [if_neg ha, if_neg hlead, if_neg hlead', if_neg hlead''] at h
    cases h

/-! ## Components -/

/-- The components of a path that count: neither empty nor `"."`. -/
def components (path : List UInt8) : List (List UInt8) :=
  (splitPath path).filter fun p => p != [] && p != [dot]

@[simp] theorem components_nil : components [] = [] := by
  simp [components, splitPath]

theorem components_slash (xs ys : List UInt8) :
    components (xs ++ slash :: ys) = components xs ++ components ys := by
  rw [components, splitPath, List.splitOn_append_cons_self, List.filter_append]
  rfl

/-- A component by itself. -/
theorem components_of_notMem {xs : List UInt8} (h : slash ∉ xs) (hnil : xs ≠ [])
    (hdot : xs ≠ [dot]) : components xs = [xs] := by
  rw [components, splitPath, List.splitOn_eq_singleton h]
  simp [hnil, hdot]

theorem components_dot : components [dot] = [] := by decide +kernel

theorem components_append_slashes (xs : List UInt8) {ys : List UInt8} (h : ∀ y ∈ ys, y = slash) :
    components (xs ++ ys) = components xs := by
  induction ys generalizing xs with
  | nil => rw [List.append_nil]
  | cons y ys ih =>
    obtain rfl := h y (List.mem_cons_self ..)
    have hys : components ys = [] := by
      have hnil := ih [] fun y hy => h y (List.mem_cons_of_mem _ hy)
      rwa [List.nil_append, components_nil] at hnil
    rw [components_slash, hys, List.append_nil]

/-- What `trim_end_matches` takes away. -/
theorem trimSlashes_append (path : List UInt8) :
    ∃ slashes, path = trimSlashes path ++ slashes ∧ ∀ y ∈ slashes, y = slash :=
  ⟨path.rtakeWhile (· == slash), (List.rdropWhile_append_rtakeWhile ..).symm, fun y hy => by
    have := List.mem_rtakeWhile_imp hy
    simpa using this⟩

theorem slash_notMem_lastComponent (path : List UInt8) : slash ∉ lastComponent path := fun h => by
  have := List.mem_rtakeWhile_imp h
  simp at this

/-- A path is its last component, after a slash and what stands before it, if it has a slash. -/
theorem beforeLast_lastComponent (path : List UInt8) :
    path = lastComponent path ∧ beforeLast path = [] ∨
      path = beforeLast path ++ slash :: lastComponent path := by
  have happ : path.rdropWhile (· != slash) ++ lastComponent path = path :=
    List.rdropWhile_append_rtakeWhile ..
  by_cases hnil : path.rdropWhile (· != slash) = []
  · rw [hnil, List.nil_append] at happ
    refine .inl ⟨happ.symm, ?_⟩
    rw [beforeLast, happ, Nat.sub_self]
    rfl
  · have hlast := List.rdropWhile_last_not _ _ hnil
    have hslash : (path.rdropWhile (· != slash)).getLast hnil = slash := by simpa using hlast
    have hdrop := List.dropLast_append_getLast hnil
    rw [hslash] at hdrop
    right
    have hbefore : beforeLast path = (path.rdropWhile (· != slash)).dropLast := by
      have hlen := congrArg List.length happ
      rw [List.length_append] at hlen
      have htake : ∀ l : List UInt8, l = path → l.take ((path.rdropWhile (· != slash)).length - 1) =
          path.take ((path.rdropWhile (· != slash)).length - 1) := fun l hl => by rw [hl]
      rw [beforeLast, List.dropLast_eq_take, ← hlen, Nat.add_sub_cancel, ← htake _ happ]
      exact List.take_append_of_le_length (Nat.sub_le _ _)
    rw [hbefore, List.append_cons, hdrop, happ]

/-- The components of a path, by its last one. -/
theorem components_lastComponent (path : List UInt8) :
    components path =
      components (beforeLast (trimSlashes path)) ++
      components (lastComponent (trimSlashes path)) := by
  obtain ⟨slashes, hpath, hslashes⟩ := trimSlashes_append path
  have htrim : components path = components (trimSlashes path) := by
    conv_lhs => rw [hpath]
    exact components_append_slashes _ hslashes
  rw [htrim]
  rcases beforeLast_lastComponent (trimSlashes path) with ⟨hwhole, hbefore⟩ | hsplit
  · rw [hbefore, components_nil, List.nil_append, ← hwhole]
  · conv_lhs => rw [hsplit, components_slash]

/-- The last component of a string is a string, of the same bytes. -/
theorem lastComponent_trimSlashes {path : List UInt8} (hvalid : utf8Valid path = true) :
    utf8Valid (lastComponent (trimSlashes path)) = true ∧
      ∀ b ∈ lastComponent (trimSlashes path), b ∈ path := by
  obtain ⟨slashes, hpath, hslashes⟩ := trimSlashes_append path
  have htrim : utf8Valid (trimSlashes path) = true := by
    cases slashes with
    | nil => rwa [← List.append_nil (trimSlashes path), ← hpath]
    | cons y ys =>
      obtain rfl := hslashes y (List.mem_cons_self ..)
      rw [hpath] at hvalid
      exact (utf8Valid_slash hvalid).1
  constructor
  · rcases beforeLast_lastComponent (trimSlashes path) with ⟨hwhole, -⟩ | hsplit
    · rwa [← hwhole]
    · rw [hsplit] at htrim
      exact (utf8Valid_slash htrim).2
  · intro b hb
    rw [hpath]
    exact List.mem_append_left _ ((List.rtakeWhile_suffix ..).subset hb)

end Tcmk
