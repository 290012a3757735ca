import Tcmk.Fs.Paths
import Tcmk.Fs.Ownership

/-!
# The directory tree

`directory_tree`: after a successful `format` and any calls with NUL-free path strings, whatever
the calls returned, the inode table is a `Tree`, and `path_of` and `resolve` are inverse on it.

A new entry gets a name that its directory does not have yet, because `create` and `mkdir` have
looked the whole path up before (`freshName_of_split`). An entry that goes has no children: it is
a file, or a directory that `rmdir` found empty.
-/

namespace Tcmk

open Lib

namespace Fs

variable {s t u : Fs} {i j index parent : ℕ} {chain : List ℕ} {path leaf : List UInt8}

/-! ## Frames -/

/-- The same names, kinds and parents. -/
def SameNames (s t : Fs) : Prop :=
  ∀ i, (t.inodes i).kind = (s.inodes i).kind ∧ (t.inodes i).parent = (s.inodes i).parent ∧
    nameOf (t.inodes i) = nameOf (s.inodes i)

theorem SameTables.sameNames (h : SameTables s t) : SameNames s t := fun i => by
  rw [h.inodes]
  exact ⟨rfl, rfl, rfl⟩

theorem Lineage.congr (h : Lineage s i chain) (hst : SameNames s t) : Lineage t i chain := by
  induction h with
  | root => exact .root
  | @child i chain hi hne hkind hdir _ ih =>
    refine .child hi hne (by rwa [(hst i).1]) ?_ ?_
    · rwa [(hst i).2.1, (hst _).1]
    · rwa [(hst i).2.1]

theorem Tree.congr (h : Tree s) (hst : SameNames s t) : Tree t where
  root := (hst _).1.trans h.root
  lineage i hi hkind := by
    rw [(hst i).1] at hkind
    obtain ⟨chain, hlen, hlineage⟩ := h.lineage i hi hkind
    exact ⟨chain, hlen, hlineage.congr hst⟩
  name i hi hroot hkind := by
    rw [(hst i).1] at hkind
    rw [(hst i).2.2]
    exact h.name i hi hroot hkind
  siblings i hi j hj hi' hj' hki hkj hparent hname := by
    rw [(hst i).1] at hki
    rw [(hst j).1] at hkj
    rw [(hst i).2.1, (hst j).2.1] at hparent
    rw [(hst i).2.2, (hst j).2.2] at hname
    exact h.siblings i hi j hj hi' hj' hki hkj hparent hname

/-- A change of an inode that is on no chain. -/
theorem Lineage.setInode (h : Lineage s i chain) (inode : Inode) (hroot : index ≠ rootInode)
    (hchain : index ∉ chain) : Lineage (s.setInode index inode) i chain := by
  induction h with
  | root => exact .root
  | @child i chain hi hne hkind hdir h ih =>
    have hi' : i ≠ index := fun heq => hchain (List.mem_append_right _ (by simp [heq]))
    have hparent : (s.inodes i).parent.toNat ≠ index := fun heq => by
      generalize (s.inodes i).parent.toNat = p at h heq
      cases h with
      | root => exact hroot heq.symm
      | child => exact hchain (List.mem_append_left _ (List.mem_append_right _ (by simp [heq])))
    have heq := setInode_inodes_of_ne s inode hi'
    refine .child hi hne (by rwa [heq]) ?_ ?_
    · rwa [heq, setInode_inodes_of_ne s inode hparent]
    · rw [heq]
      exact ih fun hmem => hchain (List.mem_append_left _ hmem)

/-! ## An entry goes -/

/-- No other inode in use names this one as its parent. -/
def Childless (s : Fs) (index : ℕ) : Prop :=
  ∀ i < maxInodes, i ≠ rootInode → i ≠ index → (s.inodes i).kind ≠ kindFree →
    (s.inodes i).parent.toNat ≠ index

/-- An inode without children is only on its own chain. -/
theorem Lineage.notMem (h : Lineage s i chain) (hchildless : Childless s index) (hi : i ≠ index) :
    index ∉ chain := by
  induction h with
  | root => exact List.not_mem_nil
  | @child i chain hlt hne hkind _ _ ih =>
    intro hmem
    rcases List.mem_append.1 hmem with hmem | hmem
    · exact ih (hchildless i hlt hne hi hkind) hmem
    · exact hi (List.mem_singleton.1 hmem).symm

theorem Tree.erase (h : Tree s) (hroot : index ≠ rootInode) (hchildless : Childless s index) :
    Tree (s.setInode index Inode.empty) := by
  have hused : ∀ i, ((s.setInode index Inode.empty).inodes i).kind ≠ kindFree → i ≠ index :=
    fun i hkind heq => hkind (by rw [heq, setInode_inodes_self]; rfl)
  have hold : ∀ i, i ≠ index → (s.setInode index Inode.empty).inodes i = s.inodes i :=
    fun i hi => setInode_inodes_of_ne s _ hi
  refine ⟨?_, fun i hi hkind => ?_, fun i hi hi' hkind => ?_,
    fun i hi j hj hi' hj' hki hkj hparent hname => ?_⟩
  · rw [hold _ hroot.symm]
    exact h.root
  · have hne := hused i hkind
    rw [hold i hne] at hkind
    obtain ⟨chain, hlen, hlineage⟩ := h.lineage i hi hkind
    exact ⟨chain, hlen, hlineage.setInode _ hroot (hlineage.notMem hchildless hne)⟩
  · have hne := hused i hkind
    rw [hold i hne] at hkind ⊢
    exact h.name i hi hi' hkind
  · have hne := hused i hki
    have hne' := hused j hkj
    rw [hold i hne] at hki hparent hname
    rw [hold j hne'] at hkj hparent hname
    exact h.siblings i hi j hj hi' hj' hki hkj hparent hname

/-- A file has no children. -/
theorem Tree.childless_file (h : Tree s) (hkind : (s.inodes index).kind = kindFile) :
    Childless s index := by
  intro i hi hroot _ hused heq
  obtain ⟨chain, -, hlineage⟩ := h.lineage i hi hused
  cases hlineage with
  | root => exact hroot rfl
  | child _ _ _ hdir _ =>
    rw [heq, hkind] at hdir
    exact absurd hdir (by decide)

/-! ## An entry comes -/

/-- A name for a new entry of the directory `parent`. -/
structure FreshName (s : Fs) (parent : ℕ) (leaf : List UInt8) : Prop where
  proper : ProperName leaf
  valid : utf8Valid leaf = true
  nul : 0 ∉ leaf
  fresh : s.childOf parent leaf = none
  dir : (s.inodes parent).kind = kindDir
  lineage : ∃ chain, chain.length < maxDepth ∧ Lineage s parent chain

theorem splitParent_ok (h : s.splitParent path = .ok (parent, leaf)) :
    leaf = lastComponent (trimSlashes path) ∧ leaf ≠ [] ∧ leaf.length < maxName ∧
      (components path).length ≤ maxDepth ∧
      s.walk rootInode (components (beforeLast (trimSlashes path))) = some parent ∧
      parent < maxInodes ∧ (s.inodes parent).kind = kindDir := by
  have hcomponents : components (trimSlashes path) = components path := by
    obtain ⟨slashes, hpath, hslashes⟩ := trimSlashes_append path
    conv_rhs => rw [hpath]
    exact (components_append_slashes _ hslashes).symm
  have hdir : ∀ dir : List UInt8, components (if dir = [] then [slash] else dir) = components dir :=
    fun dir => by
      split
      · rename_i hnil
        rw [hnil]
        decide +kernel
      · rfl
  rw [splitParent] at h
  split at h
  · cases h
  rename_i hleaf
  rw [not_or, not_le] at hleaf
  split at h
  · cases h
  rename_i hdepth
  rw [← components, hcomponents, not_lt] at hdepth
  split at h
  · cases h
  rename_i p hresolve
  split at h
  · cases h
  rename_i inode hinode
  split at h
  · cases h
  rename_i hkind
  cases h
  rw [inodeRef] at hinode
  split at hinode
  · cases hinode
  rename_i hlt
  cases hinode
  rw [resolve_eq, hdir] at hresolve
  split at hresolve
  · exact ⟨rfl, hleaf.1, hleaf.2, hdepth, hresolve, not_le.1 hlt, not_not.1 hkind⟩
  · cases hresolve

/-- A path that resolves to nothing and splits names a new entry. -/
theorem freshName_of_split (hvalid : utf8Valid path = true) (hnul : 0 ∉ path)
    (hexists : s.resolve path = none) (h : s.splitParent path = .ok (parent, leaf)) :
    FreshName s parent leaf := by
  obtain ⟨hleaf, hne, hlen, hdepth, hwalk, hparent, hdir⟩ := splitParent_ok h
  obtain ⟨hvalid', hmem⟩ := lastComponent_trimSlashes hvalid
  have hslash := slash_notMem_lastComponent (trimSlashes path)
  have hsplit := components_lastComponent path
  rw [← hleaf] at hvalid' hmem hslash hsplit
  rw [resolve_eq, if_pos hdepth] at hexists
  -- Were the last component `"."`, the path would lead to the directory itself.
  have hdot : leaf ≠ [dot] := fun hdot => by
    rw [hsplit, hdot, components_dot, List.append_nil, hwalk] at hexists
    cases hexists
  rw [components_of_notMem hslash hne hdot] at hsplit
  refine ⟨⟨hne, hdot, hslash, hlen⟩, hvalid', fun h => hnul (hmem 0 h), ?_, hdir, ?_⟩
  · rw [hsplit, walk_append, hwalk, Option.bind_some, walk, if_pos ⟨hparent, hdir⟩] at hexists
    cases hchild : s.childOf parent leaf with
    | none => rfl
    | some child =>
      rw [hchild] at hexists
      cases hexists
  · obtain ⟨below, hbelow, hlineage⟩ := walk_lineage (fun p hp => by
      have := List.of_mem_filter hp
      simp only [Bool.and_eq_true, bne_iff_ne] at this
      exact this.1) Lineage.root hwalk
    refine ⟨below, ?_, hlineage⟩
    rw [hsplit, List.length_append, List.length_singleton] at hdepth
    omega

/-- The name of a new inode. -/
theorem nameOf_newInode (hvalid : utf8Valid leaf = true) (hnul : 0 ∉ leaf)
    (hlen : leaf.length < maxName) (parent : ℕ) (kind unixTime : UInt32) :
    nameOf (newInode parent leaf kind unixTime) = leaf := by
  have hmap : (List.range maxName).map (newInode parent leaf kind unixTime).name =
      leaf ++ List.replicate (maxName - leaf.length) 0 := by
    refine List.ext_getElem ?_ fun k hk _ => ?_
    · rw [List.length_map, List.length_range, List.length_append, List.length_replicate]
      omega
    · rw [List.getElem_map, List.getElem_range]
      show leaf.getD k 0 = _
      by_cases hlt : k < leaf.length
      · rw [List.getElem_append_left hlt, List.getD_eq_getElem _ _ hlt]
      · rw [List.getElem_append_right (not_lt.1 hlt), List.getElem_replicate,
          List.getD_eq_default _ _ (not_lt.1 hlt)]
  have htake : (leaf ++ List.replicate (maxName - leaf.length) (0 : UInt8)).takeWhile (· != 0) =
      leaf := by
    have hbytes : ∀ b ∈ leaf, (b != 0) = true := fun b hb => by
      rw [bne_iff_ne]
      rintro rfl
      exact hnul hb
    rw [List.takeWhile_append_of_pos hbytes,
      show maxName - leaf.length = maxName - leaf.length - 1 + 1 by omega, List.replicate_succ,
      List.takeWhile_cons_of_neg (by decide), List.append_nil]
  rw [nameOf, hmap, htake, if_pos hvalid]

theorem Tree.insert (h : Tree s) (hfresh : FreshName s parent leaf)
    (hroot : index ≠ rootInode) (hfree : (s.inodes index).kind = kindFree)
    (kind unixTime : UInt32) :
    Tree (s.setInode index (newInode parent leaf kind unixTime)) := by
  obtain ⟨chain, hlen, hlineage⟩ := hfresh.lineage
  have hparent : (newInode parent leaf kind unixTime).parent.toNat = parent :=
    UInt32.toNat_ofNat_of_lt' (Nat.lt_of_lt_of_le hlineage.lt (by decide))
  have hname := nameOf_newInode hfresh.valid hfresh.nul hfresh.proper.length parent kind unixTime
  have hnotMem : ∀ {i chain}, Lineage s i chain → index ∉ chain := fun hl hmem =>
    (hl.mem hmem).2.2 hfree
  have hself := setInode_inodes_self s index (newInode parent leaf kind unixTime)
  have hold : ∀ i, i ≠ index →
      (s.setInode index (newInode parent leaf kind unixTime)).inodes i = s.inodes i :=
    fun i hi => setInode_inodes_of_ne s _ hi
  -- An old entry of the directory has another name.
  have hother : ∀ i < maxInodes, i ≠ rootInode → (s.inodes i).kind ≠ kindFree →
      (s.inodes i).parent = (newInode parent leaf kind unixTime).parent →
      nameOf (s.inodes i) ≠ leaf := fun i hi hi' hki hp =>
    childOf_none hfresh.proper.ne_nil hfresh.fresh hi hki hi' (by rw [hp, hparent])
  refine ⟨?_, fun i hlt hki => ?_, fun i hlt hi' hki => ?_,
    fun i hlt j hlt' hi' hj' hki hkj hp hn => ?_⟩
  · rw [hold _ hroot.symm]
    exact h.root
  · by_cases hne : i = index
    · subst hne
      have hdir : parent ≠ i := fun heq => by
        rw [← heq, hfresh.dir] at hfree
        exact absurd hfree (by decide)
      refine ⟨chain ++ [i], by rw [List.length_append, List.length_singleton]; omega,
        .child hlt hroot hki ?_ ?_⟩
      · rw [hself, hparent, hold _ hdir]
        exact hfresh.dir
      · rw [hself, hparent]
        exact hlineage.setInode _ hroot (hnotMem hlineage)
    · rw [hold i hne] at hki
      obtain ⟨chain, hlen, hl⟩ := h.lineage i hlt hki
      exact ⟨chain, hlen, hl.setInode _ hroot (hnotMem hl)⟩
  · by_cases hne : i = index
    · rw [hne, hself, hname]
      exact hfresh.proper
    · rw [hold i hne] at hki ⊢
      exact h.name i hlt hi' hki
  · by_cases hne : i = index
    · by_cases hne' : j = index
      · rw [hne, hne']
      · rw [hold j hne'] at hkj hp hn
        rw [hne, hself] at hp hn
        rw [hname] at hn
        exact absurd hn.symm (hother j hlt' hj' hkj hp.symm)
    · rw [hold i hne] at hki hp hn
      by_cases hne' : j = index
      · rw [hne', hself] at hp hn
        rw [hname] at hn
        exact absurd hn (hother i hlt hi' hki hp)
      · rw [hold j hne'] at hkj hp hn
        exact h.siblings i hlt j hlt' hi' hj' hki hkj hp hn

/-! ## Calls -/

/-- A program that leaves a tree, whatever it returns. -/
def KeepsTree {α : Type} (x : FsProg α) (s : Fs) : Prop :=
  Prog.Post x s (fun _ t => Tree t) fun stop t => ∀ e, stop = .err e → Tree t

theorem KeepsTables.keepsTree {α : Type} {x : FsProg α} (h : KeepsTables x s) (hs : Tree s) :
    KeepsTree x s :=
  Prog.Post.mono h (fun _ _ ht => hs.congr ht.sameNames) fun _ _ ht _ _ => hs.congr ht.2.sameNames

theorem KeepsTree.map {α β : Type} {x : FsProg α} {f : α → β} (h : KeepsTree x s) :
    KeepsTree (x >>= fun a => pure (f a)) s :=
  Prog.post_bind.2 (Prog.Post.mono h (fun _ _ ht => Prog.post_pure.2 ht) fun _ _ ht => ht)

theorem keepsTree_makeEntry (hs : Tree s) (hvalid : utf8Valid path = true) (hnul : 0 ∉ path)
    (kind : UInt32) : KeepsTree (makeEntry kind path) s := by
  unfold KeepsTree
  rw [makeEntry]
  simp only [Prog.post_bind, Prog.post_get]
  split
  · exact fun _ _ => hs
  split
  · exact fun _ _ => hs
  rename_i hexists
  split
  · exact fun _ _ => hs
  rename_i parent leaf hsplit
  have hfresh := freshName_of_split hvalid hnul (by simpa using hexists) hsplit
  rw [allocateInode]
  simp only [Prog.post_bind, Prog.post_get]
  split
  · exact fun _ _ => hs
  rename_i i hi
  split
  · exact fun _ h => by cases h
  have hfree := List.find?_some hi
  simp only [Bool.and_eq_true, beq_iff_eq, bne_iff_ne] at hfree
  simp only [Prog.post_bind, Prog.post_modify, Prog.post_pure]
  exact keepsTables_flushInodes.keepsTree (hs.insert hfresh hfree.2 hfree.1 kind _)

/-- `rmdir` asks whether the directory is empty. -/
theorem childless_of_any
    (h : ¬ ((List.range maxInodes).any fun i => (s.inodes i).kind != kindFree &&
    (s.inodes i).parent.toNat == index && i != index) = true) : Childless s index := by
  intro i hi _ hne hkind heq
  refine h (List.any_eq_true.2 ⟨i, List.mem_range.2 hi, ?_⟩)
  simp [hkind, heq, hne]

theorem keepsTree_rmdir (hs : Tree s) (path : List UInt8) : KeepsTree (rmdir path) s := by
  unfold KeepsTree
  rw [rmdir]
  simp only [Prog.post_bind, Prog.post_get]
  split
  · exact fun _ _ => hs
  split
  · exact fun _ _ => hs
  split
  · exact fun _ _ => hs
  rename_i hroot
  split
  · exact fun _ _ => hs
  split
  · exact fun _ _ => hs
  rename_i hempty
  exact keepsTables_flushInodes.keepsTree (hs.erase hroot (childless_of_any hempty))

theorem keepsTree_remove (hs : Tree s) {c : Prop} (hbooks : Books s s.live c) (index : ℕ) :
    KeepsTree (remove index) s := by
  unfold KeepsTree
  rw [remove]
  simp only [Prog.post_bind, Prog.post_get]
  split
  · exact fun _ _ => hs
  split
  · exact fun _ _ => hs
  rename_i hfile
  rw [not_or, not_le, not_not] at hfile
  have hroot : index ≠ rootInode := fun heq => by
    have hdir := hs.root
    rw [← heq, hfile.2] at hdir
    exact absurd hdir (by decide)
  refine Prog.post_bind.2 ((freeBlocks_post hbooks hfile.1 hfile.2).mono (fun _ t ht => ?_)
    fun _ _ h => h.elim)
  obtain ⟨⟨bitmap, free, rfl⟩, -⟩ := ht
  have hfreed : Tree { s with bitmap := bitmap, freeBlocks := free } :=
    hs.congr fun _ => ⟨rfl, rfl, rfl⟩
  have herase := hfreed.erase hroot (hfreed.childless_file hfile.2)
  simp only [Prog.post_bind, Prog.post_modify]
  exact (keepsTables_flushInodes.keepsTree herase).mono
    (fun _ _ ht => keepsTables_flushBitmap.keepsTree ht) fun _ _ h => h

theorem Allocating.sameNames {have_ : ℕ} (h : Allocating s index have_ t) : SameNames s t := by
  obtain ⟨blocks, bitmap, free, -, rfl⟩ := h
  intro i
  by_cases hi : i = index
  · subst hi
    simp only [Function.update_self, true_and]
    rfl
  · simp only [Function.update_of_ne hi, and_self]

theorem finishWrite_sameNames (s : Fs) (index stop : ℕ) :
    SameNames s (s.finishWrite index stop) := by
  intro i
  by_cases hi : i = index
  · subst hi
    rw [finishWrite, setInode_inodes_self]
    exact ⟨rfl, rfl, rfl⟩
  · rw [finishWrite_inodes_of_ne hi]
    exact ⟨rfl, rfl, rfl⟩

theorem keepsTree_write (arch : Arch) (hs : Tree s) {c : Prop} (hbooks : Books s s.live c)
    (index offset : ℕ) (data : List UInt8) : KeepsTree (write arch index offset data) s := by
  unfold KeepsTree
  rw [write]
  simp only [Prog.post_bind, Prog.post_get]
  split
  · exact fun _ _ => hs
  split
  · exact fun _ _ => hs
  rename_i hfile
  rw [not_or, not_le, not_not] at hfile
  obtain ⟨hindex, hkind⟩ := hfile
  split
  · exact fun _ _ => hs
  rename_i hstop
  rw [not_lt] at hstop
  have hhave := hbooks.blockCount_le hindex hkind
  have hneeded := blockCount_le hstop
  have hown : OwnPointers s index (blockCount (s.inodes index).size.toNat) := fun _ h => h.2.2
  refine Prog.post_bind.2 ((allocBlocks_post (c := c) hindex hown _ (Nat.le_refl _) (by omega)
    (.refl s index _) (by rwa [pending_self, Set.union_empty])).mono
    (fun _ u hend => ?_) fun stop u hend _ _ => hs.congr hend.2.1.sameNames)
  have halloc := hend.1
  have hu := hs.congr halloc.sameNames
  refine Prog.post_bind.2 ((keepsTables_writeLoop _ _ _ _ _ _ _ u).mono (fun _ v hv => ?_)
    fun _ v hv _ _ => hu.congr hv.2.sameNames)
  have hfinished := (hu.congr hv.sameNames).congr
    (finishWrite_sameNames v index ((offset + data.length) % 2 ^ arch.wordBits))
  have hflushes := (keepsTables_flushInodes.keepsTree hfinished).mono
    (fun _ _ ht => keepsTables_flushBitmap.keepsTree ht) fun _ _ h => h
  refine Prog.post_bind.2 (Prog.post_modify.2 ?_)
  unfold KeepsTree at hflushes
  simp only [Prog.post_bind, Prog.post_pure]
  exact hflushes

theorem keepsTree_replaceFile (hs : Tree s) {c : Prop} (hbooks : Books s s.live c)
    (hvalid : utf8Valid path = true) (hnul : 0 ∉ path) : KeepsTree (replaceFile path) s := by
  unfold KeepsTree
  rw [replaceFile]
  refine Prog.post_bind.2 (Prog.post_get.2 ?_)
  cases s.lookup path with
  | none => exact keepsTree_makeEntry hs hvalid hnul _
  | some i =>
    exact Prog.post_bind.2 ((keepsTree_remove hs hbooks i).mono
      (fun _ _ ht => keepsTree_makeEntry ht hvalid hnul _) fun _ _ h => h)

theorem keepsTree_writeAll (arch : Arch) (hs : Tree s) {c : Prop} (hbooks : Books s s.live c)
    (hvalid : utf8Valid path = true) (hnul : 0 ∉ path) (data : List UInt8) :
    KeepsTree (writeAll arch path data) s :=
  Prog.post_bind.2 (((keepsTree_replaceFile hs hbooks hvalid hnul).and
    (keepsBooks_replaceFile path c hbooks)).mono
    (fun i _ ⟨ht, hbooks'⟩ => keepsTree_write arch ht hbooks' i 0 data) fun _ _ h => h.1)

theorem keepsTree_read (hs : Tree s) (index offset room : ℕ) :
    KeepsTree (read index offset room) s := by
  unfold KeepsTree
  rw [read]
  simp only [Prog.post_bind, Prog.post_get]
  split
  · exact fun _ _ => hs
  split
  · exact fun _ _ => hs
  split
  · exact hs
  exact (keepsTables_readLoop _ _ _ _ s).mono (fun _ _ ht => hs.congr ht.sameNames)
    fun _ _ ht _ _ => hs.congr ht.2.sameNames

theorem keepsTree_sync (hs : Tree s) : KeepsTree sync s := by
  unfold KeepsTree
  rw [sync]
  simp only [Prog.post_bind, Prog.post_get]
  split
  · exact fun _ _ => hs
  simp only [Prog.post_bind]
  refine (keepsTables_flushInodes.keepsTree hs).mono (fun _ t ht => ?_) fun _ _ h => h
  refine (keepsTables_flushBitmap.keepsTree ht).mono (fun _ u hu => ?_) fun _ _ h => h
  refine (keepsTables_readSuper.keepsTree hu).mono (fun sb v hv => ?_) fun _ _ h => h
  exact (keepsTables_writeSuper _).keepsTree hv

/-- The paths that can name new entries are strings without NUL. -/
def PathsOk : FsCall → Prop
  | .create path | .mkdir path | .writeAll path _ => utf8Valid path = true ∧ 0 ∉ path
  | _ => True

instance : ∀ call, Decidable (PathsOk call)
  | .create _ | .mkdir _ | .writeAll _ _ => inferInstanceAs (Decidable (_ ∧ _))
  | .rmdir _ | .remove _ | .read _ _ _ | .write _ _ _ | .sync => instDecidableTrue

theorem keepsTree_exec (arch : Arch) {call : FsCall} (hs : Tree s) {c : Prop}
    (hbooks : Books s s.live c) (hpaths : PathsOk call) : KeepsTree (call.exec arch) s := by
  cases call with
  | create path => exact (keepsTree_makeEntry hs hpaths.1 hpaths.2 _).map
  | mkdir path => exact (keepsTree_makeEntry hs hpaths.1 hpaths.2 _).map
  | rmdir path => exact (keepsTree_rmdir hs _).map
  | remove index => exact (keepsTree_remove hs hbooks _).map
  | read index offset room => exact (keepsTree_read hs _ _ _).map
  | write index offset data => exact (keepsTree_write arch hs hbooks _ _ _).map
  | writeAll name data => exact (keepsTree_writeAll arch hs hbooks hpaths.1 hpaths.2 _).map
  | sync => exact (keepsTree_sync hs).map

/-! ## Runs -/

theorem tree_run {arch : Arch} {c : Prop} {es : List FsEvent} (hs : Tree s)
    (hbooks : Books s s.live c) (hrun : Run (FsStep arch) s es t)
    (hpaths : ∀ e ∈ es, PathsOk e.call) : Tree t := by
  induction hrun generalizing c with
  | nil s => exact hs
  | @cons s t u e es hstep _ ih =>
    have ht : Tree t := by
      have htime : Tree { s with unixTime := e.unixTime } := hs.congr fun _ => ⟨rfl, rfl, rfl⟩
      have hkeeps := keepsTree_exec arch htime
        (hbooks.congr (t := { s with unixTime := e.unixTime }) rfl rfl rfl fun _ _ => rfl)
        (hpaths e (List.mem_cons_self ..))
      rcases hstep.of_post hkeeps with ⟨_, _, h⟩ | ⟨_, _, h⟩ <;> exact h
    exact ih ht (books_step hbooks hstep) fun e he => hpaths e (List.mem_cons_of_mem _ he)

/-- A formatted disk has only its root. -/
theorem tree_cleared (s : Fs) (lba total : UInt32) : Tree (s.cleared lba total) := by
  have hroot : (s.cleared lba total).inodes rootInode = rootDir s.unixTime := by
    simp only [cleared, Function.update_self]
  have hfree : ∀ i < maxInodes, i ≠ rootInode →
      ((s.cleared lba total).inodes i).kind = kindFree := fun i hi hne => by
    simp only [cleared]
    rw [Function.update_of_ne hne, if_pos hi]
    rfl
  refine ⟨by rw [hroot]; rfl, fun i hi hkind => ?_, fun i hi hne hkind => ?_,
    fun i hi _ _ hne _ hkind _ _ _ => ?_⟩
  · by_cases hne : i = rootInode
    · exact ⟨[], Nat.zero_le _, hne ▸ .root⟩
    · exact absurd (hfree i hi hne) hkind
  · exact absurd (hfree i hi hne) hkind
  · exact absurd (hfree i hi hne) hkind

theorem format_tree {label : List UInt8} (h : (format label).run s = (.ok (), t)) : Tree t := by
  refine Prog.Post.of_ok (x := format label) (Q := fun _ t => Tree t) (E := fun _ _ => True) ?_ h
  rw [format]
  simp only [Prog.post_bind, Prog.post_get]
  split
  · trivial
  split
  · trivial
  simp only [Prog.post_bind, Prog.post_modify]
  rename_i lba sectors _ _
  have hstart := tree_cleared s lba (capacityBlocks sectors)
  refine (keepsTables_flushInodes.keepsTree hstart).mono (fun _ u hu => ?_) fun _ _ _ => trivial
  refine (keepsTables_flushBitmap.keepsTree hu).mono (fun _ v hv => ?_) fun _ _ _ => trivial
  refine ((keepsTables_writeSuper _).keepsTree hv).mono (fun _ w hw => ?_) fun _ _ _ => trivial
  have hmounted : Tree { w with mounted := true } := hw.congr fun _ => ⟨rfl, rfl, rfl⟩
  refine (keepsTree_makeEntry hmounted (by decide) (by decide) _).mono (fun _ x hx => ?_)
    fun _ _ _ => trivial
  exact (keepsTree_makeEntry hx (by decide) (by decide) _).mono (fun _ _ hy => hy)
    fun _ _ _ => trivial

/-- **Directory tree.** After a successful `format` and any calls with NUL-free path strings,
whatever they returned: the parents of an inode in use lead through directories to the root in at
most `MAX_DEPTH` steps, siblings have different names, none of them empty, and `path_of` gives
each inode in use a path that `resolve` takes back to it. The loop of `path_of` ends on every
inode table. -/
theorem directory_tree {arch : Arch} {s₀ : Fs} {label : List UInt8} {es : List FsEvent}
    (hformat : (format label).run s₀ = (.ok (), s)) (hrun : Run (FsStep arch) s es t)
    (hpaths : ∀ e ∈ es, PathsOk e.call) :
    (∀ i < maxInodes, (t.inodes i).kind ≠ kindFree →
        ∃ chain, chain.length ≤ maxDepth ∧ Lineage t i chain) ∧
      (∀ i < maxInodes, ∀ j < maxInodes, i ≠ rootInode → j ≠ rootInode →
        (t.inodes i).kind ≠ kindFree → (t.inodes j).kind ≠ kindFree →
        (t.inodes i).parent = (t.inodes j).parent → nameOf (t.inodes i) = nameOf (t.inodes j) →
        i = j) ∧
      (∀ i < maxInodes, i ≠ rootInode → (t.inodes i).kind ≠ kindFree →
        nameOf (t.inodes i) ≠ []) ∧
      (∀ i < maxInodes, (t.inodes i).kind ≠ kindFree →
        ∃ path, t.pathOf i = some path ∧ t.resolve path = some i) ∧
      ∀ (u : Fs) (index : ℕ), ∃ r, Ends u.chainRound (index, []) r ∧
        u.pathOf index = if index = rootInode then some [slash]
          else r.bind fun chain => u.joinNames chain [] := by
  have ht := tree_run (format_tree hformat) (format_books hformat) hrun hpaths
  exact ⟨ht.lineage, ht.siblings, fun i hi hroot hkind => (ht.name i hi hroot hkind).ne_nil,
    fun i hi hkind => ht.pathOf_resolve hi hkind, pathOf_ends⟩

/-- A directory made, a file in it, one more with a trailing slash in its path, one removed. -/
def treeCalls : List FsCall :=
  [.mkdir [100], .create [47, 100, 47, 47, 97], .mkdir [100, 47, 46, 47, 98, 47], .remove 4,
    .create [100, 47, 97, 47, 99], .create [100, 47, 98, 47, 99]]

theorem directory_tree_nested :
    ∃ path, (execCalls .i386 treeCalls formattedFs).2.pathOf 4 = some path ∧
      (execCalls .i386 treeCalls formattedFs).2.resolve path = some 4 :=
  (directory_tree format_blankFs (@run_execCalls .i386 treeCalls _ (by decide +kernel))
    (by decide +kernel)).2.2.2.1 4 (by decide) (by decide +kernel)

end Fs

end Tcmk
