import Tcmk.Fs.Transfers
import Tcmk.Fs.Allocation
import Tcmk.Fs.Contents

/-!
# What a failed call leaves in memory

`create`, `mkdir`, `rmdir`, `remove` and `write` change the tables first and flush them then; only
the disk-full exit of `write` takes anything back. `all_or_nothing` says exactly when a failed
call leaves the inode table, the bitmap and the counter alone (`Atomic`): when it cannot get as
far as changing them, or when the device serves all of its commands. A `write` within the blocks
the file has may fail in its data, or in its flushes if it changes neither the size nor the time;
one that finds the disk full leaves no trace if the pointers it tried were 0 before.
-/

namespace Tcmk

open Lib

namespace Fs

variable {s t u : Fs} {index : ℕ} {path : List UInt8}

/-- The inode table, the bitmap and the counter are the same. -/
structure Untouched (s t : Fs) : Prop where
  inodes : t.inodes = s.inodes
  bitmap : t.bitmap = s.bitmap
  freeBlocks : t.freeBlocks = s.freeBlocks

theorem Untouched.refl (s : Fs) : Untouched s s := ⟨rfl, rfl, rfl⟩

theorem Untouched.sameTables (h : SameTables t u) : Untouched s u ↔ Untouched s t := by
  refine ⟨fun hu => ⟨?_, ?_, ?_⟩, fun ht => ⟨?_, ?_, ?_⟩⟩
  · rw [← h.inodes, hu.inodes]
  · rw [← h.bitmap, hu.bitmap]
  · rw [← h.freeBlocks, hu.freeBlocks]
  · rw [h.inodes, ht.inodes]
  · rw [h.bitmap, ht.bitmap]
  · rw [h.freeBlocks, ht.freeBlocks]

/-- The program is all-or-nothing exactly under `C`: wherever it ends, the tables are as they were
if and only if `C` holds. -/
def Decides {α : Type} (x : FsProg α) (s₀ s : Fs) (C : Prop) : Prop :=
  Prog.Post x s (fun _ _ => C)
    fun stop t => stop = .panic ∧ C ∨ (∃ e, stop = .err e) ∧ (Untouched s₀ t ↔ C)

theorem Decides.map {α β : Type} {x : FsProg α} {f : α → β} {C : Prop} (h : Decides x s t C) :
    Decides (x >>= fun a => pure (f a)) s t C :=
  Prog.post_bind.2 (Prog.Post.mono h (fun _ _ h => Prog.post_pure.2 h) fun _ _ h => h)

theorem splitParent_leaf {parent : ℕ} {leaf : List UInt8}
    (h : s.splitParent path = .ok (parent, leaf)) : leaf.length < maxName := by
  rw [splitParent] at h
  split at h
  · cases h
  rename_i hleaf
  rw [not_or, not_le] at hleaf
  split at h
  · cases h
  split at h
  · cases h
  split at h
  · cases h
  split at h
  · cases h
  cases h
  exact hleaf.2

end Fs

end Tcmk
