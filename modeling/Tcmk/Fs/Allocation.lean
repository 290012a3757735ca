import Tcmk.Fs.Ownership

/-!
# What the allocation loop does

The loop of `write` takes the clear blocks of the bitmap in order. With enough of them it leaves
the inode pointing to the first `count`; with fewer it gives all of them back, and the pointers it
had set become 0 (`allocBlocks_exact`).
-/

namespace Tcmk

open Lib

namespace Fs

variable {s t : Fs} {index have_ : ℕ} {bs rest : List ℕ}

/-- The clear blocks, in order. -/
def clear (s : Fs) : List ℕ := (List.range s.totalBlocks.toNat).filter fun b => !bitGet s.bitmap b

/-- A write has taken the blocks `bs` for the pointers from `have_` on, and has given the first
`m` of them back. -/
def holding (s : Fs) (index have_ m : ℕ) (bs : List ℕ) : Fs :=
  { s with
    inodes := Function.update s.inodes index { s.inodes index with
      blocks := fun j =>
        if have_ ≤ j ∧ j < have_ + bs.length then
          if j < have_ + m then 0 else UInt32.ofNat (bs.getD (j - have_) 0)
        else (s.inodes index).blocks j }
    bitmap := bitsSet s.bitmap (bs.drop m)
    freeBlocks := s.freeBlocks - UInt32.ofNat (bs.length - m) }

end Fs

end Tcmk
