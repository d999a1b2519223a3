import Btreelite.CursorPlace
import Btreelite.KeyLeaves

/-!
# Trees to run on

A tree of two leaves, and a binary tree with 21 levels on pages of 512 bytes. In this one, page `m + 1`
holds node `m` of the heap order, in which the children of `m` are `2 * m` and `2 * m + 1`.
-/

namespace Btreelite

open Prog Segment

/-- Three bytes with the number `i`, most significant first. -/
def keyAt (i : Nat) : Key := [UInt8.ofNat (i / 65536), UInt8.ofNat (i / 256), UInt8.ofNat i]

theorem keyAt_lt {i j : Nat} (h : i < j) (hj : j < 2 ^ 24) : keyAt i < keyAt j := by
  simp only [keyAt, List.cons_lt_cons_iff, UInt8.lt_iff_toNat_lt, ← UInt8.toNat_inj, UInt8.toNat_ofNat']
  omega

theorem keyAt_le {i j : Nat} (h : i ≤ j) (hj : j < 2 ^ 24) : keyAt i ≤ keyAt j := by
  rcases Nat.eq_or_lt_of_le h with rfl | h
  · exact le_rfl
  · exact (keyAt_lt h hj).le

end Btreelite
