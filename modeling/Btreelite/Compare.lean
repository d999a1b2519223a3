import Btreelite.Segment
import Btreelite.Cell
import Mathlib.Data.List.Lex
import Mathlib.Order.WithBot

/-!
# The order of keys

`kvKeyCompareCell` compares bytes and breaks ties by length, which is the lexicographic order of
byte strings.
-/

namespace Btreelite

instance uint8LinearOrder : LinearOrder UInt8 where
  le_refl _ := Nat.le_refl _
  le_trans _ _ _ := Nat.le_trans
  le_antisymm _ _ h h' := UInt8.toNat_inj.1 (Nat.le_antisymm h h')
  le_total a b := Nat.le_total a.toNat b.toNat
  lt_iff_le_not_ge a b := Nat.lt_iff_le_and_not_ge (m := a.toNat) (n := b.toNat)
  toDecidableLE := inferInstance
  toDecidableLT := inferInstance

/-- The sign of `memcmp` over two strings of one length. -/
def memcmp : List UInt8 → List UInt8 → Int
  | a :: as, b :: bs => if a = b then memcmp as bs else if a < b then -1 else 1
  | _, _ => 0

/-- `kvKeyCompareCell` on the key of the cell. -/
def kvKeyCompare (cellKey key : Key) : Int :=
  let nCmp := min cellKey.length key.length
  let c := memcmp (cellKey.take nCmp) (key.take nCmp)
  let c := if c = 0 then (cellKey.length : Int) - key.length else c
  if c < 0 then -1 else if 0 < c then 1 else 0

theorem kvKeyCompare_cons (a b : UInt8) (as bs : Key) :
    kvKeyCompare (a :: as) (b :: bs)
      = if a = b then kvKeyCompare as bs else if a < b then -1 else 1 := by
  simp only [kvKeyCompare, List.length_cons, Nat.add_min_add_right, List.take_succ_cons, memcmp]
  by_cases hab : a = b
  · simp only [hab, if_true]
    split_ifs <;> omega
  · simp only [hab, if_false]
    split_ifs <;> simp_all

theorem kvKeyCompare_eq : ∀ a b : Key, kvKeyCompare a b = if a < b then -1 else if b < a then 1 else 0
  | [], [] => by simp [kvKeyCompare, memcmp]
  | [], b :: bs => by
    simp [kvKeyCompare, memcmp]
    omega
  | a :: as, [] => by
    simp [kvKeyCompare, memcmp]
    omega
  | a :: as, b :: bs => by
    rw [kvKeyCompare_cons, kvKeyCompare_eq as bs]
    simp only [List.cons_lt_cons_iff]
    rcases lt_trichotomy a b with h | rfl | h
    · simp [h, h.ne]
    · simp
    · simp [h, h.ne', h.not_gt]

theorem kvKeyCompare_neg {a b : Key} : kvKeyCompare a b < 0 ↔ a < b := by
  rw [kvKeyCompare_eq]
  split_ifs with h h' <;> simp [h]

theorem kvKeyCompare_pos {a b : Key} : 0 < kvKeyCompare a b ↔ b < a := by
  rw [kvKeyCompare_eq]
  split_ifs with h h'
  · simp [h.not_gt]
  · simp [h']
  · simp [h']

theorem kvKeyCompare_zero {a b : Key} : kvKeyCompare a b = 0 ↔ a = b := by
  rw [kvKeyCompare_eq]
  split_ifs with h h'
  · simp [h.ne]
  · simp [h'.ne']
  · simpa using (not_lt.1 h').antisymm (not_lt.1 h)

/-! ## Bounds of subtrees -/

/-- What bounds the keys of a subtree: a divider key, or nothing. -/
abbrev Bound := WithBot (WithTop Key)

def Key.bound (k : Key) : Bound := ((k : WithTop Key) : Bound)

@[simp] theorem Key.bound_lt {k k' : Key} : k.bound < k'.bound ↔ k < k' := by
  simp [Key.bound]

@[simp] theorem Key.bound_le {k k' : Key} : k.bound ≤ k'.bound ↔ k ≤ k' := by
  simp [Key.bound]

@[simp] theorem Key.bound_inj {k k' : Key} : k.bound = k'.bound ↔ k = k' := by
  simp [Key.bound]

@[simp] theorem Key.bot_lt_bound (k : Key) : (⊥ : Bound) < k.bound := WithBot.bot_lt_coe _

@[simp] theorem Key.bound_lt_top (k : Key) : k.bound < ⊤ :=
  WithBot.coe_lt_coe.2 (WithTop.coe_lt_top k)

end Btreelite
