import Mathlib.Algebra.Order.Interval.Finset.SuccPred
import Mathlib.Data.Finset.Image
import Mathlib.Data.Nat.SuccPred
import Mathlib.Order.Interval.Finset.Nat

/-!
# Heaps in an array

The entries `1 .. n` of an array as a binary tree: the parent of entry `k` is entry `k / 2`, and no entry
is smaller than its parent. Below, one entry may be out of place: `UpOrder` and `DownOrder` say what the
loops that move it towards the root, or away from it, start from and keep.
-/

namespace BinaryHeap

open Function

variable {α : Type*}

/-- Exchanges two entries. -/
def swap (h : ℕ → α) (i j : ℕ) : ℕ → α := update (update h j (h i)) i (h j)

section Swap

variable {h : ℕ → α} {i j k n : ℕ}

@[simp] theorem swap_left : swap h i j i = h j := update_self ..

@[simp] theorem swap_right : swap h i j j = h i := by
  unfold swap
  by_cases hij : j = i
  · rw [hij, update_self]
  · rw [update_of_ne hij, update_self]

theorem swap_of_ne (hi : k ≠ i) (hj : k ≠ j) : swap h i j k = h k := by
  unfold swap
  rw [update_of_ne hi, update_of_ne hj]

theorem swap_eq_comp : swap h i j = h ∘ Equiv.swap i j := by
  funext k
  unfold swap
  rw [comp_apply, Equiv.swap_apply_def]
  split_ifs with h1 h2
  · rw [h1, update_self]
  · rw [update_of_ne h1, h2, update_self]
  · rw [update_of_ne h1, update_of_ne h2]

/-- The entries, each as often as it occurs. -/
def entries (h : ℕ → α) (n : ℕ) : Multiset α := (Finset.Icc 1 n).val.map h

theorem entries_congr {h' : ℕ → α} (he : ∀ k, 1 ≤ k → k ≤ n → h' k = h k) : entries h' n = entries h n :=
  Multiset.map_congr rfl fun k hk => by
    obtain ⟨h1, h2⟩ := Finset.mem_Icc.1 (Finset.mem_def.2 hk)
    exact he k h1 h2

@[simp] theorem entries_zero : entries h 0 = 0 := rfl

theorem entries_succ : entries h (n + 1) = h (n + 1) ::ₘ entries h n := by
  unfold entries
  rw [← Finset.insert_Icc_right_eq_Icc_add_one (by omega), Finset.insert_val_of_notMem (by simp),
    Multiset.map_cons]

theorem mem_entries (hk : 1 ≤ k) (hn : k ≤ n) : h k ∈ entries h n :=
  Multiset.mem_map_of_mem h (Finset.mem_def.1 (Finset.mem_Icc.2 ⟨hk, hn⟩))

theorem exists_of_mem_entries {x : α} (hx : x ∈ entries h n) : ∃ k, 1 ≤ k ∧ k ≤ n ∧ h k = x := by
  obtain ⟨k, hk, rfl⟩ := Multiset.mem_map.1 hx
  obtain ⟨h1, h2⟩ := Finset.mem_Icc.1 (Finset.mem_def.2 hk)
  exact ⟨k, h1, h2, rfl⟩

theorem entries_swap (hi : 1 ≤ i) (hin : i ≤ n) (hj : 1 ≤ j) (hjn : j ≤ n) :
    entries (swap h i j) n = entries h n := by
  have hperm : (Finset.Icc 1 n).map (Equiv.swap i j).toEmbedding = Finset.Icc 1 n := by
    refine Finset.map_perm fun k hk => ?_
    have hk' : Equiv.swap i j k ≠ k := hk
    rw [Finset.coe_Icc, Set.mem_Icc]
    by_contra hout
    exact hk' (Equiv.swap_apply_of_ne_of_ne (by rintro rfl; exact hout ⟨hi, hin⟩)
      (by rintro rfl; exact hout ⟨hj, hjn⟩))
  unfold entries
  rw [swap_eq_comp, ← Multiset.map_map]
  conv_rhs => rw [← hperm]
  rfl

end Swap

section Order

variable [LinearOrder α] {h : ℕ → α} {n i j k : ℕ}

/-- No entry is smaller than its parent. -/
def Ordered (h : ℕ → α) (n : ℕ) : Prop := ∀ k, 2 ≤ k → k ≤ n → h (k / 2) ≤ h k

theorem Ordered.root_le (ho : Ordered h n) : ∀ {k : ℕ}, 1 ≤ k → k ≤ n → h 1 ≤ h k
  | k, h1, hn => by
    by_cases hk : k = 1
    · rw [hk]
    · exact (root_le ho (k := k / 2) (by omega) (by omega)).trans (ho k (by omega) hn)
  termination_by k => k

/-- Entry `i` may be smaller than its parent; its children are not. -/
structure UpOrder (h : ℕ → α) (n i : ℕ) : Prop where
  except : ∀ k, 2 ≤ k → k ≤ n → k ≠ i → h (k / 2) ≤ h k
  grand : ∀ k, 2 ≤ i → k ≤ n → k / 2 = i → h (i / 2) ≤ h k

theorem UpOrder.ordered (u : UpOrder h n i) (hi : 2 ≤ i → h (i / 2) ≤ h i) : Ordered h n := by
  intro k hk hn
  by_cases hki : k = i
  · rw [hki]
    exact hi (hki ▸ hk)
  · exact u.except k hk hn hki

theorem UpOrder.swap (u : UpOrder h n i) (hi : 2 ≤ i) (hin : i ≤ n) (hlt : h i < h (i / 2)) :
    UpOrder (swap h i (i / 2)) n (i / 2) where
  except k hk hn hne := by
    by_cases hki : k = i
    · rw [hki, swap_right, swap_left]
      exact hlt.le
    · rw [swap_of_ne hki hne]
      by_cases h1 : k / 2 = i
      · rw [h1, swap_left]
        exact u.grand k hi hn h1
      · by_cases h2 : k / 2 = i / 2
        · rw [h2, swap_right]
          exact hlt.le.trans (h2 ▸ u.except k hk hn hki)
        · rw [swap_of_ne h1 h2]
          exact u.except k hk hn hki
  grand k h2 hn hk := by
    have hup : h (i / 2 / 2) ≤ h (i / 2) := u.except (i / 2) h2 (by omega) (by omega)
    rw [swap_of_ne (k := i / 2 / 2) (by omega) (by omega)]
    by_cases hki : k = i
    · rw [hki, swap_left]
      exact hup
    · rw [swap_of_ne hki (by omega)]
      exact hup.trans (hk ▸ u.except k (by omega) hn hki)

/-- Entry `i` may be larger than its children; they are not smaller than its parent. -/
structure DownOrder (h : ℕ → α) (n i : ℕ) : Prop where
  except : ∀ k, 2 ≤ k → k ≤ n → k / 2 ≠ i → h (k / 2) ≤ h k
  grand : ∀ k, 2 ≤ i → k ≤ n → k / 2 = i → h (i / 2) ≤ h k

theorem DownOrder.ordered (d : DownOrder h n i) (hi : ∀ k, 2 ≤ k → k ≤ n → k / 2 = i → h i ≤ h k) :
    Ordered h n := by
  intro k hk hn
  by_cases hki : k / 2 = i
  · rw [hki]
    exact hi k hk hn hki
  · exact d.except k hk hn hki

/-- The entry out of place is exchanged with the smaller of its children. -/
theorem DownOrder.swap (d : DownOrder h n i) (hj2 : 2 ≤ j) (hjn : j ≤ n) (hj : j / 2 = i)
    (hmin : ∀ k, 2 ≤ k → k ≤ n → k / 2 = i → h j ≤ h k) (hle : h j ≤ h i) :
    DownOrder (swap h i j) n j where
  except k hk hn hne := by
    have hij : i < j := by omega
    by_cases hki : k / 2 = i
    · rw [hki, swap_left]
      by_cases hkj : k = j
      · rw [hkj, swap_right]
        exact hle
      · rw [swap_of_ne (by omega) hkj]
        exact hmin k hk hn hki
    · rw [swap_of_ne hki hne]
      by_cases h1 : k = i
      · rw [h1, swap_left]
        exact d.grand j (h1 ▸ hk) hjn hj
      · rw [swap_of_ne h1 (by rintro rfl; exact hki hj)]
        exact d.except k hk hn hki
  grand k _ hn hk := by
    rw [hj, swap_left, swap_of_ne (k := k) (by omega) (by omega)]
    exact hk ▸ d.except k (by omega) hn (by omega)

end Order

end BinaryHeap
