import Btreelite.Probing

/-!
# Sets in tables with linear probing

A table of `n` slots holds numbers other than `0`, each in the first slot that was free at or after its
home when it came. A number that is not in the table is known from the free slot where its probe ends, so
every probe ends as long as some slot is free.
-/

namespace OpenTable

open Probing

variable {n : ℕ} {home t : ℕ → ℕ} {c h x k : ℕ}

/-- The numbers in the table. -/
def Mem (n : ℕ) (t : ℕ → ℕ) (x : ℕ) : Prop := ∃ s < n, t s = x

/-- A table with `c` numbers. -/
structure Table (n : ℕ) (home t : ℕ → ℕ) (c : ℕ) : Prop where
  distinct : Distinct n t
  chained : ∀ s < n, t s ≠ 0 → ∃ k < n, slot n (home (t s)) k = s ∧ ∀ i < k, t (slot n (home (t s)) i) ≠ 0
  count : ((Finset.range n).filter fun s => t s ≠ 0).card = c

theorem Table.empty : Table n home (fun _ => 0) 0 where
  distinct _ _ _ _ h := absurd rfl h
  chained _ _ h := absurd rfl h
  count := by simp

/-- The probe from `h` meets its first free slot at step `k`. -/
structure Free (n : ℕ) (t : ℕ → ℕ) (h k : ℕ) : Prop where
  lt : k < n
  free : t (slot n h k) = 0
  before : ∀ i < k, t (slot n h i) ≠ 0

/-- Every slot is on every probe. -/
theorem exists_slot (hn : 0 < n) {s : ℕ} (hs : s < n) : ∃ k < n, slot n h k = s := by
  have hmod : h % n < n := Nat.mod_lt _ hn
  rcases Nat.lt_or_ge s (h % n) with hlt | hge
  · refine ⟨n - (h % n - s), by omega, ?_⟩
    rw [slot, ← Nat.mod_add_mod, show h % n + (n - (h % n - s)) = n + s by omega, Nat.add_mod_left,
      Nat.mod_eq_of_lt hs]
  · refine ⟨s - h % n, by omega, ?_⟩
    rw [slot, ← Nat.mod_add_mod, show h % n + (s - h % n) = s by omega, Nat.mod_eq_of_lt hs]

theorem Table.exists_free (ht : Table n home t c) (hc : c < n) (h : ℕ) : ∃ k, Free n t h k := by
  classical
  have hs : ∃ s < n, t s = 0 := by
    by_contra hno
    have hall : ((Finset.range n).filter fun s => t s ≠ 0) = Finset.range n :=
      Finset.filter_true_of_mem fun s hs h0 => hno ⟨s, Finset.mem_range.1 hs, h0⟩
    have := ht.count
    rw [hall, Finset.card_range] at this
    omega
  obtain ⟨s, hs, h0⟩ := hs
  obtain ⟨k, hk, rfl⟩ := exists_slot (h := h) (by omega) hs
  obtain ⟨k₀, hle, hfree, hbefore⟩ := exists_first_free ⟨k, le_rfl, h0⟩
  exact ⟨k₀, by omega, hfree, hbefore⟩

/-- A probe that has come to a free slot has met its number, if it is there. -/
theorem Table.mem_iff (ht : Table n home t c) (hx : x ≠ 0) (hf : Free n t (home x) k) :
    Mem n t x ↔ ∃ i < k, t (slot n (home x) i) = x := by
  have hn : 0 < n := by
    have := hf.lt
    omega
  constructor
  · rintro ⟨s, hs, rfl⟩
    obtain ⟨i, hi, hslot, hbefore⟩ := ht.chained s hs hx
    refine ⟨i, ?_, by rw [hslot]⟩
    rcases Nat.lt_trichotomy i k with hlt | rfl | hgt
    · exact hlt
    · exact absurd (hslot ▸ hf.free) hx
    · exact absurd hf.free (hbefore k hgt)
  · rintro ⟨i, -, hi⟩
    exact ⟨_, slot_lt hn i, hi⟩

/-- A new number goes to the first free slot of its probe. -/
theorem Table.insert (ht : Table n home t c) (hx : x ≠ 0) (hf : Free n t (home x) k) (hno : ¬ Mem n t x) :
    Table n home (Function.update t (slot n (home x) k) x) (c + 1) := by
  have hn : 0 < n := by
    have := hf.lt
    omega
  have hs := slot_lt (h := home x) hn k
  have hkeep : ∀ s, t s ≠ 0 → Function.update t (slot n (home x) k) x s = t s := fun s h0 =>
    Function.update_of_ne (by rintro rfl; exact h0 hf.free) _ _
  refine ⟨fun a ha b hb h0 e => ?_, fun s hlt h0 => ?_, ?_⟩
  · simp only [Function.update_apply] at h0 e
    split_ifs at h0 e with h1 h2 h2
    · exact h1.trans h2.symm
    · exact absurd ⟨b, hb, e.symm⟩ hno
    · exact absurd ⟨a, ha, e⟩ hno
    · exact ht.distinct a ha b hb h0 e
  · by_cases hslot : s = slot n (home x) k
    · subst hslot
      rw [Function.update_self]
      refine ⟨k, hf.lt, rfl, fun i hi => ?_⟩
      rw [hkeep _ (hf.before i hi)]
      exact hf.before i hi
    · rw [Function.update_of_ne hslot] at h0 ⊢
      obtain ⟨i, hi, he, hb⟩ := ht.chained s hlt h0
      refine ⟨i, hi, he, fun j hj => ?_⟩
      rw [hkeep _ (hb j hj)]
      exact hb j hj
  · have hset : ((Finset.range n).filter fun s => Function.update t (slot n (home x) k) x s ≠ 0)
        = Insert.insert (slot n (home x) k) ((Finset.range n).filter fun s => t s ≠ 0) := by
      ext s
      simp only [Finset.mem_filter, Finset.mem_range, Finset.mem_insert, Function.update_apply]
      split_ifs with hslot
      · subst hslot
        simp [hs, hx]
      · simp [hslot]
    rw [hset, Finset.card_insert_of_notMem (by simp [hf.free]), ht.count]

/-- What is in the table with the new number. -/
theorem mem_insert (hf : Free n t h k) (hn : 0 < n) {y : ℕ} (hy : y ≠ 0) :
    Mem n (Function.update t (slot n h k) x) y ↔ y = x ∨ Mem n t y := by
  constructor
  · rintro ⟨s, hs, he⟩
    rw [Function.update_apply] at he
    split_ifs at he
    · exact Or.inl he.symm
    · exact Or.inr ⟨s, hs, he⟩
  · rintro (rfl | ⟨s, hs, he⟩)
    · exact ⟨_, slot_lt hn k, Function.update_self _ _ _⟩
    · refine ⟨s, hs, ?_⟩
      rw [Function.update_of_ne (by rintro rfl; exact hy (he ▸ hf.free)), he]

end OpenTable
