import Mathlib.Data.List.Nodup
import Mathlib.Data.Finset.Card
import Mathlib.Order.Interval.Finset.Nat
import Mathlib.Tactic.SplitIfs

/-!
# Merging lists of indices

Lists of indices in the order of their keys, each key once. Merging two of them keeps, of a key that both
have, the index of the right list. So when the indices of the left list come before those of the right
one, the last index of each key is kept.
-/

namespace IndexMerge

variable {κ : Type*} [LinearOrder κ] (key : ℕ → κ)

/-- The index of the right list is kept. -/
def merge : List ℕ → List ℕ → List ℕ
  | [], rs => rs
  | ls, [] => ls
  | l :: ls, r :: rs =>
    if key l < key r then l :: merge ls (r :: rs)
    else if key l = key r then r :: merge ls rs
    else r :: merge (l :: ls) rs
  termination_by ls rs => ls.length + rs.length

/-- In the order of the keys, each key once. -/
def Ascending (l : List ℕ) : Prop := l.Pairwise fun i j => key i < key j

/-- The last index of every key of the indices from `lo` on below `hi`. -/
structure Lasts (lo hi : ℕ) (l : List ℕ) : Prop where
  ascending : Ascending key l
  mem_iff : ∀ j, j ∈ l ↔ lo ≤ j ∧ j < hi ∧ ∀ k, j < k → k < hi → key k ≠ key j

section Merge

variable {key} {i j l r lo mid hi : ℕ} {ls rs : List ℕ}

@[simp] theorem merge_nil_left : merge key [] rs = rs := by
  rw [merge]

@[simp] theorem merge_nil_right : merge key ls [] = ls := by
  cases ls with
  | nil => rw [merge]
  | cons l ls => rw [merge]; simp

theorem merge_lt (h : key l < key r) : merge key (l :: ls) (r :: rs) = l :: merge key ls (r :: rs) := by
  rw [merge, if_pos h]

theorem merge_eq (h : key l = key r) : merge key (l :: ls) (r :: rs) = r :: merge key ls rs := by
  rw [merge, if_neg h.not_lt, if_pos h]

theorem merge_gt (h : key r < key l) : merge key (l :: ls) (r :: rs) = r :: merge key (l :: ls) rs := by
  rw [merge, if_neg h.not_gt, if_neg h.ne']

theorem ascending_cons : Ascending key (i :: ls) ↔ (∀ j ∈ ls, key i < key j) ∧ Ascending key ls :=
  List.pairwise_cons

theorem mem_merge : ∀ {ls rs : List ℕ}, Ascending key ls → Ascending key rs →
    (j ∈ merge key ls rs ↔ j ∈ rs ∨ j ∈ ls ∧ ∀ r ∈ rs, key r ≠ key j)
  | [], rs, _, _ => by simp
  | l :: ls, [], _, _ => by simp
  | l :: ls, r :: rs, hl, hr => by
    obtain ⟨hl1, hl2⟩ := ascending_cons.1 hl
    obtain ⟨hr1, hr2⟩ := ascending_cons.1 hr
    rcases lt_trichotomy (key l) (key r) with h | h | h
    · have hnew : ∀ x ∈ r :: rs, key x ≠ key l := List.forall_mem_cons.2
        ⟨h.ne', fun x hx => (h.trans (hr1 x hx)).ne'⟩
      rw [merge_lt h, List.mem_cons, mem_merge hl2 hr, List.mem_cons (a := j) (b := l)]
      constructor
      · rintro (rfl | hj | hj)
        · exact Or.inr ⟨Or.inl rfl, hnew⟩
        · exact Or.inl hj
        · exact Or.inr ⟨Or.inr hj.1, hj.2⟩
      · rintro (hj | ⟨rfl | hj, hk⟩)
        · exact Or.inr (Or.inl hj)
        · exact Or.inl rfl
        · exact Or.inr (Or.inr ⟨hj, hk⟩)
    · rw [merge_eq h, List.mem_cons, mem_merge hl2 hr2, List.mem_cons (a := j) (b := r),
        List.mem_cons (a := j) (b := l), List.forall_mem_cons]
      constructor
      · rintro (rfl | hj | ⟨hj, hk⟩)
        · exact Or.inl (Or.inl rfl)
        · exact Or.inl (Or.inr hj)
        · exact Or.inr ⟨Or.inr hj, h ▸ (hl1 j hj).ne, hk⟩
      · rintro ((rfl | hj) | ⟨rfl | hj, hk1, hk2⟩)
        · exact Or.inl rfl
        · exact Or.inr (Or.inl hj)
        · exact absurd h.symm hk1
        · exact Or.inr (Or.inr ⟨hj, hk2⟩)
    · have hnew : ∀ x ∈ l :: ls, key r ≠ key x := List.forall_mem_cons.2
        ⟨h.ne, fun x hx => (h.trans (hl1 x hx)).ne⟩
      rw [merge_gt h, List.mem_cons, mem_merge hl hr2, List.mem_cons (a := j) (b := r), List.forall_mem_cons]
      constructor
      · rintro (rfl | hj | ⟨hj, hk⟩)
        · exact Or.inl (Or.inl rfl)
        · exact Or.inl (Or.inr hj)
        · exact Or.inr ⟨hj, hnew j hj, hk⟩
      · rintro ((rfl | hj) | ⟨hj, -, hk⟩)
        · exact Or.inl rfl
        · exact Or.inr (Or.inl hj)
        · exact Or.inr (Or.inr ⟨hj, hk⟩)
  termination_by ls rs => ls.length + rs.length

theorem Ascending.merge : ∀ {ls rs : List ℕ}, Ascending key ls → Ascending key rs →
    Ascending key (merge key ls rs)
  | [], rs, _, hr => by rwa [merge_nil_left]
  | l :: ls, [], hl, _ => by rwa [merge_nil_right]
  | l :: ls, r :: rs, hl, hr => by
    obtain ⟨hl1, hl2⟩ := ascending_cons.1 hl
    obtain ⟨hr1, hr2⟩ := ascending_cons.1 hr
    rcases lt_trichotomy (key l) (key r) with h | h | h
    · rw [merge_lt h]
      refine ascending_cons.2 ⟨fun j hj => ?_, Ascending.merge hl2 hr⟩
      rcases (mem_merge hl2 hr).1 hj with hj | hj
      · rcases List.mem_cons.1 hj with rfl | hj
        · exact h
        · exact h.trans (hr1 j hj)
      · exact hl1 j hj.1
    · rw [merge_eq h]
      refine ascending_cons.2 ⟨fun j hj => ?_, Ascending.merge hl2 hr2⟩
      rcases (mem_merge hl2 hr2).1 hj with hj | hj
      · exact hr1 j hj
      · exact h ▸ hl1 j hj.1
    · rw [merge_gt h]
      refine ascending_cons.2 ⟨fun j hj => ?_, Ascending.merge hl hr2⟩
      rcases (mem_merge hl hr2).1 hj with hj | hj
      · exact hr1 j hj
      · rcases List.mem_cons.1 hj.1 with rfl | hj
        · exact h
        · exact h.trans (hl1 j hj)
  termination_by ls rs => ls.length + rs.length

theorem merge_ne_nil (hr : rs ≠ []) (ha : Ascending key ls) (hb : Ascending key rs) : merge key ls rs ≠ [] := by
  obtain ⟨r, rs, rfl⟩ := List.exists_cons_of_ne_nil hr
  exact List.ne_nil_of_mem ((mem_merge ha hb).2 (Or.inl List.mem_cons_self))

variable (key) in
/-- Of the indices below `hi` with the key of `i` there is a last one. -/
theorem exists_last (hi' : i < hi) :
    ∃ m, i ≤ m ∧ m < hi ∧ key m = key i ∧ ∀ n, m < n → n < hi → key n ≠ key i := by
  obtain ⟨m, hm, hmax⟩ := ((Finset.Ico i hi).filter fun m => key m = key i).exists_maximal
    ⟨i, by simp [hi']⟩
  rw [Finset.mem_filter, Finset.mem_Ico] at hm
  refine ⟨m, hm.1.1, hm.1.2, hm.2, fun n hn hnh hne => ?_⟩
  have := hmax (Finset.mem_filter.2 ⟨Finset.mem_Ico.2 ⟨by omega, hnh⟩, hne⟩) hn.le
  omega

namespace Lasts

theorem single (j : ℕ) : Lasts key j (j + 1) [j] where
  ascending := List.pairwise_singleton _ _
  mem_iff k := by
    rw [List.mem_singleton]
    constructor
    · rintro rfl
      exact ⟨le_rfl, Nat.lt_succ_self _, fun _ h1 h2 => by omega⟩
    · rintro ⟨h1, h2, -⟩
      omega

theorem merge (hl : Lasts key lo mid ls) (hr : Lasts key mid hi rs) (h1 : lo ≤ mid) (h2 : mid ≤ hi) :
    Lasts key lo hi (merge key ls rs) where
  ascending := hl.ascending.merge hr.ascending
  mem_iff j := by
    rw [mem_merge hl.ascending hr.ascending, hl.mem_iff, hr.mem_iff]
    constructor
    · rintro (⟨h3, h4, h5⟩ | ⟨⟨h3, h4, h5⟩, h6⟩)
      · exact ⟨by omega, h4, h5⟩
      · refine ⟨h3, by omega, fun k hk hkh he => ?_⟩
        by_cases hkm : k < mid
        · exact h5 k hk hkm he
        · obtain ⟨m, hm1, hm2, hm3, hmax⟩ := exists_last key hkh
          refine h6 m ((hr.mem_iff m).2 ⟨by omega, hm2, fun n hn hnh => ?_⟩) (hm3.trans he)
          rw [hm3]
          exact hmax n hn hnh
    · rintro ⟨h3, h4, h5⟩
      by_cases hjm : mid ≤ j
      · exact Or.inl ⟨hjm, h4, h5⟩
      · refine Or.inr ⟨⟨h3, by omega, fun k hk hkm => h5 k hk (by omega)⟩, fun r hr' he => ?_⟩
        have := (hr.mem_iff r).1 hr'
        exact h5 r (by omega) this.2.1 he

theorem length_le (h : Lasts key lo hi ls) : ls.length ≤ hi - lo := by
  have hnd : ls.Nodup := h.ascending.imp fun hlt he => absurd (he ▸ hlt) (lt_irrefl _)
  rw [← List.toFinset_card_of_nodup hnd, ← Nat.card_Ico]
  refine Finset.card_le_card fun j hj => ?_
  have := (h.mem_iff j).1 (List.mem_toFinset.1 hj)
  exact Finset.mem_Ico.2 ⟨this.1, this.2.1⟩

theorem ne_nil (h : Lasts key lo hi ls) (hlt : lo < hi) : ls ≠ [] :=
  List.ne_nil_of_mem ((h.mem_iff (hi - 1)).2 ⟨by omega, by omega, fun k h1 h2 => by omega⟩)

/-- Every key occurs. -/
theorem exists_key (h : Lasts key lo hi ls) (h1 : lo ≤ i) (h2 : i < hi) : ∃ j ∈ ls, i ≤ j ∧ key j = key i := by
  obtain ⟨m, hm1, hm2, hm3, hmax⟩ := exists_last key h2
  refine ⟨m, (h.mem_iff m).2 ⟨by omega, hm2, fun n hn hnh => ?_⟩, hm1, hm3⟩
  rw [hm3]
  exact hmax n hn hnh

end Lasts

end Merge

end IndexMerge
