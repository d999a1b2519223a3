import Mathlib.Order.Bounds.Basic
import Mathlib.Logic.Function.Basic

/-!
# Ascending lists as maps

A list of entries whose keys ascend stands for the map from its keys to its values. Replacing, inserting
and removing an entry change the map at one key, and an index cuts the keys into those before and those
behind it.
-/

namespace KeyedList

variable {ε κ ν : Type*} (key : ε → κ) (val : ε → ν)

/-- The keys ascend strictly. -/
def Ascending [Preorder κ] (l : List ε) : Prop := l.Pairwise fun a b => key a < key b

def keys (l : List ε) : Set κ := {k | ∃ e ∈ l, key e = k}

/-- The value under `k`. -/
def lookup [DecidableEq κ] (l : List ε) (k : κ) : Option ν := (l.find? fun e => decide (key e = k)).map val

/-- The first `n` entries are those whose keys have `P`. -/
def Cut (l : List ε) (P : κ → Prop) (n : Nat) : Prop := ∀ (j : Nat) e, l[j]? = some e → (j < n ↔ P (key e))

section Lookup

variable {key val} {l A B : List ε} {e : ε} {k : κ} {v : ν}

theorem Ascending.inj [Preorder κ] (h : Ascending key l) {i j : Nat} {e e' : ε} (hi : l[i]? = some e)
    (hj : l[j]? = some e') (hk : key e = key e') : i = j := by
  obtain ⟨h1, rfl⟩ := List.getElem?_eq_some_iff.1 hi
  obtain ⟨h2, rfl⟩ := List.getElem?_eq_some_iff.1 hj
  have hp := List.pairwise_iff_getElem.1 h
  rcases Nat.lt_trichotomy i j with hlt | heq | hgt
  · exact absurd hk (hp i j h1 h2 hlt).ne
  · exact heq
  · exact absurd hk (hp j i h2 h1 hgt).ne'

variable [DecidableEq κ]

theorem lookup_eq_none : lookup key val l k = none ↔ k ∉ keys key l := by
  simp [lookup, keys]

theorem lookup_ne_none : lookup key val l k ≠ none ↔ k ∈ keys key l := by
  rw [Ne, lookup_eq_none, not_not]

theorem lookup_of_mem [Preorder κ] (h : Ascending key l) (he : e ∈ l) : lookup key val l (key e) = some (val e) := by
  obtain ⟨i, hi⟩ := List.mem_iff_getElem?.1 he
  rw [lookup]
  rcases hf : l.find? fun x => decide (key x = key e) with - | x
  · exact absurd (List.find?_eq_none.1 hf e he) (by simp)
  · have hx : key x = key e := by simpa using List.find?_some hf
    obtain ⟨j, hj⟩ := List.mem_iff_getElem?.1 (List.mem_of_find?_eq_some hf)
    obtain rfl := h.inj hj hi hx
    rw [Option.map_some, Option.some.inj (hj.symm.trans hi)]

theorem lookup_eq_some [Preorder κ] (h : Ascending key l) :
    lookup key val l k = some v ↔ ∃ e ∈ l, key e = k ∧ val e = v := by
  constructor
  · intro hk
    obtain ⟨e, he, rfl⟩ := lookup_ne_none.1 (hk ▸ Option.some_ne_none v : lookup key val l k ≠ none)
    rw [lookup_of_mem h he] at hk
    exact ⟨e, he, rfl, Option.some.inj hk⟩
  · rintro ⟨e, he, rfl, rfl⟩
    exact lookup_of_mem h he

/-- Putting an entry where its key belongs, in place of the one with that key if there is one. -/
theorem lookup_put {o : List ε} (ho : ∀ x ∈ o, key x = key e) (h : ∀ x ∈ A ++ B, key x ≠ key e) :
    lookup key val (A ++ e :: B) = Function.update (lookup key val (A ++ (o ++ B))) (key e) (some (val e)) := by
  have hA : ∀ x ∈ A, key x ≠ key e := fun x hx => h x (List.mem_append_left _ hx)
  funext k
  by_cases hk : k = key e
  · subst hk
    have h1 : A.find? (fun x => decide (key x = key e)) = none := by simpa using hA
    rw [Function.update_self, lookup, List.find?_append, h1]
    simp
  · have h1 : (o.find? fun x => decide (key x = k)) = none := by
      simp only [List.find?_eq_none, decide_eq_true_eq]
      exact fun x hx hxk => hk (hxk.symm.trans (ho x hx))
    rw [Function.update_of_ne hk]
    simp only [lookup, List.find?_append, h1, Option.none_or]
    simp [Ne.symm hk]

/-- Taking the entry with a key out. -/
theorem lookup_remove (h : ∀ x ∈ A ++ B, key x ≠ key e) :
    lookup key val (A ++ B) = Function.update (lookup key val (A ++ e :: B)) (key e) none := by
  funext k
  by_cases hk : k = key e
  · subst hk
    rw [Function.update_self, lookup_eq_none]
    rintro ⟨x, hx, hxk⟩
    exact h x hx hxk
  · rw [Function.update_of_ne hk]
    simp [lookup, List.find?_append, Ne.symm hk]

end Lookup

section Cuts

variable {key} {l : List ε} {P : κ → Prop} {n i : Nat} {e : ε}

/-- A cut behind the last entry has all keys before it. -/
theorem Cut.all (h : Cut key l P n) (hn : l.length ≤ n) : {k | k ∈ keys key l ∧ ¬ P k} = ∅ := by
  refine Set.eq_empty_iff_forall_notMem.2 ?_
  rintro k ⟨⟨x, hx, rfl⟩, hp⟩
  obtain ⟨j, hj⟩ := List.mem_iff_getElem?.1 hx
  have := (List.getElem?_eq_some_iff.1 hj).1
  exact hp ((h j x hj).1 (by omega))

theorem Cut.none (h : Cut key l P 0) : {k | k ∈ keys key l ∧ P k} = ∅ := by
  refine Set.eq_empty_iff_forall_notMem.2 ?_
  rintro k ⟨⟨x, hx, rfl⟩, hp⟩
  obtain ⟨j, hj⟩ := List.mem_iff_getElem?.1 hx
  exact absurd ((h j x hj).2 hp) (Nat.not_lt_zero j)

variable [Preorder κ]

theorem Cut.isLeast (h : Cut key l P n) (hl : Ascending key l) (he : l[n]? = some e) :
    IsLeast {k | k ∈ keys key l ∧ ¬ P k} (key e) := by
  refine ⟨⟨⟨e, List.mem_of_getElem? he, rfl⟩, fun hp => absurd ((h n e he).2 hp) (lt_irrefl n)⟩, ?_⟩
  rintro k ⟨⟨x, hx, rfl⟩, hp⟩
  obtain ⟨j, hj⟩ := List.mem_iff_getElem?.1 hx
  have hnj : n ≤ j := not_lt.1 fun hlt => hp ((h j x hj).1 hlt)
  obtain ⟨h1, rfl⟩ := List.getElem?_eq_some_iff.1 he
  obtain ⟨h2, rfl⟩ := List.getElem?_eq_some_iff.1 hj
  rcases Nat.eq_or_lt_of_le hnj with rfl | hlt
  · exact le_rfl
  · exact (List.pairwise_iff_getElem.1 hl n j h1 h2 hlt).le

theorem Cut.isGreatest (h : Cut key l P (n + 1)) (hl : Ascending key l) (he : l[n]? = some e) :
    IsGreatest {k | k ∈ keys key l ∧ P k} (key e) := by
  refine ⟨⟨⟨e, List.mem_of_getElem? he, rfl⟩, (h n e he).1 (Nat.lt_succ_self n)⟩, ?_⟩
  rintro k ⟨⟨x, hx, rfl⟩, hp⟩
  obtain ⟨j, hj⟩ := List.mem_iff_getElem?.1 hx
  have hjn : j ≤ n := Nat.le_of_lt_succ ((h j x hj).2 hp)
  obtain ⟨h1, rfl⟩ := List.getElem?_eq_some_iff.1 he
  obtain ⟨h2, rfl⟩ := List.getElem?_eq_some_iff.1 hj
  rcases Nat.eq_or_lt_of_le hjn with rfl | hlt
  · exact le_rfl
  · exact (List.pairwise_iff_getElem.1 hl j n h2 h1 hlt).le

theorem Ascending.cut_le (hl : Ascending key l) (he : l[i]? = some e) : Cut key l (· ≤ key e) (i + 1) := by
  intro j x hj
  obtain ⟨h1, rfl⟩ := List.getElem?_eq_some_iff.1 he
  obtain ⟨h2, rfl⟩ := List.getElem?_eq_some_iff.1 hj
  have hp := List.pairwise_iff_getElem.1 hl
  rcases Nat.lt_trichotomy j i with hlt | rfl | hgt
  · exact iff_of_true (by omega) (hp j i h2 h1 hlt).le
  · exact iff_of_true (by omega) le_rfl
  · exact iff_of_false (by omega) (hp i j h1 h2 hgt).not_ge

theorem Ascending.cut_lt (hl : Ascending key l) (he : l[i]? = some e) : Cut key l (· < key e) i := by
  intro j x hj
  obtain ⟨h1, rfl⟩ := List.getElem?_eq_some_iff.1 he
  obtain ⟨h2, rfl⟩ := List.getElem?_eq_some_iff.1 hj
  have hp := List.pairwise_iff_getElem.1 hl
  rcases Nat.lt_trichotomy j i with hlt | rfl | hgt
  · exact iff_of_true hlt (hp j i h2 h1 hlt)
  · exact iff_of_false (lt_irrefl j) (lt_irrefl _)
  · exact iff_of_false hgt.not_gt (hp i j h1 h2 hgt).not_gt

end Cuts

end KeyedList
