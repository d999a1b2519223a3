import Mathlib.Data.Finset.Union
import Mathlib.Data.List.Nodup
import Mathlib.Logic.Function.Basic
import Mathlib.Tactic.SplitIfs

/-!
# Hash tables with chains

A table of `n` chains files every entry in the chain its key is congruent to. A new entry goes to
the front of its chain. Filing is kept by adding an entry, by taking one out, and by moving all of
them to a table of another size; the search of one chain answers for the whole table.
-/

namespace Buckets

variable {α : Type*} [DecidableEq α]

/-- Everything filed in the `n` chains. -/
def entries (n : ℕ) (ap : ℕ → List α) : Finset α :=
  (Finset.range n).biUnion fun h => (ap h).toFinset

/-- Put an entry in front of its chain. -/
def push (key : α → ℕ) (n : ℕ) (ap : ℕ → List α) (x : α) : ℕ → List α :=
  Function.update ap (key x % n) (x :: ap (key x % n))

/-- Take an entry out of its chain. -/
def erase (key : α → ℕ) (n : ℕ) (ap : ℕ → List α) (x : α) : ℕ → List α :=
  Function.update ap (key x % n) ((ap (key x % n)).erase x)

/-- Search the chain of a key. -/
def find (key : α → ℕ) (n : ℕ) (ap : ℕ → List α) (k : ℕ) : Option α :=
  (ap (k % n)).find? fun x => key x == k

/-- File the entries of all chains anew, in `m` chains. -/
def rehash (key : α → ℕ) (n m : ℕ) (ap : ℕ → List α) : ℕ → List α :=
  (List.range n).foldl (fun ap' i => (ap i).foldl (push key m) ap') fun _ => []

/-- Every entry is in the chain of its key, once. -/
structure Filed (key : α → ℕ) (n : ℕ) (ap : ℕ → List α) : Prop where
  pos : 0 < n
  slot : ∀ h < n, ∀ x ∈ ap h, key x % n = h
  nodup : ∀ h < n, (ap h).Nodup

variable {key : α → ℕ} {n m : ℕ} {ap : ℕ → List α} {x : α} {k : ℕ}

theorem mem_entries : x ∈ entries n ap ↔ ∃ h < n, x ∈ ap h := by
  simp [entries]

omit [DecidableEq α] in
theorem filed_nil (hn : 0 < n) : Filed key n fun _ => [] where
  pos := hn
  slot := by simp
  nodup := by simp

@[simp] theorem entries_nil : entries n (fun _ => ([] : List α)) = ∅ := by
  ext x
  simp [mem_entries]

namespace Filed

variable (F : Filed key n ap)
include F

omit [DecidableEq α] in
theorem mod_lt (k : ℕ) : k % n < n := Nat.mod_lt _ F.pos

theorem mem_iff : x ∈ entries n ap ↔ x ∈ ap (key x % n) := by
  rw [mem_entries]
  constructor
  · rintro ⟨h, hh, hx⟩
    rwa [F.slot h hh x hx]
  · exact fun hx => ⟨_, F.mod_lt _, hx⟩

/-- Only the keys of the entries matter. -/
theorem congr {key' : α → ℕ} (hk : ∀ x ∈ entries n ap, key' x = key x) : Filed key' n ap where
  pos := F.pos
  slot h hh x hx := by
    rw [hk x (mem_entries.mpr ⟨h, hh, hx⟩)]
    exact F.slot h hh x hx
  nodup := F.nodup

theorem erase (x : α) : Filed key n (Buckets.erase key n ap x) where
  pos := F.pos
  slot h hh y hy := by
    unfold Buckets.erase at hy
    rw [Function.update_apply] at hy
    split_ifs at hy with he
    · subst he
      exact F.slot _ hh y (List.mem_of_mem_erase hy)
    · exact F.slot h hh y hy
  nodup h hh := by
    unfold Buckets.erase
    rw [Function.update_apply]
    split_ifs with he
    · subst he
      exact (F.nodup _ hh).erase x
    · exact F.nodup h hh

theorem entries_erase (x : α) :
    entries n (Buckets.erase key n ap x) = (entries n ap).erase x := by
  ext y
  rw [(F.erase x).mem_iff, Finset.mem_erase, F.mem_iff, Buckets.erase, Function.update_apply]
  split_ifs with he
  · rw [he, (F.nodup _ (F.mod_lt _)).mem_erase_iff]
  · refine ⟨fun hy => ⟨?_, hy⟩, And.right⟩
    rintro rfl
    exact he rfl

theorem push (hx : x ∉ entries n ap) : Filed key n (Buckets.push key n ap x) where
  pos := F.pos
  slot h hh y hy := by
    unfold Buckets.push at hy
    rw [Function.update_apply] at hy
    split_ifs at hy with he
    · subst he
      rcases List.mem_cons.mp hy with rfl | hy
      · rfl
      · exact F.slot _ hh y hy
    · exact F.slot h hh y hy
  nodup h hh := by
    unfold Buckets.push
    rw [Function.update_apply]
    split_ifs with he
    · subst he
      exact List.nodup_cons.mpr ⟨fun hc => hx (F.mem_iff.mpr hc), F.nodup _ hh⟩
    · exact F.nodup h hh

omit F in
theorem entries_push (hn : 0 < n) :
    entries n (Buckets.push key n ap x) = insert x (entries n ap) := by
  ext y
  rw [mem_entries, Finset.mem_insert, mem_entries]
  constructor
  · rintro ⟨h, hh, hy⟩
    unfold Buckets.push at hy
    rw [Function.update_apply] at hy
    split_ifs at hy with he
    · subst he
      rcases List.mem_cons.mp hy with rfl | hy
      · exact Or.inl rfl
      · exact Or.inr ⟨_, hh, hy⟩
    · exact Or.inr ⟨h, hh, hy⟩
  · rintro (rfl | ⟨h, hh, hy⟩)
    · exact ⟨key y % n, Nat.mod_lt _ hn, by simp [Buckets.push]⟩
    · refine ⟨h, hh, ?_⟩
      unfold Buckets.push
      rw [Function.update_apply]
      split_ifs with he
      · exact List.mem_cons_of_mem _ (he ▸ hy)
      · exact hy

omit F in
theorem foldl_push : ∀ (l : List α) {ap : ℕ → List α}, Filed key n ap → l.Nodup →
    (∀ x ∈ l, x ∉ entries n ap) →
      Filed key n (l.foldl (Buckets.push key n) ap)
        ∧ entries n (l.foldl (Buckets.push key n) ap) = entries n ap ∪ l.toFinset
  | [], ap, F, _, _ => by simpa using F
  | x :: l, ap, F, hl, hd => by
    have hx : x ∉ entries n ap := hd x List.mem_cons_self
    have hl' := List.nodup_cons.mp hl
    obtain ⟨h1, h2⟩ := foldl_push l (F.push hx) hl'.2 fun y hy hc => by
      rw [entries_push F.pos, Finset.mem_insert] at hc
      rcases hc with rfl | hc
      · exact hl'.1 hy
      · exact hd y (List.mem_cons_of_mem _ hy) hc
    refine ⟨h1, ?_⟩
    rw [List.foldl_cons, h2, entries_push F.pos]
    ext y
    simp only [Finset.mem_union, Finset.mem_insert, List.mem_toFinset, List.mem_cons]
    tauto

/-- All entries are filed again, and no others. -/
theorem rehash (hm : 0 < m) :
    Filed key m (Buckets.rehash key n m ap)
      ∧ entries m (Buckets.rehash key n m ap) = entries n ap := by
  have step : ∀ j ≤ n,
      Filed key m ((List.range j).foldl (fun ap' i => (ap i).foldl (Buckets.push key m) ap')
          fun _ => [])
        ∧ entries m ((List.range j).foldl (fun ap' i => (ap i).foldl (Buckets.push key m) ap')
          fun _ => []) = entries j ap := by
    intro j
    induction j with
    | zero => exact fun _ => ⟨filed_nil hm, by ext; simp [mem_entries]⟩
    | succ j ih =>
      intro hj
      obtain ⟨h1, h2⟩ := ih (by omega)
      rw [List.range_succ, List.foldl_append]
      obtain ⟨h3, h4⟩ := foldl_push (ap j) h1 (F.nodup j hj) fun x hx hc => by
        -- an entry of this chain is in no earlier one
        rw [h2, mem_entries] at hc
        obtain ⟨i, hi, hxi⟩ := hc
        have := F.slot i (by omega) x hxi
        have := F.slot j hj x hx
        omega
      refine ⟨h3, h4.trans ?_⟩
      rw [h2]
      ext x
      simp only [Finset.mem_union, mem_entries, List.mem_toFinset]
      constructor
      · rintro (⟨i, hi, hx⟩ | hx)
        · exact ⟨i, by omega, hx⟩
        · exact ⟨j, by omega, hx⟩
      · rintro ⟨i, hi, hx⟩
        rcases Nat.lt_succ_iff_lt_or_eq.mp hi with hi | rfl
        · exact Or.inl ⟨i, hi, hx⟩
        · exact Or.inr hx
  exact step n le_rfl

omit F in
theorem find_some (hn : 0 < n) (h : find key n ap k = some x) : x ∈ entries n ap ∧ key x = k :=
  ⟨mem_entries.mpr ⟨_, Nat.mod_lt _ hn, List.mem_of_find?_eq_some h⟩,
    by simpa using List.find?_some h⟩

theorem find_none (h : find key n ap k = none) : ∀ x ∈ entries n ap, key x ≠ k := by
  rintro x hx rfl
  exact (List.find?_eq_none.mp h x (F.mem_iff.mp hx)) (by simp)

/-- Where no two entries share a key, the search finds the one with the key. -/
theorem find_eq (hk : ∀ y ∈ entries n ap, key y = key x → y = x) (hx : x ∈ entries n ap) :
    find key n ap (key x) = some x := by
  cases h : find key n ap (key x) with
  | none => exact absurd rfl (F.find_none h x hx)
  | some y =>
    obtain ⟨hy, he⟩ := find_some F.pos h
    rw [hk y hy he]

end Filed

end Buckets
