import Mathlib.Data.Finset.Card
import Mathlib.Data.Nat.ModEq
import Mathlib.Order.Interval.Finset.Nat
import Mathlib.Tactic.SplitIfs

/-!
# Linear probing

A table of `n` slots holds entries `1, 2, …` numbered in the order they were added, `0` meaning a
free slot. Each entry sits in the first slot that was free at or after its home slot. Entries leave
only from the end, the largest first, so the slots between an entry and its home always hold
smaller entries: a probe for an entry never stops short of it, and meets the entries of one home
in increasing order.
-/

namespace Probing

/-- The `k`-th slot of the probe that starts at `h`. -/
def slot (n h k : ℕ) : ℕ := (h + k) % n

section Slots

variable {n h : ℕ}

theorem slot_lt (hn : 0 < n) (k : ℕ) : slot n h k < n := Nat.mod_lt _ hn

theorem slot_zero (hh : h < n) : slot n h 0 = h := Nat.mod_eq_of_lt hh

theorem slot_slot (j k : ℕ) : slot n (slot n h j) k = slot n h (j + k) := by
  unfold slot
  rw [Nat.mod_add_mod, Nat.add_assoc]

theorem slot_inj {j k : ℕ} (hj : j < n) (hk : k < n) (e : slot n h j = slot n h k) : j = k := by
  have he : j % n = k % n := Nat.ModEq.add_left_cancel' h e
  rwa [Nat.mod_eq_of_lt hj, Nat.mod_eq_of_lt hk] at he

end Slots

section Tables

variable {n : ℕ} {t t' home home' : ℕ → ℕ} {N L M : ℕ}

/-- Every entry has one slot. -/
def Distinct (n : ℕ) (t : ℕ → ℕ) : Prop :=
  ∀ s < n, ∀ s' < n, t s ≠ 0 → t s = t s' → s = s'

/-- Entry `j` is met by the probe from `h`, after smaller entries only. -/
def Chained (n : ℕ) (t : ℕ → ℕ) (h j : ℕ) : Prop :=
  ∃ k < n, t (slot n h k) = j ∧ ∀ i < k, t (slot n h i) ≠ 0 ∧ t (slot n h i) < j

/-- The entries `1, …, N` are all there, whatever the slots of larger entries hold. -/
def Holds (n : ℕ) (home t : ℕ → ℕ) (N : ℕ) : Prop :=
  ∀ j, 0 < j → j ≤ N → Chained n t (home j) j

theorem Holds.zero : Holds n home t 0 := fun _ h h' => absurd h (by omega)

theorem Holds.take (h : Holds n home t N) (hL : L ≤ N) : Holds n home t L := fun j hj hjL =>
  h j hj (by omega)

/-- Larger entries may come and go. -/
theorem Holds.congr (hn : 0 < n) (h : Holds n home t N)
    (he : ∀ s < n, t s ≠ 0 → t s ≤ N → t' s = t s) (hh : ∀ j, 0 < j → j ≤ N → home' j = home j) :
    Holds n home' t' N := by
  intro j hj hjN
  obtain ⟨k, hk, e, hb⟩ := h j hj hjN
  rw [hh j hj hjN]
  refine ⟨k, hk, by rw [he _ (slot_lt hn _) (by omega) (by omega), e], fun i hi => ?_⟩
  obtain ⟨h0, h1⟩ := hb i hi
  rw [he _ (slot_lt hn _) h0 (by omega)]
  exact ⟨h0, h1⟩

/-- Where an entry sits depends only on the entries before it. -/
theorem Holds.slot_iff (h : Holds n home t N) (h' : Holds n home t' N) (hd : Distinct n t)
    (hd' : Distinct n t') (j : ℕ) (hj : 0 < j) (hjN : j ≤ N) :
    ∀ s < n, t s = j ↔ t' s = j := by
  induction j using Nat.strong_induction_on with
  | _ j ih =>
    intro s hs
    have hn : 0 < n := by omega
    obtain ⟨k, hk, e, hb⟩ := h j hj hjN
    obtain ⟨k', hk', e', hb'⟩ := h' j hj hjN
    obtain rfl : k = k' := by
      rcases Nat.lt_trichotomy k k' with hlt | he | hlt
      · obtain ⟨h0, hlt'⟩ := hb' k hlt
        have := (ih _ hlt' (by omega) (by omega) _ (slot_lt hn k)).2 rfl
        omega
      · exact he
      · obtain ⟨h0, hlt'⟩ := hb k' hlt
        have := (ih _ hlt' (by omega) (by omega) _ (slot_lt hn k')).1 rfl
        omega
    constructor
    · intro he
      rw [← hd _ (slot_lt hn k) _ hs (by omega) (e.trans he.symm)]
      exact e'
    · intro he
      rw [← hd' _ (slot_lt hn k) _ hs (by omega) (e'.trans he.symm)]
      exact e

/-- With fewer entries than slots, a probe meets a free slot after at most all the entries. -/
theorem exists_free (hd : Distinct n t) (hM : ∀ s < n, t s ≤ M) (hlt : M < n) (h : ℕ) :
    ∃ k ≤ M, t (slot n h k) = 0 := by
  by_contra hc
  have hne : ∀ k ≤ M, t (slot n h k) ≠ 0 := fun k hk h0 => hc ⟨k, hk, h0⟩
  have hmaps : ∀ k ∈ Finset.range (M + 1), t (slot n h k) ∈ Finset.Icc 1 M := by
    intro k hk
    have := hne k (by simp only [Finset.mem_range] at hk; omega)
    have := hM _ (slot_lt (h := h) (by omega) k)
    simp only [Finset.mem_Icc]
    omega
  obtain ⟨j, hj, k, hk, hjk, e⟩ :=
    Finset.exists_ne_map_eq_of_card_lt_of_maps_to (by simp) hmaps
  simp only [Finset.mem_range] at hj hk
  have hs := hd _ (slot_lt (by omega) j) _ (slot_lt (by omega) k) (hne j (by omega)) e
  exact hjk (slot_inj (by omega) (by omega) hs)

/-- The first free slot of a probe. -/
theorem exists_first_free {h : ℕ} (hf : ∃ k ≤ M, t (slot n h k) = 0) :
    ∃ k ≤ M, t (slot n h k) = 0 ∧ ∀ i < k, t (slot n h i) ≠ 0 := by
  classical
  have hf' : ∃ k, t (slot n h k) = 0 := by
    obtain ⟨k, _, h0⟩ := hf
    exact ⟨k, h0⟩
  refine ⟨Nat.find hf', ?_, Nat.find_spec hf', fun i hi => Nat.find_min hf' hi⟩
  obtain ⟨k, hk, h0⟩ := hf
  exact (Nat.find_min' hf' h0).trans hk

/-- Entry `N + 1` goes to the first free slot at or after its home. -/
theorem Holds.insert {k : ℕ} (hh : Holds n home t N) (hN : ∀ s < n, t s ≤ N) (hk : k < n)
    (hfree : t (slot n (home (N + 1)) k) = 0)
    (hbefore : ∀ i < k, t (slot n (home (N + 1)) i) ≠ 0) :
    Holds n home (Function.update t (slot n (home (N + 1)) k) (N + 1)) (N + 1) := by
  have hn : 0 < n := by omega
  have hkeep : ∀ s, t s ≠ 0 →
      Function.update t (slot n (home (N + 1)) k) (N + 1) s = t s := by
    intro s h0
    refine Function.update_of_ne ?_ _ _
    intro e
    exact h0 (e ▸ hfree)
  intro j hj hjN
  rcases Nat.lt_or_ge N j with hlt | hle
  · obtain rfl : j = N + 1 := by omega
    refine ⟨k, hk, Function.update_self .., fun i hi => ?_⟩
    rw [hkeep _ (hbefore i hi)]
    exact ⟨hbefore i hi, Nat.lt_succ_of_le (hN _ (slot_lt hn i))⟩
  · exact (hh.congr hn (fun s _ h0 _ => hkeep s h0) fun _ _ _ => rfl) j hj hle

theorem Distinct.insert {s : ℕ} (hd : Distinct n t) (hN : ∀ s < n, t s ≤ N) :
    Distinct n (Function.update t s (N + 1)) := by
  intro a ha b hb h0 e
  have hla := hN a ha
  have hlb := hN b hb
  simp only [Function.update_apply] at h0 e
  split_ifs at h0 e with h1 h2 h2
  · exact h1.trans h2.symm
  · omega
  · omega
  · exact hd a ha b hb h0 e

/-- Clearing slots keeps the others apart. -/
theorem Distinct.clear (hd : Distinct n t) (h : ∀ s < n, t' s = t s ∨ t' s = 0) :
    Distinct n t' := by
  intro a ha b hb h0 e
  have hta : t' a = t a := (h a ha).resolve_right h0
  have htb : t' b = t b := (h b hb).resolve_right (e ▸ h0)
  exact hd a ha b hb (hta ▸ h0) (by rw [← hta, ← htb, e])

end Tables

/-! ## What a probe finds

The probe for the entries of one home that satisfy `p` keeps the last one it met. -/

section Walk

variable {n : ℕ} {t home : ℕ → ℕ} {N h k₀ : ℕ} {p : ℕ → Prop}

/-- `r` is the largest of the entries up to `N` that satisfy `p` and are met before the `k`-th
slot, or `0` if there is none. -/
structure Met (n : ℕ) (t : ℕ → ℕ) (p : ℕ → Prop) (h k r : ℕ) : Prop where
  largest : ∀ i < k, p (t (slot n h i)) → t (slot n h i) ≤ r
  mem : r ≠ 0 → p r

theorem Met.zero : Met n t p h 0 0 := ⟨fun _ h => absurd h (by omega), fun h => absurd rfl h⟩

/-- The entries met may move about among those that `p` does not hold of. -/
theorem Met.congr {t' : ℕ → ℕ} {k r : ℕ} (hm : Met n t p h k r) (hn : 0 < n)
    (he : ∀ s < n, p (t' s) → t s = t' s) : Met n t' p h k r := by
  refine ⟨fun i hi hp => ?_, hm.mem⟩
  have e := he _ (slot_lt hn i) hp
  rw [← e] at hp ⊢
  exact hm.largest i hi hp

theorem Met.skip {k r : ℕ} (hm : Met n t p h k r) (hp : ¬ p (t (slot n h k))) :
    Met n t p h (k + 1) r := by
  refine ⟨fun i hi hpi => ?_, hm.mem⟩
  rcases Nat.lt_succ_iff_lt_or_eq.1 hi with hlt | rfl
  · exact hm.largest i hlt hpi
  · exact absurd hpi hp

/-- An entry whose home is the start is larger than all that the probe met before it. -/
theorem Met.take {k r : ℕ} (hm : Met n t p h k r) (hd : Distinct n t) (hk : k < n)
    (hc : Chained n t h (t (slot n h k))) (hp : p (t (slot n h k)))
    (h0 : t (slot n h k) ≠ 0) : Met n t p h (k + 1) (t (slot n h k)) := by
  obtain ⟨k', hk', e, hb⟩ := hc
  have hn : 0 < n := by omega
  obtain rfl : k = k' :=
    slot_inj hk hk' (hd _ (slot_lt hn k) _ (slot_lt hn k') h0 e.symm)
  refine ⟨fun i hi _ => ?_, fun _ => hp⟩
  rcases Nat.lt_succ_iff_lt_or_eq.1 hi with hlt | rfl
  · exact (hb i hlt).2.le
  · exact le_rfl

/-- A probe that reached its first free slot met every entry of its home. -/
theorem Met.all {r j : ℕ} (hm : Met n t p h k₀ r) (hfree : t (slot n h k₀) = 0)
    (hc : Chained n t h j) (hj : 0 < j) (hp : p j) : j ≤ r := by
  obtain ⟨k, -, rfl, hb⟩ := hc
  refine hm.largest k ?_ hp
  by_contra hge
  rcases Nat.lt_or_eq_of_le (Nat.not_lt.1 hge) with hlt | rfl
  · exact (hb k₀ hlt).1 hfree
  · omega

end Walk

end Probing
