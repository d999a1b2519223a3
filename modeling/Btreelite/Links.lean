import Mathlib.Data.List.Induction
import Mathlib.Data.List.Nodup
import Mathlib.Logic.Function.Basic
import Mathlib.Tactic.SplitIfs

/-!
# Intrusive doubly linked lists

The nodes of a list carry its links themselves: each has a field for the node after it and one for
the node before it, and the list is known by its two ends. `Holds` says that the fields spell out a
given sequence, in both directions. Unlinking a node and putting one in front keep that, whatever
the fields of the other nodes hold, and walks along either field visit the sequence in its order.
-/

/-- The link fields of all nodes, with the two ends of the list. -/
structure Links (α : Type*) where
  first : Option α
  last : Option α
  next : α → Option α
  prev : α → Option α

namespace Links

variable {α : Type*}

section Writes

variable [DecidableEq α]

/-- Give `x` a new predecessor; where there is no `x`, it is the list that gets a new last node. -/
def setPrev (L : Links α) : Option α → Option α → Links α
  | some x, p => { L with prev := Function.update L.prev x p }
  | none, p => { L with last := p }

/-- Give `x` a new successor; where there is no `x`, it is the list that gets a new first node. -/
def setNext (L : Links α) : Option α → Option α → Links α
  | some x, n => { L with next := Function.update L.next x n }
  | none, n => { L with first := n }

/-- Unlink a node; its own fields keep what they held. -/
def remove (L : Links α) (x : α) : Links α :=
  (L.setPrev (L.next x) (L.prev x)).setNext (L.prev x) (L.next x)

/-- Link a node in front of all others. -/
def pushFront (L : Links α) (x : α) : Links α :=
  let L' : Links α := { L with
    prev := Function.update L.prev x none
    next := Function.update L.next x L.first }
  { L'.setPrev L.first (some x) with first := some x }

end Writes

/-- The nodes that following `next` meets, at most `fuel` of them. -/
def walk (L : Links α) : ℕ → Option α → List α
  | fuel + 1, some x => x :: L.walk fuel (L.next x)
  | _, _ => []

/-- Follow `prev` while `skip` holds; where the walk stops, if it does before the end. -/
def backTo (L : Links α) (skip : α → Bool) : ℕ → Option α → Option α
  | fuel + 1, some x => if skip x then L.backTo skip fuel (L.prev x) else some x
  | _, _ => none

/-- The fields spell out `l`. -/
structure Holds (L : Links α) (l : List α) : Prop where
  nodup : l.Nodup
  first : L.first = l.head?
  last : L.last = l.getLast?
  node : ∀ a x b, l = a ++ x :: b → L.prev x = a.getLast? ∧ L.next x = b.head?

section Fields

variable [DecidableEq α] (L : Links α) (x y : α)

theorem remove_next : (L.remove x).next y = if L.prev x = some y then L.next x else L.next y := by
  unfold remove
  cases hp : L.prev x <;> cases L.next x <;> simp [setNext, setPrev, Function.update_apply, eq_comm]

theorem remove_prev : (L.remove x).prev y = if L.next x = some y then L.prev x else L.prev y := by
  unfold remove
  cases hp : L.prev x <;> cases L.next x <;> simp [setNext, setPrev, Function.update_apply, eq_comm]

theorem remove_first : (L.remove x).first = if L.prev x = none then L.next x else L.first := by
  unfold remove
  cases hp : L.prev x <;> cases L.next x <;> simp [setNext, setPrev]

theorem remove_last : (L.remove x).last = if L.next x = none then L.prev x else L.last := by
  unfold remove
  cases hp : L.prev x <;> cases L.next x <;> simp [setNext, setPrev]

@[simp] theorem pushFront_first : (L.pushFront x).first = some x := by
  simp [pushFront]

theorem pushFront_last : (L.pushFront x).last = if L.first = none then some x else L.last := by
  unfold pushFront
  cases L.first <;> simp [setPrev]

theorem pushFront_next :
    (L.pushFront x).next y = if y = x then L.first else L.next y := by
  unfold pushFront
  cases L.first <;> simp [setPrev, Function.update_apply]

theorem pushFront_prev :
    (L.pushFront x).prev y
      = if L.first = some y then some x else if y = x then none else L.prev y := by
  unfold pushFront
  cases L.first <;> simp [setPrev, Function.update_apply, eq_comm]

end Fields

section Lists

variable {L : Links α} {l a b : List α} {x : α}

theorem holds_nil (hf : L.first = none) (hl : L.last = none) : L.Holds [] where
  nodup := List.nodup_nil
  first := hf
  last := hl
  node := by simp

theorem Holds.prev_eq (h : L.Holds (a ++ x :: b)) : L.prev x = a.getLast? := (h.node _ _ _ rfl).1

theorem Holds.next_eq (h : L.Holds (a ++ x :: b)) : L.next x = b.head? := (h.node _ _ _ rfl).2

theorem Holds.first_eq_none_iff (h : L.Holds l) : L.first = none ↔ l = [] := by
  rw [h.first, List.head?_eq_none_iff]

theorem Holds.last_eq_none_iff (h : L.Holds l) : L.last = none ↔ l = [] := by
  rw [h.last, List.getLast?_eq_none_iff]

theorem Holds.mem_of_first (h : L.Holds l) (hx : L.first = some x) : x ∈ l :=
  List.mem_of_head? (h.first ▸ hx)

theorem Holds.mem_of_last (h : L.Holds l) (hx : L.last = some x) : x ∈ l :=
  List.mem_of_getLast? (h.last ▸ hx)

/-- What precedes a node of the list is on the list. -/
theorem Holds.mem_of_prev (h : L.Holds l) (hx : x ∈ l) {y : α} (hy : L.prev x = some y) :
    y ∈ l := by
  obtain ⟨a, b, rfl⟩ := List.append_of_mem hx
  rw [h.prev_eq] at hy
  exact List.mem_append_left _ (List.mem_of_getLast? hy)

section Writes

variable [DecidableEq α]

/-- Unlinking a node closes the gap it leaves. -/
theorem Holds.remove (h : L.Holds (a ++ x :: b)) : (L.remove x).Holds (a ++ b) where
  nodup := (List.nodup_middle.mp h.nodup).of_cons
  first := by
    rw [remove_first, h.prev_eq, h.next_eq, h.first]
    cases a <;> simp
  last := by
    rw [remove_last, h.prev_eq, h.next_eq, h.last]
    cases b <;> simp
  node := by
    intro a' y b' e
    have hnd := h.nodup
    rw [remove_prev, remove_next, h.prev_eq, h.next_eq]
    rcases List.append_eq_append_iff.mp e with ⟨m, rfl, rfl⟩ | ⟨m, rfl, e⟩
    · -- `y` lies behind the gap
      obtain ⟨hp, hn⟩ := h.node (a ++ x :: m) y b' (by simp)
      have hya : a.getLast? ≠ some y := fun hc => by
        have := List.mem_of_getLast? hc
        simp only [List.nodup_append, List.mem_cons, List.mem_append] at hnd
        exact hnd.2.2 y this y (by simp) rfl
      rw [if_neg hya]
      refine ⟨?_, hn⟩
      cases m with
      | nil => simp
      | cons z m =>
        have hzy : z ≠ y := by
          rintro rfl
          simp [List.nodup_append] at hnd
        simp [hzy, hp, List.getLast?_append]
    · cases m with
      | nil =>
        -- `y` comes right behind the gap
        obtain rfl : b = y :: b' := by simpa using e
        obtain ⟨-, hn⟩ := h.node (a' ++ [x]) y b' (by simp)
        have hya : a'.getLast? ≠ some y := fun hc => by
          have := List.mem_of_getLast? hc
          simp only [List.nodup_append, List.mem_cons] at hnd
          exact hnd.2.2 y (by simpa using this) y (by simp) rfl
        simp [hya, hn]
      | cons z m =>
        -- `y` lies before the gap
        obtain ⟨rfl, rfl⟩ : y = z ∧ b' = m ++ b := by simpa [eq_comm] using e
        obtain ⟨hp, hn⟩ := h.node a' y (m ++ x :: b) (by simp)
        have hyb : b.head? ≠ some y := fun hc => by
          have := List.mem_of_head? hc
          simp only [List.nodup_append, List.mem_cons] at hnd
          exact hnd.2.2 y (by simp) y (Or.inr this) rfl
        rw [if_neg hyb]
        refine ⟨hp, ?_⟩
        cases m using List.reverseRecOn with
        | nil => simp
        | append_singleton m w =>
          have hwy : w ≠ y := by
            rintro rfl
            simp [List.nodup_append] at hnd
          have hl : (a' ++ y :: (m ++ [w])).getLast? = some w := by
            rw [← List.cons_append, ← List.append_assoc, List.getLast?_concat]
          rw [hl, if_neg (by simpa using hwy), hn]
          cases m <;> simp

theorem Holds.remove_erase (h : L.Holds l) (hx : x ∈ l) : (L.remove x).Holds (l.erase x) := by
  obtain ⟨a, b, rfl⟩ := List.append_of_mem hx
  have hxa : x ∉ a := fun hc => (List.nodup_append.mp h.nodup).2.2 x hc x (by simp) rfl
  rw [List.erase_append_right _ hxa, List.erase_cons_head]
  exact h.remove

theorem Holds.pushFront (h : L.Holds l) (hx : x ∉ l) : (L.pushFront x).Holds (x :: l) where
  nodup := List.nodup_cons.mpr ⟨hx, h.nodup⟩
  first := by simp
  last := by
    rw [pushFront_last, h.first, h.last]
    cases l <;> simp
  node := by
    intro a y b e
    rw [pushFront_prev, pushFront_next, h.first]
    cases a with
    | nil =>
      obtain ⟨rfl, rfl⟩ : x = y ∧ l = b := by simpa using e
      have hxl : l.head? ≠ some x := fun hc => hx (List.mem_of_head? hc)
      simp [hxl]
    | cons z a =>
      obtain ⟨rfl, rfl⟩ : x = z ∧ l = a ++ y :: b := by simpa using e
      obtain ⟨hp, hn⟩ := h.node a y b rfl
      have hyx : y ≠ x := by
        rintro rfl
        simp at hx
      rw [if_neg hyx, if_neg hyx, hp, hn]
      cases a with
      | nil => simp
      | cons w a =>
        have hwy : w ≠ y := by
          rintro rfl
          simpa using h.nodup
        simp [hwy]

end Writes

/-- Following `next` from a node reads the list from that node on. -/
theorem Holds.walk_eq : ∀ (b : List α) {a : List α} {fuel : ℕ}, L.Holds (a ++ b) →
    b.length ≤ fuel → L.walk fuel b.head? = b
  | [], a, fuel, _, _ => by simp [walk]
  | x :: b, a, 0, _, hf => by simp at hf
  | x :: b, a, fuel + 1, h, hf => by
    rw [List.head?_cons, walk, h.next_eq]
    have h' : L.Holds ((a ++ [x]) ++ b) := by simpa using h
    rw [Holds.walk_eq b h' (by simpa using hf)]

theorem Holds.walk_first (h : L.Holds l) {fuel : ℕ} (hf : l.length ≤ fuel) :
    L.walk fuel L.first = l := by
  rw [h.first]
  exact Holds.walk_eq l (a := []) (by simpa using h) hf

/-- The fields spell out one list. -/
theorem Holds.unique {l' : List α} (h : L.Holds l) (h' : L.Holds l') : l = l' :=
  (h.walk_first (Nat.le_max_left _ l'.length)).symm.trans (h'.walk_first (Nat.le_max_right l.length _))

/-- Following `prev` from a node searches the list backwards from that node. -/
theorem Holds.backTo_eq (skip : α → Bool) : ∀ (n : ℕ) {a b : List α} {fuel : ℕ}, a.length = n →
    L.Holds (a ++ b) → n ≤ fuel → L.backTo skip fuel a.getLast? = a.reverse.find? (!skip ·)
  | 0, a, b, fuel, ha, _, _ => by
    obtain rfl := List.length_eq_zero_iff.mp ha
    simp [backTo]
  | n + 1, a, b, 0, _, _, hf => by simp at hf
  | n + 1, a, b, fuel + 1, ha, h, hf => by
    obtain ⟨a, x, rfl⟩ := (List.eq_nil_or_concat' a).resolve_left (by rintro rfl; simp at ha)
    have h' : L.Holds (a ++ x :: b) := by simpa using h
    rw [List.getLast?_concat, backTo, List.reverse_append]
    simp only [List.reverse_singleton, List.singleton_append, List.find?_cons]
    cases hs : skip x
    · simp
    · simp only [↓reduceIte, Bool.not_true]
      rw [h'.prev_eq]
      exact Holds.backTo_eq skip n (by simpa using ha) h' (by omega)

/-- A backward search that starts on the list, or nowhere, stays on it. -/
theorem Holds.backTo_mem (h : L.Holds l) {o : Option α} (ho : ∀ x, o = some x → x ∈ l)
    (skip : α → Bool) {fuel : ℕ} (hf : l.length ≤ fuel) {y : α}
    (hy : L.backTo skip fuel o = some y) : y ∈ l ∧ skip y = false := by
  have main : ∀ a b, l = a ++ b → L.backTo skip fuel a.getLast? = some y →
      y ∈ l ∧ skip y = false := by
    rintro a b rfl e
    rw [Holds.backTo_eq skip a.length rfl h (by simp at hf; omega)] at e
    exact ⟨List.mem_append_left _ (List.mem_reverse.mp (List.mem_of_find?_eq_some e)),
      by simpa using List.find?_some e⟩
  cases o with
  | none => exact main [] l rfl hy
  | some x =>
    obtain ⟨a, b, rfl⟩ := List.append_of_mem (ho x rfl)
    exact main (a ++ [x]) b (by simp) (by simpa using hy)

end Lists

end Links
