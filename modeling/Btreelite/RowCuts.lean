import Mathlib.Algebra.Order.BigOperators.Group.List
import Mathlib.Algebra.Order.Ring.Nat

/-!
# Cutting a row into bins

A row of weighted items is cut into bins of one capacity; between two bins a separator of `gap` items
drops out. Filling the first bin as far as it goes is never worse than any other cut.
-/

namespace RowCuts

variable {α : Type} (w : α → Nat) (cap gap : Nat)

def room (l : List α) : Nat := (l.map w).sum

/-- The row can be cut into at most `n` bins. -/
def CutInto : Nat → List α → Prop
  | 0, _ => False
  | n + 1, l => room w l ≤ cap
      ∨ ∃ x sep y, l = x ++ (sep ++ y) ∧ sep.length = gap ∧ room w x ≤ cap ∧ CutInto n y

section Room

variable {w} {a b : List α} {x : α} {i j : Nat}

@[simp] theorem room_nil : room w ([] : List α) = 0 := rfl

@[simp] theorem room_cons : room w (x :: a) = w x + room w a := by simp [room]

@[simp] theorem room_append : room w (a ++ b) = room w a + room w b := by simp [room]

theorem room_sublist (h : a.Sublist b) : room w a ≤ room w b :=
  (h.map w).sum_le_sum fun _ _ => Nat.zero_le _

theorem room_le_length_mul {m : Nat} (h : ∀ x ∈ a, w x ≤ m) : room w a ≤ a.length * m := by
  induction a with
  | nil => simp
  | cons y a ih =>
    have h1 := h y List.mem_cons_self
    have h2 := ih fun x hx => h x (List.mem_cons_of_mem _ hx)
    rw [room_cons, List.length_cons, Nat.succ_mul]
    omega

theorem room_take_mono (l : List α) (h : i ≤ j) : room w (l.take i) ≤ room w (l.take j) := by
  refine room_sublist ?_
  rw [← Nat.min_eq_left h, ← List.take_take]
  exact List.take_sublist _ _

theorem room_drop_le (l : List α) : room w (l.drop i) ≤ room w l := room_sublist (List.drop_sublist _ _)

end Room

section Cut

variable {w cap gap} {l r s : List α} {n m c t : Nat}

theorem CutInto.of_room (h : room w l ≤ cap) : CutInto w cap gap (n + 1) l := Or.inl h

theorem CutInto.bin (h : CutInto w cap gap n r) (hl : room w l ≤ cap) (hs : s.length = gap) :
    CutInto w cap gap (n + 1) (l ++ (s ++ r)) :=
  Or.inr ⟨l, s, r, rfl, hs, hl, h⟩

theorem cutInto_one : CutInto w cap gap 1 l ↔ room w l ≤ cap :=
  ⟨fun h => h.resolve_right fun ⟨_, _, _, _, _, _, h⟩ => h, Or.inl⟩

theorem CutInto.mono : ∀ {n m : Nat} {l : List α}, n ≤ m → CutInto w cap gap n l → CutInto w cap gap m l
  | 0, _, _, _, h => h.elim
  | n + 1, 0, _, hnm, _ => absurd hnm (Nat.not_succ_le_zero n)
  | n + 1, m + 1, _, hnm, h => by
    rcases h with h | ⟨x, sep, y, rfl, h1, h2, h3⟩
    · exact Or.inl h
    · exact (h3.mono (Nat.le_of_succ_le_succ hnm)).bin h2 h1

theorem CutInto.append (hs : s.length = gap) (hr : CutInto w cap gap m r) :
    ∀ {n : Nat} {l : List α}, CutInto w cap gap n l → CutInto w cap gap (n + m) (l ++ (s ++ r))
  | 0, _, h => h.elim
  | n + 1, l, h => by
    rw [Nat.add_right_comm]
    rcases h with h | ⟨x, sep', y, rfl, h1, h2, h3⟩
    · exact (hr.mono (Nat.le_add_left m n)).bin h hs
    · have := (hr.append hs h3).bin h2 h1
      simpa only [List.append_assoc] using this

/-- What is left of a row when its front is taken away. -/
theorem CutInto.drop (hg : gap ≤ 1) : ∀ {n : Nat} {l : List α} (t : Nat), CutInto w cap gap n l →
    CutInto w cap gap n (l.drop t)
  | 0, _, _, h => h.elim
  | n + 1, _, t, h => by
    rcases h with h | ⟨x, sep, y, rfl, h1, h2, h3⟩
    · exact Or.inl ((room_drop_le _).trans h)
    rcases Nat.lt_or_ge x.length t with ht | ht
    · -- the whole bin and its separator are gone
      obtain ⟨u, rfl⟩ : ∃ u, t = x.length + (sep.length + u) := ⟨t - x.length - sep.length, by omega⟩
      rw [← List.append_assoc, ← Nat.add_assoc, ← List.length_append, List.drop_length_add_append]
      exact (h3.drop hg u).mono (Nat.le_succ n)
    · rw [List.drop_append_of_le_length ht]
      exact h3.bin ((room_drop_le _).trans h2) h1

/-- A first bin that goes as far as it can leaves no more than any other cut. -/
theorem CutInto.greedy (hg : gap ≤ 1) (h : CutInto w cap gap (n + 1) l)
    (hc : cap < room w (l.take (c + 1))) : CutInto w cap gap n (l.drop (c + gap)) := by
  rcases h with h | ⟨x, sep, y, rfl, h1, h2, h3⟩
  · exact absurd (hc.trans_le (room_sublist (List.take_sublist _ _))) (Nat.not_lt.2 h)
  have hx : x.length ≤ c := by
    by_contra hlt
    rw [List.take_append_of_le_length (by omega)] at hc
    exact absurd (hc.trans_le (room_sublist (List.take_sublist _ _))) (Nat.not_lt.2 h2)
  obtain ⟨u, rfl⟩ := Nat.exists_eq_add_of_le hx
  have hd : x.length + u + gap = (x ++ sep).length + u := by
    rw [List.length_append, h1]
    omega
  rw [hd, ← List.append_assoc, List.drop_length_add_append]
  exact h3.drop hg u

/-- One more item cuts a full bin into three. -/
theorem cutInto_insert {a b : List α} {x : α} (hab : room w a + room w b ≤ cap) (hx : w x ≤ cap) :
    CutInto w cap 0 3 (a ++ ([x] ++ b)) := by
  have hb : CutInto w cap 0 1 b := cutInto_one.2 (by omega)
  have hxb : CutInto w cap 0 2 ([x] ++ ([] ++ b)) := hb.bin (by simpa using hx) rfl
  exact hxb.bin (s := []) (by omega) rfl

/-- With separators of one item, up to four more items cut a full bin into three when any two of
them have room in a bin. -/
theorem cutInto_insert_four {a b xs : List α} {m : Nat} (hab : room w a + room w b ≤ cap)
    (hm : ∀ x ∈ xs, w x ≤ m) (h2 : 2 * m ≤ cap) (hxs : xs.length ≤ 4) :
    CutInto w cap 1 3 (a ++ (xs ++ b)) := by
  have hb : ∀ n, CutInto w cap 1 (n + 1) b := fun n => CutInto.of_room (by omega)
  have hone : ∀ x, w x ≤ m → room w [x] ≤ cap := fun x hx => by simp; omega
  match xs, hm, hxs with
  | [], _, _ => exact CutInto.of_room (by simpa using hab)
  | [x], _, _ => exact (hb 1).bin (s := [x]) (by omega) rfl
  | [x, y], hm, _ =>
    have hx := hm x (by simp)
    have hy := hm y (by simp)
    rcases Nat.le_total (room w a) (room w b) with h | h
    · have := (hb 1).bin (l := a ++ [x]) (s := [y]) (by simp; omega) rfl
      simpa using this
    · have : CutInto w cap 1 2 (y :: b) := CutInto.of_room (by simp; omega)
      exact this.bin (s := [x]) (by omega) rfl
  | [x, y, z], hm, _ =>
    have := (hb 0).bin (s := [z]) (hone y (hm y (by simp))) rfl
    exact this.bin (l := a) (s := [x]) (by omega) rfl
  | [x, y, z, u], hm, _ =>
    have hx := hm x (by simp)
    have hu := hm u (by simp)
    rcases Nat.le_total (room w a) (room w b) with h | h
    · have := ((hb 0).bin (s := [u]) (hone z (hm z (by simp))) rfl).bin (l := a ++ [x]) (s := [y])
        (by simp; omega) rfl
      simpa using this
    · have h1 : CutInto w cap 1 1 (u :: b) := CutInto.of_room (by simp; omega)
      have h2 := (h1.bin (s := [z]) (hone y (hm y (by simp))) rfl).bin (l := a) (s := [x])
        (by omega) rfl
      simpa using h2

end Cut

end RowCuts
