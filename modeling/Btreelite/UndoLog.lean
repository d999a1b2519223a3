import Mathlib.Data.List.Basic
import Mathlib.Logic.Function.Basic

/-!
# Undo logs

A log of records, each the old value at an index. Put back in their order the last record of an index
counts; where an index is put back once, the first one does. A log stands for what the values were when
it began, as long as a value changes only after it was recorded.
-/

namespace UndoLog

open Function

variable {ι α : Type*} [DecidableEq ι] {log log' : List (ι × α)} {f g : ι → α} {i j : ι} {v : α}

/-- Every record is put back, in their order. -/
def restore (log : List (ι × α)) (f : ι → α) : ι → α := log.foldl (fun f r => update f r.1 r.2) f

theorem restore_congr : ∀ {log : List (ι × α)} {f g : ι → α}, f i = g i → restore log f i = restore log g i
  | [], _, _, h => h
  | r :: log, f, g, h => by
    have hu : update f r.1 r.2 i = update g r.1 r.2 i := by
      by_cases hi : i = r.1
      · rw [hi, update_self, update_self]
      · rw [update_of_ne hi, update_of_ne hi]
        exact h
    change restore log (update f r.1 r.2) i = restore log (update g r.1 r.2) i
    exact restore_congr hu

/-- The first record of an index. -/
def first (log : List (ι × α)) (i : ι) : Option α := (log.find? fun r => r.1 = i).map Prod.snd

/-- What the value was when the log began. -/
def before (log : List (ι × α)) (f : ι → α) (i : ι) : α := (first log i).getD (f i)

@[simp] theorem first_nil : first ([] : List (ι × α)) i = none := rfl

theorem first_cons (r : ι × α) : first (r :: log) i = if r.1 = i then some r.2 else first log i := by
  by_cases h : r.1 = i <;> simp [first, h]

theorem first_append : first (log ++ log') i = (first log i).or (first log' i) := by
  simp only [first, List.find?_append]
  cases log.find? fun r => r.1 = i <;> rfl

theorem first_eq_none : first log i = none ↔ i ∉ log.map Prod.fst := by
  simp only [first, Option.map_eq_none_iff, List.find?_eq_none, decide_eq_true_eq, List.mem_map, not_exists,
    not_and]

theorem mem_of_first (h : first log i = some v) : (i, v) ∈ log := by
  obtain ⟨r, hr, rfl⟩ := Option.map_eq_some_iff.1 h
  have hi := List.find?_some hr
  simp only [decide_eq_true_eq] at hi
  exact hi ▸ List.mem_of_find?_eq_some hr

/-- A record that is added says what the value is. -/
theorem before_concat : before (log ++ [(j, f j)]) f = before log f := by
  funext i
  simp only [before, first_append, first_cons, first_nil]
  cases first log i with
  | some v => rfl
  | none =>
    by_cases h : j = i
    · simp [h]
    · simp [h]

/-- A record may be added between two parts of a log where the second does not have its index. -/
theorem before_insert (h : j ∉ log'.map Prod.fst) :
    before (log ++ [(j, f j)] ++ log') f = before (log ++ log') f := by
  funext i
  simp only [before, first_append, first_cons, first_nil]
  by_cases hi : j = i
  · subst hi
    rw [first_eq_none.2 h]
    cases first log j <;> simp
  · simp [hi]

/-- A value may change where its index is in the log. -/
theorem before_congr (h : i ∉ log.map Prod.fst → f i = g i) : before log f i = before log g i := by
  unfold before
  cases hi : first log i with
  | some v => rfl
  | none => exact h (first_eq_none.1 hi)

/-- The records of a log are put back, but for indices outside of `S` and for those in `done`. -/
def undo (S : ι → Bool) : List (ι × α) → List ι → (ι → α) → ι → α
  | [], _, f => f
  | r :: log, done, f =>
    if S r.1 = true ∧ r.1 ∉ done then undo S log (r.1 :: done) (update f r.1 r.2) else undo S log done f

/-- Each index comes back as it was when the log began. -/
theorem undo_eq {S : ι → Bool} : ∀ {log : List (ι × α)} {done : List ι} {f : ι → α},
    undo S log done f i = if S i = true ∧ i ∉ done then before log f i else f i
  | [], done, f => by simp [undo, before]
  | r :: log, done, f => by
    unfold undo
    split_ifs with h hi hi
    · rw [undo_eq]
      by_cases hr : r.1 = i
      · subst hr
        simp [before, first_cons]
      · have : before log (update f r.1 r.2) i = before (r :: log) f i := by
          simp [before, first_cons, hr, Ne.symm hr]
        simp [this, hi, Ne.symm hr]
    · rw [undo_eq]
      have hr : r.1 ≠ i := fun hr => hi (hr ▸ h)
      rw [if_neg fun h' => hi ⟨h'.1, fun hm => h'.2 (List.mem_cons_of_mem _ hm)⟩, update_of_ne hr.symm]
    · rw [undo_eq, if_pos hi]
      have hr : r.1 ≠ i := fun hr => h (hr ▸ hi)
      simp [before, first_cons, hr]
    · rw [undo_eq, if_neg hi]

end UndoLog
