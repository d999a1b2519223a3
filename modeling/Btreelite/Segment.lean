import Mathlib.Order.Defs.LinearOrder
import Mathlib.Order.Lattice

/-!
# Runs and segments between bounds

A sorted tree keeps its keys in intervals that leave their lower bound out and take their upper
bound in. A run is a list of points ascending through such an interval; a segment is a list of
intervals end to end, with what each of them holds.
-/

namespace Segment

section Run

variable {β : Type} [LinearOrder β] {lo lo' m hi hi' x : β} {xs ys : List β}

/-- The points `xs` ascend strictly from `lo`, left out, to `hi`, taken in. -/
def Run : β → List β → β → Prop
  | lo, [], hi => lo ≤ hi
  | lo, x :: xs, hi => lo < x ∧ Run x xs hi

@[simp] theorem Run.nil : Run lo [] hi ↔ lo ≤ hi := Iff.rfl

@[simp] theorem Run.cons : Run lo (x :: xs) hi ↔ lo < x ∧ Run x xs hi := Iff.rfl

theorem Run.le : ∀ {lo : β} {xs : List β}, Run lo xs hi → lo ≤ hi
  | _, [], h => h
  | _, _ :: _, h => (h.1.trans_le h.2.le).le

theorem Run.mono_lo (hlo : lo' ≤ lo) : ∀ {xs : List β}, Run lo xs hi → Run lo' xs hi
  | [], h => hlo.trans h
  | _ :: _, h => ⟨hlo.trans_lt h.1, h.2⟩

theorem Run.mono_hi (hhi : hi ≤ hi') : ∀ {lo : β} {xs : List β}, Run lo xs hi → Run lo xs hi'
  | _, [], h => h.trans hhi
  | _, _ :: _, h => ⟨h.1, h.2.mono_hi hhi⟩

theorem Run.append : ∀ {lo : β} {xs : List β}, Run lo xs m → Run m ys hi → Run lo (xs ++ ys) hi
  | _, [], h, h' => h'.mono_lo h
  | _, _ :: _, h, h' => ⟨h.1, h.2.append h'⟩

/-- A run splits behind each of its points. -/
theorem Run.append_cons : ∀ {lo : β} {xs : List β},
    Run lo (xs ++ x :: ys) hi ↔ Run lo (xs ++ [x]) x ∧ Run x ys hi
  | _, [] => by simp
  | _, _ :: _ => by
    simp only [List.cons_append, Run.cons, and_assoc]
    exact and_congr_right fun _ => Run.append_cons

theorem Run.mem : ∀ {lo : β} {xs : List β}, Run lo xs hi → ∀ x ∈ xs, lo < x ∧ x ≤ hi
  | _, [], _, _, hx => by simp at hx
  | _, y :: xs, h, x, hx => by
    rcases List.mem_cons.1 hx with rfl | hx
    · exact ⟨h.1, h.2.le⟩
    · exact ⟨h.1.trans (h.2.mem x hx).1, (h.2.mem x hx).2⟩

theorem Run.pairwise : ∀ {lo : β} {xs : List β}, Run lo xs hi → xs.Pairwise (· < ·)
  | _, [], _ => List.Pairwise.nil
  | _, _ :: _, h => List.Pairwise.cons (fun x hx => (h.2.mem x hx).1) h.2.pairwise

theorem Run.erase (h : Run lo (xs ++ x :: ys) hi) : Run lo (xs ++ ys) hi := by
  obtain ⟨h1, h2⟩ := Run.append_cons.1 h
  clear h
  induction xs generalizing lo with
  | nil => exact h2.mono_lo h1.1.le
  | cons y xs ih => exact ⟨h1.1, ih h1.2⟩

/-- A point between two parts of a run can join it. -/
theorem Run.insert (h : Run lo (xs ++ ys) hi) (hlo : lo < x) (hhi : x ≤ hi)
    (hxs : ∀ y ∈ xs, y < x) (hys : ∀ y ∈ ys, x < y) : Run lo (xs ++ x :: ys) hi := by
  induction xs generalizing lo with
  | nil =>
    refine ⟨hlo, ?_⟩
    cases ys with
    | nil => exact hhi
    | cons y ys => exact ⟨hys y List.mem_cons_self, h.2⟩
  | cons y xs ih =>
    exact ⟨h.1, ih h.2 (hxs y List.mem_cons_self) fun z hz => hxs z (List.mem_cons_of_mem _ hz)⟩

end Run

/-! ## Segments -/

section Seg

variable {β ι ε π : Type} {S S' : β → ι → β → List ε → List π → Prop}

/-- The intervals with the upper bounds in `ks` lie end to end from `lo` to `hi`, and `S` holds of
each of them, what it is labelled with and its share of `es` and `ps`. -/
def Seg (S : β → ι → β → List ε → List π → Prop) :
    β → List (ι × β) → β → List ε → List π → Prop
  | lo, [], hi, es, ps => lo = hi ∧ es = [] ∧ ps = []
  | lo, (c, u) :: ks, hi, es, ps => ∃ es1 es2 ps1 ps2, es = es1 ++ es2 ∧ ps = ps1 ++ ps2
      ∧ S lo c u es1 ps1 ∧ Seg S u ks hi es2 ps2

variable {lo hi m : β} {ks ks' : List (ι × β)} {es es' : List ε} {ps ps' : List π}

theorem Seg.single {c : ι} (h : S lo c hi es ps) : Seg S lo [(c, hi)] hi es ps :=
  ⟨es, [], ps, [], by simp, by simp, h, rfl, rfl, rfl⟩

theorem Seg.single_iff {c : ι} {u : β} :
    Seg S lo [(c, u)] hi es ps ↔ u = hi ∧ S lo c u es ps := by
  constructor
  · intro h
    obtain ⟨es1, es2, ps1, ps2, rfl, rfl, h1, h2, rfl, rfl⟩ := h
    simpa using ⟨h2, h1⟩
  · intro h
    obtain ⟨rfl, h⟩ := h
    exact Seg.single h

theorem Seg.append : ∀ {lo : β} {ks : List (ι × β)} {es : List ε} {ps : List π},
    Seg S lo ks m es ps → Seg S m ks' hi es' ps' →
    Seg S lo (ks ++ ks') hi (es ++ es') (ps ++ ps')
  | _, [], _, _, h, h' => by
    obtain ⟨rfl, rfl, rfl⟩ := h
    exact h'
  | _, (c, u) :: ks, _, _, h, h' => by
    obtain ⟨es1, es2, ps1, ps2, rfl, rfl, h1, h2⟩ := h
    exact ⟨es1, es2 ++ es', ps1, ps2 ++ ps', by simp, by simp, h1, h2.append h'⟩

theorem Seg.split : ∀ {lo : β} {ks : List (ι × β)} {es : List ε} {ps : List π},
    Seg S lo (ks ++ ks') hi es ps → ∃ m es1 es2 ps1 ps2, es = es1 ++ es2 ∧ ps = ps1 ++ ps2
      ∧ Seg S lo ks m es1 ps1 ∧ Seg S m ks' hi es2 ps2
  | lo, [], es, ps, h => ⟨lo, [], es, [], ps, rfl, rfl, ⟨rfl, rfl, rfl⟩, h⟩
  | _, (c, u) :: ks, _, _, h => by
    obtain ⟨es1, es2, ps1, ps2, rfl, rfl, h1, h2⟩ := h
    obtain ⟨m, es3, es4, ps3, ps4, rfl, rfl, h3, h4⟩ := h2.split
    exact ⟨m, es1 ++ es3, es4, ps1 ++ ps3, ps4, by simp, by simp,
      ⟨es1, es3, ps1, ps3, rfl, rfl, h1, h3⟩, h4⟩

/-- A segment ends where its last interval does. -/
theorem Seg.getLast_eq : ∀ {lo : β} {ks : List (ι × β)} {es : List ε} {ps : List π} {c : ι} {u : β},
    Seg S lo (ks ++ [(c, u)]) hi es ps → u = hi
  | _, [], _, _, _, _, h => (Seg.single_iff.1 h).1
  | _, _ :: _, _, _, _, _, h => by
    obtain ⟨_, _, _, _, _, _, _, h⟩ := h
    exact h.getLast_eq

/-- `S` may be replaced by what it implies on the pages of the segment. -/
theorem Seg.mono : ∀ {lo : β} {ks : List (ι × β)} {es : List ε} {ps : List π},
    Seg S lo ks hi es ps →
    (∀ lo c u es ps', c ∈ ks.map Prod.fst → (∀ q ∈ ps', q ∈ ps) → S lo c u es ps' →
      S' lo c u es ps') →
    Seg S' lo ks hi es ps
  | _, [], _, _, h, _ => h
  | _, (c, u) :: ks, _, _, h, hS => by
    obtain ⟨es1, es2, ps1, ps2, rfl, rfl, h1, h2⟩ := h
    refine ⟨es1, es2, ps1, ps2, rfl, rfl, ?_, h2.mono fun lo c' u' es ps' hc hp => ?_⟩
    · exact hS _ _ _ _ _ (by simp) (fun q hq => List.mem_append_left _ hq) h1
    · exact hS _ _ _ _ _ (List.mem_cons_of_mem _ hc) fun q hq => List.mem_append_right _ (hp q hq)

theorem Seg.imp (h : Seg S lo ks hi es ps) (hS : ∀ lo c u es ps, S lo c u es ps → S' lo c u es ps) :
    Seg S' lo ks hi es ps :=
  h.mono fun _ _ _ _ _ _ _ => hS _ _ _ _ _

/-- `S` holds of each interval of a segment. -/
theorem Seg.mem : ∀ {lo : β} {ks : List (ι × β)} {es : List ε} {ps : List π},
    Seg S lo ks hi es ps → ∀ k ∈ ks, ∃ lo' es' ps', S lo' k.1 k.2 es' ps' ∧ ∀ q ∈ ps', q ∈ ps
  | _, [], _, _, _, _, hk => by simp at hk
  | lo, (c, u) :: ks, _, _, h, k, hk => by
    obtain ⟨es1, es2, ps1, ps2, rfl, rfl, h1, h2⟩ := h
    rcases List.mem_cons.1 hk with rfl | hk
    · exact ⟨lo, es1, ps1, h1, fun q hq => List.mem_append_left _ hq⟩
    · obtain ⟨lo', es', ps', h3, h4⟩ := h2.mem k hk
      exact ⟨lo', es', ps', h3, fun q hq => List.mem_append_right _ (h4 q hq)⟩

/-- A segment whose intervals are segments themselves. -/
theorem Seg.flatten {κ : Type} {f : κ → β → List (ι × β)} :
    ∀ {lo : β} {xs : List (κ × β)} {es : List ε} {ps : List π},
      Seg (fun lo x u es ps => Seg S lo (f x u) u es ps) lo xs hi es ps →
      Seg S lo (xs.flatMap fun x => f x.1 x.2) hi es ps
  | _, [], _, _, h => h
  | _, _ :: _, _, _, h => by
    obtain ⟨es1, es2, ps1, ps2, rfl, rfl, h1, h2⟩ := h
    exact h1.append h2.flatten

/-- A segment splits into parts, each of which ends at the bound of its last interval. -/
theorem Seg.unflatten {κ : Type} {f : κ → β → List (ι × β)} :
    ∀ {lo : β} {xs : List (κ × β)} {es : List ε} {ps : List π},
      (∀ x ∈ xs, ∃ ks c, f x.1 x.2 = ks ++ [(c, x.2)]) →
      Seg S lo (xs.flatMap fun x => f x.1 x.2) hi es ps →
      Seg (fun lo x u es ps => Seg S lo (f x u) u es ps) lo xs hi es ps
  | _, [], _, _, _, h => h
  | _, x :: xs, _, _, hf, h => by
    rw [List.flatMap_cons] at h
    obtain ⟨m, es1, es2, ps1, ps2, rfl, rfl, h1, h2⟩ := h.split
    have hm : x.2 = m := by
      obtain ⟨ks, c, hk⟩ := hf x List.mem_cons_self
      rw [hk] at h1
      exact h1.getLast_eq
    subst hm
    exact ⟨es1, es2, ps1, ps2, rfl, rfl, h1,
      h2.unflatten fun y hy => hf y (List.mem_cons_of_mem _ hy)⟩

end Seg

end Segment
