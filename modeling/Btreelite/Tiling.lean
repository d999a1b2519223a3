import Mathlib.Algebra.Order.Ring.Nat
import Mathlib.Data.Finset.Card
import Mathlib.Order.Interval.Finset.Nat

/-!
# Blocks in a range

Blocks `(p, n)` of `n` units from `p` on that lie apart in a range, with `waste` units of the range in
none of them.
-/

namespace Tiling

abbrev Block := ℕ × ℕ

def Apart (a b : Block) : Prop := a.1 + a.2 ≤ b.1 ∨ b.1 + b.2 ≤ a.1

theorem Apart.symm {a b : Block} (h : Apart a b) : Apart b a := Or.symm h

/-- How many units the blocks have. -/
def total (bs : List Block) : ℕ := (bs.map Prod.snd).sum

section Total

variable {b : Block} {bs cs : List Block}

@[simp] theorem total_nil : total [] = 0 := rfl

@[simp] theorem total_cons : total (b :: bs) = b.2 + total bs := by simp [total]

@[simp] theorem total_append : total (bs ++ cs) = total bs + total cs := by simp [total]

theorem total_perm (h : bs.Perm cs) : total bs = total cs := (h.map _).sum_eq

end Total

structure Tiles (lo hi : ℕ) (bs : List Block) (waste : ℕ) : Prop where
  apart : bs.Pairwise Apart
  inside : ∀ b ∈ bs, lo ≤ b.1 ∧ b.1 + b.2 ≤ hi
  sum : lo + total bs + waste = hi

/-- The units the blocks are made of. -/
def cover (bs : List Block) : Finset ℕ := bs.foldr (fun b s => Finset.Ico b.1 (b.1 + b.2) ∪ s) ∅

theorem mem_cover {bs : List Block} {x : ℕ} : x ∈ cover bs ↔ ∃ b ∈ bs, b.1 ≤ x ∧ x < b.1 + b.2 := by
  induction bs with
  | nil => simp [cover]
  | cons b bs ih =>
    rw [cover, List.foldr_cons, Finset.mem_union, Finset.mem_Ico]
    simp only [List.mem_cons, exists_eq_or_imp]
    exact or_congr_right ih

/-- Blocks apart from each other have no unit twice. -/
theorem card_cover : ∀ {bs : List Block}, bs.Pairwise Apart → (cover bs).card = total bs
  | [], _ => rfl
  | b :: bs, h => by
    obtain ⟨hb, hbs⟩ := List.pairwise_cons.1 h
    have hdis : Disjoint (Finset.Ico b.1 (b.1 + b.2)) (cover bs) := by
      refine Finset.disjoint_left.2 fun x hx hx' => ?_
      obtain ⟨c, hc, h1, h2⟩ := mem_cover.1 hx'
      have hbx := Finset.mem_Ico.1 hx
      have := hb c hc
      unfold Apart at this
      omega
    rw [cover, List.foldr_cons, total_cons, ← card_cover hbs]
    change (Finset.Ico b.1 (b.1 + b.2) ∪ cover bs).card = _
    rw [Finset.card_union_of_disjoint hdis, Nat.card_Ico]
    omega

theorem total_le {lo hi : ℕ} {bs : List Block} (h : bs.Pairwise Apart)
    (hin : ∀ b ∈ bs, lo ≤ b.1 ∧ b.1 + b.2 ≤ hi) : total bs ≤ hi - lo := by
  rw [← card_cover h, ← Nat.card_Ico]
  refine Finset.card_le_card fun x hx => ?_
  obtain ⟨b, hb, h1, h2⟩ := mem_cover.1 hx
  have := hin b hb
  exact Finset.mem_Ico.2 ⟨by omega, by omega⟩

namespace Tiles

variable {lo hi waste p q n m x : ℕ} {b : Block} {bs cs : List Block}

theorem perm (h : Tiles lo hi bs waste) (hp : bs.Perm cs) : Tiles lo hi cs waste where
  apart := (hp.pairwise_iff Apart.symm).1 h.apart
  inside b hb := h.inside b (hp.mem_iff.2 hb)
  sum := by rw [← total_perm hp, h.sum]

theorem lo_le (h : Tiles lo hi bs waste) : lo ≤ hi := by
  have := h.sum
  omega

theorem head_apart (h : Tiles lo hi (b :: bs) waste) : ∀ c ∈ bs, Apart b c :=
  (List.pairwise_cons.1 h.apart).1

/-- Another block with the place of `b`. -/
theorem replace (h : Tiles lo hi (b :: bs) waste) (b' : Block) (h1 : b.1 ≤ b'.1)
    (h2 : b'.1 + b'.2 ≤ b.1 + b.2) : Tiles lo hi (b' :: bs) (waste + (b.2 - b'.2)) where
  apart := by
    refine List.pairwise_cons.2 ⟨fun c hc => ?_, (List.pairwise_cons.1 h.apart).2⟩
    have := h.head_apart c hc
    unfold Apart at this ⊢
    omega
  inside := by
    have hb := h.inside b List.mem_cons_self
    exact List.forall_mem_cons.2 ⟨by omega, fun c hc => h.inside c (List.mem_cons_of_mem _ hc)⟩
  sum := by
    have := h.sum
    rw [total_cons] at this ⊢
    omega

/-- A new block below the others. -/
theorem below (h : Tiles lo hi bs waste) (hn : n ≤ lo) : Tiles (lo - n) hi ((lo - n, n) :: bs) waste where
  apart := by
    refine List.pairwise_cons.2 ⟨fun c hc => ?_, h.apart⟩
    have := h.inside c hc
    exact Or.inl (by simp only; omega)
  inside := by
    have hle := h.lo_le
    refine List.forall_mem_cons.2 ⟨by simp only; omega, fun c hc => ?_⟩
    have := h.inside c hc
    omega
  sum := by
    have := h.sum
    rw [total_cons]
    omega

/-- A new block above the others. -/
theorem atop (h : Tiles lo hi bs waste) : Tiles lo (hi + n) ((hi, n) :: bs) waste where
  apart := by
    refine List.pairwise_cons.2 ⟨fun c hc => ?_, h.apart⟩
    have := h.inside c hc
    exact Or.inr (by simp only; omega)
  inside := by
    have hle := h.lo_le
    refine List.forall_mem_cons.2 ⟨by simp only; omega, fun c hc => ?_⟩
    have := h.inside c hc
    omega
  sum := by
    have := h.sum
    rw [total_cons]
    omega

/-- A block in two parts. -/
theorem split (h : Tiles lo hi ((p, n) :: bs) waste) (hx : x ≤ n) :
    Tiles lo hi ((p, x) :: (p + x, n - x) :: bs) waste where
  apart := by
    refine List.pairwise_cons.2 ⟨List.forall_mem_cons.2 ⟨Or.inl le_rfl, fun c hc => ?_⟩,
      List.pairwise_cons.2 ⟨fun c hc => ?_, (List.pairwise_cons.1 h.apart).2⟩⟩
    · have := h.head_apart c hc
      unfold Apart at this ⊢
      omega
    · have := h.head_apart c hc
      unfold Apart at this ⊢
      omega
  inside := by
    have hp := h.inside (p, n) List.mem_cons_self
    refine List.forall_mem_cons.2 ⟨?_, List.forall_mem_cons.2 ⟨?_, fun c hc =>
      h.inside c (List.mem_cons_of_mem _ hc)⟩⟩ <;> simp only at hp ⊢ <;> omega
  sum := by
    have := h.sum
    simp only [total_cons] at this ⊢
    omega

/-- The units between two blocks, when no other block fits there. -/
theorem gap_le (h : Tiles lo hi ((p, n) :: (q, m) :: bs) waste) (hpq : p + n ≤ q)
    (hbs : ∀ b ∈ bs, q - (p + n) < b.2) : (∀ b ∈ bs, Apart (p, q + m - p) b) ∧ q - (p + n) ≤ waste := by
  have hout : ∀ b ∈ bs, Apart (p, q + m - p) b := by
    intro b hb
    have h1 := h.head_apart b (List.mem_cons_of_mem _ hb)
    have h2 := (List.pairwise_cons.1 (List.pairwise_cons.1 h.apart).2).1 b hb
    have := hbs b hb
    unfold Apart at h1 h2 ⊢
    simp only at h1 h2 ⊢
    omega
  refine ⟨hout, ?_⟩
  have hp := h.inside (p, n) List.mem_cons_self
  have hq := h.inside (q, m) (List.mem_cons_of_mem _ List.mem_cons_self)
  have hle : total ((p, q + m - p) :: bs) ≤ hi - lo := by
    refine total_le (List.pairwise_cons.2 ⟨hout, ?_⟩) (List.forall_mem_cons.2 ⟨?_, ?_⟩)
    · exact (List.pairwise_cons.1 (List.pairwise_cons.1 h.apart).2).2
    · simp only at hp hq ⊢
      omega
    · exact fun c hc => h.inside c (List.mem_cons_of_mem _ (List.mem_cons_of_mem _ hc))
  have := h.sum
  simp only [total_cons] at this hle hp hq
  omega

/-- Two blocks joined over the units between them. -/
theorem join (h : Tiles lo hi ((p, n) :: (q, m) :: bs) waste) (hpq : p + n ≤ q)
    (hbs : ∀ b ∈ bs, q - (p + n) < b.2) :
    Tiles lo hi ((p, q + m - p) :: bs) (waste - (q - (p + n))) where
  apart := List.pairwise_cons.2 ⟨(h.gap_le hpq hbs).1,
    (List.pairwise_cons.1 (List.pairwise_cons.1 h.apart).2).2⟩
  inside := by
    have hp := h.inside (p, n) List.mem_cons_self
    have hq := h.inside (q, m) (List.mem_cons_of_mem _ List.mem_cons_self)
    refine List.forall_mem_cons.2 ⟨?_, fun c hc =>
      h.inside c (List.mem_cons_of_mem _ (List.mem_cons_of_mem _ hc))⟩
    simp only at hp hq ⊢
    omega
  sum := by
    have h1 := h.sum
    have h2 := (h.gap_le hpq hbs).2
    have hq := h.inside (q, m) (List.mem_cons_of_mem _ List.mem_cons_self)
    simp only [total_cons] at h1 hq ⊢
    omega

/-- The range begins behind its first block. -/
theorem above (h : Tiles lo hi ((lo, n) :: bs) waste) (hbs : ∀ b ∈ bs, 0 < b.2) :
    Tiles (lo + n) hi bs waste where
  apart := (List.pairwise_cons.1 h.apart).2
  inside b hb := by
    have h1 := h.head_apart b hb
    have h2 := h.inside b (List.mem_cons_of_mem _ hb)
    have := hbs b hb
    unfold Apart at h1
    simp only at h1
    omega
  sum := by
    have := h.sum
    rw [total_cons] at this
    omega

end Tiles

/-! ## Closing a block -/

/-- Where `b` is after the blocks before `f` have moved up to the end of `f`. -/
def slide (f b : Block) : Block := if b.1 < f.1 then (b.1 + f.2, b.2) else b

section Close

variable {lo hi waste : ℕ} {f b : Block} {bs : List Block}

@[simp] theorem slide_snd : (slide f b).2 = b.2 := by
  unfold slide
  split_ifs <;> rfl

@[simp] theorem total_slide : total (bs.map (slide f)) = total bs := by
  rw [total, total, List.map_map]
  exact congrArg _ (List.map_congr_left fun _ _ => slide_snd)

/-- A block apart from `f` lies before it or behind it. -/
theorem Apart.side (h : Apart f b) (hb : 0 < b.2) :
    (b.1 < f.1 ∧ b.1 + b.2 ≤ f.1) ∨ (f.1 ≤ b.1 ∧ f.1 + f.2 ≤ b.1) := by
  unfold Apart at h
  omega

theorem slide_of_lt (h : b.1 < f.1) : slide f b = (b.1 + f.2, b.2) := if_pos h

theorem slide_of_le (h : f.1 ≤ b.1) : slide f b = b := if_neg (Nat.not_lt.2 h)

theorem Tiles.close (h : Tiles lo hi (f :: bs) waste) (hbs : ∀ b ∈ bs, 0 < b.2) :
    Tiles (lo + f.2) hi (bs.map (slide f)) waste where
  apart := by
    refine List.pairwise_map.2 ((List.pairwise_cons.1 h.apart).2.imp_of_mem fun {a b} ha hb hab => ?_)
    have h1 := (h.head_apart a ha).side (hbs a ha)
    have h2 := (h.head_apart b hb).side (hbs b hb)
    unfold Apart at hab ⊢
    rcases h1 with h1 | h1 <;> rcases h2 with h2 | h2 <;>
      simp only [slide_of_lt, slide_of_le, h1, h2] <;> omega
  inside := by
    have hf := h.inside f List.mem_cons_self
    refine List.forall_mem_map.2 fun b hb => ?_
    have h1 := (h.head_apart b hb).side (hbs b hb)
    have h2 := h.inside b (List.mem_cons_of_mem _ hb)
    rcases h1 with h1 | h1 <;> simp only [slide_of_lt, slide_of_le, h1] <;> omega
  sum := by
    have := h.sum
    rw [total_cons] at this
    rw [total_slide]
    omega

end Close

end Tiling
