import Btreelite.RawPage
import Btreelite.Tiling

/-!
# Page bytes and the list of free blocks

What the accesses to a page do, and the chain of free blocks: from the pointer in the header on, each
block has the offset of the next one and its own size in its first four bytes.
-/

namespace Btreelite

namespace RawPage

open Prog ByteBuffer Tiling

section Rules

variable {g : Geometry} {α : Type} {p : RawPage} {i n v dst src : Nat} {bs : List UInt8}
  {E : PageErr → RawPage → Prop}

theorem wp_pageByte {Q : Nat → RawPage → Prop} (h : i + 1 ≤ g.usableSize) :
    wp (pageByte g i) Q E p ↔ Q (p.aData i).toNat p := by
  rw [pageByte, if_pos h]
  exact Iff.rfl

theorem wp_get2byte {Q : Nat → RawPage → Prop} (h : i + 2 ≤ g.usableSize) :
    wp (get2byte g i) Q E p ↔ Q (get2 p.aData i) p := by
  rw [get2byte, if_pos h]
  exact Iff.rfl

theorem wp_get2byteNotZero {Q : Nat → RawPage → Prop} (h : i + 2 ≤ g.usableSize) :
    wp (get2byteNotZero g i) Q E p
      ↔ Q (if get2 p.aData i = 0 then 65536 else get2 p.aData i) p := by
  rw [get2byteNotZero, wp_bind, wp_get2byte h]
  exact Iff.rfl

theorem wp_putBytes {Q : Unit → RawPage → Prop} (h : i + bs.length ≤ g.usableSize) :
    wp (putBytes g i bs) Q E p ↔ Q () { p with aData := store p.aData i bs } := by
  rw [putBytes, if_pos h]
  exact Iff.rfl

theorem wp_put2byte {Q : Unit → RawPage → Prop} (h : i + 2 ≤ g.usableSize) :
    wp (put2byte g i v) Q E p ↔ Q () { p with aData := put2 p.aData i v } := by
  rw [put2byte, if_pos h]
  exact Iff.rfl

theorem wp_memmove {Q : Unit → RawPage → Prop} (h1 : dst + n ≤ g.usableSize) (h2 : src + n ≤ g.usableSize) :
    wp (memmove g dst src n) Q E p ↔ Q () { p with aData := store p.aData dst (bytes p.aData src n) } := by
  rw [memmove, if_pos ⟨h1, h2⟩]
  exact Iff.rfl

end Rules

/-! ## The chain of free blocks -/

/-- From the pointer at `a` on the blocks `fs` are chained, and the last pointer is `b`. -/
def Links (d : Nat → UInt8) : Nat → List Block → Nat → Prop
  | a, [], b => get2 d a = b
  | a, f :: fs, b => get2 d a = f.1 ∧ get2 d (f.1 + 2) = f.2 ∧ Links d f.1 fs b

/-- Blocks in ascending order from `lo` to `hi`, with four bytes or more behind each. -/
def Spaced : Nat → List Block → Nat → Prop
  | lo, [], hi => lo ≤ hi
  | lo, f :: fs, hi => lo ≤ f.1 ∧ 4 ≤ f.2 ∧ Spaced (f.1 + f.2 + 4) fs hi

/-- The place of the last pointer, when the first one is at `a`. -/
def lastPtr : Nat → List Block → Nat
  | a, [] => a
  | _, f :: fs => lastPtr f.1 fs

/-- The pointer to the first block. -/
def headPtr : List Block → Nat
  | [] => 0
  | f :: _ => f.1

section Chain

variable {d d' : Nat → UInt8} {a b lo lo' hi hi' x : Nat} {f : Block} {fs fs1 fs2 : List Block}

theorem Links.append_cons : ∀ {a : Nat} {fs1 : List Block},
    Links d a (fs1 ++ f :: fs2) b ↔ Links d a fs1 f.1 ∧ get2 d (f.1 + 2) = f.2 ∧ Links d f.1 fs2 b
  | _, [] => Iff.rfl
  | _, e :: fs1 => by
    simp only [List.cons_append, Links, and_assoc]
    exact and_congr_right fun _ => and_congr_right fun _ => Links.append_cons

theorem Links.head (h : Links d a fs 0) : get2 d a = headPtr fs := by
  cases fs with
  | nil => exact h
  | cons f fs => exact h.1

theorem Links.last : ∀ {a : Nat} {fs : List Block}, Links d a fs b → get2 d (lastPtr a fs) = b
  | _, [], h => h
  | _, _ :: _, h => h.2.2.last

/-- A chain stands in the first four bytes of its blocks. -/
theorem Links.congr (h : Links d a fs b) (ha : get2 d' a = get2 d a)
    (hfs : ∀ f ∈ fs, get2 d' f.1 = get2 d f.1 ∧ get2 d' (f.1 + 2) = get2 d (f.1 + 2)) : Links d' a fs b := by
  induction fs generalizing a with
  | nil => exact ha.trans h
  | cons f fs ih =>
    obtain ⟨h1, h2⟩ := List.forall_mem_cons.1 hfs
    exact ⟨ha.trans h.1, h1.2.trans h.2.1, ih h.2.2 h1.1 h2⟩

theorem lastPtr_append : ∀ {a : Nat} {fs : List Block}, lastPtr a (fs ++ [f]) = f.1
  | _, [] => rfl
  | _, e :: fs => (lastPtr_append : lastPtr e.1 (fs ++ [f]) = f.1)

theorem lastPtr_mem : ∀ (a : Nat) (fs : List Block),
    fs = [] ∧ lastPtr a fs = a ∨ ∃ f ∈ fs, lastPtr a fs = f.1
  | _, [] => Or.inl ⟨rfl, rfl⟩
  | _, f :: fs => by
    rcases lastPtr_mem f.1 fs with ⟨-, h⟩ | ⟨e, he, h⟩
    · exact Or.inr ⟨f, List.mem_cons_self, h⟩
    · exact Or.inr ⟨e, List.mem_cons_of_mem _ he, h⟩

theorem Spaced.le : ∀ {lo : Nat} {fs : List Block}, Spaced lo fs hi → lo ≤ hi
  | _, [], h => h
  | _, _ :: _, h => by
    have := h.2.2.le
    have := h.1
    omega

theorem Spaced.mono_lo (hlo : lo' ≤ lo) (h : Spaced lo fs hi) : Spaced lo' fs hi := by
  cases fs with
  | nil => exact hlo.trans h
  | cons f fs => exact ⟨hlo.trans h.1, h.2⟩

theorem Spaced.mono_hi (hhi : hi ≤ hi') : ∀ {lo : Nat} {fs : List Block}, Spaced lo fs hi → Spaced lo fs hi'
  | _, [], h => h.trans hhi
  | _, _ :: _, h => ⟨h.1, h.2.1, h.2.2.mono_hi hhi⟩

theorem Spaced.append_cons : ∀ {lo : Nat} {fs1 : List Block},
    Spaced lo (fs1 ++ f :: fs2) hi ↔ Spaced lo fs1 f.1 ∧ 4 ≤ f.2 ∧ Spaced (f.1 + f.2 + 4) fs2 hi
  | _, [] => Iff.rfl
  | _, e :: fs1 => by
    simp only [List.cons_append, Spaced, and_assoc]
    exact and_congr_right fun _ => and_congr_right fun _ => Spaced.append_cons

theorem Spaced.mem : ∀ {lo : Nat} {fs : List Block}, Spaced lo fs hi →
    ∀ f ∈ fs, lo ≤ f.1 ∧ 4 ≤ f.2 ∧ f.1 + f.2 + 4 ≤ hi
  | _, [], _, _, hf => by simp at hf
  | _, e :: fs, h, f, hf => by
    rcases List.mem_cons.1 hf with rfl | hf
    · exact ⟨h.1, h.2.1, h.2.2.le⟩
    · have h1 := h.2.2.mem f hf
      have h2 := h.1
      exact ⟨by omega, h1.2⟩

/-- The blocks before `x` and those from `x` on. -/
theorem Spaced.cut : ∀ {lo : Nat} {fs : List Block}, Spaced lo fs hi →
    ∃ fs1 fs2, fs = fs1 ++ fs2 ∧ (∀ f ∈ fs1, f.1 < x) ∧ ∀ f ∈ fs2, x ≤ f.1
  | _, [], _ => ⟨[], [], rfl, by simp, by simp⟩
  | _, f :: fs, h => by
    rcases Nat.lt_or_ge f.1 x with hx | hx
    · obtain ⟨fs1, fs2, rfl, h1, h2⟩ := h.2.2.cut
      exact ⟨f :: fs1, fs2, rfl, List.forall_mem_cons.2 ⟨hx, h1⟩, h2⟩
    · refine ⟨[], f :: fs, rfl, by simp, List.forall_mem_cons.2 ⟨hx, fun e he => ?_⟩⟩
      have := (h.2.2.mem e he).1
      omega

/-- The chain from its first block on. -/
def Nodes (d : Nat → UInt8) : List Block → Prop
  | [] => True
  | f :: fs => get2 d (f.1 + 2) = f.2 ∧ Links d f.1 fs 0

theorem links_iff : Links d a fs 0 ↔ get2 d a = headPtr fs ∧ Nodes d fs := by
  cases fs with
  | nil => simp [Links, headPtr, Nodes]
  | cons f fs => exact Iff.rfl

theorem Links.append : ∀ {a : Nat} {fs1 : List Block},
    Links d a (fs1 ++ fs2) 0 ↔ Links d a fs1 (headPtr fs2) ∧ Nodes d fs2
  | _, [] => links_iff
  | _, e :: fs1 => by
    simp only [List.cons_append, Links, and_assoc]
    exact and_congr_right fun _ => and_congr_right fun _ => Links.append

theorem Nodes.congr (h : Nodes d fs)
    (hfs : ∀ f ∈ fs, get2 d' f.1 = get2 d f.1 ∧ get2 d' (f.1 + 2) = get2 d (f.1 + 2)) : Nodes d' fs := by
  cases fs with
  | nil => trivial
  | cons f fs =>
    obtain ⟨h1, h2⟩ := List.forall_mem_cons.1 hfs
    exact ⟨h1.2.trans h.1, h.2.congr h1.1 h2⟩

theorem Spaced.lastPtr_le : ∀ {lo a : Nat} {fs : List Block}, Spaced lo fs hi → a ≤ hi →
    (fs = [] ∧ lastPtr a fs = a) ∨ (lo ≤ lastPtr a fs ∧ lastPtr a fs + 8 ≤ hi)
  | _, _, [], _, _ => Or.inl ⟨rfl, rfl⟩
  | lo, a, f :: fs, h, _ => by
    have h1 := h.1
    have h2 := h.2.1
    have h3 := h.2.2.le
    rcases h.2.2.lastPtr_le (a := f.1) (by omega) with ⟨-, h4⟩ | h4
    · exact Or.inr (by rw [lastPtr, h4]; omega)
    · exact Or.inr (by rw [lastPtr]; omega)

/-- Another last pointer. -/
theorem Links.relink (h : Links d a fs b) (hs : Spaced lo fs hi) (ha : a + 2 ≤ lo)
    (hx : get2 d' (lastPtr a fs) = x) (hlow : ∀ j, a ≤ j → j + 2 ≤ lastPtr a fs → get2 d' j = get2 d j)
    (hsize : fs ≠ [] → get2 d' (lastPtr a fs + 2) = get2 d (lastPtr a fs + 2)) : Links d' a fs x := by
  induction fs generalizing a lo with
  | nil => exact hx
  | cons f fs ih =>
    obtain ⟨h1, h2, h3⟩ := hs
    have hle := h3.le
    rw [lastPtr] at hx hlow hsize
    have hcut := h3.lastPtr_le (a := f.1) (by omega)
    refine ⟨?_, ?_, ih h.2.2 h3 (by omega) hx (fun j hj => hlow j (by omega)) fun _ => hsize (by simp)⟩
    · rw [hlow a le_rfl (by omega)]
      exact h.1
    · rw [← h.2.1]
      rcases hcut with ⟨-, h4⟩ | h4
      · rw [h4] at hsize
        exact hsize (by simp)
      · exact hlow _ (by omega) (by omega)

end Chain

end RawPage

end Btreelite
