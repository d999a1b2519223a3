import Mathlib.Data.List.Basic

/-!
# Files of bytes

Reads and writes at an offset. A write behind the end of the file fills the gap.
-/

namespace ByteFile

variable {α : Type}

/-- The `n` elements at `off`, or as many of them as the file has. -/
def pread (f : List α) (off n : ℕ) : List α := (f.drop off).take n

/-- The file with `bs` written at `off`; `z` fills a gap. -/
def pwrite (z : α) (f : List α) (off : ℕ) (bs : List α) : List α :=
  if bs = [] then f
  else f.take off ++ List.replicate (off - f.length) z ++ bs ++ f.drop (off + bs.length)

section Read

variable {f : List α} {off n m : ℕ}

@[simp] theorem pread_length : (pread f off n).length = min n (f.length - off) := by
  rw [pread, List.length_take, List.length_drop]

theorem pread_length_of_le (h : off + n ≤ f.length) : (pread f off n).length = n := by
  rw [pread_length]
  omega

theorem pread_getElem? (i : ℕ) :
    (pread f off n)[i]? = if i < n then f[off + i]? else none := by
  rw [pread, List.getElem?_take, List.getElem?_drop]

theorem pread_add : pread f off (n + m) = pread f off n ++ pread f (off + n) m := by
  rw [pread, pread, pread, ← List.drop_drop, List.take_add]

theorem pread_take (h : m ≤ n) : (pread f off n).take m = pread f off m := by
  rw [pread, List.take_take, Nat.min_eq_left h, pread]

theorem pread_congr {g : List α} (h : ∀ i, off ≤ i → i < off + n → g[i]? = f[i]?) : pread g off n = pread f off n := by
  refine List.ext_getElem? fun i => ?_
  rw [pread_getElem?, pread_getElem?]
  split_ifs with hi
  · exact h (off + i) (by omega) (by omega)
  · rfl

theorem pread_drop : (pread f off n).drop m = pread f (off + m) (n - m) := by
  rw [pread, List.drop_take, List.drop_drop, pread]

end Read

section Write

variable {z : α} {f a b : List α} {off o n : ℕ}

@[simp] theorem pwrite_nil : pwrite z f off [] = f := if_pos rfl

theorem pwrite_length (h : off ≤ f.length) :
    (pwrite z f off a).length = max f.length (off + a.length) := by
  unfold pwrite
  split_ifs with ha
  · subst ha
    simp only [List.length_nil]
    omega
  · simp only [List.length_append, List.length_take, List.length_replicate, List.length_drop]
    omega

theorem pwrite_length_le : f.length ≤ (pwrite z f off a).length := by
  unfold pwrite
  split_ifs with ha
  · exact Nat.le_refl _
  · simp only [List.length_append, List.length_take, List.length_replicate, List.length_drop]
    omega

/-- What a write without a gap leaves at a place. -/
theorem pwrite_getElem? (h : off ≤ f.length) (i : ℕ) : (pwrite z f off a)[i]? =
    if off ≤ i ∧ i < off + a.length then a[i - off]? else f[i]? := by
  unfold pwrite
  split_ifs with ha hi hi
  · subst ha
    simp only [List.length_nil] at hi
    omega
  · rfl
  · have hgap : off - f.length = 0 := by omega
    rw [hgap, List.replicate_zero, List.append_nil, List.append_assoc,
      List.getElem?_append_right (by rw [List.length_take]; omega), List.length_take,
      Nat.min_eq_left h, List.getElem?_append_left (by omega)]
  · have hgap : off - f.length = 0 := by omega
    rw [hgap, List.replicate_zero, List.append_nil]
    rcases Nat.lt_or_ge i off with hlt | hge
    · rw [List.append_assoc, List.getElem?_append_left (by rw [List.length_take]; omega),
        List.getElem?_take, if_pos hlt]
    · have hlen : (f.take off ++ a).length = off + a.length := by
        rw [List.length_append, List.length_take, Nat.min_eq_left h]
      rw [List.getElem?_append_right (by omega), List.getElem?_drop, hlen]
      congr 1
      omega

/-- Two writes one behind the other are one, behind a gap or not. -/
theorem pwrite_append_gap (ha : a ≠ []) :
    pwrite z (pwrite z f off a) (off + a.length) b = pwrite z f off (a ++ b) := by
  have hlen : (f.take off ++ List.replicate (off - f.length) z ++ a).length = off + a.length := by
    simp only [List.length_append, List.length_take, List.length_replicate]
    omega
  have htake : (pwrite z f off a).take (off + a.length) = f.take off ++ List.replicate (off - f.length) z ++ a := by
    rw [pwrite, if_neg ha, List.take_left' hlen]
  have hdrop : (pwrite z f off a).drop (off + a.length + b.length) = f.drop (off + (a ++ b).length) := by
    rw [pwrite, if_neg ha, ← List.drop_drop, List.drop_left' hlen, List.drop_drop, List.length_append]
    congr 1
    omega
  rcases eq_or_ne b [] with rfl | hb
  · rw [pwrite_nil, List.append_nil]
  · have hgap : off + a.length - (pwrite z f off a).length = 0 := by
      rw [pwrite, if_neg ha]
      simp only [List.length_append, List.length_take, List.length_replicate, List.length_drop]
      omega
    rw [pwrite, if_neg hb, htake, hgap, List.replicate_zero, List.append_nil, hdrop, pwrite,
      if_neg (List.append_ne_nil_of_left_ne_nil ha b), List.append_assoc _ a b]

/-- Two writes one behind the other are one. -/
theorem pwrite_append (h : off ≤ f.length) :
    pwrite z (pwrite z f off a) (off + a.length) b = pwrite z f off (a ++ b) := by
  have h' : off + a.length ≤ (pwrite z f off a).length := by
    rw [pwrite_length h]
    omega
  refine List.ext_getElem? fun i => ?_
  rw [pwrite_getElem? h', pwrite_getElem? h, pwrite_getElem? h, List.length_append]
  split_ifs with h1 h2 h3 h3
  · rw [List.getElem?_append_right (by omega)]
    congr 1
    omega
  · omega
  · rw [List.getElem?_append_left (by omega)]
  · omega
  · omega
  · rfl

/-- A write leaves what the file had before its place. -/
theorem pwrite_getElem?_of_lt {i : ℕ} (hi : i < off) (hf : i < f.length) : (pwrite z f off a)[i]? = f[i]? := by
  unfold pwrite
  split_ifs with ha
  · rfl
  · rw [List.append_assoc, List.append_assoc, List.getElem?_append_left (by rw [List.length_take]; omega),
      List.getElem?_take, if_pos hi]

theorem pwrite_getElem?_of_le {i : ℕ} (hi : off + a.length ≤ i) : (pwrite z f off a)[i]? = f[i]? := by
  unfold pwrite
  split_ifs with ha
  · rfl
  · have hlen : (f.take off ++ List.replicate (off - f.length) z ++ a).length = off + a.length := by
      simp only [List.length_append, List.length_take, List.length_replicate]
      omega
    rw [List.getElem?_append_right (by omega), hlen, List.getElem?_drop]
    congr 1
    omega

/-- What was written is read back, also behind a gap. -/
theorem pread_pwrite : pread (pwrite z f off a) off a.length = a := by
  unfold pread pwrite
  split_ifs with ha
  · rw [ha, List.length_nil, List.take_zero]
  · have hlen : (f.take off ++ List.replicate (off - f.length) z).length = off := by
      simp only [List.length_append, List.length_take, List.length_replicate]
      omega
    rw [List.append_assoc, List.drop_left' hlen, List.take_left]

theorem pwrite_length_gap (h : a ≠ []) : (pwrite z f off a).length = max f.length (off + a.length) := by
  rw [pwrite, if_neg h]
  simp only [List.length_append, List.length_take, List.length_replicate, List.length_drop]
  omega

theorem pread_pwrite_self (h : off ≤ f.length) : pread (pwrite z f off a) off a.length = a := by
  refine List.ext_getElem? fun i => ?_
  rw [pread_getElem?, pwrite_getElem? h]
  split_ifs with h1 h2
  · rw [Nat.add_sub_cancel_left]
  · omega
  · exact (List.getElem?_eq_none (by omega)).symm

theorem pread_pwrite_of_le (h : off ≤ f.length) (hd : o + n ≤ off) :
    pread (pwrite z f off a) o n = pread f o n := by
  refine List.ext_getElem? fun i => ?_
  rw [pread_getElem?, pread_getElem?]
  split_ifs with h1
  · rw [pwrite_getElem? h, if_neg (by omega)]
  · rfl

theorem pread_pwrite_of_ge (h : off ≤ f.length) (hd : off + a.length ≤ o) :
    pread (pwrite z f off a) o n = pread f o n := by
  refine List.ext_getElem? fun i => ?_
  rw [pread_getElem?, pread_getElem?]
  split_ifs with h1
  · rw [pwrite_getElem? h, if_neg (by omega)]
  · rfl

end Write

end ByteFile
