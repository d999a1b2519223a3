import Mathlib.Data.List.Basic
import Mathlib.Tactic.SplitIfs

/-!
# Byte buffers

A buffer gives a byte for each offset. `store` writes a list of bytes at an offset; copying within the
buffer stores the bytes that were read.
-/

namespace ByteBuffer

/-- The `n` bytes at `p`. -/
def bytes (d : ℕ → UInt8) (p n : ℕ) : List UInt8 := (List.range n).map fun k => d (p + k)

def store (d : ℕ → UInt8) (p : ℕ) (bs : List UInt8) : ℕ → UInt8 :=
  fun j => if p ≤ j then (bs[j - p]?).getD (d j) else d j

/-- Two bytes, most significant first. -/
def get2 (d : ℕ → UInt8) (p : ℕ) : ℕ := (d p).toNat * 256 + (d (p + 1)).toNat

def put2 (d : ℕ → UInt8) (p v : ℕ) : ℕ → UInt8 :=
  store d p [UInt8.ofNat (v / 256), UInt8.ofNat v]

section Bytes

variable {d d' : ℕ → UInt8} {p q n m j v : ℕ} {bs cs : List UInt8}

@[simp] theorem bytes_length : (bytes d p n).length = n := by simp [bytes]

@[simp] theorem bytes_zero : bytes d p 0 = [] := rfl

theorem bytes_getElem? (h : j < n) : (bytes d p n)[j]? = some (d (p + j)) := by
  simp [bytes, List.getElem?_range h]

theorem bytes_getElem?_of_le (h : n ≤ j) : (bytes d p n)[j]? = none := by
  simpa using h

theorem bytes_add : bytes d p (m + n) = bytes d p m ++ bytes d (p + m) n := by
  simp only [bytes, List.range_add, List.map_append, List.map_map]
  congr 1
  refine List.map_congr_left fun k _ => ?_
  simp [Nat.add_assoc]

theorem bytes_congr (h : ∀ j, p ≤ j → j < p + n → d' j = d j) : bytes d' p n = bytes d p n := by
  refine List.map_congr_left fun k hk => h _ (by omega) ?_
  have := List.mem_range.1 hk
  omega

theorem eq_of_bytes (h : bytes d p n = bs) (hj : j < n) : bs[j]? = some (d (p + j)) := by
  rw [← h, bytes_getElem? hj]

theorem bytes_ext (hn : bs.length = n) (h : ∀ j < n, bs[j]? = some (d (p + j))) : bytes d p n = bs := by
  refine List.ext_getElem? fun j => ?_
  rcases Nat.lt_or_ge j n with hj | hj
  · rw [bytes_getElem? hj, h j hj]
  · rw [bytes_getElem?_of_le hj, List.getElem?_eq_none (by omega)]

end Bytes

section Store

variable {d d' : ℕ → UInt8} {p q n m j v : ℕ} {bs cs : List UInt8}

theorem store_out (h : j < p ∨ p + bs.length ≤ j) : store d p bs j = d j := by
  unfold store
  split_ifs with hp
  · rw [List.getElem?_eq_none (by omega)]
    rfl
  · rfl

theorem store_in (h : j < bs.length) : store d p bs (p + j) = bs[j] := by
  simp [store, h]

@[simp] theorem store_nil : store d p [] = d := funext fun _ => store_out (by simp; omega)

theorem bytes_store_self : bytes (store d p bs) p bs.length = bs :=
  bytes_ext rfl fun j hj => by rw [store_in hj, List.getElem?_eq_getElem hj]

theorem bytes_store_out (h : p + n ≤ q ∨ q + bs.length ≤ p) : bytes (store d q bs) p n = bytes d p n :=
  bytes_congr fun _ _ _ => store_out (by omega)

/-- Bytes copied to another place. -/
theorem bytes_store_bytes (h : m + n ≤ v) :
    bytes (store d q (bytes d' p v)) (q + m) n = bytes d' (p + m) n := by
  refine bytes_ext bytes_length fun j hj => ?_
  rw [bytes_getElem? hj, Nat.add_assoc q, store_in (by rw [bytes_length]; omega), Option.some.injEq,
    ← Option.some.injEq, ← List.getElem?_eq_getElem, bytes_getElem? (by omega), Nat.add_assoc]

end Store

/-! ## Two-byte numbers -/

section Two

variable {d d' : ℕ → UInt8} {p q n v : ℕ} {bs : List UInt8}

theorem get2_lt : get2 d p < 65536 := by
  have h1 := (d p).toNat_lt
  have h2 := (d (p + 1)).toNat_lt
  unfold get2
  omega

theorem get2_congr (h1 : d' p = d p) (h2 : d' (p + 1) = d (p + 1)) : get2 d' p = get2 d p := by
  rw [get2, get2, h1, h2]

theorem get2_store_out (h : p + 2 ≤ q ∨ q + bs.length ≤ p) : get2 (store d q bs) p = get2 d p :=
  get2_congr (store_out (by omega)) (store_out (by omega))

theorem put2_out (h : q + 2 ≤ p ∨ p < q) : put2 d q v p = d p := store_out (by simp; omega)

theorem bytes_put2_out (h : p + n ≤ q ∨ q + 2 ≤ p) : bytes (put2 d q v) p n = bytes d p n :=
  bytes_store_out (by simpa using h)

theorem get2_put2_out (h : p + 2 ≤ q ∨ q + 2 ≤ p) : get2 (put2 d q v) p = get2 d p :=
  get2_store_out (by simpa using h)

@[simp] theorem get2_put2 : get2 (put2 d p v) p = v % 65536 := by
  have h0 : put2 d p v p = UInt8.ofNat (v / 256) := store_in (j := 0) (by simp)
  have h1 : put2 d p v (p + 1) = UInt8.ofNat v := store_in (j := 1) (by simp)
  rw [get2, h0, h1, UInt8.toNat_ofNat', UInt8.toNat_ofNat']
  omega

/-- A number copied to another place. -/
theorem get2_store_bytes {r : ℕ} (h : n + 2 ≤ v) : get2 (store d q (bytes d' r v)) (q + n) = get2 d' (r + n) := by
  have hb : ∀ j < v, store d q (bytes d' r v) (q + j) = d' (r + j) := by
    intro j hj
    rw [store_in (by simpa using hj), ← Option.some.injEq, ← List.getElem?_eq_getElem, bytes_getElem? hj]
  rw [get2, get2, hb n (by omega), Nat.add_assoc q, hb (n + 1) (by omega), Nat.add_assoc r]

end Two

end ByteBuffer
