import Mathlib.Data.Nat.Bitwise
import Mathlib.Tactic.Ring

/-!
# Bytes, varints and big-endian integers

The encodings of `util.c`. Memory behind a pointer is a list of bytes; a read past the bytes
that are kept gives zero.
-/

namespace Btreelite

/-- `p[i]` for a `u8 *p`. -/
def u8 (p : List UInt8) (i : Nat) : Nat := (p.getD i 0).toNat

/-! ## Big-endian integers -/

def put2byte (v : Nat) : List UInt8 := [.ofNat (v >>> 8), .ofNat v]

def get2byte (p : List UInt8) : Nat := u8 p 0 <<< 8 ||| u8 p 1

def put4byte (v : Nat) : List UInt8 :=
  [.ofNat (v >>> 24), .ofNat (v >>> 16), .ofNat (v >>> 8), .ofNat v]

def get4byte (p : List UInt8) : Nat :=
  u8 p 0 <<< 24 ||| u8 p 1 <<< 16 ||| u8 p 2 <<< 8 ||| u8 p 3

/-! ## Varints -/

/-- What the `do` loop of `putVarint64` leaves in `buf`, low digit first; `buf` has ten bytes. -/
def varintDigits : Nat → Nat → List UInt8
  | 0, _ => []
  | n + 1, v =>
    .ofNat (v &&& 0x7f ||| 0x80) :: if v >>> 7 = 0 then [] else varintDigits n (v >>> 7)

def putVarint64 (v : Nat) : List UInt8 :=
  if v &&& (0xff000000 <<< 32) ≠ 0 then
    ((List.range 8).map fun i => .ofNat ((v >>> 8) >>> (7 * (7 - i)) &&& 0x7f ||| 0x80))
      ++ [.ofNat v]
  else match varintDigits 10 v with
    | [] => []
    | b :: bs => ((b &&& 0x7f) :: bs).reverse

/-- `sqlite3PutVarint`: the bytes it writes. -/
def putVarint (v : Nat) : List UInt8 :=
  if v ≤ 0x7f then [.ofNat (v &&& 0x7f)]
  else if v ≤ 0x3fff then [.ofNat ((v >>> 7) &&& 0x7f ||| 0x80), .ofNat (v &&& 0x7f)]
  else putVarint64 v

/-- The macro `putVarint32`. -/
def putVarint32 (v : Nat) : List UInt8 :=
  if v < 0x80 then [.ofNat v] else putVarint v

def slot20 : Nat := 0x001fc07f
def slot420 : Nat := 0xf01fc07f

/-- A `u32` after an operation that can carry past bit 31. -/
def u32 (x : Nat) : Nat := x % 2 ^ 32

/-- `sqlite3GetVarint`: the value and the number of bytes read. The locals are the source's;
`p` is not advanced, so its `*p` after `n` increments is `u8 p n` here. -/
def getVarint (p : List UInt8) : Nat × Nat :=
  if u8 p 0 < 0x80 then (u8 p 0, 1)
  else if u8 p 1 < 0x80 then ((u8 p 0 &&& 0x7f) <<< 7 ||| u8 p 1, 2)
  else
    let a := u8 p 0 <<< 14 ||| u8 p 2
    let b := u8 p 1
    if a &&& 0x80 = 0 then ((a &&& slot20) ||| (b &&& 0x7f) <<< 7, 3)
    else
    let a := a &&& slot20
    let b := b <<< 14 ||| u8 p 3
    if b &&& 0x80 = 0 then (a <<< 7 ||| (b &&& slot20), 4)
    else
    let b := b &&& slot20
    let s := a
    let a := u32 (a <<< 14) ||| u8 p 4
    if a &&& 0x80 = 0 then ((s >>> 18) <<< 32 ||| (a ||| b <<< 7), 5)
    else
    let s := s <<< 7 ||| b
    let b := u32 (b <<< 14) ||| u8 p 5
    if b &&& 0x80 = 0 then ((s >>> 18) <<< 32 ||| (u32 ((a &&& slot20) <<< 7) ||| b), 6)
    else
    let a := u32 (a <<< 14) ||| u8 p 6
    if a &&& 0x80 = 0 then
      ((s >>> 11) <<< 32 ||| ((a &&& slot420) ||| u32 ((b &&& slot20) <<< 7)), 7)
    else
    let a := a &&& slot20
    let b := u32 (b <<< 14) ||| u8 p 7
    if b &&& 0x80 = 0 then ((s >>> 4) <<< 32 ||| (u32 (a <<< 7) ||| (b &&& slot420)), 8)
    else
    let a := u32 (a <<< 15) ||| u8 p 8 ||| u32 ((b &&& slot20) <<< 8)
    let s := u32 (s <<< 4) ||| (u8 p 4 &&& 0x7f) >>> 3
    (s <<< 32 ||| a, 9)

/-- `sqlite3GetVarint32`, for a first byte with its top bit set. -/
def sqlite3GetVarint32 (p : List UInt8) : Nat × Nat :=
  if u8 p 1 &&& 0x80 = 0 then ((u8 p 0 &&& 0x7f) <<< 7 ||| u8 p 1, 2)
  else if u8 p 2 &&& 0x80 = 0 then
    ((u8 p 0 &&& 0x7f) <<< 14 ||| (u8 p 1 &&& 0x7f) <<< 7 ||| u8 p 2, 3)
  else
    let (v64, n) := getVarint p
    if v64 &&& 0xffffffff ≠ v64 then (0xffffffff, n) else (v64, n)

/-- The macro `getVarint32`. -/
def getVarint32 (p : List UInt8) : Nat × Nat :=
  if u8 p 0 < 0x80 then (u8 p 0, 1) else sqlite3GetVarint32 p

/-! ## Reading back what was written -/

section RoundTrip

@[simp] theorem u8_cons_zero (b : UInt8) (p : List UInt8) : u8 (b :: p) 0 = b.toNat := rfl

@[simp] theorem u8_cons_succ (b : UInt8) (p : List UInt8) (i : Nat) :
    u8 (b :: p) (i + 1) = u8 p i := rfl

theorem u8_lt (p : List UInt8) (i : Nat) : u8 p i < 256 := UInt8.toNat_lt _

theorem toNat_ofNat_of_lt {x : Nat} (h : x < 256) : (UInt8.ofNat x).toNat = x :=
  UInt8.toNat_ofNat_of_lt' h

theorem and_7f (x : Nat) : x &&& 0x7f = x % 128 := Nat.and_two_pow_sub_one_eq_mod x 7

theorem or_80 {x : Nat} (h : x < 128) : x ||| 0x80 = 128 + x := by
  rw [Nat.or_comm]
  exact (Nat.two_pow_add_eq_or_of_lt (i := 7) h 1).symm

/-- Two seven-bit groups fourteen bits apart, as `SLOT_2_0` cuts them out. -/
theorem and_slot20 {x y : Nat} (hx : x < 256) (hy : y < 256) :
    (x <<< 14 ||| y) &&& slot20 = (x % 128) <<< 14 ||| y % 128 := by
  have hxm : ∀ x < 256, x <<< 14 &&& slot20 = (x % 128) <<< 14 := by decide +kernel
  have hym : ∀ y < 256, y &&& slot20 = y % 128 := by decide +kernel
  rw [Nat.and_or_distrib_right, hxm x hx, hym y hy]

theorem or_and_80 (x y : Nat) : (x <<< 14 ||| y) &&& 0x80 = y &&& 0x80 := by
  rw [Nat.and_or_distrib_right]
  have h : x <<< 14 &&& 0x80 = 0 := by
    apply Nat.eq_of_testBit_eq
    intro i
    have h80 : (0x80 : Nat).testBit i = decide (i = 7) := by
      rw [show (0x80 : Nat) = 2 ^ 7 from rfl, Nat.testBit_two_pow]
      simp [eq_comm]
    rw [Nat.testBit_and, Nat.testBit_shiftLeft, h80, Nat.zero_testBit]
    by_cases hi : i = 7 <;> simp [hi]
  rw [h, Nat.zero_or]

theorem and_80_eq_zero_iff {y : Nat} (hy : y < 256) : y &&& 0x80 = 0 ↔ y < 128 := by
  have h : ∀ y < 256, (y &&& 0x80 = 0 ↔ y < 128) := by decide +kernel
  exact h y hy

/-- A digit with the continuation bit set. -/
theorem digit_toNat (x : Nat) : (UInt8.ofNat (x &&& 0x7f ||| 0x80)).toNat = 128 + x % 128 := by
  rw [and_7f, or_80 (Nat.mod_lt _ (by norm_num)), toNat_ofNat_of_lt (by omega)]

/-- The last digit, whose continuation bit `buf[0] &= 0x7f` clears. -/
theorem last_digit_toNat (x : Nat) :
    (UInt8.ofNat (x &&& 0x7f ||| 0x80) &&& 0x7f).toNat = x % 128 := by
  rw [UInt8.toNat_and, digit_toNat, show (0x7f : UInt8).toNat = 0x7f from rfl, and_7f]
  omega

theorem putVarint64_of_lt {v : Nat} (h : v < 2 ^ 56) :
    putVarint64 v = match varintDigits 10 v with
      | [] => []
      | b :: bs => ((b &&& 0x7f) :: bs).reverse := by
  have h0 : v &&& (0xff000000 <<< 32) = 0 := by
    apply Nat.eq_of_testBit_eq
    intro i
    rw [Nat.testBit_and, show 0xff000000 <<< 32 = 0xff <<< 56 from rfl, Nat.testBit_shiftLeft,
      Nat.zero_testBit]
    by_cases hi : 56 ≤ i
    · rw [Nat.testBit_lt_two_pow (h.trans_le (Nat.pow_le_pow_right (by norm_num) hi))]
      simp
    · simp [hi]
  unfold putVarint64
  rw [if_neg (by simpa using h0)]

/-- The bytes of a three, four or five byte varint as numbers. -/
theorem putVarint_toNat {v : Nat} (h14 : 2 ^ 14 ≤ v) (h32 : v < 2 ^ 32) :
    (putVarint v).map UInt8.toNat =
      if v < 2 ^ 21 then [128 + v / 2 ^ 14 % 128, 128 + v / 2 ^ 7 % 128, v % 128]
      else if v < 2 ^ 28 then
        [128 + v / 2 ^ 21 % 128, 128 + v / 2 ^ 14 % 128, 128 + v / 2 ^ 7 % 128, v % 128]
      else [128 + v / 2 ^ 28 % 128, 128 + v / 2 ^ 21 % 128, 128 + v / 2 ^ 14 % 128,
        128 + v / 2 ^ 7 % 128, v % 128] := by
  unfold putVarint
  rw [if_neg (by omega), if_neg (by omega), putVarint64_of_lt (by omega)]
  have s7 : ∀ x, x >>> 7 = x / 128 := fun x => Nat.shiftRight_eq_div_pow x 7
  split_ifs with h21 h28
  · simp only [varintDigits, s7, Nat.div_div_eq_div_mul]
    rw [if_neg (by omega), if_neg (by omega), if_pos (by omega)]
    simp only [List.reverse_cons, List.reverse_nil, List.nil_append, List.cons_append,
      List.map_cons, List.map_nil, digit_toNat, last_digit_toNat]
    norm_num
  · simp only [varintDigits, s7, Nat.div_div_eq_div_mul]
    rw [if_neg (by omega), if_neg (by omega), if_neg (by omega), if_pos (by omega)]
    simp only [List.reverse_cons, List.reverse_nil, List.nil_append, List.cons_append,
      List.map_cons, List.map_nil, digit_toNat, last_digit_toNat]
    norm_num
  · simp only [varintDigits, s7, Nat.div_div_eq_div_mul]
    rw [if_neg (by omega), if_neg (by omega), if_neg (by omega), if_neg (by omega),
      if_pos (by omega)]
    simp only [List.reverse_cons, List.reverse_nil, List.nil_append, List.cons_append,
      List.map_cons, List.map_nil, digit_toNat, last_digit_toNat]
    norm_num

theorem u8_append_of_map {p : List UInt8} (rest : List UInt8) {ns : List Nat}
    (h : p.map UInt8.toNat = ns) {i : Nat} (hi : i < ns.length) : u8 (p ++ rest) i = ns.getD i 0 := by
  subst h
  rw [List.length_map] at hi
  simp [u8, List.getD_eq_getElem?_getD, List.getElem?_append_left hi, hi]

theorem or_swap' (w x y z t : Nat) :
    w ||| (x ||| t) ||| (y ||| z) = w ||| (y ||| (x ||| (t ||| z))) := by
  ac_rfl

theorem or_swap (w x y z : Nat) : w ||| x ||| (y ||| z) = w ||| (y ||| (x ||| z)) := by
  ac_rfl

/-- Seven-bit groups `or`ed into place are a base-128 numeral. -/
theorem shiftLeft_or_eq {x y i : Nat} (hy : y < 2 ^ i) : x <<< i ||| y = x * 2 ^ i + y := by
  rw [← Nat.shiftLeft_add_eq_or_of_lt hy, Nat.shiftLeft_eq]

theorem getVarint32_three {p : List UInt8} {a b c : Nat} (h0 : u8 p 0 = 128 + a)
    (h1 : u8 p 1 = 128 + b) (h2 : u8 p 2 = c) (ha : a < 128) (hb : b < 128) (hc : c < 128) :
    getVarint32 p = (a * 2 ^ 14 + b * 2 ^ 7 + c, 3) := by
  unfold getVarint32 sqlite3GetVarint32
  rw [if_neg (by omega), if_neg (by rw [and_80_eq_zero_iff (u8_lt p 1)]; omega),
    if_pos (by rw [and_80_eq_zero_iff (u8_lt p 2)]; omega), and_7f, and_7f, h0, h1, h2,
    show (128 + a) % 128 = a by omega, show (128 + b) % 128 = b by omega, Nat.lor_assoc,
    shiftLeft_or_eq (i := 7) hc, shiftLeft_or_eq (by omega), Nat.add_assoc]

theorem sqlite3GetVarint32_long {p : List UInt8} (h1 : 128 ≤ u8 p 1) (h2 : 128 ≤ u8 p 2)
    (hv : (getVarint p).1 < 2 ^ 32) : sqlite3GetVarint32 p = getVarint p := by
  unfold sqlite3GetVarint32
  rw [if_neg (by rw [and_80_eq_zero_iff (u8_lt p 1)]; omega),
    if_neg (by rw [and_80_eq_zero_iff (u8_lt p 2)]; omega)]
  have hm : (getVarint p).1 &&& 0xffffffff = (getVarint p).1 := by
    rw [show 0xffffffff = 2 ^ 32 - 1 from rfl, Nat.and_two_pow_sub_one_eq_mod, Nat.mod_eq_of_lt hv]
  simp [hm]

theorem getVarint_four {p : List UInt8} {a b c d : Nat} (h0 : u8 p 0 = 128 + a)
    (h1 : u8 p 1 = 128 + b) (h2 : u8 p 2 = 128 + c) (h3 : u8 p 3 = d)
    (hb : b < 128) (hc : c < 128) (hd : d < 128) (ha : a < 128) :
    getVarint p = (a * 2 ^ 21 + b * 2 ^ 14 + c * 2 ^ 7 + d, 4) := by
  unfold getVarint
  rw [if_neg (by omega), if_neg (by omega)]
  simp only [or_and_80]
  rw [if_neg (by rw [and_80_eq_zero_iff (u8_lt p 2)]; omega),
    if_pos (by rw [and_80_eq_zero_iff (u8_lt p 3)]; omega),
    and_slot20 (u8_lt p 0) (u8_lt p 2), and_slot20 (u8_lt p 1) (u8_lt p 3), h0, h1, h2, h3,
    show (128 + a) % 128 = a by omega, show (128 + b) % 128 = b by omega,
    show (128 + c) % 128 = c by omega, Nat.mod_eq_of_lt hd]
  have h : (a <<< 14 ||| c) <<< 7 ||| (b <<< 14 ||| d)
      = a <<< 21 ||| (b <<< 14 ||| (c <<< 7 ||| d)) := by
    rw [Nat.shiftLeft_or_distrib, ← Nat.shiftLeft_add, or_swap]
  rw [h, shiftLeft_or_eq (i := 7) hd, shiftLeft_or_eq (i := 14) (by omega),
    shiftLeft_or_eq (i := 21) (by omega)]
  simp only [Nat.add_assoc]

theorem getVarint_five {p : List UInt8} {a b c d e : Nat} (h0 : u8 p 0 = 128 + a)
    (h1 : u8 p 1 = 128 + b) (h2 : u8 p 2 = 128 + c) (h3 : u8 p 3 = 128 + d) (h4 : u8 p 4 = e)
    (ha : a < 16) (hb : b < 128) (hc : c < 128) (hd : d < 128) (he : e < 128) :
    getVarint p = (a * 2 ^ 28 + b * 2 ^ 21 + c * 2 ^ 14 + d * 2 ^ 7 + e, 5) := by
  unfold getVarint
  rw [if_neg (by omega), if_neg (by omega)]
  simp only [or_and_80]
  rw [if_neg (by rw [and_80_eq_zero_iff (u8_lt p 2)]; omega),
    if_neg (by rw [and_80_eq_zero_iff (u8_lt p 3)]; omega),
    and_slot20 (u8_lt p 0) (u8_lt p 2), and_slot20 (u8_lt p 1) (u8_lt p 3), h0, h1, h2, h3, h4,
    show (128 + a) % 128 = a by omega, show (128 + b) % 128 = b by omega,
    show (128 + c) % 128 = c by omega, show (128 + d) % 128 = d by omega]
  -- `a` keeps `p0 << 28`, which fits a `u32` because the leading digit is below 16
  have hs : (a <<< 14 ||| c) <<< 14 = a <<< 28 ||| c <<< 14 := by
    rw [Nat.shiftLeft_or_distrib, ← Nat.shiftLeft_add]
  have hlt : a <<< 28 ||| c <<< 14 < 2 ^ 32 := by
    rw [shiftLeft_or_eq (by rw [Nat.shiftLeft_eq]; omega), Nat.shiftLeft_eq]
    omega
  have h18 : (a <<< 14 ||| c) >>> 18 = 0 := by
    rw [shiftLeft_or_eq (by omega), Nat.shiftRight_eq_div_pow]
    omega
  have hu : u32 ((a <<< 14 ||| c) <<< 14) = a <<< 28 ||| c <<< 14 := by
    rw [hs, u32, Nat.mod_eq_of_lt hlt]
  have h80 : (a <<< 28 ||| c <<< 14 ||| e) &&& 0x80 = 0 := by
    rw [← hs, or_and_80, and_80_eq_zero_iff (by omega)]
    exact he
  rw [hu, if_pos h80, h18, Nat.zero_shiftLeft, Nat.zero_or]
  have h : a <<< 28 ||| c <<< 14 ||| e ||| (b <<< 14 ||| d) <<< 7
      = a <<< 28 ||| (b <<< 21 ||| (c <<< 14 ||| (d <<< 7 ||| e))) := by
    rw [Nat.shiftLeft_or_distrib, ← Nat.shiftLeft_add, Nat.lor_assoc (a <<< 28), or_swap',
      Nat.lor_comm e]
  rw [h, shiftLeft_or_eq (i := 7) he, shiftLeft_or_eq (i := 14) (by omega),
    shiftLeft_or_eq (i := 21) (by omega), shiftLeft_or_eq (i := 28) (by omega)]
  simp only [Nat.add_assoc]

theorem getVarint32_putVarint_long {v : Nat} (h14 : 2 ^ 14 ≤ v) (h32 : v < 2 ^ 32)
    (rest : List UInt8) :
    getVarint32 (putVarint v ++ rest) = (v, (putVarint v).length) := by
  have hb := putVarint_toNat h14 h32
  rw [← @List.length_map _ _ (putVarint v) UInt8.toNat]
  split_ifs at hb with h21 h28
  · have h0 := u8_append_of_map rest hb (i := 0) (by simp)
    have h1 := u8_append_of_map rest hb (i := 1) (by simp)
    have h2 := u8_append_of_map rest hb (i := 2) (by simp)
    rw [getVarint32_three h0 h1 h2 (by omega) (by omega) (by simp; omega), hb]
    simp
    omega
  · have h0 := u8_append_of_map rest hb (i := 0) (by simp)
    have h1 := u8_append_of_map rest hb (i := 1) (by simp)
    have h2 := u8_append_of_map rest hb (i := 2) (by simp)
    have h3 := u8_append_of_map rest hb (i := 3) (by simp)
    simp only [List.getD_cons_zero, List.getD_cons_succ] at h0 h1 h2 h3
    have h := getVarint_four h0 h1 h2 h3 (by omega) (by omega) (by omega) (by omega)
    rw [getVarint32, if_neg (by omega), sqlite3GetVarint32_long (by omega) (by omega), h, hb]
    · simp
      omega
    · rw [h]
      omega
  · have h0 := u8_append_of_map rest hb (i := 0) (by simp)
    have h1 := u8_append_of_map rest hb (i := 1) (by simp)
    have h2 := u8_append_of_map rest hb (i := 2) (by simp)
    have h3 := u8_append_of_map rest hb (i := 3) (by simp)
    have h4 := u8_append_of_map rest hb (i := 4) (by simp)
    simp only [List.getD_cons_zero, List.getD_cons_succ] at h0 h1 h2 h3 h4
    have h := getVarint_five h0 h1 h2 h3 h4 (by omega) (by omega) (by omega) (by omega) (by omega)
    rw [getVarint32, if_neg (by omega), sqlite3GetVarint32_long (by omega) (by omega), h, hb]
    · simp
      omega
    · rw [h]
      omega

/-- Reading a varint back gives the value and the number of bytes written, whatever follows. -/
theorem getVarint32_putVarint32 {v : Nat} (h32 : v < 2 ^ 32) (rest : List UInt8) :
    getVarint32 (putVarint32 v ++ rest) = (v, (putVarint32 v).length) := by
  unfold putVarint32
  split_ifs with h7
  · have h : (UInt8.ofNat v).toNat = v := toNat_ofNat_of_lt (by omega)
    simp only [getVarint32, List.cons_append, List.nil_append, u8_cons_zero, h, if_pos h7,
      List.length_cons, List.length_nil]
  · rcases Nat.lt_or_ge v (2 ^ 14) with h14 | h14
    · have h1 : (UInt8.ofNat (v &&& 0x7f)).toNat = v % 128 := by
        rw [and_7f, toNat_ofNat_of_lt (by omega)]
      rw [putVarint, if_neg (by omega), if_pos (by omega)]
      simp only [getVarint32, sqlite3GetVarint32, List.cons_append, List.nil_append, u8_cons_zero,
        u8_cons_succ, digit_toNat, h1, List.length_cons, List.length_nil]
      rw [if_neg (by omega), if_pos ((and_80_eq_zero_iff (by omega)).2 (by omega)), and_7f,
        shiftLeft_or_eq (by omega), Nat.shiftRight_eq_div_pow]
      simp
      omega
    · exact getVarint32_putVarint_long h14 h32 rest

theorem putVarint32_length_le {v : Nat} (h32 : v < 2 ^ 32) : (putVarint32 v).length ≤ 5 := by
  unfold putVarint32
  split_ifs with h7
  · simp
  · rcases Nat.lt_or_ge v (2 ^ 14) with h14 | h14
    · rw [putVarint, if_neg (by omega), if_pos (by omega)]
      simp
    · rw [← @List.length_map _ _ (putVarint v) UInt8.toNat, putVarint_toNat h14 h32]
      split_ifs <;> simp

theorem putVarint32_length_pos (v : Nat) (h32 : v < 2 ^ 32) : 0 < (putVarint32 v).length := by
  unfold putVarint32
  split_ifs with h7
  · simp
  · rcases Nat.lt_or_ge v (2 ^ 14) with h14 | h14
    · rw [putVarint, if_neg (by omega), if_pos (by omega)]
      simp
    · rw [← @List.length_map _ _ (putVarint v) UInt8.toNat, putVarint_toNat h14 h32]
      split_ifs <;> simp

theorem putVarint32_length_of_lt {v : Nat} (h14 : v < 2 ^ 14) :
    (putVarint32 v).length = if v < 0x80 then 1 else 2 := by
  unfold putVarint32
  split_ifs with h7
  · rfl
  · rw [putVarint, if_neg (by omega), if_pos (by omega)]
    rfl

/-! ## Four-byte integers -/

theorem put4byte_length (v : Nat) : (put4byte v).length = 4 := rfl

theorem get4byte_put4byte {v : Nat} (h32 : v < 2 ^ 32) (rest : List UInt8) :
    get4byte (put4byte v ++ rest) = v := by
  have hs : ∀ n, v >>> n = v / 2 ^ n := fun n => Nat.shiftRight_eq_div_pow v n
  simp only [get4byte, put4byte, List.cons_append, List.nil_append, u8_cons_zero, u8_cons_succ,
    UInt8.toNat_ofNat', hs, Nat.lor_assoc]
  rw [shiftLeft_or_eq (i := 8) (by omega), shiftLeft_or_eq (i := 16) (by omega),
    shiftLeft_or_eq (i := 24) (by omega)]
  omega

theorem get4byte_lt (p : List UInt8) : get4byte p < 2 ^ 32 := by
  have h0 := u8_lt p 0
  have h1 := u8_lt p 1
  have h2 := u8_lt p 2
  have h3 := u8_lt p 3
  simp only [get4byte, Nat.lor_assoc]
  rw [shiftLeft_or_eq (i := 8) (by omega), shiftLeft_or_eq (i := 16) (by omega),
    shiftLeft_or_eq (i := 24) (by omega)]
  omega

end RoundTrip

end Btreelite
