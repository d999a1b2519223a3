import Btreelite.Varint

/-!
# The varint codec on 64-bit values

`sqlite3GetVarint` is a loop over the bytes of a varint, unrolled by hand. It is compared with the loop here,
and what the loop reads from the bytes of `sqlite3PutVarint` follows by induction on their number.
-/

namespace Btreelite

/-- The `for` loop of `sqlite3VarintLen`. -/
def varintLenFrom (i v : Nat) : Nat := if v >>> 7 = 0 then i else varintLenFrom (i + 1) (v >>> 7)
termination_by v
decreasing_by
  rename_i h
  rw [Nat.shiftRight_eq_div_pow] at h ⊢
  omega

def sqlite3VarintLen (v : Nat) : Nat := varintLenFrom 1 v

/-- `sqlite3PutVarint32`: the bytes it writes. -/
def sqlite3PutVarint32 (v : Nat) : List UInt8 := if v &&& 0xffffff80 = 0 then [.ofNat v] else putVarint v

/-! ## The loop that is unrolled -/

section Loop

variable {p : List UInt8} {m i acc : Nat}

/-- The varint from byte `i` on, when `acc` has been read before. The next `m` bytes carry seven bits, and
all but the last of the varint a continuation bit; the byte after them carries eight bits. -/
def readVarint (p : List UInt8) : Nat → Nat → Nat → Nat × Nat
  | 0, i, acc => (acc * 256 + u8 p i, i + 1)
  | m + 1, i, acc =>
    if u8 p i < 128 then (acc * 128 + u8 p i, i + 1) else readVarint p m (i + 1) (acc * 128 + u8 p i % 128)

theorem readVarint_last (h : u8 p i < 128) : readVarint p (m + 1) i acc = (acc * 128 + u8 p i, i + 1) := by
  rw [readVarint, if_pos h]

theorem readVarint_more (h : ¬ u8 p i < 128) :
    readVarint p (m + 1) i acc = readVarint p m (i + 1) (acc * 128 + u8 p i % 128) := by
  rw [readVarint, if_neg h]

/-- The loop goes no further than to a byte without a continuation bit. -/
theorem readVarint_le {k : Nat} (hk : u8 p k < 128) : ∀ {m i acc : Nat}, i ≤ k → (readVarint p m i acc).2 ≤ k + 1
  | 0, _, _, hi => Nat.succ_le_succ hi
  | m + 1, i, acc, hi => by
    by_cases h : u8 p i < 128
    · rw [readVarint_last h]
      exact Nat.succ_le_succ hi
    · have hne : i ≠ k := fun he => h (he ▸ hk)
      rw [readVarint_more h]
      exact readVarint_le hk (by omega)

end Loop

/-! ## The accumulators -/

section Accumulators

variable {x y a b c d e k : Nat}

theorem u32_of_lt (h : x < 2 ^ 32) : u32 x = x := Nat.mod_eq_of_lt h

theorem u32_shiftLeft : u32 (x <<< 14) = (x % 2 ^ 18) <<< 14 := by
  rw [u32, Nat.shiftLeft_eq, Nat.shiftLeft_eq]
  omega

theorem shiftLeft_and (x m : Nat) : x &&& (m <<< k) = ((x >>> k) &&& m) <<< k := by
  apply Nat.eq_of_testBit_eq
  intro i
  rw [Nat.testBit_and, Nat.testBit_shiftLeft, Nat.testBit_shiftLeft, Nat.testBit_and, Nat.testBit_shiftRight]
  by_cases hi : k ≤ i
  · simp [hi]
  · simp [hi]

theorem and_groups (x : Nat) : x &&& (0x7f <<< 14 ||| 0x7f) = (x / 2 ^ 14 % 128) <<< 14 ||| x % 128 := by
  rw [Nat.and_or_distrib_left, shiftLeft_and, and_7f, and_7f, Nat.shiftRight_eq_div_pow]

theorem div_mod_pair (hy : y < 256) : (x <<< 14 ||| y) / 2 ^ 14 = x ∧ (x <<< 14 ||| y) % 128 = y % 128 := by
  rw [shiftLeft_or_eq (by omega)]
  omega

/-- The mask `SLOT_2_0` on an accumulator. -/
theorem slot20_eq (hy : y < 256) : (x <<< 14 ||| y) &&& slot20 = (x % 128) <<< 14 ||| y % 128 := by
  rw [show slot20 = 0x7f <<< 14 ||| 0x7f from rfl, and_groups, (div_mod_pair hy).1, (div_mod_pair hy).2]

/-- The mask `SLOT_4_2_0` on an accumulator. -/
theorem slot420_eq (hy : y < 256) :
    (x <<< 14 ||| y) &&& slot420 = (x / 2 ^ 14 % 16) <<< 28 ||| ((x % 128) <<< 14 ||| y % 128) := by
  have h15 : ∀ z : Nat, z &&& 0xf = z % 16 := fun z => Nat.and_two_pow_sub_one_eq_mod z 4
  rw [show slot420 = 0xf <<< 28 ||| (0x7f <<< 14 ||| 0x7f) by decide, Nat.and_or_distrib_left, and_groups,
    (div_mod_pair hy).1, (div_mod_pair hy).2, shiftLeft_and, h15, Nat.shiftRight_eq_div_pow,
    show 2 ^ 28 = 2 ^ 14 * 2 ^ 14 by decide, ← Nat.div_div_eq_div_mul, (div_mod_pair hy).1]

/-- Seven-bit groups fourteen bits apart, and those of the other accumulator between them. -/
theorem interleave (hx : x = a * 2 ^ 28 + c * 2 ^ 14 + e) (hy : y = b * 2 ^ 14 + d) (hb : b < 128) (hc : c < 128)
    (hd : d < 128) (he : e < 128) :
    x ||| y <<< 7 = a * 2 ^ 28 + b * 2 ^ 21 + c * 2 ^ 14 + d * 2 ^ 7 + e := by
  have hx' : x = a <<< 28 ||| c <<< 14 ||| e := by
    rw [hx, Nat.lor_assoc, shiftLeft_or_eq (i := 14) (by omega), shiftLeft_or_eq (i := 28) (by omega), Nat.add_assoc]
  have hy' : y = b <<< 14 ||| d := by rw [hy, shiftLeft_or_eq (by omega)]
  calc x ||| y <<< 7 = a <<< 28 ||| c <<< 14 ||| e ||| (b <<< 14 ||| d) <<< 7 := by rw [hx', hy']
    _ = a <<< 28 ||| (b <<< 21 ||| (c <<< 14 ||| (d <<< 7 ||| e))) := by
      rw [Nat.shiftLeft_or_distrib, ← Nat.shiftLeft_add, Nat.lor_assoc (a <<< 28), or_swap', Nat.lor_comm e]
    _ = a * 2 ^ 28 + (b * 2 ^ 21 + (c * 2 ^ 14 + (d * 2 ^ 7 + e))) := by
      rw [shiftLeft_or_eq (i := 7) he, shiftLeft_or_eq (i := 14) (by omega), shiftLeft_or_eq (i := 21) (by omega),
        shiftLeft_or_eq (i := 28) (by omega)]
    _ = _ := by omega

/-- The accumulators when the last byte, with eight bits, comes in. -/
theorem interleave_last (hx : x = a * 2 ^ 14 + c) (hy : y = b * 2 ^ 14 + d) (hb : b < 128) (hc : c < 128)
    (hd : d < 128) (he : e < 256) :
    u32 (x <<< 15) ||| e ||| u32 (y <<< 8) = a % 8 * 2 ^ 29 + b * 2 ^ 22 + c * 2 ^ 15 + d * 2 ^ 8 + e := by
  have hx' : u32 (x <<< 15) = (a % 8) <<< 29 ||| c <<< 15 := by
    rw [shiftLeft_or_eq (by rw [Nat.shiftLeft_eq]; omega), u32, Nat.shiftLeft_eq, Nat.shiftLeft_eq]
    omega
  have hy' : u32 (y <<< 8) = b <<< 22 ||| d <<< 8 := by
    rw [shiftLeft_or_eq (by rw [Nat.shiftLeft_eq]; omega), u32, Nat.shiftLeft_eq, Nat.shiftLeft_eq]
    omega
  calc u32 (x <<< 15) ||| e ||| u32 (y <<< 8) = (a % 8) <<< 29 ||| c <<< 15 ||| e ||| (b <<< 22 ||| d <<< 8) := by
        rw [hx', hy']
    _ = (a % 8) <<< 29 ||| (b <<< 22 ||| (c <<< 15 ||| (d <<< 8 ||| e))) := by
      rw [Nat.lor_assoc ((a % 8) <<< 29), or_swap', Nat.lor_comm e]
    _ = a % 8 * 2 ^ 29 + (b * 2 ^ 22 + (c * 2 ^ 15 + (d * 2 ^ 8 + e))) := by
      rw [shiftLeft_or_eq (i := 8) he, shiftLeft_or_eq (i := 15) (by omega), shiftLeft_or_eq (i := 22) (by omega),
        shiftLeft_or_eq (i := 29) (by omega)]
    _ = _ := by omega

/-- The upper and the lower half of a result. -/
theorem halves (hx : x < 2 ^ 32) : (y >>> k) <<< 32 ||| x = y / 2 ^ k * 2 ^ 32 + x := by
  rw [shiftLeft_or_eq hx, Nat.shiftRight_eq_div_pow]

end Accumulators

/-- The hand-unrolled reader is the loop. -/
theorem getVarint_eq (p : List UInt8) : getVarint p = readVarint p 8 0 0 := by
  have h14 : ∀ x i, x <<< 14 ||| u8 p i = x * 2 ^ 14 + u8 p i := fun x i => by
    have := u8_lt p i
    exact shiftLeft_or_eq (by omega)
  have h14' : ∀ x i, x <<< 14 ||| u8 p i % 128 = x * 2 ^ 14 + u8 p i % 128 := fun x i =>
    shiftLeft_or_eq (by omega)
  unfold getVarint
  simp only [u32_shiftLeft, or_and_80, and_80_eq_zero_iff (u8_lt p _), slot20_eq (u8_lt p _), slot420_eq (u8_lt p _)]
  simp only [h14, h14', and_7f]
  by_cases h0 : u8 p 0 < 128
  · rw [if_pos h0, readVarint_last h0, Nat.zero_mul, Nat.zero_add]
  rw [if_neg h0, readVarint_more h0]
  by_cases h1 : u8 p 1 < 128
  · rw [if_pos h1, readVarint_last h1, shiftLeft_or_eq h1]
    simp
  rw [if_neg h1, readVarint_more h1]
  by_cases h2 : u8 p 2 < 128
  · rw [if_pos h2, readVarint_last h2, interleave (a := 0) (b := 0) (c := u8 p 0 % 128) (d := u8 p 1 % 128)
      (e := u8 p 2) (by omega) (by omega) (by omega) (by omega) (by omega) h2]
    refine congrArg₂ Prod.mk ?_ rfl
    omega
  -- The groups of the first four bytes.
  have hs : (u8 p 0 % 128 * 2 ^ 14 + u8 p 2 % 128) <<< 7 ||| (u8 p 1 % 128 * 2 ^ 14 + u8 p 3 % 128)
      = u8 p 0 % 128 * 2 ^ 21 + u8 p 1 % 128 * 2 ^ 14 + u8 p 2 % 128 * 2 ^ 7 + u8 p 3 % 128 := by
    rw [Nat.lor_comm, interleave (a := 0) (b := u8 p 0 % 128) (c := u8 p 1 % 128) (d := u8 p 2 % 128)
      (e := u8 p 3 % 128) (by omega) rfl (by omega) (by omega) (by omega) (by omega)]
    omega
  rw [if_neg h2, readVarint_more h2, hs]
  by_cases h3 : u8 p 3 < 128
  · rw [if_pos h3, readVarint_last h3]
    refine congrArg₂ Prod.mk ?_ rfl
    omega
  rw [if_neg h3, readVarint_more h3]
  by_cases h4 : u8 p 4 < 128
  · rw [if_pos h4, readVarint_last h4, interleave (a := u8 p 0 % 16) (b := u8 p 1 % 128) (c := u8 p 2 % 128)
      (d := u8 p 3 % 128) (e := u8 p 4) (by omega) rfl (by omega) (by omega) (by omega) h4, halves (by omega)]
    refine congrArg₂ Prod.mk ?_ rfl
    omega
  rw [if_neg h4, readVarint_more h4]
  by_cases h5 : u8 p 5 < 128
  · rw [if_pos h5, readVarint_last h5, u32_of_lt (by rw [Nat.shiftLeft_eq]; omega), Nat.lor_comm (_ <<< 7),
      interleave (a := u8 p 1 % 16) (b := u8 p 2 % 128) (c := u8 p 3 % 128) (d := u8 p 4 % 128) (e := u8 p 5)
        (by omega) (by omega) (by omega) (by omega) (by omega) h5, halves (by omega)]
    refine congrArg₂ Prod.mk ?_ rfl
    omega
  rw [if_neg h5, readVarint_more h5]
  have h4lt := u8_lt p 4
  have h5lt := u8_lt p 5
  by_cases h6 : u8 p 6 < 128
  · rw [if_pos h6, readVarint_last h6, u32_of_lt (by rw [Nat.shiftLeft_eq]; omega),
      interleave (a := u8 p 2 % 16) (b := u8 p 3 % 128) (c := u8 p 4 % 128) (d := u8 p 5 % 128) (e := u8 p 6)
        (by rw [shiftLeft_or_eq (by omega)]; omega) (by omega) (by omega) (by omega) (by omega) h6, halves (by omega)]
    refine congrArg₂ Prod.mk ?_ rfl
    omega
  rw [if_neg h6, readVarint_more h6]
  by_cases h7 : u8 p 7 < 128
  · rw [if_pos h7, readVarint_last h7, u32_of_lt (by rw [Nat.shiftLeft_eq]; omega), Nat.lor_comm (_ <<< 7),
      interleave (a := u8 p 3 % 16) (b := u8 p 4 % 128) (c := u8 p 5 % 128) (d := u8 p 6 % 128) (e := u8 p 7)
        (by rw [shiftLeft_or_eq (by omega)]; omega) (by omega) (by omega) (by omega) (by omega) h7, halves (by omega)]
    refine congrArg₂ Prod.mk ?_ rfl
    omega
  rw [if_neg h7, readVarint_more h7]
  have hhigh : u32 ((u8 p 0 % 128 * 2 ^ 21 + u8 p 1 % 128 * 2 ^ 14 + u8 p 2 % 128 * 2 ^ 7 + u8 p 3 % 128) <<< 4)
      ||| (u8 p 4 % 128) >>> 3
      = (u8 p 0 % 128 * 2 ^ 21 + u8 p 1 % 128 * 2 ^ 14 + u8 p 2 % 128 * 2 ^ 7 + u8 p 3 % 128) * 2 ^ 4
        + u8 p 4 % 128 / 2 ^ 3 := by
    rw [u32_of_lt (by rw [Nat.shiftLeft_eq]; omega), Nat.shiftRight_eq_div_pow, shiftLeft_or_eq (by omega)]
  rw [hhigh, readVarint, show 7 + 1 = 8 from rfl, interleave_last (a := u8 p 4 % 128) (b := u8 p 5 % 128) (c := u8 p 6 % 128)
    (d := u8 p 7 % 128) (by omega) (by omega) (by omega) (by omega) (by omega) (u8_lt p 8),
    shiftLeft_or_eq (by have := u8_lt p 8; omega)]
  refine congrArg₂ Prod.mk ?_ rfl
  omega

/-! ## What the loop reads -/

section Digits

variable {ds : List UInt8} {m n v : Nat}

/-- What bytes with a continuation bit add to the value `acc` of the bytes before. -/
def addDigits (acc : Nat) (ds : List UInt8) : Nat := ds.foldl (fun a b => a * 128 + b.toNat % 128) acc

theorem u8_middle (front rest : List UInt8) (b : UInt8) : u8 (front ++ b :: rest) front.length = b.toNat := by
  simp [u8, List.getD_eq_getElem?_getD]

theorem readVarint_digits : ∀ (front ds rest : List UInt8) (acc : Nat), (∀ b ∈ ds, 128 ≤ b.toNat) →
    readVarint (front ++ (ds ++ rest)) (m + ds.length) front.length acc
      = readVarint (front ++ (ds ++ rest)) m (front.length + ds.length) (addDigits acc ds)
  | _, [], _, _, _ => rfl
  | front, b :: ds, rest, acc, h => by
    obtain ⟨hb, hds⟩ := List.forall_mem_cons.1 h
    have hu : u8 (front ++ (b :: ds ++ rest)) front.length = b.toNat := u8_middle front (ds ++ rest) b
    have hrec := readVarint_digits (front ++ [b]) ds rest (acc * 128 + b.toNat % 128) hds
    rw [List.append_assoc, List.singleton_append, List.length_append, List.length_singleton] at hrec
    rw [List.length_cons, ← Nat.add_assoc, readVarint_more (by omega), hu, List.cons_append, hrec, addDigits, addDigits,
      List.foldl_cons]
    congr 1
    omega

/-- A varint of at most eight bytes. -/
theorem readVarint_short (hds : ∀ b ∈ ds, 128 ≤ b.toNat) (hlen : ds.length ≤ 7) {b : UInt8} (hb : b.toNat < 128)
    (rest : List UInt8) :
    readVarint (ds ++ b :: rest) 8 0 0 = (addDigits 0 ds * 128 + b.toNat, ds.length + 1) := by
  have h := readVarint_digits (m := 7 - ds.length + 1) [] ds (b :: rest) 0 hds
  rw [show 7 - ds.length + 1 + ds.length = 8 by omega, List.nil_append, List.length_nil, Nat.zero_add] at h
  rw [h, readVarint_last (by rwa [u8_middle]), u8_middle]

/-- A varint of nine bytes. -/
theorem readVarint_long (hds : ∀ b ∈ ds, 128 ≤ b.toNat) (hlen : ds.length = 8) {b : UInt8} (rest : List UInt8) :
    readVarint (ds ++ b :: rest) 8 0 0 = (addDigits 0 ds * 256 + b.toNat, 9) := by
  have h := readVarint_digits (m := 0) [] ds (b :: rest) 0 hds
  rw [hlen, List.nil_append, List.length_nil, Nat.zero_add] at h
  have hu := u8_middle ds rest b
  rw [hlen] at hu
  rw [h, readVarint, hu]

/-! ## What is written -/

theorem digit_ge (x : Nat) : 128 ≤ (UInt8.ofNat (x &&& 0x7f ||| 0x80)).toNat := by
  rw [digit_toNat]
  omega

theorem varintDigits_ge : ∀ {n v : Nat}, ∀ b ∈ varintDigits n v, 128 ≤ b.toNat
  | 0, _, _, hb => absurd hb List.not_mem_nil
  | n + 1, v, b, hb => by
    rw [varintDigits] at hb
    rcases List.mem_cons.1 hb with rfl | hb
    · exact digit_ge v
    · split_ifs at hb
      · exact absurd hb List.not_mem_nil
      · exact varintDigits_ge b hb

theorem varintDigits_value : ∀ {n v : Nat}, v < 128 ^ n → addDigits 0 (varintDigits n v).reverse = v
  | 0, v, h => by
    obtain rfl : v = 0 := by omega
    rfl
  | n + 1, v, h => by
    rw [Nat.pow_succ] at h
    rw [varintDigits, List.reverse_cons, addDigits, List.foldl_append, List.foldl_cons, List.foldl_nil, digit_toNat,
      Nat.shiftRight_eq_div_pow]
    split_ifs with hz
    · rw [List.reverse_nil, List.foldl_nil]
      omega
    · have hrec : List.foldl _ 0 _ = _ := varintDigits_value (n := n) (v := v / 2 ^ 7) (by omega)
      rw [hrec]
      omega

theorem varintDigits_length_le : ∀ {n k v : Nat}, 0 < k → v < 128 ^ k → (varintDigits n v).length ≤ k
  | 0, _, _, _, _ => Nat.zero_le _
  | n + 1, k + 1, v, _, h => by
    rw [Nat.pow_succ] at h
    rw [varintDigits, List.length_cons, Nat.shiftRight_eq_div_pow]
    split_ifs with hz
    · exact Nat.succ_le_succ (Nat.zero_le _)
    · refine Nat.succ_le_succ (varintDigits_length_le ?_ (by omega))
      rcases Nat.eq_zero_or_pos k with rfl | hk
      · omega
      · exact hk

/-- The loop of `sqlite3VarintLen` counts the digits. -/
theorem varintLenFrom_digits : ∀ {n i v : Nat}, 0 < n → v < 128 ^ n →
    varintLenFrom i v + 1 = i + (varintDigits n v).length
  | n + 1, i, v, _, h => by
    rw [Nat.pow_succ] at h
    rw [varintLenFrom, varintDigits, List.length_cons, Nat.shiftRight_eq_div_pow]
    split_ifs with hz
    · rfl
    · rcases Nat.eq_zero_or_pos n with rfl | hn
      · omega
      · rw [varintLenFrom_digits hn (by omega)]
        omega

theorem varintLenFrom_eq : ∀ {k i v : Nat}, 128 ^ k ≤ v → v < 128 ^ (k + 1) → varintLenFrom i v = i + k
  | 0, i, v, _, h => by
    rw [varintLenFrom, if_pos (by rw [Nat.shiftRight_eq_div_pow]; omega), Nat.add_zero]
  | k + 1, i, v, hle, h => by
    rw [Nat.pow_succ] at hle h
    have hpos : 0 < 128 ^ k := Nat.pow_pos (by decide)
    rw [varintLenFrom, Nat.shiftRight_eq_div_pow, if_neg (by omega),
      varintLenFrom_eq (k := k) (by omega) (by rw [Nat.pow_succ]; omega)]
    omega

/-- The bytes before the last one of a varint of at most eight bytes. -/
def varintFront (v : Nat) : List UInt8 := if v < 128 then [] else (varintDigits 9 (v / 128)).reverse

theorem putVarint_of_lt (h : v < 2 ^ 56) : putVarint v = varintFront v ++ [.ofNat (v % 128)] := by
  have hdiv : ∀ x, x >>> 7 = x / 128 := fun x => Nat.shiftRight_eq_div_pow x 7
  rw [putVarint, varintFront, and_7f, hdiv]
  by_cases h7 : v < 128
  · rw [if_pos (by omega), if_pos h7, List.nil_append]
  · rw [if_neg (by omega), if_neg h7]
    by_cases h14 : v < 2 ^ 14
    · rw [if_pos (by omega), varintDigits, hdiv, if_pos (by omega)]
      rfl
    · rw [if_neg (by omega), putVarint64_of_lt h, varintDigits, hdiv, if_neg (by omega)]
      dsimp only
      rw [List.reverse_cons]
      congr 2
      refine UInt8.toNat_inj.1 ?_
      rw [last_digit_toNat, toNat_ofNat_of_lt (by omega)]

theorem varintFront_ge : ∀ b ∈ varintFront v, 128 ≤ b.toNat := fun b hb => by
  unfold varintFront at hb
  split_ifs at hb
  · exact absurd hb List.not_mem_nil
  · exact varintDigits_ge b (List.mem_reverse.1 hb)

theorem varintFront_length_le (h : v < 2 ^ 56) : (varintFront v).length ≤ 7 := by
  unfold varintFront
  split_ifs
  · exact Nat.zero_le _
  · rw [List.length_reverse]
    exact varintDigits_length_le (by decide) (by omega)

theorem varintFront_value (h : v < 2 ^ 56) : addDigits 0 (varintFront v) = v / 128 := by
  unfold varintFront
  split_ifs
  · rw [Nat.div_eq_of_lt (by assumption)]
    rfl
  · exact varintDigits_value (by omega)

theorem varintFront_len (h : v < 2 ^ 56) : sqlite3VarintLen v = (varintFront v).length + 1 := by
  have hdiv : v >>> 7 = v / 128 := Nat.shiftRight_eq_div_pow v 7
  rw [sqlite3VarintLen, varintLenFrom, varintFront, hdiv]
  split_ifs with hz h7 h7
  · rfl
  · omega
  · omega
  · rw [List.length_reverse, Nat.add_comm 1, ← Nat.add_left_inj, varintLenFrom_digits (n := 9) (by decide) (by omega)]
    omega

/-- The digits that the `for` loop of `putVarint64` writes, the last one first. -/
def varintLoop (n v : Nat) : List UInt8 :=
  (List.range n).map fun i => .ofNat (v >>> (7 * (n - 1 - i)) &&& 0x7f ||| 0x80)

theorem putVarint_of_ge (h : 2 ^ 56 ≤ v) (hv : v < 2 ^ 64) : putVarint v = varintLoop 8 (v / 256) ++ [.ofNat (v % 256)] := by
  have hmask : v &&& (0xff000000 <<< 32) ≠ 0 := by
    have h255 : ∀ x : Nat, x &&& 0xff = x % 256 := fun x => Nat.and_two_pow_sub_one_eq_mod x 8
    rw [show 0xff000000 <<< 32 = 0xff <<< 56 by decide, shiftLeft_and, h255, Nat.shiftRight_eq_div_pow,
      Nat.shiftLeft_eq]
    omega
  rw [putVarint, if_neg (by omega), if_neg (by omega), putVarint64, if_pos hmask, varintLoop, Nat.shiftRight_eq_div_pow]
  congr 2
  refine UInt8.toNat_inj.1 ?_
  rw [UInt8.toNat_ofNat', UInt8.toNat_ofNat', Nat.mod_mod]

theorem varintLoop_ge : ∀ b ∈ varintLoop n v, 128 ≤ b.toNat := fun b hb => by
  obtain ⟨i, -, rfl⟩ := List.mem_map.1 hb
  exact digit_ge _

theorem varintLoop_succ : varintLoop (n + 1) v = varintLoop n (v / 128) ++ [.ofNat (v &&& 0x7f ||| 0x80)] := by
  rw [varintLoop, List.range_succ, List.map_append, List.map_singleton, varintLoop]
  congr 1
  · refine List.map_congr_left fun i hi => ?_
    have hi := List.mem_range.1 hi
    rw [show 7 * (n + 1 - 1 - i) = 7 + 7 * (n - 1 - i) by omega, Nat.shiftRight_add, Nat.shiftRight_eq_div_pow v]
  · rw [show 7 * (n + 1 - 1 - n) = 0 by omega, Nat.shiftRight_zero]

theorem varintLoop_value : ∀ {n v : Nat}, v < 128 ^ n → addDigits 0 (varintLoop n v) = v
  | 0, v, h => by
    obtain rfl : v = 0 := by omega
    rfl
  | n + 1, v, h => by
    rw [Nat.pow_succ] at h
    have hrec : List.foldl _ 0 _ = _ := varintLoop_value (n := n) (v := v / 128) (by omega)
    rw [varintLoop_succ, addDigits, List.foldl_append, hrec, List.foldl_cons, List.foldl_nil, digit_toNat]
    omega

/-- Reading back what was written gives the value and the number of bytes, whatever follows. -/
theorem getVarint_putVarint (hv : v < 2 ^ 64) (rest : List UInt8) :
    getVarint (putVarint v ++ rest) = (v, (putVarint v).length) := by
  rw [getVarint_eq]
  rcases Nat.lt_or_ge v (2 ^ 56) with h | h
  · have hb : (UInt8.ofNat (v % 128)).toNat = v % 128 := toNat_ofNat_of_lt (by omega)
    rw [putVarint_of_lt h, List.append_assoc, List.singleton_append,
      readVarint_short varintFront_ge (varintFront_length_le h) (by omega), varintFront_value h, hb, List.length_append,
      List.length_singleton]
    refine congrArg₂ Prod.mk ?_ rfl
    omega
  · have hb : (UInt8.ofNat (v % 256)).toNat = v % 256 := toNat_ofNat_of_lt (by omega)
    rw [putVarint_of_ge h hv, List.append_assoc, List.singleton_append, readVarint_long varintLoop_ge rfl,
      varintLoop_value (by omega), hb]
    refine congrArg₂ Prod.mk ?_ rfl
    omega

/-- From 2^63 on the loop of `sqlite3VarintLen` counts a tenth digit. -/
theorem putVarint_length (hv : v < 2 ^ 64) :
    1 ≤ (putVarint v).length ∧ (putVarint v).length ≤ 9
      ∧ ((putVarint v).length = sqlite3VarintLen v ↔ v < 2 ^ 63) := by
  rcases Nat.lt_or_ge v (2 ^ 56) with h | h
  · have hlen := varintFront_length_le h
    rw [putVarint_of_lt h, List.length_append, List.length_singleton, varintFront_len h]
    omega
  · have h9 : (putVarint v).length = 9 := by
      rw [putVarint_of_ge h hv]
      rfl
    rw [h9, sqlite3VarintLen]
    rcases Nat.lt_or_ge v (2 ^ 63) with h63 | h63
    · rw [varintLenFrom_eq (k := 8) (by omega) (by omega)]
      omega
    · rw [varintLenFrom_eq (k := 9) (by omega) (by omega)]
      omega

end Digits

/-! ## The codec -/

section Codec

variable {v : Nat}

/-- What `sqlite3PutVarint` writes for `v` has the length that `sqlite3VarintLen` gives, from one to nine bytes,
and `sqlite3GetVarint` reads `v` and this length back. -/
def RoundTrips (v : Nat) : Prop :=
  (putVarint v).length = sqlite3VarintLen v ∧ 1 ≤ sqlite3VarintLen v ∧ sqlite3VarintLen v ≤ 9
    ∧ ∀ rest, getVarint (putVarint v ++ rest) = (v, sqlite3VarintLen v)

theorem roundTrips_iff (hv : v < 2 ^ 64) : RoundTrips v ↔ v < 2 ^ 63 := by
  obtain ⟨h1, h9, hlen⟩ := putVarint_length hv
  refine ⟨fun h => hlen.1 h.1, fun h => ?_⟩
  have heq := hlen.2 h
  refine ⟨heq, by omega, by omega, fun rest => ?_⟩
  rw [← heq]
  exact getVarint_putVarint hv rest

/-- The reader of 32-bit values takes the bytes that the other reader takes, and saturates its value. -/
theorem getVarint32_eq (p : List UInt8) : getVarint32 p = (min (getVarint p).1 0xffffffff, (getVarint p).2) := by
  have h0 := u8_lt p 0
  have h1 := u8_lt p 1
  have h2 := u8_lt p 2
  have hand : ∀ x : Nat, x &&& 0xffffffff = x % 2 ^ 32 := fun x => Nat.and_two_pow_sub_one_eq_mod x 32
  simp only [getVarint32, sqlite3GetVarint32, and_80_eq_zero_iff h1, and_80_eq_zero_iff h2, and_7f]
  by_cases hp0 : u8 p 0 < 128
  · rw [if_pos hp0, getVarint_eq, readVarint_last hp0]
    refine congrArg₂ Prod.mk ?_ rfl
    omega
  rw [if_neg hp0]
  by_cases hp1 : u8 p 1 < 128
  · rw [if_pos hp1, getVarint_eq, readVarint_more hp0, readVarint_last hp1, shiftLeft_or_eq hp1]
    refine congrArg₂ Prod.mk ?_ rfl
    omega
  rw [if_neg hp1]
  by_cases hp2 : u8 p 2 < 128
  · rw [if_pos hp2, getVarint_eq, readVarint_more hp0, readVarint_more hp1, readVarint_last hp2, Nat.lor_assoc,
      shiftLeft_or_eq (i := 7) hp2, shiftLeft_or_eq (by omega)]
    refine congrArg₂ Prod.mk ?_ rfl
    omega
  rw [if_neg hp2, hand]
  split_ifs with hfit
  · rw [min_eq_right (by omega)]
  · rw [min_eq_left (by omega)]

theorem getVarint32_le {p : List UInt8} {k : Nat} (hk : u8 p k < 128) : (getVarint32 p).2 ≤ k + 1 := by
  rw [getVarint32_eq, getVarint_eq]
  exact readVarint_le hk (Nat.zero_le k)

theorem putVarint32_eq (w : Nat) : putVarint32 w = putVarint w := by
  unfold putVarint32
  split_ifs with h
  · rw [putVarint, if_pos (by omega), and_7f, Nat.mod_eq_of_lt h]
  · rfl

theorem sqlite3PutVarint32_eq {w : Nat} (hw : w < 2 ^ 32) : sqlite3PutVarint32 w = putVarint w := by
  have h25 : ∀ x : Nat, x &&& 0x1ffffff = x % 2 ^ 25 := fun x => Nat.and_two_pow_sub_one_eq_mod x 25
  unfold sqlite3PutVarint32
  rw [show 0xffffff80 = 0x1ffffff <<< 7 by decide, shiftLeft_and, h25, Nat.shiftRight_eq_div_pow, Nat.shiftLeft_eq]
  split_ifs with h
  · rw [putVarint, if_pos (by omega), and_7f, Nat.mod_eq_of_lt (by omega)]
  · rfl

/-- The codec does what it should, but for the values whose length `sqlite3VarintLen` takes for ten. -/
theorem varint_codec (hv : v < 2 ^ 64) :
    (RoundTrips v
      ∧ (∀ p : List UInt8, 9 ≤ p.length → getVarint32 p = (min (getVarint p).1 0xffffffff, (getVarint p).2))
      ∧ ∀ w < 2 ^ 32, sqlite3PutVarint32 w = putVarint w ∧ putVarint32 w = putVarint w) ↔ v < 2 ^ 63 :=
  ⟨fun h => (roundTrips_iff hv).1 h.1, fun h => ⟨(roundTrips_iff hv).2 h, fun p _ => getVarint32_eq p, fun w hw =>
    ⟨sqlite3PutVarint32_eq hw, putVarint32_eq w⟩⟩⟩

theorem varint_codec_thousand :
    (RoundTrips 1000
      ∧ (∀ p : List UInt8, 9 ≤ p.length → getVarint32 p = (min (getVarint p).1 0xffffffff, (getVarint p).2))
      ∧ ∀ w < 2 ^ 32, sqlite3PutVarint32 w = putVarint w ∧ putVarint32 w = putVarint w) ↔ 1000 < 2 ^ 63 :=
  varint_codec (by decide)

theorem not_roundTrips_top_bit : ¬ RoundTrips (2 ^ 63) := fun h =>
  absurd ((roundTrips_iff (by decide)).1 h) (by decide)

end Codec

end Btreelite
