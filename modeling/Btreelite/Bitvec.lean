import Btreelite.OpenTable
import Mathlib.Data.Nat.Bitwise

/-!
# Sets of page numbers

The representations of `bitvec.c` are a bitmap for small sizes, a hash table as long as few bits are set, and
an array of sub-vectors. Whatever the representation is, the calls are those of a finite set.
-/

namespace Btreelite

open OpenTable Probing

/-! ## The calls -/

def bitvecUsize : Nat := (512 - 3 * 4) / 8 * 8

def bitvecNbit : Nat := bitvecUsize / 1 * 8

def bitvecNint : Nat := bitvecUsize / 4

def bitvecMxhash : Nat := bitvecNint / 2

def bitvecNptr : Nat := bitvecUsize / 8

/-- A pointer to a `Bitvec`. The constructor tells the representation, which is a matter of `iSize` and
`iDivisor` in the source. -/
inductive Bitvec
  | null
  | bitmap (iSize : Nat) (aBitmap : Nat → Nat)
  | hash (iSize nSet : Nat) (aHash : Nat → Nat)
  | sub (iSize iDivisor : Nat) (apSub : Nat → Bitvec)

namespace Bitvec

def iSize : Bitvec → Nat
  | null => 0
  | bitmap iSize _ => iSize
  | hash iSize _ _ => iSize
  | sub iSize _ _ => iSize

def sqlite3BitvecCreate (iSize : Nat) : Bitvec :=
  if iSize ≤ bitvecNbit then bitmap iSize fun _ => 0 else hash iSize 0 fun _ => 0

def bitvecHash (x : Nat) : Nat := x * 1 % bitvecNint

/-- The loop of `sqlite3BitvecTestNotNull`. -/
def testProbe (aHash : Nat → Nat) (i : Nat) : Nat → Nat → Option Bool
  | 0, _ => none
  | fuel + 1, h =>
    if aHash h = 0 then some false
    else if aHash h = i then some true
    else testProbe aHash i fuel ((h + 1) % bitvecNint)

/-- `sqlite3BitvecTestNotNull` behind its first check, for the bit with the number `i` from `0` on. -/
def testAt : Bitvec → Nat → Option Bool
  | null, _ => some false
  | bitmap _ aBitmap, i => some (aBitmap (i / 8) &&& 1 <<< (i &&& 7) ≠ 0)
  | hash _ _ aHash, i => testProbe aHash (i + 1) bitvecNint (bitvecHash i)
  | sub _ iDivisor apSub, i => testAt (apSub (i / iDivisor)) (i % iDivisor)

/-- The decrement of a `u32`. -/
def decr (i : Nat) : Nat := (i + (2 ^ 32 - 1)) % 2 ^ 32

def sqlite3BitvecTest : Bitvec → Nat → Option Bool
  | null, _ => some false
  | p, i => if p.iSize ≤ decr i then some false else testAt p (decr i)

def nextSlot (h : Nat) : Nat := if bitvecNint ≤ h + 1 then 0 else h + 1

/-- The `do` loop of `sqlite3BitvecSet`: the free slot, or nothing when `i` is in the table. -/
def setProbe (aHash : Nat → Nat) (i : Nat) : Nat → Nat → Option (Option Nat)
  | 0, _ => none
  | fuel + 1, h =>
    if aHash h = i then some none
    else if aHash (nextSlot h) ≠ 0 then setProbe aHash i fuel (nextSlot h)
    else some (some (nextSlot h))

/-- What becomes of a hash table that a bit is set in. -/
inductive Place
  | present
  | slot (h : Nat)
  | subdivide

/-- From the label `bitvec_set_rehash` on. -/
def setRehash (nSet h : Nat) : Place := if bitvecMxhash ≤ nSet then .subdivide else .slot h

def setPlace (nSet : Nat) (aHash : Nat → Nat) (i : Nat) : Option Place :=
  if aHash (bitvecHash i) = 0 then
    if nSet < bitvecNint - 1 then some (.slot (bitvecHash i)) else some (setRehash nSet (bitvecHash i))
  else
    match setProbe aHash (i + 1) bitvecNint (bitvecHash i) with
    | none => none
    | some none => some .present
    | some (some h) => some (setRehash nSet h)

def divisor (iSize : Nat) : Nat :=
  let d := iSize / bitvecNptr
  let d := if iSize % bitvecNptr ≠ 0 then d + 1 else d
  if d < bitvecNbit then bitvecNbit else d

/-- The sub-vector of a bit, which is created when it is not there. -/
def subOrCreate (iDivisor : Nat) : Bitvec → Bitvec
  | null => sqlite3BitvecCreate iDivisor
  | p => p

/-- `sqlite3BitvecSet` for the bit with the number `i` from `0` on. The first argument bounds the depth of
the sub-vectors. -/
def setAt : Nat → Bitvec → Nat → Option Bitvec
  | 0, _, _ => none
  | _ + 1, null, _ => some null
  | _ + 1, bitmap iSize aBitmap, i =>
    some (bitmap iSize (Function.update aBitmap (i / 8) (aBitmap (i / 8) ||| 1 <<< (i &&& 7))))
  | depth + 1, hash iSize nSet aHash, i =>
    match setPlace nSet aHash i with
    | none => none
    | some .present => some (hash iSize nSet aHash)
    | some (.slot h) => some (hash iSize (nSet + 1) (Function.update aHash h (i + 1)))
    | some .subdivide =>
      (setAt depth (sub iSize (divisor iSize) fun _ => null) i).bind fun p =>
        (List.range bitvecNint).foldlM
          (fun p j => if aHash j ≠ 0 then setAt depth p (aHash j - 1) else some p) p
  | depth + 1, sub iSize iDivisor apSub, i =>
    (setAt depth (subOrCreate iDivisor (apSub (i / iDivisor))) (i % iDivisor)).map fun p =>
      sub iSize iDivisor (Function.update apSub (i / iDivisor) p)

def sqlite3BitvecSet (p : Bitvec) (i : Nat) : Option Bitvec := setAt (2 * p.iSize + 1) p (i - 1)

/-- The inner loop of `sqlite3BitvecClear`. -/
def clearProbe (aHash : Nat → Nat) : Nat → Nat → Option Nat
  | 0, _ => none
  | fuel + 1, h => if aHash h ≠ 0 then clearProbe aHash fuel (nextSlot h) else some h

/-- One round of the `for` loop of `sqlite3BitvecClear`, on `nSet` and the new table. -/
def putBack (aiValues : Nat → Nat) (i : Nat) (t : Nat × (Nat → Nat)) (j : Nat) : Option (Nat × (Nat → Nat)) :=
  if aiValues j ≠ 0 ∧ aiValues j ≠ i + 1 then
    (clearProbe t.2 bitvecNint (bitvecHash (aiValues j - 1))).map fun h =>
      (t.1 + 1, Function.update t.2 h (aiValues j))
  else some t

def clearAt : Bitvec → Nat → Option Bitvec
  | null, _ => some null
  | bitmap iSize aBitmap, i =>
    some (bitmap iSize (Function.update aBitmap (i / 8) (aBitmap (i / 8) &&& (255 ^^^ 1 <<< (i &&& 7)))))
  | hash iSize _ aHash, i =>
    ((List.range bitvecNint).foldlM (putBack aHash i) (0, fun _ => 0)).map fun t => hash iSize t.1 t.2
  | sub iSize iDivisor apSub, i =>
    (clearAt (apSub (i / iDivisor)) (i % iDivisor)).map fun p =>
      sub iSize iDivisor (Function.update apSub (i / iDivisor) p)

def sqlite3BitvecClear (p : Bitvec) (i : Nat) : Option Bitvec := clearAt p (i - 1)

/-! ## Probes -/

section Probes

variable {t : Nat → Nat} {h k x : Nat}

theorem nint_pos : 0 < bitvecNint := by decide

/-- The slot where the probe for a number starts. -/
def home (x : Nat) : Nat := bitvecHash (x - 1)

theorem slot_home (x : Nat) : slot bitvecNint (home x) 0 = home x := slot_zero (Nat.mod_lt _ nint_pos)

theorem slot_succ (j : Nat) : (slot bitvecNint h j + 1) % bitvecNint = slot bitvecNint h (j + 1) := slot_slot j 1

theorem nextSlot_slot (j : Nat) : nextSlot (slot bitvecNint h j) = slot bitvecNint h (j + 1) := by
  have hlt : slot bitvecNint h j < bitvecNint := slot_lt nint_pos j
  rw [← slot_succ, nextSlot]
  split_ifs with hge
  · rw [show slot bitvecNint h j + 1 = bitvecNint by omega, Nat.mod_self]
  · rw [Nat.mod_eq_of_lt (by omega)]

theorem testProbe_slot (hf : Free bitvecNint t h k) : ∀ (fuel j : Nat), j ≤ k → k < fuel + j →
    (∀ m < j, t (slot bitvecNint h m) ≠ x) →
    ∃ b, testProbe t x fuel (slot bitvecNint h j) = some b ∧ (b = true ↔ ∃ m < k, t (slot bitvecNint h m) = x)
  | 0, j, hj, hlt, _ => by omega
  | fuel + 1, j, hj, hlt, hno => by
    rw [testProbe]
    rcases Nat.lt_or_eq_of_le hj with hj | rfl
    · rw [if_neg (hf.before j hj)]
      by_cases hx : t (slot bitvecNint h j) = x
      · rw [if_pos hx]
        exact ⟨true, rfl, fun _ => ⟨j, hj, hx⟩, fun _ => rfl⟩
      · rw [if_neg hx, slot_succ]
        refine testProbe_slot hf fuel (j + 1) hj (by omega) fun m hm => ?_
        rcases Nat.lt_succ_iff_lt_or_eq.1 hm with hm | rfl
        · exact hno m hm
        · exact hx
    · rw [if_pos hf.free]
      refine ⟨false, rfl, fun h => absurd h (by decide), ?_⟩
      rintro ⟨m, hm, hx⟩
      exact absurd hx (hno m hm)

theorem setProbe_slot (hf : Free bitvecNint t h k) : ∀ (fuel j : Nat), j < k → k < fuel + j →
    (∀ m < j, t (slot bitvecNint h m) ≠ x) →
    ((∃ m < k, t (slot bitvecNint h m) = x) ∧ setProbe t x fuel (slot bitvecNint h j) = some none)
      ∨ ((¬ ∃ m < k, t (slot bitvecNint h m) = x)
        ∧ setProbe t x fuel (slot bitvecNint h j) = some (some (slot bitvecNint h k)))
  | 0, j, hj, hlt, _ => by omega
  | fuel + 1, j, hj, hlt, hno => by
    rw [setProbe]
    by_cases hx : t (slot bitvecNint h j) = x
    · rw [if_pos hx]
      exact Or.inl ⟨⟨j, hj, hx⟩, rfl⟩
    · have hno' : ∀ m < j + 1, t (slot bitvecNint h m) ≠ x := fun m hm => by
        rcases Nat.lt_succ_iff_lt_or_eq.1 hm with hm | rfl
        · exact hno m hm
        · exact hx
      rw [if_neg hx, nextSlot_slot]
      rcases Nat.lt_or_eq_of_le hj with hj | rfl
      · rw [if_pos (hf.before _ hj)]
        exact setProbe_slot hf fuel (j + 1) hj (by omega) hno'
      · rw [if_neg (not_not.2 hf.free)]
        exact Or.inr ⟨fun ⟨m, hm, he⟩ => hno' m hm he, rfl⟩

theorem clearProbe_slot (hf : Free bitvecNint t h k) : ∀ (fuel j : Nat), j ≤ k → k < fuel + j →
    clearProbe t fuel (slot bitvecNint h j) = some (slot bitvecNint h k)
  | 0, j, hj, hlt => by omega
  | fuel + 1, j, hj, hlt => by
    rw [clearProbe]
    rcases Nat.lt_or_eq_of_le hj with hj | rfl
    · rw [if_pos (hf.before j hj), nextSlot_slot]
      exact clearProbe_slot hf fuel (j + 1) hj (by omega)
    · rw [if_neg (not_not.2 hf.free)]

end Probes

/-! ## Bits -/

section Bits

variable {a i j : Nat}

theorem and_7 (i : Nat) : i &&& 7 = i % 8 := Nat.and_two_pow_sub_one_eq_mod i 3

theorem test_bit : a &&& 1 <<< (i &&& 7) ≠ 0 ↔ a.testBit (i % 8) = true := by
  rw [and_7, Nat.shiftLeft_eq, Nat.one_mul, Nat.and_two_pow]
  cases a.testBit (i % 8) <;> simp

theorem set_bit : (a ||| 1 <<< (i &&& 7)).testBit j = true ↔ j = i % 8 ∨ a.testBit j = true := by
  rw [and_7, Nat.shiftLeft_eq, Nat.one_mul, Nat.testBit_or, Nat.testBit_two_pow, Bool.or_eq_true, decide_eq_true_eq,
    or_comm, @eq_comm _ j]

theorem clear_bit (hj : j < 8) :
    (a &&& (255 ^^^ 1 <<< (i &&& 7))).testBit j = true ↔ j ≠ i % 8 ∧ a.testBit j = true := by
  rw [and_7, Nat.shiftLeft_eq, Nat.one_mul, Nat.testBit_and, Nat.testBit_xor, Nat.testBit_two_pow,
    show 255 = 2 ^ 8 - 1 by decide, Nat.testBit_two_pow_sub_one, decide_eq_true hj, Bool.true_xor, Bool.and_eq_true,
    Bool.not_eq_true', decide_eq_false_iff_not, and_comm, ne_comm]

end Bits

/-! ## The invariant -/

theorem nbit_eq : bitvecNbit = 3968 := rfl

theorem divisor_bounds {s : Nat} (h : bitvecNbit < s) : 0 < divisor s ∧ divisor s < s := by
  have hptr : bitvecNptr = 62 := rfl
  rw [nbit_eq] at h
  simp only [divisor, hptr, nbit_eq]
  split_ifs <;> omega

/-- A vector for `s` bits. The entries of a hash table are the numbers of its bits from `1` on. -/
def WellFormed : Bitvec → Nat → Prop
  | null, _ => True
  | bitmap iSize _, s => iSize = s ∧ s ≤ bitvecNbit
  | hash iSize nSet aHash, s => iSize = s ∧ bitvecNbit < s ∧ nSet < bitvecNint ∧ Table bitvecNint home aHash nSet
    ∧ ∀ x, Mem bitvecNint aHash x → x ≤ s
  | sub iSize iDivisor apSub, s => iSize = s ∧ bitvecNbit < s ∧ iDivisor = divisor s
    ∧ ∀ bin, WellFormed (apSub bin) iDivisor

/-- The bit with the number `i` from `0` on is set. -/
def Contains : Bitvec → Nat → Prop
  | null, _ => False
  | bitmap _ aBitmap, i => (aBitmap (i / 8)).testBit (i % 8) = true
  | hash _ _ aHash, i => Mem bitvecNint aHash (i + 1)
  | sub _ iDivisor apSub, i => Contains (apSub (i / iDivisor)) (i % iDivisor)

section Create

variable {s i : Nat}

theorem create_wellFormed (s : Nat) : WellFormed (sqlite3BitvecCreate s) s := by
  unfold sqlite3BitvecCreate
  split_ifs with h
  · exact ⟨rfl, h⟩
  · refine ⟨rfl, by omega, nint_pos, Table.empty, ?_⟩
    rintro x ⟨-, -, rfl⟩
    exact Nat.zero_le _

theorem create_contains (s i : Nat) : ¬ Contains (sqlite3BitvecCreate s) i := by
  unfold sqlite3BitvecCreate
  split_ifs
  · simp [Contains]
  · rintro ⟨_, -, h⟩
    exact Nat.succ_ne_zero i h.symm

theorem create_ne_null (s : Nat) : sqlite3BitvecCreate s ≠ null := by
  unfold sqlite3BitvecCreate
  split_ifs <;> exact Bitvec.noConfusion

theorem iSize_eq {p : Bitvec} (h : WellFormed p s) (hp : p ≠ null) : p.iSize = s := by
  cases p with
  | null => exact absurd rfl hp
  | bitmap => exact h.1
  | hash => exact h.1
  | sub => exact h.1

end Create

/-! ## Testing -/

theorem testAt_eq {s : Nat} : ∀ {p : Bitvec} {i : Nat}, WellFormed p s →
    ∃ b, testAt p i = some b ∧ (b = true ↔ Contains p i) := by
  intro p
  induction p generalizing s with
  | null => exact fun _ => ⟨false, rfl, by simp [Contains]⟩
  | bitmap iSize aBitmap =>
    intro i _
    exact ⟨_, rfl, by rw [decide_eq_true_eq, test_bit, Contains]⟩
  | hash iSize nSet aHash =>
    rintro i ⟨-, -, hn, ht, -⟩
    obtain ⟨k, hf⟩ := ht.exists_free hn (home (i + 1))
    have hk := hf.lt
    have h := testProbe_slot (x := i + 1) hf bitvecNint 0 (Nat.zero_le k) (by omega) (by simp)
    rw [slot_home] at h
    rw [testAt, Contains, ht.mem_iff (Nat.succ_ne_zero i) hf]
    exact h
  | sub iSize iDivisor apSub ih =>
    rintro i ⟨-, -, -, hap⟩
    exact ih _ (hap _)

/-! ## Loops over the slots -/

/-- What every round of a loop keeps holds behind the loop. -/
theorem foldlM_range {β : Type} {f : β → Nat → Option β} {P : Nat → β → Prop} {b : β} {n : Nat} (h0 : P 0 b)
    (h : ∀ j < n, ∀ b, P j b → ∃ b', f b j = some b' ∧ P (j + 1) b') :
    ∃ b', (List.range n).foldlM f b = some b' ∧ P n b' := by
  induction n with
  | zero => exact ⟨b, rfl, h0⟩
  | succ n ih =>
    obtain ⟨b1, hrun, h1⟩ := ih fun j hj => h j (by omega)
    obtain ⟨b2, hstep, h2⟩ := h n (by omega) b1 h1
    refine ⟨b2, ?_, h2⟩
    rw [List.range_succ, List.foldlM_append, hrun]
    exact congrArg (fun o => o >>= pure) hstep

/-! ## Setting -/

section Set

variable {s d i depth : Nat}

/-- What `setAt` should do with a vector for `s` bits. -/
def Sets (s depth : Nat) : Prop :=
  ∀ p i, WellFormed p s → p ≠ null → i < s →
    ∃ p', setAt depth p i = some p' ∧ WellFormed p' s ∧ p' ≠ null ∧ ∀ k, Contains p' k ↔ k = i ∨ Contains p k

theorem subOrCreate_spec {p : Bitvec} (h : WellFormed p d) :
    WellFormed (subOrCreate d p) d ∧ subOrCreate d p ≠ null ∧ ∀ k, Contains (subOrCreate d p) k ↔ Contains p k := by
  cases p with
  | null => exact ⟨create_wellFormed d, create_ne_null d, fun k => iff_of_false (create_contains d k) id⟩
  | bitmap => exact ⟨h, Bitvec.noConfusion, fun _ => Iff.rfl⟩
  | hash => exact ⟨h, Bitvec.noConfusion, fun _ => Iff.rfl⟩
  | sub => exact ⟨h, Bitvec.noConfusion, fun _ => Iff.rfl⟩

/-- A bit of an array of sub-vectors is set in its sub-vector. -/
theorem setAt_sub (apSub : Nat → Bitvec) (hd : 0 < d) (hsub : Sets d depth) (hap : ∀ bin, WellFormed (apSub bin) d) :
    ∃ apSub', setAt (depth + 1) (sub s d apSub) i = some (sub s d apSub') ∧ (∀ bin, WellFormed (apSub' bin) d)
      ∧ ∀ k, Contains (sub s d apSub') k ↔ k = i ∨ Contains (sub s d apSub) k := by
  obtain ⟨hw, hne, hc⟩ := subOrCreate_spec (hap (i / d))
  obtain ⟨p', hset, hw', -, hc'⟩ := hsub _ (i % d) hw hne (Nat.mod_lt i hd)
  refine ⟨Function.update apSub (i / d) p', by rw [setAt, hset]; rfl, fun bin => ?_, fun k => ?_⟩
  · rw [Function.update_apply]
    split_ifs
    · exact hw'
    · exact hap bin
  · rw [Contains, Contains, Function.update_apply]
    have hk := Nat.div_add_mod k d
    have hi := Nat.div_add_mod i d
    by_cases hbin : k / d = i / d
    · rw [if_pos hbin, hc', hc, hbin]
      refine or_congr ⟨fun h => ?_, fun h => by rw [h]⟩ Iff.rfl
      rw [← hk, ← hi, hbin, h]
    · rw [if_neg hbin]
      exact ⟨Or.inr, fun h => h.resolve_left fun e => hbin (by rw [e])⟩

/-- The slot that `sqlite3BitvecSet` finds in a hash table. -/
theorem setPlace_spec {nSet : Nat} {aHash : Nat → Nat} (hn : nSet < bitvecNint)
    (ht : Table bitvecNint home aHash nSet) :
    ∃ k, Free bitvecNint aHash (home (i + 1)) k ∧ ∃ place, setPlace nSet aHash i = some place ∧
      match place with
      | .present => Mem bitvecNint aHash (i + 1)
      | .slot h => h = slot bitvecNint (home (i + 1)) k ∧ ¬ Mem bitvecNint aHash (i + 1) ∧ nSet + 1 < bitvecNint
      | .subdivide => True := by
  have hint : bitvecNint = 124 := rfl
  have hmx : bitvecMxhash = 62 := rfl
  obtain ⟨k, hf⟩ := ht.exists_free hn (home (i + 1))
  have hmem := ht.mem_iff (Nat.succ_ne_zero i) hf
  have hhome : bitvecHash i = slot bitvecNint (home (i + 1)) 0 := (slot_home (i + 1)).symm
  refine ⟨k, hf, ?_⟩
  rw [setPlace, hhome]
  rcases Nat.eq_zero_or_pos k with rfl | hk
  · have hno : ¬ Mem bitvecNint aHash (i + 1) := fun h => by
      obtain ⟨m, hm, -⟩ := hmem.1 h
      omega
    rw [if_pos hf.free]
    split_ifs with h123
    · exact ⟨_, rfl, rfl, hno, by omega⟩
    · refine ⟨_, rfl, ?_⟩
      rw [setRehash, if_pos (by omega)]
      trivial
  · have hklt := hf.lt
    rw [if_neg (hf.before 0 hk)]
    rcases setProbe_slot (x := i + 1) hf bitvecNint 0 hk (by omega) (by simp) with ⟨h, hrun⟩ | ⟨h, hrun⟩
    · rw [hrun]
      exact ⟨_, rfl, hmem.2 h⟩
    · rw [hrun]
      refine ⟨_, rfl, ?_⟩
      unfold setRehash
      split_ifs
      · trivial
      · exact ⟨rfl, fun hm => h (hmem.1 hm), by omega⟩

theorem setAt_hash {nSet : Nat} {aHash : Nat → Nat} (hsub : Sets (divisor s) depth)
    (h : WellFormed (hash s nSet aHash) s) (hi : i < s) :
    ∃ p', setAt (depth + 2) (hash s nSet aHash) i = some p' ∧ WellFormed p' s ∧ p' ≠ null
      ∧ ∀ k, Contains p' k ↔ k = i ∨ Contains (hash s nSet aHash) k := by
  obtain ⟨-, hs, hn, ht, hle⟩ := h
  obtain ⟨hdpos, hdlt⟩ := divisor_bounds hs
  obtain ⟨k, hf, place, hplace, hspec⟩ := setPlace_spec (i := i) hn ht
  rw [setAt, hplace]
  cases place with
  | present =>
    refine ⟨_, rfl, ⟨rfl, hs, hn, ht, hle⟩, Bitvec.noConfusion, fun k => ⟨Or.inr, ?_⟩⟩
    rintro (rfl | h)
    · exact hspec
    · exact h
  | slot h =>
    obtain ⟨rfl, hno, hn'⟩ := hspec
    have hmem := fun {y : Nat} => mem_insert (x := i + 1) hf nint_pos (y := y)
    refine ⟨_, rfl, ⟨rfl, hs, hn', ht.insert (Nat.succ_ne_zero i) hf hno, fun x hx => ?_⟩, Bitvec.noConfusion,
      fun k => ?_⟩
    · rcases Nat.eq_zero_or_pos x with rfl | hpos
      · exact Nat.zero_le s
      · rcases (hmem (Nat.pos_iff_ne_zero.1 hpos)).1 hx with rfl | hx
        · exact hi
        · exact hle x hx
    · rw [Contains, hmem (Nat.succ_ne_zero k), Contains, Nat.succ_inj]
  | subdivide =>
    -- The new bit and those of the table go into the sub-vectors one after the other.
    obtain ⟨ap0, hfirst, hap0, hc0⟩ := setAt_sub (s := s) (i := i) (fun _ => null) hdpos hsub
      fun _ => trivial
    have hloop := foldlM_range (n := bitvecNint) (b := sub s (divisor s) ap0)
      (f := fun p j => if aHash j ≠ 0 then setAt (depth + 1) p (aHash j - 1) else some p)
      (P := fun j p => ∃ apSub, p = sub s (divisor s) apSub ∧ (∀ bin, WellFormed (apSub bin) (divisor s))
        ∧ ∀ k, Contains p k ↔ k = i ∨ ∃ m < j, aHash m = k + 1)
      ⟨ap0, rfl, hap0, fun k => by simpa [Contains] using hc0 k⟩ fun j hj p hp => by
        obtain ⟨apSub, rfl, hap, hc⟩ := hp
        by_cases h0 : aHash j = 0
        · refine ⟨_, if_neg (not_not.2 h0), apSub, rfl, hap, fun k => ?_⟩
          rw [hc, Nat.exists_lt_succ_right, h0]
          simp
        · obtain ⟨apSub', hset, hap', hc'⟩ := setAt_sub (s := s) (i := aHash j - 1) apSub hdpos hsub hap
          refine ⟨_, by rw [if_pos h0, hset], apSub', rfl, hap', fun k => ?_⟩
          have hk : k = aHash j - 1 ↔ aHash j = k + 1 := by omega
          rw [hc', hc, Nat.exists_lt_succ_right, hk, or_left_comm, or_comm (a := aHash j = k + 1)]
    obtain ⟨p', hrun, apSub, rfl, hap, hc⟩ := hloop
    exact ⟨sub s (divisor s) apSub, by rw [hfirst]; exact hrun, ⟨rfl, hs, rfl, hap⟩, Bitvec.noConfusion, hc⟩

theorem sets (s : Nat) : ∀ depth, 2 * s + 1 ≤ depth → Sets s depth := by
  induction s using Nat.strong_induction_on with
  | _ s ih =>
    intro depth hdepth p i hp hne hi
    cases p with
    | null => exact absurd rfl hne
    | bitmap iSize aBitmap =>
      obtain ⟨depth, rfl⟩ := Nat.exists_eq_add_of_le' (show 1 ≤ depth by omega)
      refine ⟨_, rfl, hp, Bitvec.noConfusion, fun k => ?_⟩
      rw [Contains, Contains, Function.update_apply]
      split_ifs with hbyte
      · rw [set_bit, ← hbyte]
        exact or_congr (by omega) Iff.rfl
      · exact ⟨Or.inr, fun h => h.resolve_left fun e => hbyte (by rw [e])⟩
    | hash iSize nSet aHash =>
      obtain rfl := hp.1
      have hlt := (divisor_bounds hp.2.1).2
      obtain ⟨depth, rfl⟩ := Nat.exists_eq_add_of_le' (show 2 ≤ depth by omega)
      exact setAt_hash (ih _ hlt depth (by omega)) hp hi
    | sub iSize iDivisor apSub =>
      obtain ⟨rfl, hs, rfl, hap⟩ := hp
      obtain ⟨hpos, hlt⟩ := divisor_bounds hs
      obtain ⟨depth, rfl⟩ := Nat.exists_eq_add_of_le' (show 1 ≤ depth by omega)
      obtain ⟨apSub', hset, hap', hc⟩ := setAt_sub (s := iSize) (i := i) apSub hpos (ih _ hlt depth (by omega)) hap
      exact ⟨_, hset, ⟨rfl, hs, rfl, hap'⟩, Bitvec.noConfusion, hc⟩

end Set

/-! ## Clearing -/

section Clear

variable {s i nSet : Nat} {aHash : Nat → Nat}

/-- The new table after `j` rounds holds the numbers of the first `j` slots but that of the bit. -/
structure PutBack (aHash : Nat → Nat) (i j : Nat) (t : Nat × (Nat → Nat)) : Prop where
  table : Table bitvecNint home t.2 t.1
  mem : ∀ x, x ≠ 0 → (Mem bitvecNint t.2 x ↔ x ≠ i + 1 ∧ ∃ m < j, aHash m = x)
  count : t.1 ≤ ((Finset.range j).filter fun m => aHash m ≠ 0).card

theorem putBack_spec {j : Nat} {t : Nat × (Nat → Nat)} (hd : Distinct bitvecNint aHash)
    (hn : ((Finset.range bitvecNint).filter fun m => aHash m ≠ 0).card < bitvecNint) (hj : j < bitvecNint)
    (h : PutBack aHash i j t) : ∃ t', putBack aHash i t j = some t' ∧ PutBack aHash i (j + 1) t' := by
  have hcard : ((Finset.range (j + 1)).filter fun m => aHash m ≠ 0).card
      = ((Finset.range j).filter fun m => aHash m ≠ 0).card + if aHash j ≠ 0 then 1 else 0 := by
    rw [Finset.range_add_one, Finset.filter_insert]
    split_ifs
    · rw [Finset.card_insert_of_notMem (by simp)]
    · rfl
  have hle : ((Finset.range (j + 1)).filter fun m => aHash m ≠ 0).card
      ≤ ((Finset.range bitvecNint).filter fun m => aHash m ≠ 0).card :=
    Finset.card_le_card (Finset.filter_subset_filter _ (Finset.range_mono hj))
  have hcount := h.count
  rw [putBack]
  by_cases hkeep : aHash j ≠ 0 ∧ aHash j ≠ i + 1
  · rw [if_pos hkeep]
    rw [if_pos hkeep.1] at hcard
    obtain ⟨k, hf⟩ := h.table.exists_free (by omega) (home (aHash j))
    have hk := hf.lt
    have hno : ¬ Mem bitvecNint t.2 (aHash j) := fun hm => by
      obtain ⟨-, m, hm, he⟩ := (h.mem _ hkeep.1).1 hm
      have := hd j hj m (by omega) hkeep.1 he.symm
      omega
    have hrun := clearProbe_slot hf bitvecNint 0 (Nat.zero_le k) (by omega)
    rw [slot_home] at hrun
    refine ⟨(t.1 + 1, _), congrArg (Option.map _) hrun, h.table.insert hkeep.1 hf hno, fun x hx => ?_, ?_⟩
    · rw [mem_insert hf nint_pos hx, h.mem x hx, Nat.exists_lt_succ_right]
      constructor
      · rintro (rfl | ⟨hne, hm⟩)
        · exact ⟨hkeep.2, Or.inr rfl⟩
        · exact ⟨hne, Or.inl hm⟩
      · rintro ⟨hne, hm | rfl⟩
        · exact Or.inr ⟨hne, hm⟩
        · exact Or.inl rfl
    · dsimp only
      omega
  · rw [if_neg hkeep]
    refine ⟨t, rfl, h.table, fun x hx => ?_, by omega⟩
    rw [h.mem x hx, Nat.exists_lt_succ_right]
    refine and_congr_right fun hne => ⟨Or.inl, fun hm => hm.resolve_right ?_⟩
    rintro rfl
    exact hkeep ⟨hx, hne⟩

theorem clearAt_hash (h : WellFormed (hash s nSet aHash) s) :
    ∃ p', clearAt (hash s nSet aHash) i = some p' ∧ WellFormed p' s ∧ p' ≠ null
      ∧ ∀ k, Contains p' k ↔ k ≠ i ∧ Contains (hash s nSet aHash) k := by
  obtain ⟨-, hs, hn, ht, hle⟩ := h
  have hn' : ((Finset.range bitvecNint).filter fun m => aHash m ≠ 0).card < bitvecNint := by rwa [ht.count]
  obtain ⟨t, hrun, hput⟩ := foldlM_range (n := bitvecNint) (b := (0, fun _ => 0)) (f := putBack aHash i)
    (P := PutBack aHash i)
    ⟨Table.empty, fun x hx => iff_of_false (fun ⟨_, _, h⟩ => hx h.symm) (by simp), by simp⟩
    fun j hj t h => putBack_spec ht.distinct hn' hj h
  have hcount := hput.count
  refine ⟨hash s t.1 t.2, congrArg (Option.map _) hrun, ⟨rfl, hs, by omega, hput.table, fun x hx => ?_⟩,
    Bitvec.noConfusion, fun k => ?_⟩
  · rcases Nat.eq_zero_or_pos x with rfl | hpos
    · exact Nat.zero_le s
    · exact hle x ((hput.mem x (Nat.pos_iff_ne_zero.1 hpos)).1 hx).2
  · rw [Contains, hput.mem _ (Nat.succ_ne_zero k), Contains, Mem, ne_eq, Nat.succ_inj]

theorem clearAt_spec : ∀ {p : Bitvec} {s i : Nat}, WellFormed p s →
    ∃ p', clearAt p i = some p' ∧ WellFormed p' s ∧ (p ≠ null → p' ≠ null)
      ∧ ∀ k, Contains p' k ↔ k ≠ i ∧ Contains p k := by
  intro p
  induction p with
  | null => exact fun _ => ⟨null, rfl, trivial, id, fun k => by simp [Contains]⟩
  | bitmap iSize aBitmap =>
    refine fun hp => ⟨_, rfl, hp, fun _ => Bitvec.noConfusion, fun k => ?_⟩
    rw [Contains, Contains, Function.update_apply]
    split_ifs with hbyte
    · rw [clear_bit (Nat.mod_lt k (by decide)), ← hbyte]
      exact and_congr (by omega) Iff.rfl
    · exact ⟨fun h => ⟨fun e => hbyte (by rw [e]), h⟩, And.right⟩
  | hash iSize nSet aHash =>
    intro s i hp
    obtain rfl := hp.1
    obtain ⟨p', hrun, hw, hne, hc⟩ := clearAt_hash (i := i) hp
    exact ⟨p', hrun, hw, fun _ => hne, hc⟩
  | sub iSize iDivisor apSub ih =>
    rintro s i ⟨rfl, hs, rfl, hap⟩
    obtain ⟨p', hrun, hw, -, hc⟩ := ih (i / divisor iSize) (i := i % divisor iSize) (hap _)
    refine ⟨_, congrArg (Option.map _) hrun, ⟨rfl, hs, rfl, fun bin => ?_⟩, fun _ => Bitvec.noConfusion, fun k => ?_⟩
    · rw [Function.update_apply]
      split_ifs
      · exact hw
      · exact hap bin
    · rw [Contains, Contains, Function.update_apply]
      have hk := Nat.div_add_mod k (divisor iSize)
      have hi := Nat.div_add_mod i (divisor iSize)
      by_cases hbin : k / divisor iSize = i / divisor iSize
      · rw [if_pos hbin, hc, hbin]
        refine and_congr (not_congr ⟨fun h => ?_, fun h => by rw [h]⟩) Iff.rfl
        rw [← hk, ← hi, hbin, h]
      · rw [if_neg hbin]
        exact ⟨fun h => ⟨fun e => hbin (by rw [e]), h⟩, And.right⟩

end Clear

/-! ## The calls one after the other -/

section Calls

variable {n i : Nat} {p : Bitvec}

inductive Call
  | set (i : Nat)
  | clear (i : Nat)
  | test (i : Nat)

def Call.index : Call → Nat
  | set i => i
  | clear i => i
  | test i => i

/-- The answers of the tests among the calls. -/
def answers : Bitvec → List Call → Option (List Bool)
  | _, [] => some []
  | p, .set i :: calls => (sqlite3BitvecSet p i).bind fun p => answers p calls
  | p, .clear i :: calls => (sqlite3BitvecClear p i).bind fun p => answers p calls
  | p, .test i :: calls => (sqlite3BitvecTest p i).bind fun b => (answers p calls).map (b :: ·)

/-- The answers of a finite set. -/
def setAnswers : Finset Nat → List Call → List Bool
  | _, [] => []
  | S, .set i :: calls => setAnswers (insert i S) calls
  | S, .clear i :: calls => setAnswers (S.erase i) calls
  | S, .test i :: calls => decide (i ∈ S) :: setAnswers S calls

/-- `p` is a vector for `n` bits with the elements of `S`. -/
structure Refines (n : Nat) (p : Bitvec) (S : Finset Nat) : Prop where
  wellFormed : WellFormed p n
  ne_null : p ≠ null
  contains : ∀ i, 0 < i → (Contains p (i - 1) ↔ i ∈ S)

theorem Refines.create (n : Nat) : Refines n (sqlite3BitvecCreate n) ∅ where
  wellFormed := create_wellFormed n
  ne_null := create_ne_null n
  contains i _ := by simp [create_contains n (i - 1)]

variable {S : Finset Nat}

theorem Refines.set (h : Refines n p S) (h0 : 0 < i) (hi : i ≤ n) :
    ∃ p', sqlite3BitvecSet p i = some p' ∧ Refines n p' (insert i S) := by
  rw [sqlite3BitvecSet, iSize_eq h.wellFormed h.ne_null]
  obtain ⟨p', hrun, hw, hne, hc⟩ := sets n _ le_rfl p (i - 1) h.wellFormed h.ne_null (by omega)
  refine ⟨p', hrun, hw, hne, fun k hk => ?_⟩
  rw [hc, h.contains k hk, Finset.mem_insert]
  exact or_congr (by omega) Iff.rfl

theorem Refines.clear (h : Refines n p S) (h0 : 0 < i) :
    ∃ p', sqlite3BitvecClear p i = some p' ∧ Refines n p' (S.erase i) := by
  obtain ⟨p', hrun, hw, hne, hc⟩ := clearAt_spec (i := i - 1) h.wellFormed
  refine ⟨p', hrun, hw, hne h.ne_null, fun k hk => ?_⟩
  rw [hc, h.contains k hk, Finset.mem_erase]
  exact and_congr (by omega) Iff.rfl

theorem Refines.test (h : Refines n p S) (hn : n < 2 ^ 32) (h0 : 0 < i) (hi : i ≤ n) :
    sqlite3BitvecTest p i = some (decide (i ∈ S)) := by
  have hdecr : decr i = i - 1 := by
    rw [decr]
    omega
  obtain ⟨b, hrun, hb⟩ := testAt_eq (i := i - 1) h.wellFormed
  have hall : sqlite3BitvecTest p i = if p.iSize ≤ decr i then some false else testAt p (decr i) := by
    cases p with
    | null => exact absurd rfl h.ne_null
    | bitmap => rfl
    | hash => rfl
    | sub => rfl
  rw [hall, iSize_eq h.wellFormed h.ne_null, hdecr, if_neg (by omega), hrun]
  refine congrArg some ?_
  rw [Bool.eq_iff_iff, hb, decide_eq_true_eq]
  exact h.contains i h0

/-- Every call ends, and the tests answer as those of the set that the calls before have made. -/
theorem answers_eq (hn : n < 2 ^ 32) : ∀ {calls : List Call} {p : Bitvec} {S : Finset Nat}, Refines n p S →
    (∀ c ∈ calls, 0 < c.index ∧ c.index ≤ n) → answers p calls = some (setAnswers S calls)
  | [], _, _, _, _ => rfl
  | .set i :: calls, p, S, h, hcalls => by
    obtain ⟨⟨h0, hi⟩, hrest⟩ := List.forall_mem_cons.1 hcalls
    obtain ⟨p', hrun, h'⟩ := h.set (i := i) h0 hi
    rw [answers, hrun, setAnswers]
    exact answers_eq hn h' hrest
  | .clear i :: calls, p, S, h, hcalls => by
    obtain ⟨⟨h0, hi⟩, hrest⟩ := List.forall_mem_cons.1 hcalls
    obtain ⟨p', hrun, h'⟩ := h.clear (i := i) h0
    rw [answers, hrun, setAnswers]
    exact answers_eq hn h' hrest
  | .test i :: calls, p, S, h, hcalls => by
    obtain ⟨⟨h0, hi⟩, hrest⟩ := List.forall_mem_cons.1 hcalls
    rw [answers, h.test (i := i) hn h0 hi, setAnswers, Option.bind_some, answers_eq hn h hrest, Option.map_some]

theorem bitvec_refines (hn : n < 2 ^ 32) {calls : List Call} (h : ∀ c ∈ calls, 0 < c.index ∧ c.index ≤ n) :
    answers (sqlite3BitvecCreate n) calls = some (setAnswers ∅ calls) :=
  answers_eq hn (Refines.create n) h

theorem bitvec_refines_million :
    answers (sqlite3BitvecCreate 1000000) [.set 7, .set 131, .clear 7, .test 7, .test 131]
      = some (setAnswers ∅ [.set 7, .set 131, .clear 7, .test 7, .test 131]) :=
  bitvec_refines (by decide) (by decide)

end Calls

end Bitvec

end Btreelite
