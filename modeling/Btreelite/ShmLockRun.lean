import Btreelite.ShmSlots

/-!
# Runs of many connections on one wal-index

Every request leaves the lock table, the masks and the record locks in agreement, and so does a
connection that is unmapped with no lock. A connection unmapped with a lock leaves its count and the
record lock behind.
-/

namespace Btreelite

open Posix

section Bits

variable {ofst n i : ℕ} {m : BitVec 16} {p : UnixShm}

/-- The slots of a legal request. -/
theorem getLsbD_shmMask (h : ofst + n ≤ shmNLock) :
    (shmMask ofst n).getLsbD i = decide (ofst ≤ i ∧ i < ofst + n) := by
  have hsmall : ∀ a < 9, ∀ b < 9 - a, ∀ j < 16,
      (2 ^ (a + b) - 2 ^ a).testBit j = decide (a ≤ j ∧ j < a + b) := by decide +kernel
  have h8 : ofst + n ≤ 8 := h
  rw [shmMask, BitVec.getLsbD_ofNat]
  by_cases hi : i < 16
  · rw [hsmall ofst (by omega) n (by omega) i hi]
    simp [hi]
  · have hout : ¬ i < ofst + n := by omega
    simp [hi, hout]

theorem and_shmMask_eq_zero (h : ofst + n ≤ shmNLock) :
    m &&& shmMask ofst n = 0 ↔ ∀ i, ofst ≤ i → i < ofst + n → m.getLsbD i = false := by
  constructor
  · intro h0 i h1 h2
    have hb := congrArg (BitVec.getLsbD · i) h0
    simpa [getLsbD_shmMask h, h1, h2] using hb
  · intro h0
    refine BitVec.eq_of_getLsbD_eq fun i _ => ?_
    rw [BitVec.getLsbD_and, getLsbD_shmMask h]
    by_cases hi : ofst ≤ i ∧ i < ofst + n
    · simp [h0 i hi.1 hi.2]
    · simp [hi]

theorem and_shmMask_eq_self (h : ofst + n ≤ shmNLock)
    (hm : m &&& shmMask ofst n = shmMask ofst n) (h1 : ofst ≤ i) (h2 : i < ofst + n) :
    m.getLsbD i = true := by
  have hb := congrArg (BitVec.getLsbD · i) hm
  simpa [getLsbD_shmMask h, h1, h2] using hb

@[simp] theorem shmFlock_covers {t : LockType} (hn : 1 ≤ n) :
    (shmFlock t ofst n).Covers (unixShmBase + i) ↔ ofst ≤ i ∧ i < ofst + n := by
  simp only [Flock.Covers, shmFlock]
  omega

end Bits

section Assert

variable {C : Type} {shm : C → UnixShm} {i : ℕ} {a : ℤ}

theorem lockingArray_unlck : ∀ {cs : List C}, (∀ c ∈ cs, (shm c).kind i = .unlck) →
    lockingArray i (cs.map shm) (some a) = some a
  | [], _ => rfl
  | c :: cs, h => by
    have hc := h c (by simp)
    have hrest := lockingArray_unlck fun d (hd : d ∈ cs) => h d (by simp [hd])
    unfold UnixShm.kind at hc
    split_ifs at hc with he hs
    simpa [lockingArray, he, hs] using hrest

theorem lockingArray_shared : ∀ {cs : List C} {a : ℤ}, 0 ≤ a →
    (∀ c ∈ cs, (shm c).kind i ≠ .wrlck) → lockingArray i (cs.map shm) (some a) =
      some (a + cs.countP fun c => (shm c).kind i = .rdlck)
  | [], a, _, _ => by simp [lockingArray]
  | c :: cs, a, ha, h => by
    have hc := h c (by simp)
    have hrest := fun d hd => h d (List.mem_cons_of_mem c hd)
    by_cases hs : (shm c).kind i = .rdlck
    · obtain ⟨he, hsh⟩ : (shm c).exclMask.getLsbD i = false ∧
          (shm c).sharedMask.getLsbD i = true := by
        unfold UnixShm.kind at hs
        split_ifs at hs with he hsh
        exact ⟨by simpa using he, hsh⟩
      have hstep : lockingArray i ((c :: cs).map shm) (some a) =
          lockingArray i (cs.map shm) (some (a + 1)) := by
        simp [lockingArray, he, hsh, ha]
      rw [hstep, lockingArray_shared (by omega) hrest]
      simp only [List.countP_cons, hs, decide_true, if_true]
      congr 1
      push_cast
      omega
    · have hu : (shm c).exclMask.getLsbD i = false ∧ (shm c).sharedMask.getLsbD i = false := by
        unfold UnixShm.kind at hc hs
        split_ifs at hc hs with he hsh
        · exact absurd rfl hc
        · exact absurd rfl hs
        · exact ⟨by simpa using he, by simpa using hsh⟩
      have hstep : lockingArray i ((c :: cs).map shm) (some a) =
          lockingArray i (cs.map shm) (some a) := by
        simp [lockingArray, hu.1, hu.2]
      rw [hstep, lockingArray_shared ha hrest]
      simp [hs]

theorem lockingArray_excl : ∀ {cs : List C} {c : C}, c ∈ cs → cs.Nodup →
    (shm c).kind i = .wrlck → (∀ d ∈ cs, d ≠ c → (shm d).kind i = .unlck) →
    lockingArray i (cs.map shm) (some 0) = some (-1)
  | [], _, h, _, _, _ => by simp at h
  | e :: cs, c, hc, hn, hk, hd => by
    obtain ⟨hen, hn⟩ := List.nodup_cons.1 hn
    by_cases hec : e = c
    · subst hec
      have he : (shm e).exclMask.getLsbD i = true := by
        unfold UnixShm.kind at hk
        split_ifs at hk with he
        exact he
      have hstep : lockingArray i ((e :: cs).map shm) (some 0) =
          lockingArray i (cs.map shm) (some (-1)) := by
        simp [lockingArray, he]
      rw [hstep]
      exact lockingArray_unlck fun d hdc => hd d (by simp [hdc]) fun hde => hen (hde ▸ hdc)
    · have hu := hd e (by simp) hec
      have hstep : lockingArray i ((e :: cs).map shm) (some 0) =
          lockingArray i (cs.map shm) (some 0) := by
        unfold UnixShm.kind at hu
        split_ifs at hu with he hs
        simp [lockingArray, he, hs]
      rw [hstep]
      have hcs : c ∈ cs := by
        rcases List.mem_cons.1 hc with rfl | hcs
        · exact absurd rfl hec
        · exact hcs
      exact lockingArray_excl hcs hn hk fun d hdc => hd d (by simp [hdc])

/-- The computed value is that of the slot. -/
theorem SlotOk.lockingArray {cs : List C} {t : LockType}
    (h : SlotOk cs (fun c => (shm c).kind i) a t) (hn : cs.Nodup) :
    lockingArray i (cs.map shm) (some 0) = some a := by
  rcases h.aLock with ⟨rfl, c, hc, hw, hd⟩ | ⟨rfl, hd⟩
  · exact lockingArray_excl hc hn hw hd
  · simpa using lockingArray_shared le_rfl hd

end Assert

section Invariant

variable {C : Type} [DecidableEq C] {x : Process (ShmProcess C)} {c : C}

/-- The lock table of one process agrees with its connections and its record locks. -/
structure ShmInv (x : Process (ShmProcess C)) : Prop where
  nodup : x.st.pFirst.Nodup
  mem : ∀ c, c ∈ x.st.pFirst ↔ (x.st.shm c).stage = .mapped
  unheld : ∀ c, (x.st.shm c).stage ≠ .mapped → ∀ i, (x.st.shm c).kind i = .unlck
  disjoint : ∀ c i, (x.st.shm c).exclMask.getLsbD i = true →
    (x.st.shm c).sharedMask.getLsbD i = false
  slot : ∀ i < shmNLock, SlotOk x.st.pFirst (fun c => (x.st.shm c).kind i) (x.st.aLock i)
    (x.row (unixShmBase + i))
  nRef : {c | (x.st.shm c).stage ≠ .absent}.encard = x.st.nRef

omit [DecidableEq C] in
theorem shmInv_fresh {r : Row} (hr : ∀ b, r b = .unlck) :
    ShmInv ⟨(ShmProcess.fresh : ShmProcess C), r⟩ where
  nodup := List.nodup_nil
  mem c := by simp [ShmProcess.fresh]
  unheld c _ i := by simp [ShmProcess.fresh, UnixShm.kind]
  disjoint c i h := by simp [ShmProcess.fresh] at h
  slot i _ := by
    change SlotOk [] _ 0 (r (unixShmBase + i))
    rw [hr]
    exact SlotOk.nil
  nRef := by simp [ShmProcess.fresh]

theorem kind_update {p : UnixShm} {i : ℕ} :
    (fun d => (Function.update x.st.shm c p d).kind i) =
      Function.update (fun d => (x.st.shm d).kind i) c (p.kind i) := by
  funext d
  by_cases hd : d = c <;> simp [hd]

/-- A request leaves the invariant if it leaves each slot in agreement. -/
theorem ShmInv.request (hx : ShmInv x) (hs : (x.st.shm c).stage = .mapped) {r : ShmResult}
    (hstage : r.p.stage = .mapped)
    (hdis : ∀ i, r.p.exclMask.getLsbD i = true → r.p.sharedMask.getLsbD i = false)
    (hslot : ∀ i < shmNLock, SlotOk x.st.pFirst
      (Function.update (fun d => (x.st.shm d).kind i) c (r.p.kind i)) (r.aLock i)
      (x.row.after r.call (unixShmBase + i))) :
    ShmInv ⟨{ x.st with shm := Function.update x.st.shm c r.p, aLock := r.aLock },
      x.row.after r.call⟩ where
  nodup := hx.nodup
  mem d := by
    by_cases hd : d = c
    · subst hd
      simp [hstage, (hx.mem d).2 hs]
    · simpa [hd] using hx.mem d
  unheld d hd i := by
    by_cases hdc : d = c
    · subst hdc
      simp [hstage] at hd
    · simp only [Function.update_of_ne hdc] at hd ⊢
      exact hx.unheld d hd i
  disjoint d i h := by
    by_cases hdc : d = c
    · subst hdc
      simp only [Function.update_self] at h ⊢
      exact hdis i h
    · simp only [Function.update_of_ne hdc] at h ⊢
      exact hx.disjoint d i h
  slot i hi := by
    simp only [kind_update]
    exact hslot i hi
  nRef := by
    have hset : {d | (Function.update x.st.shm c r.p d).stage ≠ .absent} =
        {d | (x.st.shm d).stage ≠ .absent} := by
      ext d
      by_cases hd : d = c <;> simp [hd, hstage, hs]
    rw [← hx.nRef]
    exact congrArg Set.encard hset

/-- A slot outside the request keeps what it had. -/
theorem ShmInv.slot_out (hx : ShmInv x) {i : ℕ} (hi : i < shmNLock) {p : UnixShm} {a : ℤ}
    {t : LockType} (hp : p.kind i = (x.st.shm c).kind i) (ha : a = x.st.aLock i)
    (ht : t = x.row (unixShmBase + i)) :
    SlotOk x.st.pFirst (Function.update (fun d => (x.st.shm d).kind i) c (p.kind i)) a t := by
  rw [hp, ha, ht, Function.update_eq_self]
  exact hx.slot i hi

/-- A request that changes nothing leaves the invariant. -/
theorem ShmInv.unchanged (hx : ShmInv x) (hs : (x.st.shm c).stage = .mapped) (rc : ShmRc) :
    let r : ShmResult := ⟨x.st.shm c, x.st.aLock, .none, rc⟩
    ShmInv ⟨{ x.st with shm := Function.update x.st.shm c r.p, aLock := r.aLock },
      x.row.after r.call⟩ :=
  hx.request hs hs (hx.disjoint c) fun _ hi => hx.slot_out hi rfl rfl rfl

variable {ofst n : ℕ} {ok : Bool}

theorem ShmInv.lockShared (hx : ShmInv x) (hs : (x.st.shm c).stage = .mapped)
    (hofst : ofst + 1 ≤ shmNLock) (h0 : (x.st.shm c).sharedMask &&& shmMask ofst 1 = 0) :
    let r := unixShmLockShared (x.st.shm c) x.st.aLock ofst 1 ok
    ShmInv ⟨{ x.st with shm := Function.update x.st.shm c r.p, aLock := r.aLock },
      x.row.after r.call⟩ := by
  have hc : c ∈ x.st.pFirst := (hx.mem c).2 hs
  have hsh : (x.st.shm c).sharedMask.getLsbD ofst = false :=
    (and_shmMask_eq_zero hofst).1 h0 ofst le_rfl (by omega)
  have hmask : ∀ i, (shmMask ofst 1).getLsbD i = decide (i = ofst) := by
    intro i
    rw [getLsbD_shmMask hofst]
    exact decide_eq_decide.2 (by omega)
  by_cases hneg : x.st.aLock ofst < 0
  · simpa only [unixShmLockShared, if_pos hneg] using hx.unchanged hs .busy
  -- no connection has the slot for itself, so this one has nothing there
  have hsl := hx.slot ofst (by omega)
  have hexcl : (x.st.shm c).exclMask.getLsbD ofst = false := by
    by_contra he
    have hk : (x.st.shm c).kind ofst = .wrlck := by simp [UnixShm.kind, he]
    have := (hsl.alone hc hk).1
    omega
  have hk : (x.st.shm c).kind ofst = .unlck := by simp [UnixShm.kind, hexcl, hsh]
  have hshare := hsl.share hx.nodup hc (not_lt.1 hneg) hk
  have hrequest : ∀ call, x.row.after call (unixShmBase + ofst) = .rdlck →
      (∀ i ≠ ofst, x.row.after call (unixShmBase + i) = x.row (unixShmBase + i)) →
      ShmInv ⟨{ x.st with
        shm := Function.update x.st.shm c
          { x.st.shm c with sharedMask := (x.st.shm c).sharedMask ||| shmMask ofst 1 }
        aLock := Function.update x.st.aLock ofst (x.st.aLock ofst + 1) }, x.row.after call⟩ := by
    intro call hrow hother
    refine hx.request (r := ⟨{ x.st.shm c with
      sharedMask := (x.st.shm c).sharedMask ||| shmMask ofst 1 },
      Function.update x.st.aLock ofst (x.st.aLock ofst + 1), call, .ok⟩) hs hs ?_ ?_
    · intro i hi
      have hne : i ≠ ofst := fun h => by simp [h, hexcl] at hi
      simpa [hmask, hne] using hx.disjoint c i hi
    · intro i hi
      by_cases hio : i = ofst
      · subst hio
        have hk' : UnixShm.kind { x.st.shm c with
            sharedMask := (x.st.shm c).sharedMask ||| shmMask i 1 } i = .rdlck := by
          simp [UnixShm.kind, hexcl, hmask]
        rw [hk', hrow]
        simpa using hshare
      · refine hx.slot_out hi ?_ (by simp [hio]) (hother i hio)
        simp [UnixShm.kind, hmask, hio]
  unfold unixShmLockShared
  simp only [if_neg hneg]
  split_ifs with hzero hok
  · refine hrequest _ ?_ fun i hi => ?_
    · exact Row.after_covers _ ((shmFlock_covers le_rfl).2 ⟨le_rfl, by omega⟩)
    · exact Row.after_not_covers _ fun h => hi (by
        have := (shmFlock_covers le_rfl).1 h
        omega)
  · exact hx.unchanged hs .busy
  · refine hrequest .none ?_ fun i hi => rfl
    have h1 := hsl.shared (not_lt.1 hneg)
    have hpos : 0 < x.st.pFirst.countP fun d => (x.st.shm d).kind ofst = .rdlck := by
      have hcount := h1.1
      omega
    obtain ⟨d, hd, hdk⟩ := List.countP_pos_iff.1 hpos
    have hr : LockType.rdlck ∈ x.st.pFirst.map fun d => (x.st.shm d).kind ofst :=
      List.mem_map.2 ⟨d, hd, by simpa using hdk⟩
    have hw : LockType.wrlck ∉ x.st.pFirst.map fun d => (x.st.shm d).kind ofst := fun hm => by
      obtain ⟨d, hd, hdk⟩ := List.mem_map.1 hm
      exact h1.2 d hd hdk
    rw [Row.after_none, hsl.system, strongest, if_neg hw, if_pos hr]

theorem ShmInv.lockExclusive (hx : ShmInv x) (hs : (x.st.shm c).stage = .mapped) (hn : 1 ≤ n)
    (hofst : ofst + n ≤ shmNLock) (h0 : (x.st.shm c).sharedMask &&& shmMask ofst n = 0) :
    let r := unixShmLockExclusive (x.st.shm c) x.st.aLock ofst n ok
    ShmInv ⟨{ x.st with shm := Function.update x.st.shm c r.p, aLock := r.aLock },
      x.row.after r.call⟩ := by
  have hc : c ∈ x.st.pFirst := (hx.mem c).2 hs
  unfold unixShmLockExclusive
  split_ifs with hbusy hok
  · exact hx.unchanged hs .busy
  · refine hx.request hs hs ?_ fun i hi => ?_
    · intro i hi
      by_cases hin : ofst ≤ i ∧ i < ofst + n
      · exact (and_shmMask_eq_zero hofst).1 h0 i hin.1 hin.2
      · simp only [BitVec.getLsbD_or, getLsbD_shmMask hofst, hin, decide_false,
          Bool.or_false] at hi
        exact hx.disjoint c i hi
    · by_cases hin : ofst ≤ i ∧ i < ofst + n
      · have hzero : x.st.aLock i = 0 := by
          by_contra hne
          exact hbusy ⟨i - ofst, by omega, by rwa [Nat.add_sub_cancel' hin.1]⟩
        have hk : UnixShm.kind { x.st.shm c with
            exclMask := (x.st.shm c).exclMask ||| shmMask ofst n } i = .wrlck := by
          simp [UnixShm.kind, getLsbD_shmMask hofst, hin]
        rw [hk, Row.after_covers _ ((shmFlock_covers hn).2 hin)]
        simpa [fillSlots, hin] using (hzero ▸ hx.slot i hi).exclude hc
      · refine hx.slot_out hi ?_ (by simp [fillSlots, hin])
          (Row.after_not_covers _ fun h => hin ((shmFlock_covers hn).1 h))
        simp [UnixShm.kind, getLsbD_shmMask hofst, hin]
  · exact hx.unchanged hs .busy

/-- A connection that holds none of the slots but as the flags say gives them all up. -/
theorem ShmInv.clearSlots (hx : ShmInv x) (hs : (x.st.shm c).stage = .mapped) (hn : 1 ≤ n)
    (hofst : ofst + n ≤ shmNLock)
    (hheld : ∀ i, ofst ≤ i → i < ofst + n → (x.st.shm c).kind i = .wrlck ∨
      (x.st.shm c).kind i = .rdlck ∧ x.st.aLock i ≤ 1) :
    let p : UnixShm := { x.st.shm c with
      sharedMask := (x.st.shm c).sharedMask &&& ~~~ shmMask ofst n
      exclMask := (x.st.shm c).exclMask &&& ~~~ shmMask ofst n }
    ShmInv ⟨{ x.st with
      shm := Function.update x.st.shm c p
      aLock := fillSlots x.st.aLock ofst n 0 },
      x.row.after (.fcntl (shmFlock .unlck ofst n))⟩ := by
  intro p
  have hc : c ∈ x.st.pFirst := (hx.mem c).2 hs
  refine hx.request (r := ⟨p, fillSlots x.st.aLock ofst n 0, .fcntl (shmFlock .unlck ofst n), .ok⟩)
    hs hs ?_ fun i hi => ?_
  · intro i hi
    simp only [p, BitVec.getLsbD_and, Bool.and_eq_true] at hi ⊢
    simp [hx.disjoint c i hi.1]
  · have h16 : i < 16 := lt_trans hi (by decide)
    by_cases hin : ofst ≤ i ∧ i < ofst + n
    · have hk : p.kind i = .unlck := by
        simp [p, UnixShm.kind, getLsbD_shmMask hofst, hin]
      simp only [hk, fillSlots, hin, and_self, if_true]
      rw [Row.after_covers _ ((shmFlock_covers hn).2 hin)]
      exact (hx.slot i hi).clear hx.nodup hc (hheld i hin.1 hin.2)
    · refine hx.slot_out hi ?_ (by simp [fillSlots, hin])
        (Row.after_not_covers _ fun h => hin ((shmFlock_covers hn).1 h))
      simp only [p, UnixShm.kind, BitVec.getLsbD_and, BitVec.getLsbD_not, getLsbD_shmMask hofst, hin,
        h16, decide_true, decide_false, Bool.not_false, Bool.and_true]

theorem ShmInv.unlock (hx : ShmInv x) (hs : (x.st.shm c).stage = .mapped) {flags : ShmFlags}
    (hflags : flags = .unlockShared ∨ flags = .unlockExclusive)
    (hlegal : ShmLegal (x.st.shm c) ofst n flags)
    (hwork : ((x.st.shm c).exclMask ||| (x.st.shm c).sharedMask) &&& shmMask ofst n ≠ 0) :
    let r := unixShmUnlock (x.st.shm c) x.st.aLock ofst n flags ok
    ShmInv ⟨{ x.st with shm := Function.update x.st.shm c r.p, aLock := r.aLock },
      x.row.after r.call⟩ := by
  have hc : c ∈ x.st.pFirst := (hx.mem c).2 hs
  obtain ⟨hn, hofst, hl⟩ := hlegal
  have hrd : flags = .unlockShared → n = 1 ∧ (x.st.shm c).kind ofst = .rdlck := by
    rintro rfl
    have hb := and_shmMask_eq_self (i := ofst) hofst (hl.2 hwork) le_rfl (by omega)
    refine ⟨hl.1, ?_⟩
    have he : (x.st.shm c).exclMask.getLsbD ofst = false := by
      by_contra he
      simp [hx.disjoint c ofst (by simpa using he)] at hb
    simp [UnixShm.kind, he, hb]
  unfold unixShmUnlock
  simp only
  split_ifs with hmany hok
  · -- siblings share the slot, and the record lock stays
    obtain ⟨rfl, hk⟩ := hrd hmany.1
    have hmask : ∀ i, (shmMask ofst 1).getLsbD i = decide (i = ofst) := by
      intro i
      rw [getLsbD_shmMask hofst]
      exact decide_eq_decide.2 (by omega)
    refine hx.request (r := ⟨{ x.st.shm c with
      sharedMask := (x.st.shm c).sharedMask &&& ~~~ shmMask ofst 1 },
      Function.update x.st.aLock ofst (x.st.aLock ofst - 1), .none, .ok⟩) hs hs ?_ fun i hi => ?_
    · intro i hi
      simp [hx.disjoint c i hi]
    · have h16 : i < 16 := lt_trans hi (by decide)
      by_cases hio : i = ofst
      · subst hio
        have he : (x.st.shm c).exclMask.getLsbD i = false := by
          unfold UnixShm.kind at hk
          split_ifs at hk with he
          simpa using he
        have hk' : UnixShm.kind { x.st.shm c with
            sharedMask := (x.st.shm c).sharedMask &&& ~~~ shmMask i 1 } i = .unlck := by
          simp [UnixShm.kind, he, hmask]
        rw [hk']
        simpa using (hx.slot i hi).unshare hx.nodup hc hmany.2 hk
      · refine hx.slot_out hi ?_ (by simp [hio]) rfl
        simp only [UnixShm.kind, BitVec.getLsbD_and, BitVec.getLsbD_not, hmask, hio, h16, decide_true,
          decide_false, Bool.not_false, Bool.and_true]
  · refine hx.clearSlots hs hn hofst fun i h1 h2 => ?_
    rcases hflags with rfl | rfl
    · obtain ⟨rfl, hk⟩ := hrd rfl
      obtain rfl : i = ofst := by omega
      exact .inr ⟨hk, not_lt.1 fun h => hmany ⟨rfl, h⟩⟩
    · have he := and_shmMask_eq_self hofst (hl hwork) h1 h2
      exact .inl (by simp [UnixShm.kind, he])
  · exact hx.unchanged hs .busy

theorem ShmInv.shmLock (hx : ShmInv x) (hs : (x.st.shm c).stage = .mapped) {flags : ShmFlags}
    (hlegal : ShmLegal (x.st.shm c) ofst n flags) :
    let r := unixShmLock (x.st.shm c) x.st.aLock ofst n flags ok
    ShmInv ⟨{ x.st with shm := Function.update x.st.shm c r.p, aLock := r.aLock },
      x.row.after r.call⟩ := by
  cases flags with
  | lockShared =>
    obtain ⟨-, hofst, rfl⟩ := hlegal
    unfold unixShmLock
    simp only
    split_ifs with h0
    · exact hx.lockShared hs hofst h0
    · exact hx.unchanged hs .ok
  | lockExclusive => exact hx.lockExclusive hs hlegal.1 hlegal.2.1 hlegal.2.2.1
  | unlockShared =>
    unfold unixShmLock
    simp only
    split_ifs with h0
    · exact hx.unchanged hs .ok
    · exact hx.unlock hs (.inl rfl) hlegal h0
  | unlockExclusive =>
    unfold unixShmLock
    simp only
    split_ifs with h0
    · exact hx.unchanged hs .ok
    · exact hx.unlock hs (.inr rfl) hlegal h0

theorem kind_zero {stage : ShmStage} {i : ℕ} : UnixShm.kind ⟨stage, 0, 0⟩ i = .unlck := by
  simp [UnixShm.kind]

/-- A connection comes, goes or is linked with nothing in any slot. -/
theorem ShmInv.restage (hx : ShmInv x) {p : UnixShm} {cs : List C} {nRef : ℕ}
    (hp : ∀ i, p.kind i = .unlck) (hc : ∀ i, (x.st.shm c).kind i = .unlck)
    (hdis : ∀ i, p.exclMask.getLsbD i = true → p.sharedMask.getLsbD i = false)
    (hn : cs.Nodup) (hmem : ∀ d, d ∈ cs ↔ (Function.update x.st.shm c p d).stage = .mapped)
    (hslot : ∀ kind a t, SlotOk x.st.pFirst kind a t → kind c = .unlck → SlotOk cs kind a t)
    (href : {d | (Function.update x.st.shm c p d).stage ≠ .absent}.encard = nRef) :
    ShmInv ⟨⟨Function.update x.st.shm c p, cs, nRef, x.st.aLock⟩, x.row⟩ where
  nodup := hn
  mem := hmem
  unheld d hd i := by
    by_cases hdc : d = c
    · subst hdc
      simpa using hp i
    · simp only [Function.update_of_ne hdc] at hd ⊢
      exact hx.unheld d hd i
  disjoint d i h := by
    by_cases hdc : d = c
    · subst hdc
      simp only [Function.update_self] at h ⊢
      exact hdis i h
    · simp only [Function.update_of_ne hdc] at h ⊢
      exact hx.disjoint d i h
  slot i hi := by
    simp only [kind_update, hp i, ← hc i, Function.update_eq_self]
    exact hslot _ _ _ (hx.slot i hi) (hc i)
  nRef := href

theorem nRef_add {file : C → UnixShm} {p : UnixShm} {n : ℕ}
    (hn : {d | (file d).stage ≠ .absent}.encard = n) (hc : (file c).stage = .absent)
    (hp : p.stage ≠ .absent) :
    {d | (Function.update file c p d).stage ≠ .absent}.encard = (n + 1 : ℕ) := by
  have hset : {d | (Function.update file c p d).stage ≠ .absent} =
      insert c {d | (file d).stage ≠ .absent} := by
    ext d
    by_cases hd : d = c <;> simp [hd, hp]
  rw [hset, Set.encard_insert_of_notMem (by simpa using hc), hn]
  rfl

theorem nRef_keep {file : C → UnixShm} {p : UnixShm} {n : ℕ}
    (hn : {d | (file d).stage ≠ .absent}.encard = n) (hc : (file c).stage ≠ .absent)
    (hp : p.stage ≠ .absent) :
    {d | (Function.update file c p d).stage ≠ .absent}.encard = n := by
  have hset : {d | (Function.update file c p d).stage ≠ .absent} =
      {d | (file d).stage ≠ .absent} := by
    ext d
    by_cases hd : d = c <;> simp [hd, hp, hc]
  rw [hset, hn]

theorem nRef_remove {file : C → UnixShm} {p : UnixShm} {n : ℕ}
    (hn : {d | (file d).stage ≠ .absent}.encard = n) (hc : (file c).stage ≠ .absent)
    (hp : p.stage = .absent) :
    {d | (Function.update file c p d).stage ≠ .absent}.encard = (n - 1 : ℕ) := by
  have hset : {d | (Function.update file c p d).stage ≠ .absent} =
      {d | (file d).stage ≠ .absent} \ {c} := by
    ext d
    by_cases hd : d = c <;> simp [hd, hp]
  have hadd := Set.encard_sdiff_singleton_add_one (s := {d | (file d).stage ≠ .absent}) (a := c) hc
  rw [hn] at hadd
  rw [hset]
  cases n with
  | zero => simp at hadd
  | succ m => simpa using hadd

/-- No connection is unmapped that has a lock. -/
def ShmProcess.Regular (s : ShmProcess C) : ShmAct C → Prop
  | .unmap c => (s.shm c).sharedMask = 0 ∧ (s.shm c).exclMask = 0
  | _ => True

/-- A step that unmaps no lock keeps the invariant of its process. -/
theorem ShmInv.step (hx : ShmInv x) {a : ShmAct C} (hreg : x.st.Regular a) {s : ShmProcess C}
    {call : SysCall} (hstep : x.st.step a = some (s, call)) : ShmInv ⟨s, x.row.after call⟩ := by
  cases a with
  | openShm c =>
    simp only [ShmProcess.step] at hstep
    split at hstep
    · rename_i hs
      cases hstep
      refine hx.restage (fun i => kind_zero) (hx.unheld c (by simp [hs])) (by simp) hx.nodup
        (fun d => ?_) (fun _ _ _ h _ => h) (nRef_add hx.nRef hs (by simp))
      by_cases hd : d = c
      · subst hd
        simp [hx.mem d, hs]
      · simp [hd, hx.mem d]
    · cases hstep
  | link c =>
    simp only [ShmProcess.step] at hstep
    split at hstep
    · rename_i hs
      cases hstep
      have hout : c ∉ x.st.pFirst := fun h => by simp [(hx.mem c).1 h] at hs
      have hk := hx.unheld c (by simp [hs])
      refine hx.restage (fun i => ?_) hk (hx.disjoint c) (List.nodup_cons.2 ⟨hout, hx.nodup⟩)
        (fun d => ?_) (fun _ _ _ h hk => h.link hk) (nRef_keep hx.nRef (by simp [hs]) (by simp))
      · exact hk i
      · by_cases hd : d = c
        · subst hd
          simp
        · simp [hd, hx.mem d]
    · cases hstep
  | shmLock c ofst n flags ok =>
    simp only [ShmProcess.step] at hstep
    split at hstep
    · rename_i hs
      cases hstep
      exact hx.shmLock hs.1 hs.2
    · cases hstep
  | unmap c =>
    simp only [ShmProcess.step] at hstep
    split at hstep
    · rename_i hs
      cases hstep
      have hc := (hx.mem c).2 hs
      have hk : ∀ i, (x.st.shm c).kind i = .unlck := fun i => by
        simp [UnixShm.kind, hreg.1, hreg.2]
      refine hx.restage (fun i => kind_zero) hk (by simp) (hx.nodup.erase c)
        (fun d => ?_) (fun _ _ _ h hk => h.erase hx.nodup hc hk)
        (nRef_keep hx.nRef (by simp [hs]) (by simp))
      by_cases hd : d = c
      · subst hd
        simp [hx.nodup.mem_erase_iff]
      · simp [hd, hx.nodup.mem_erase_iff, hx.mem d]
    · cases hstep
  | unref c =>
    simp only [ShmProcess.step] at hstep
    split at hstep
    · rename_i hs
      have hk := hx.unheld c (by simp [hs])
      have href := nRef_remove (c := c) (p := ⟨.absent, 0, 0⟩) hx.nRef (by simp [hs]) rfl
      split at hstep
      · rename_i hlast
        cases hstep
        have hmem : ∀ d, (Function.update x.st.shm c ⟨.absent, 0, 0⟩ d).stage = .absent := by
          rw [hlast, Nat.cast_zero, Set.encard_eq_zero, Set.eq_empty_iff_forall_notMem] at href
          exact fun d => not_not.1 (href d)
        refine ⟨List.nodup_nil, fun d => ?_, fun d _ i => ?_, fun d i h => ?_,
          fun i _ => SlotOk.nil, hlast ▸ href⟩
        · change d ∈ [] ↔ (Function.update x.st.shm c ⟨.absent, 0, 0⟩ d).stage = .mapped
          rw [hmem d]
          simp
        · by_cases hd : d = c
          · subst hd
            simpa using kind_zero
          · have h := hmem d
            simp only [Function.update_of_ne hd] at h ⊢
            exact hx.unheld d (by simp [h]) i
        · by_cases hd : d = c
          · subst hd
            simp
          · simp only [Function.update_of_ne hd] at h ⊢
            exact hx.disjoint d i h
      · cases hstep
        refine hx.restage (fun i => kind_zero) hk (by simp) hx.nodup (fun d => ?_)
          (fun _ _ _ h _ => h) href
        by_cases hd : d = c
        · subst hd
          simp [hx.mem d, hs]
        · simp [hd, hx.mem d]
    · cases hstep
  | die =>
    cases hstep
    exact shmInv_fresh fun _ => rfl

end Invariant

section Run

variable {P C : Type} [DecidableEq P] [DecidableEq C] {s : P → Process (ShmProcess C)}

/-- A request that fails asks nothing of the system and leaves masks and counts. -/
theorem unixShmLock_busy {p : UnixShm} {aLock : ℕ → ℤ} {ofst n : ℕ} {flags : ShmFlags} {ok : Bool}
    (h : (unixShmLock p aLock ofst n flags ok).rc = .busy) :
    unixShmLock p aLock ofst n flags ok = ⟨p, aLock, .none, .busy⟩ := by
  cases flags <;>
    simp only [unixShmLock, unixShmLockShared, unixShmLockExclusive, unixShmUnlock] at h ⊢ <;>
    split_ifs at h ⊢ <;> simp_all

/-- What holds in every state, with `p` for a process and `c` for one of its connections. -/
structure ShmLocksSafe (s : P → Process (ShmProcess C)) : Prop where
  aLock : ∀ p, assertLockingArrayOk ((s p).st.pFirst.map (s p).st.shm) (s p).st.aLock
  system : ∀ p, ∀ i < shmNLock, (s p).row (unixShmBase + i) =
    strongest ((s p).st.pFirst.map fun c => ((s p).st.shm c).kind i)
  exclusive : ∀ p c q d, ∀ i < shmNLock, ((s p).st.shm c).kind i = .wrlck →
    ((s q).st.shm d).kind i ≠ .unlck → p = q ∧ c = d
  failed : ∀ p c ofst n flags ok s',
    (unixShmLock ((s p).st.shm c) (s p).st.aLock ofst n flags ok).rc = .busy →
    (unixShmMachine C).Step s p (.shmLock c ofst n flags ok) s' → s' = s

theorem shmInv_run (hrun : (unixShmMachine C).Run ShmProcess.Regular s) : ∀ p, ShmInv (s p) :=
  hrun.invariant (shmInv_fresh fun _ => rfl) fun _ _ _ _ hx hreg hstep => hx.step hreg hstep

omit [DecidableEq C] in
/-- A connection with something in a slot is on the list. -/
theorem ShmInv.mem_of_held {x : Process (ShmProcess C)} (hx : ShmInv x) {c : C} {i : ℕ}
    (h : (x.st.shm c).kind i ≠ .unlck) : c ∈ x.st.pFirst := by
  rw [hx.mem]
  by_contra hs
  exact h (hx.unheld c hs i)

/-- The lock table is right in every state of a run that unmaps no lock. -/
theorem unixShmLock_safe (hrun : (unixShmMachine C).Run ShmProcess.Regular s) :
    ShmLocksSafe s := by
  have hx := shmInv_run hrun
  refine ⟨fun p i hi => ((hx p).slot i hi).lockingArray (hx p).nodup,
    fun p i hi => ((hx p).slot i hi).system, ?_, ?_⟩
  · intro p c q d i hi hc hd
    have hcm : c ∈ (s p).st.pFirst := (hx p).mem_of_held (i := i) (by simp [hc])
    have hdm : d ∈ (s q).st.pFirst := (hx q).mem_of_held hd
    have hp := (hx p).slot i hi
    have hq := (hx q).slot i hi
    by_cases hpq : p = q
    · subst hpq
      refine ⟨rfl, ?_⟩
      by_contra hne
      exact hd ((hp.alone hcm hc).2 d hdm (Ne.symm hne))
    · -- the record locks of two processes exclude each other
      have hw : (s p).row (unixShmBase + i) = .wrlck := by
        rw [hp.system, strongest, if_pos (List.mem_map.2 ⟨c, hcm, hc⟩)]
      have hu := hrun.coherent p q _ hpq hw
      simp only [hq.system, strongest] at hu
      split_ifs at hu with hw' hr'
      have hkd : ((s q).st.shm d).kind i = .unlck := by
        cases hk : ((s q).st.shm d).kind i with
        | unlck => rfl
        | rdlck => exact absurd (List.mem_map.2 ⟨d, hdm, hk⟩) hr'
        | wrlck => exact absurd (List.mem_map.2 ⟨d, hdm, hk⟩) hw'
      exact absurd hkd hd
  · intro p c ofst n flags ok s' hbusy hstep
    obtain ⟨t, call, hst, -, rfl⟩ := hstep
    simp only [unixShmMachine, ShmProcess.step, unixShmLock_busy hbusy] at hst
    split at hst
    · cases hst
      simp
    · cases hst

/-- Two connections of a process; the one that shares a slot is unmapped. -/
def staleActs : List (Unit × ShmAct Bool) :=
  [((), .openShm false), ((), .link false), ((), .openShm true), ((), .link true),
    ((), .shmLock false 3 1 .lockShared true)]

def staleState : Unit → Process (ShmProcess Bool) :=
  (unixShmMachine Bool).exec (fun _ => ⟨ShmProcess.fresh, fun _ => .unlck⟩) staleActs

theorem staleState_run : (unixShmMachine Bool).Run ShmProcess.Regular staleState := by
  refine Machine.Run.exec .init ?_
  refine ⟨trivial, trivial, trivial, trivial, trivial, trivial, trivial, trivial, trivial, ?_,
    trivial⟩
  exact fun q hq => absurd (Subsingleton.elim q ()) hq

theorem unixShmLock_safe_stale : ShmLocksSafe staleState := unixShmLock_safe staleState_run

/-- The count and the record lock of the slot stay behind with no connection to hold it. -/
theorem unixShmUnmap_stale : ∃ s' : Unit → Process (ShmProcess Bool),
    (unixShmMachine Bool).Run (fun _ _ => True) s' ∧
    (unixShmMachine Bool).Step staleState () (.unmap false) s' ∧
    ¬ assertLockingArrayOk ((s' ()).st.pFirst.map (s' ()).st.shm) (s' ()).st.aLock ∧
    (s' ()).row (unixShmBase + 3) = .rdlck ∧
    strongest ((s' ()).st.pFirst.map fun c => ((s' ()).st.shm c).kind 3) = .unlck := by
  have hstep : (unixShmMachine Bool).Step staleState () (.unmap false) _ :=
    ⟨_, _, rfl, trivial, rfl⟩
  refine ⟨_, (staleState_run.mono fun _ _ _ => trivial).snoc trivial hstep, hstep, fun h => ?_,
    by rfl, by rfl⟩
  have h3 := h 3 (by decide)
  exact absurd h3 (by decide)

end Run

end Btreelite
