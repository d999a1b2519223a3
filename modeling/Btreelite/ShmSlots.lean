import Btreelite.ShmLock
import Mathlib.Data.Set.Card

/-!
# One slot of the lock table

What the connections of a process hold in one slot, what `aLock` says of it and which record lock
stands for it: either one connection has the slot for itself, or some share it.
-/

namespace Btreelite

open Posix

/-- What a connection holds in slot `i`. -/
def UnixShm.kind (p : UnixShm) (i : ℕ) : LockType :=
  if p.exclMask.getLsbD i then .wrlck else if p.sharedMask.getLsbD i then .rdlck else .unlck

/-- The strongest of some locks. -/
def strongest (ts : List LockType) : LockType :=
  if .wrlck ∈ ts then .wrlck else if .rdlck ∈ ts then .rdlck else .unlck

section Slot

variable {C : Type} {cs : List C} {kind : C → LockType} {a : ℤ} {t : LockType} {c : C}

/-- The connections `cs` hold `kind` in a slot, `aLock` says `a` and the record lock is `t`. -/
structure SlotOk (cs : List C) (kind : C → LockType) (a : ℤ) (t : LockType) : Prop where
  system : t = strongest (cs.map kind)
  aLock : (a = -1 ∧ ∃ c ∈ cs, kind c = .wrlck ∧ ∀ d ∈ cs, d ≠ c → kind d = .unlck) ∨
    (a = cs.countP (fun c => kind c = .rdlck) ∧ ∀ d ∈ cs, kind d ≠ .wrlck)

namespace SlotOk

theorem nil : SlotOk ([] : List C) kind 0 .unlck := ⟨rfl, .inr ⟨rfl, by simp⟩⟩

theorem congr {kind' : C → LockType} (h : SlotOk cs kind a t)
    (hk : ∀ c ∈ cs, kind' c = kind c) : SlotOk cs kind' a t := by
  refine ⟨h.system.trans (congrArg strongest (List.map_congr_left fun c hc => (hk c hc).symm)), ?_⟩
  rcases h.aLock with ⟨ha, c, hc, hw, hd⟩ | ⟨ha, hd⟩
  · exact .inl ⟨ha, c, hc, (hk c hc).trans hw, fun d hdc hne => (hk d hdc).trans (hd d hdc hne)⟩
  · refine .inr ⟨?_, fun d hdc => by rw [hk d hdc]; exact hd d hdc⟩
    rw [ha, List.countP_congr]
    intro c hc
    rw [hk c hc]

/-- An exclusive holder is alone. -/
theorem alone (h : SlotOk cs kind a t) (hc : c ∈ cs) (hk : kind c = .wrlck) :
    a = -1 ∧ ∀ d ∈ cs, d ≠ c → kind d = .unlck := by
  rcases h.aLock with ⟨ha, e, -, -, hd⟩ | ⟨-, hd⟩
  · have hce : c = e := by
      by_contra hne
      simp [hd c hc hne] at hk
    exact ⟨ha, hce ▸ hd⟩
  · exact absurd hk (hd c hc)

theorem shared (h : SlotOk cs kind a t) (ha : 0 ≤ a) :
    a = cs.countP (fun c => kind c = .rdlck) ∧ ∀ d ∈ cs, kind d ≠ .wrlck :=
  h.aLock.resolve_left fun h1 => by omega

/-- No connection holds a slot that counts to zero. -/
theorem unlck_of_zero (h : SlotOk cs kind 0 t) (hc : c ∈ cs) : kind c = .unlck := by
  obtain ⟨ha, hd⟩ := h.shared le_rfl
  have h0 := hd c hc
  cases hk : kind c with
  | unlck => rfl
  | wrlck => exact absurd hk h0
  | rdlck =>
    have hpos : 0 < cs.countP (fun c => kind c = .rdlck) :=
      List.countP_pos_iff.2 ⟨c, hc, by simp [hk]⟩
    omega

variable [DecidableEq C]

/-- A connection counts itself once. -/
theorem countP_erase (kind : C → LockType) (hn : cs.Nodup) (hc : c ∈ cs) (l : LockType) :
    cs.countP (fun d => Function.update kind c l d = .rdlck) =
      (cs.erase c).countP (fun d => kind d = .rdlck) + if l = .rdlck then 1 else 0 := by
  rw [(List.perm_cons_erase hc).countP_eq, List.countP_cons, Function.update_self]
  have hcongr : (cs.erase c).countP (fun d => Function.update kind c l d = .rdlck) =
      (cs.erase c).countP (fun d => kind d = .rdlck) := by
    refine List.countP_congr fun d hd => ?_
    rw [Function.update_of_ne ((hn.mem_erase_iff.1 hd).1)]
  rw [hcongr]
  simp

theorem countP_self (kind : C → LockType) (hn : cs.Nodup) (hc : c ∈ cs) :
    cs.countP (fun d => kind d = .rdlck) =
      (cs.erase c).countP (fun d => kind d = .rdlck) + if kind c = .rdlck then 1 else 0 := by
  have h := countP_erase kind hn hc (kind c)
  rwa [Function.update_eq_self] at h

theorem mem_update {l t : LockType} (hc : c ∈ cs) :
    t ∈ cs.map (Function.update kind c l) ↔ t = l ∨ ∃ d ∈ cs, d ≠ c ∧ kind d = t := by
  rw [List.mem_map]
  constructor
  · rintro ⟨d, hd, rfl⟩
    by_cases hdc : d = c
    · subst hdc
      exact .inl (Function.update_self ..)
    · exact .inr ⟨d, hd, hdc, (Function.update_of_ne hdc ..).symm⟩
  · rintro (rfl | ⟨d, hd, hdc, rfl⟩)
    · exact ⟨c, hc, Function.update_self ..⟩
    · exact ⟨d, hd, Function.update_of_ne hdc ..⟩

/-- One more connection shares the slot. -/
theorem share (h : SlotOk cs kind a t) (hn : cs.Nodup) (hc : c ∈ cs) (ha : 0 ≤ a)
    (hk : kind c = .unlck) : SlotOk cs (Function.update kind c .rdlck) (a + 1) .rdlck := by
  obtain ⟨hcount, hd⟩ := h.shared ha
  have hw : LockType.wrlck ∉ cs.map (Function.update kind c .rdlck) := by
    rw [mem_update hc]
    rintro (h1 | ⟨d, hdc, -, hdk⟩)
    · cases h1
    · exact hd d hdc hdk
  refine ⟨?_, .inr ⟨?_, fun d hdc hdk => hw (List.mem_map.2 ⟨d, hdc, hdk⟩)⟩⟩
  · rw [strongest, if_neg hw, if_pos ((mem_update hc).2 (.inl rfl))]
  · rw [countP_erase kind hn hc, if_pos rfl, hcount, countP_self kind hn hc, if_neg (by simp [hk])]
    simp

/-- A connection takes a free slot for itself. -/
theorem exclude (h : SlotOk cs kind 0 t) (hc : c ∈ cs) :
    SlotOk cs (Function.update kind c .wrlck) (-1) .wrlck := by
  refine ⟨?_, .inl ⟨rfl, c, hc, Function.update_self .., fun d hd hdc => ?_⟩⟩
  · rw [strongest, if_pos ((mem_update hc).2 (.inl rfl))]
  · rw [Function.update_of_ne hdc]
    exact h.unlck_of_zero hd

/-- One of several that share the slot gives it up. -/
theorem unshare (h : SlotOk cs kind a t) (hn : cs.Nodup) (hc : c ∈ cs) (ha : 1 < a)
    (hk : kind c = .rdlck) : SlotOk cs (Function.update kind c .unlck) (a - 1) t := by
  obtain ⟨hcount, hd⟩ := h.shared (by omega)
  have hself := countP_self kind hn hc
  rw [if_pos hk] at hself
  have hw : LockType.wrlck ∉ cs.map kind := fun hm => by
    obtain ⟨d, hdc, hdk⟩ := List.mem_map.1 hm
    exact hd d hdc hdk
  have hr : LockType.rdlck ∈ cs.map kind := List.mem_map.2 ⟨c, hc, hk⟩
  have hw' : LockType.wrlck ∉ cs.map (Function.update kind c .unlck) := by
    rw [mem_update hc]
    rintro (h1 | ⟨d, hdc, -, hdk⟩)
    · cases h1
    · exact hd d hdc hdk
  have hr' : LockType.rdlck ∈ cs.map (Function.update kind c .unlck) := by
    rw [mem_update hc]
    have hpos : 0 < (cs.erase c).countP (fun d => kind d = .rdlck) := by omega
    obtain ⟨d, hde, hdk⟩ := List.countP_pos_iff.1 hpos
    obtain ⟨hdc, hdm⟩ := hn.mem_erase_iff.1 hde
    exact .inr ⟨d, hdm, hdc, by simpa using hdk⟩
  refine ⟨?_, .inr ⟨?_, fun d hdc hdk => hw' (List.mem_map.2 ⟨d, hdc, hdk⟩)⟩⟩
  · rw [h.system, strongest, strongest, if_neg hw, if_neg hw', if_pos hr, if_pos hr']
  · rw [countP_erase kind hn hc, if_neg (by simp)]
    omega

/-- The only holder of a slot gives it up. -/
theorem clear (h : SlotOk cs kind a t) (hn : cs.Nodup) (hc : c ∈ cs)
    (hk : kind c = .wrlck ∨ kind c = .rdlck ∧ a ≤ 1) :
    SlotOk cs (Function.update kind c .unlck) 0 .unlck := by
  have hothers : ∀ d ∈ cs, d ≠ c → kind d = .unlck := by
    rcases hk with hk | ⟨hk, ha⟩
    · exact (h.alone hc hk).2
    · intro d hd hdc
      rcases h.aLock with ⟨-, e, he, hew, hed⟩ | ⟨hcount, hno⟩
      · by_cases hce : c = e
        · subst hce
          simp [hk] at hew
        · simp [hed c hc hce] at hk
      · have hself := countP_self kind hn hc
        rw [if_pos hk] at hself
        have hzero : (cs.erase c).countP (fun d => kind d = .rdlck) = 0 := by omega
        have hr : kind d ≠ .rdlck := by
          simpa using List.countP_eq_zero.1 hzero d (hn.mem_erase_iff.2 ⟨hdc, hd⟩)
        have hw := hno d hd
        cases hkd : kind d <;> simp_all
  have hall : ∀ d ∈ cs, Function.update kind c .unlck d = .unlck := by
    intro d hd
    by_cases hdc : d = c
    · simp [hdc]
    · rw [Function.update_of_ne hdc, hothers d hd hdc]
  have hno : ∀ t ∈ cs.map (Function.update kind c .unlck), t = .unlck := by
    intro t ht
    obtain ⟨d, hd, rfl⟩ := List.mem_map.1 ht
    exact hall d hd
  refine ⟨?_, .inr ⟨?_, fun d hd => by simp [hall d hd]⟩⟩
  · have hw : LockType.wrlck ∉ cs.map (Function.update kind c .unlck) := fun h => by
      simpa using hno _ h
    have hr : LockType.rdlck ∉ cs.map (Function.update kind c .unlck) := fun h => by
      simpa using hno _ h
    rw [strongest, if_neg hw, if_neg hr]
  · rw [List.countP_eq_zero.2 fun d hd => by simp [hall d hd]]
    rfl

omit [DecidableEq C] in
/-- A connection that holds nothing comes to the list. -/
theorem link (h : SlotOk cs kind a t) (hk : kind c = .unlck) : SlotOk (c :: cs) kind a t := by
  refine ⟨?_, ?_⟩
  · rw [h.system]
    simp [strongest, hk]
  · rcases h.aLock with ⟨ha, e, he, hw, hd⟩ | ⟨ha, hd⟩
    · refine .inl ⟨ha, e, by simp [he], hw, ?_⟩
      intro d hdc hde
      rcases List.mem_cons.1 hdc with rfl | hdc
      · exact hk
      · exact hd d hdc hde
    · refine .inr ⟨by simp [hk, ha], ?_⟩
      intro d hdc
      rcases List.mem_cons.1 hdc with rfl | hdc
      · simp [hk]
      · exact hd d hdc

/-- A connection that holds nothing leaves the list. -/
theorem erase (h : SlotOk cs kind a t) (hn : cs.Nodup) (hc : c ∈ cs) (hk : kind c = .unlck) :
    SlotOk (cs.erase c) kind a t := by
  have hmem : ∀ l ≠ LockType.unlck, l ∈ (cs.erase c).map kind ↔ l ∈ cs.map kind := by
    intro l hl
    simp only [List.mem_map, hn.mem_erase_iff]
    constructor
    · rintro ⟨d, ⟨-, hd⟩, rfl⟩
      exact ⟨d, hd, rfl⟩
    · rintro ⟨d, hd, rfl⟩
      exact ⟨d, ⟨fun hdc => hl (hdc ▸ hk), hd⟩, rfl⟩
  refine ⟨?_, ?_⟩
  · rw [h.system, strongest, strongest, if_congr (hmem _ (by simp)).symm rfl
      (if_congr (hmem _ (by simp)).symm rfl rfl)]
  · rcases h.aLock with ⟨ha, e, he, hw, hd⟩ | ⟨ha, hd⟩
    · refine .inl ⟨ha, e, hn.mem_erase_iff.2 ⟨fun hec => ?_, he⟩, hw,
        fun d hde hne => hd d (List.mem_of_mem_erase hde) hne⟩
      simp [← hec, hw] at hk
    · refine .inr ⟨?_, fun d hde => hd d (List.mem_of_mem_erase hde)⟩
      rw [ha, countP_self kind hn hc, if_neg (by simp [hk])]
      rfl

end SlotOk

end Slot

end Btreelite
