import Btreelite.CursorFlags
import Btreelite.KeyedList
import Mathlib.Order.Interval.Set.Basic

/-!
# Positions

What a cursor stands for: the key of an entry, which need not be there any more when the cursor was saved,
or nothing. A cursor through which an entry was deleted may stand anywhere. The moves of `CursorApi` are
stated here over the map a tree stands for.
-/

namespace Btreelite

open Prog Segment KeyedList

abbrev KvMap := Key → Option (List UInt8)

namespace KvMap

def dom (M : KvMap) : Set Key := {k | M k ≠ none}

end KvMap

/-- The map from the keys of a tree to its values. -/
def Tree.map (T : Tree) : KvMap := lookup Entry.key Entry.value T.es

/-- Where a cursor is. -/
inductive Pos
  | entry (k : Key)
  | off
  | stray

/-- Where a search for `key` may leave a cursor: at the key or at a neighbour of it, if there is one. -/
def Near (M : KvMap) (key : Key) : Pos → Prop
  | .entry k => k = key ∧ key ∈ M.dom
      ∨ key ∉ M.dom ∧ (IsGreatest (M.dom ∩ Set.Iio key) k ∨ IsLeast (M.dom ∩ Set.Ioi key) k)
  | .off => M.dom = ∅
  | .stray => False

/-- The place of the least element of `s`, or none. -/
def LeastOf (s : Set Key) : Pos → Prop
  | .entry k => IsLeast s k
  | .off => s = ∅
  | .stray => False

/-- The place of the greatest element of `s`, or none. -/
def GreatestOf (s : Set Key) : Pos → Prop
  | .entry k => IsGreatest s k
  | .off => s = ∅
  | .stray => False

/-- The cursor is on entry `e`, number `i`, and what it keeps of the entry is right. -/
structure Parked (g : Geometry) (page : Nat → PageData) (T : Tree) (dep : Nat) (c : BtCursor) (i : Nat)
    (e : Entry) : Prop where
  atEntry : AtEntry g page T dep c i
  get : T.es[i]? = some e
  last : c.atLast = true → i + 1 = T.es.length
  ovfl : c.validOvfl = true → CacheOk e.ovfl c.aOverflow

/-- The cursor was saved at key `k`. -/
structure SavedAt (root : Nat) (c : BtCursor) (k : Key) : Prop where
  root : c.pgnoRoot = root
  eState : c.eState = .requireseek
  path : c.path = []
  pKey : c.pKey = k
  skipNext : c.skipNext = 0

/-- The cursor is at `pos`. -/
def AtPos (g : Geometry) (page : Nat → PageData) (T : Tree) (dep : Nat) (c : BtCursor) : Pos → Prop
  | .entry k => (∃ i e, Parked g page T dep c i e ∧ e.key = k) ∨ SavedAt T.root c k
  | .off => Rooted T c ∧ c.eState = .invalid
  | .stray => (∃ i e, Parked g page T dep c i e) ∨ (∃ k, SavedAt T.root c k)
      ∨ Rooted T c ∧ c.eState = .invalid ∨ AtRoot T c ∧ c.validNKey = false

/-- The cursor is at `pos` of whatever tree has the root: it is on no page. -/
def Away (root : Nat) (c : BtCursor) : Pos → Prop
  | .entry k => SavedAt root c k
  | .off => c.pgnoRoot = root ∧ c.path = [] ∧ c.eState = .invalid
  | .stray => (∃ k, SavedAt root c k) ∨ c.pgnoRoot = root ∧ c.path = [] ∧ c.eState = .invalid

section Trees

variable {g : Geometry} {page : Nat → PageData} {T : Tree} {dep i : Nat} {c : BtCursor} {pos : Pos} {k : Key}

theorem Tree.Ok.ascending (h : T.Ok g page) : Ascending Entry.key T.es := by
  obtain ⟨dep, h⟩ := h
  exact IsTree.pairwise ⟨dep, h⟩

theorem Tree.mem_dom : k ∈ T.map.dom ↔ k ∈ keys Entry.key T.es := lookup_ne_none

theorem Tree.dom_eq : T.map.dom = keys Entry.key T.es := Set.ext fun _ => Tree.mem_dom

theorem Tree.dom_empty (h : T.es = []) : T.map.dom = ∅ := by
  rw [Tree.dom_eq, h]
  simp [keys]

/-- The entry at a cut is the least of those behind it. -/
theorem Tree.Ok.cut_least {P : Key → Prop} {n : Nat} {s : Set Key} (h : T.Ok g page)
    (hc : Cut Entry.key T.es P n) (hs : ∀ x, x ∈ s ↔ x ∈ T.map.dom ∧ ¬ P x) :
    (∀ e, T.es[n]? = some e → IsLeast s e.key) ∧ (T.es.length ≤ n → s = ∅) := by
  have hset : s = {k | k ∈ keys Entry.key T.es ∧ ¬ P k} := by
    ext x
    rw [hs, Tree.mem_dom]
    rfl
  rw [hset]
  exact ⟨fun e he => hc.isLeast h.ascending he, hc.all⟩

theorem Tree.Ok.cut_greatest {P : Key → Prop} {n : Nat} {s : Set Key} (h : T.Ok g page)
    (hc : Cut Entry.key T.es P n) (hs : ∀ x, x ∈ s ↔ x ∈ T.map.dom ∧ P x) :
    (∀ e, T.es[n - 1]? = some e → n ≠ 0 → IsGreatest s e.key) ∧ (n = 0 → s = ∅) := by
  have hset : s = {k | k ∈ keys Entry.key T.es ∧ P k} := by
    ext x
    rw [hs, Tree.mem_dom]
    rfl
  rw [hset]
  refine ⟨fun e he hn => ?_, fun h0 => ?_⟩
  · obtain ⟨m, rfl⟩ := Nat.exists_eq_succ_of_ne_zero hn
    exact hc.isGreatest h.ascending he
  · subst h0
    exact hc.none

theorem Parked.rooted {e : Entry} (h : Parked g page T dep c i e) : Rooted T c :=
  h.atEntry.onEntry.rooted h.atEntry.root

theorem SavedAt.rooted (h : SavedAt T.root c k) : Rooted T c := ⟨h.root, fun h' => absurd h.path h'⟩

theorem AtRoot.rooted (h : AtRoot T c) : Rooted T c := ⟨h.root, fun _ => by rw [h.path]; rfl⟩

theorem AtPos.rooted (h : AtPos g page T dep c pos) : Rooted T c := by
  cases pos with
  | entry k =>
    obtain ⟨i, e, h, -⟩ | h := h
    · exact h.rooted
    · exact h.rooted
  | off => exact h.1
  | stray =>
    obtain ⟨i, e, h⟩ | ⟨k, h⟩ | h | h := h
    · exact h.rooted
    · exact h.rooted
    · exact h.1
    · exact h.1.rooted

theorem AtPos.noFault (h : AtPos g page T dep c pos) (e : Rc) : c.eState ≠ .fault e := by
  cases pos with
  | entry k =>
    obtain ⟨i, e, h, -⟩ | h := h
    · simp [h.atEntry.eState]
    · simp [h.eState]
  | off => simp [h.2]
  | stray =>
    obtain ⟨i, e, h⟩ | ⟨k, h⟩ | h | h := h
    · simp [h.atEntry.eState]
    · simp [h.eState]
    · simp [h.2]
    · simp [h.1.eState]

theorem AtPos.ne_skipnext (h : AtPos g page T dep c pos) : c.eState ≠ .skipnext := by
  cases pos with
  | entry k =>
    obtain ⟨i, e, h, -⟩ | h := h
    · simp [h.atEntry.eState]
    · simp [h.eState]
  | off => simp [h.2]
  | stray =>
    obtain ⟨i, e, h⟩ | ⟨k, h⟩ | h | h := h
    · simp [h.atEntry.eState]
    · simp [h.eState]
    · simp [h.2]
    · simp [h.1.eState]

/-- A valid cursor is on an entry, or still where `moveToRoot` left it. -/
theorem AtPos.valid (h : AtPos g page T dep c pos) (hst : c.eState = .valid) :
    (∃ i e, Parked g page T dep c i e ∧ (∀ k, pos = .entry k → e.key = k))
      ∨ AtRoot T c ∧ c.validNKey = false ∧ pos = .stray := by
  cases pos with
  | entry k =>
    obtain ⟨i, e, h, rfl⟩ | h := h
    · exact Or.inl ⟨i, e, h, fun _ h' => Pos.entry.inj h'⟩
    · exact absurd (h.eState.symm.trans hst) (by simp)
  | off => exact absurd (h.2.symm.trans hst) (by simp)
  | stray =>
    obtain ⟨i, e, h⟩ | ⟨k, h⟩ | h | h := h
    · exact Or.inl ⟨i, e, h, by simp⟩
    · exact absurd (h.eState.symm.trans hst) (by simp)
    · exact absurd (h.2.symm.trans hst) (by simp)
    · exact Or.inr ⟨h.1, h.2, rfl⟩

theorem Parked.congr {page' : Nat → PageData} {e : Entry} (h : Parked g page T dep c i e)
    (hp : ∀ q ∈ T.pages, page' q = page q) : Parked g page' T dep c i e := by
  obtain ⟨⟨hr, hst, hcache, s, cur, ix, anc, hpath, hreach, hd, hix, hi⟩, hget, hlast, hovfl⟩ := h
  refine ⟨⟨hr, hst, fun hn p hpage => hcache hn p ?_, s, cur, ix, anc, hpath,
    ⟨hreach.place.congr hp, hreach.dep⟩, hd, hix, hi⟩, hget, hlast, hovfl⟩
  rw [BtCursor.pPage_eq hpath] at hpage ⊢
  rwa [hp cur hreach.place.mem_pages] at hpage

theorem AtPos.congr {page' : Nat → PageData} (h : AtPos g page T dep c pos)
    (hp : ∀ q ∈ T.pages, page' q = page q) : AtPos g page' T dep c pos := by
  cases pos with
  | entry k => exact h.imp_left fun ⟨i, e, h, hk⟩ => ⟨i, e, h.congr hp, hk⟩
  | off => exact h
  | stray => exact h.imp_left fun ⟨i, e, h⟩ => ⟨i, e, h.congr hp⟩

theorem Away.atPos (h : Away T.root c pos) : AtPos g page T dep c pos := by
  cases pos with
  | entry k => exact Or.inr h
  | off => exact ⟨⟨h.1, fun h' => absurd h.2.1 h'⟩, h.2.2⟩
  | stray =>
    obtain h | h := h
    · exact Or.inr (Or.inl h)
    · exact Or.inr (Or.inr (Or.inl ⟨⟨h.1, fun h' => absurd h.2.1 h'⟩, h.2.2⟩))

end Trees

/-! ## Searching -/

section Search

variable {g : Geometry} {v : Env Db} {T : Tree} {dep i : Nat} {c : BtCursor} {pos : Pos} {key : Key}
  {biasRight : Bool}

theorem allows_true : Allows T dep fun _ _ => True := ⟨fun _ _ _ _ => trivial, fun _ _ _ => trivial⟩

/-- Where a search leaves a cursor. -/
structure Found (g : Geometry) (page : Nat → PageData) (T : Tree) (dep : Nat) (key : Key) (r : Int)
    (c c' : BtCursor) : Prop where
  flags : Flags c c'
  empty : T.es = [] → r = -1 ∧ c'.pgnoRoot = T.root ∧ c'.eState = .invalid ∧ c'.path = [(T.root, 0)]
  sought : T.es ≠ [] → ∃ i e, Parked g page T dep c' i e ∧ Sought g page T dep key r c' i
    ∧ (r ≠ 0 → c'.validOvfl = false ∧ c'.atLast = false)

theorem sqlite3BtreeKvMoveto_found (hT : Standing g v.bt T dep) (h : AtPos g v.bt.page T dep c pos) :
    Moves (sqlite3BtreeKvMoveto g key biasRight) v c (fun r c' => Found g v.bt.page T dep key r c c')
      fun _ _ => True := by
  have hroot := h.rooted
  have h0 : c.pgnoRoot ≠ 0 := hroot.root ▸ hT.root_inRange.ne_zero
  have hpRoot : (c.path.getLast?.map Prod.fst).getD c.pgnoRoot = T.root := by
    by_cases hpath : c.path = []
    · simp [hpath, hroot.root]
    · simp [hroot.top hpath]
  refine ((sqlite3BtreeKvMoveto_moves hT allows_true hroot (fun _ _ _ => trivial) fun hf => ?_).and_cur
    (sqlite3BtreeKvMoveto_returns g key biasRight h0)).post ?_
  · obtain ⟨i, e, hp, -⟩ | ⟨-, hn, -⟩ := h.valid hf.1
    · exact ⟨i, hp.atEntry.onEntry⟩
    · exact absurd (hf.2.1.symm.trans hn) (by simp)
  rintro r c' ⟨⟨hans, -, hkeep, hfast⟩, hflags, hdrop⟩
  rw [hpRoot] at hdrop
  refine ⟨hflags, fun hes => ?_, fun hes => ?_⟩
  · obtain ⟨hr, hst⟩ := hans.empty hes
    refine ⟨hr, hans.rooted.root, hst, ?_⟩
    obtain ⟨-, rfl, hv, -⟩ | ⟨-, hv | hpath⟩ := hdrop
    · exact absurd (hst.symm.trans hv) (by simp)
    · exact absurd (hst.symm.trans hv) (by simp)
    · exact hpath
  obtain ⟨i, hi⟩ := hans.sought hes
  have hlt := hi.onEntry.lt
  obtain ⟨rfl, rfl, hv, hn⟩ | ⟨hv, -⟩ := hdrop
  · obtain ⟨i', e, hp, -⟩ | ⟨-, hn', -⟩ := h.valid hv
    · obtain rfl := hi.onEntry.unique hT.ok hp.atEntry.onEntry
      exact ⟨i, e, hp, hi, fun hr => absurd rfl hr⟩
    · exact absurd (hn.symm.trans hn') (by simp)
  · have hovfl : ∀ e : Entry, c'.validOvfl = true → CacheOk e.ovfl c'.aOverflow := fun e h1 =>
      absurd (h1.symm.trans hv.1) (by simp)
    have hkept : Cached g v.bt.page c' ∧ (c'.atLast = true → i + 1 = T.es.length) := by
      rcases hkeep with rfl | ⟨hn, hat⟩
      · obtain ⟨i', e, hp, -⟩ | ⟨hat, -⟩ := h.valid hi.eState
        · obtain rfl := hi.onEntry.unique hT.ok hp.atEntry.onEntry
          exact ⟨hp.atEntry.cached, hp.last⟩
        · exact ⟨fun hn => absurd hat.nSize hn, fun hl => absurd (hl.symm.trans hat.atLast) (by simp)⟩
      · exact ⟨fun h1 => absurd hn h1, fun hl => absurd (hl.symm.trans (hat hi.eState)) (by simp)⟩
    exact ⟨i, _, ⟨⟨hi.root, hi.eState, hkept.1, hi.onEntry⟩, List.getElem?_eq_getElem hlt, hkept.2, hovfl _⟩,
      hi, fun _ => hv⟩

/-- What a search finds, told by the map. -/
theorem Found.near {page : Nat → PageData} {r : Int} {c' : BtCursor} (hT : T.Ok g page)
    (h : Found g page T dep key r c c') : (r = 0 ↔ key ∈ T.map.dom) ∧
      ∃ pos', AtPos g page T dep c' pos' ∧ Near T.map key pos' ∧ (r = 0 → pos' = .entry key) := by
  by_cases hes : T.es = []
  · obtain ⟨rfl, hr, hst, hpath⟩ := h.empty hes
    refine ⟨by simp [Tree.dom_empty hes], .off, ⟨⟨hr, fun _ => by rw [hpath]; rfl⟩, hst⟩,
      Tree.dom_empty hes, by simp⟩
  obtain ⟨i, e, hp, hs, -⟩ := h.sought hes
  have hmem : key ∈ T.map.dom ↔ ∃ (j : Nat) (x : Entry), T.es[j]? = some x ∧ x.key = key := by
    rw [Tree.mem_dom]
    constructor
    · rintro ⟨x, hx, hk⟩
      obtain ⟨j, hj⟩ := List.mem_iff_getElem?.1 hx
      exact ⟨j, x, hj, hk⟩
    · rintro ⟨j, x, hj, hk⟩
      exact ⟨x, List.mem_of_getElem? hj, hk⟩
  have hat : AtPos g page T dep c' (.entry e.key) := Or.inl ⟨i, e, hp, rfl⟩
  by_cases hr : r = 0
  · obtain ⟨x, hx, hk⟩ := hs.nearest.found hr
    obtain rfl := Option.some.inj (hp.get.symm.trans hx)
    have hd : key ∈ T.map.dom := hmem.2 ⟨i, e, hp.get, hk⟩
    exact ⟨iff_of_true hr hd, .entry e.key, hat, Or.inl ⟨hk, hd⟩, fun _ => by rw [hk]⟩
  have hd : key ∉ T.map.dom := by
    rintro h
    obtain ⟨j, x, hj, hk⟩ := hmem.1 h
    exact hr ((hs.order hT hj).2.1 hk).1
  refine ⟨iff_of_false hr hd, .entry e.key, hat, Or.inr ⟨hd, ?_⟩, fun h => absurd h hr⟩
  have hcut : Cut Entry.key T.es (· < key) (i + if r < 0 then 1 else 0) := fun j x hj =>
    (hs.order hT hj).1.symm
  split_ifs at hcut with hneg
  · refine Or.inl ((hT.cut_greatest hcut fun x => ?_).1 e hp.get (Nat.succ_ne_zero i))
    exact Iff.rfl
  · refine Or.inr ((hT.cut_least hcut fun x => ?_).1 e hp.get)
    constructor
    · rintro ⟨hx, hlt⟩
      exact ⟨hx, hlt.not_gt⟩
    · rintro ⟨hx, hle⟩
      exact ⟨hx, lt_of_le_of_ne (not_lt.1 hle) fun h => hd (h ▸ hx)⟩

end Search

/-! ## Stepping -/

section Step

variable {g : Geometry} {v : Env Db} {T : Tree} {dep i : Nat} {c : BtCursor} {k : Key}

/-- A cursor at a key faces the keys behind it. -/
theorem AtPos.faces {page : Nat → PageData} (hT : T.Ok g page) (h : AtPos g page T dep c (.entry k)) :
    Seated g page T dep c ∧ ∃ f b, Faces g page T dep c f b ∧ Cut Entry.key T.es (· ≤ k) f
      ∧ Cut Entry.key T.es (· < k) b := by
  obtain ⟨i, e, hp, rfl⟩ | h := h
  · exact ⟨hp.atEntry.seated hp.last, i + 1, i, hp.atEntry.faces, hT.ascending.cut_le hp.get,
      hT.ascending.cut_lt hp.get⟩
  · have hloose : Loose T.root c := ⟨h.root, fun h' => absurd h.path h', fun _ => h.path⟩
    have hseat : Seated g page T dep c := hloose.seated hT (Or.inl h.eState)
    obtain ⟨f, b, hf⟩ := hseat.faces (Or.inr (Or.inr h.eState))
    refine ⟨hseat, f, b, hf, ?_, ?_⟩
    · unfold Faces at hf
      rw [h.eState, h.pKey, h.skipNext] at hf
      exact fun j e he => (hf.2.2.2 j e he).1.trans (by simp [le_iff_lt_or_eq])
    · unfold Faces at hf
      rw [h.eState, h.pKey, h.skipNext] at hf
      exact fun j e he => (hf.2.2.2 j e he).2.trans (by simp)

/-- A cursor a step has moved. -/
theorem Stepped.atPos {page : Nat → PageData} {done : Bool} {end_ : Prop} {j : Nat} (hT : T.Ok g page)
    (h : Stepped g page T dep done end_ j c) (hs : Seated g page T dep c) (hv : c.validOvfl = false) :
    (done = true → end_ ∧ AtPos g page T dep c .off) ∧
      (done = false → ¬ end_ ∧ ∃ e, T.es[j]? = some e ∧ AtPos g page T dep c (.entry e.key)) := by
  refine ⟨fun hd => ⟨(h.past hd).1, (h.past hd).2.2, (h.past hd).2.1⟩, fun hd => ⟨(h.there hd).1, ?_⟩⟩
  have hon := (h.there hd).2.2
  have hget := List.getElem?_eq_getElem hon.lt
  refine ⟨_, hget, Or.inl ⟨j, _, ⟨h.atEntry hd, hget, fun hat => ?_, fun h1 => ?_⟩, rfl⟩⟩
  · have := hon.unique hT (hs.last (h.there hd).2.1 hat)
    have := hon.lt
    omega
  · exact absurd (h1.symm.trans hv) (by simp)

theorem btreelite_next_atPos (hT : Standing g v.bt T dep) (h : AtPos g v.bt.page T dep c (.entry k)) :
    Moves (btreelite_next g) v c (fun done c' => Flags c c' ∧ ∃ pos', AtPos g v.bt.page T dep c' pos'
      ∧ LeastOf (T.map.dom ∩ Set.Ioi k) pos' ∧ (done = true ↔ pos' = .off)) fun _ _ => True := by
  obtain ⟨hseat, f, b, hf, hcut, -⟩ := h.faces hT.ok
  have hset : ∀ x, x ∈ T.map.dom ∩ Set.Ioi k ↔ x ∈ T.map.dom ∧ ¬ x ≤ k := fun x => by simp
  obtain ⟨hleast, hnone⟩ := hT.ok.cut_least hcut hset
  refine ((btreelite_next_moves hT allows_true hseat hf).and_cur (sqlite3BtreeNext_returns g 2 c)).post ?_
  rintro done c' ⟨⟨hs, hstep⟩, hflags, hv⟩
  obtain ⟨hpast, hthere⟩ := hstep.atPos hT.ok hs hv
  cases done with
  | true => exact ⟨hflags, .off, (hpast rfl).2, hnone (hpast rfl).1.ge, by simp⟩
  | false =>
    obtain ⟨-, e, he, hp⟩ := hthere rfl
    exact ⟨hflags, .entry e.key, hp, hleast e he, by simp⟩

theorem btreelite_prev_atPos (hT : Standing g v.bt T dep) (h : AtPos g v.bt.page T dep c (.entry k)) :
    Moves (btreelite_prev g) v c (fun done c' => Flags c c' ∧ ∃ pos', AtPos g v.bt.page T dep c' pos'
      ∧ GreatestOf (T.map.dom ∩ Set.Iio k) pos' ∧ (done = true ↔ pos' = .off)) fun _ _ => True := by
  obtain ⟨hseat, f, b, hf, -, hcut⟩ := h.faces hT.ok
  obtain ⟨hgreatest, hnone⟩ := hT.ok.cut_greatest (s := T.map.dom ∩ Set.Iio k) hcut fun x => Iff.rfl
  refine ((btreelite_prev_moves hT allows_true hseat hf).and_cur (sqlite3BtreePrevious_returns g 2 c)).post ?_
  rintro done c' ⟨⟨hs, hstep⟩, hflags, hv⟩
  obtain ⟨hpast, hthere⟩ := hstep.atPos hT.ok hs hv
  cases done with
  | true => exact ⟨hflags, .off, (hpast rfl).2, hnone (hpast rfl).1, by simp⟩
  | false =>
    obtain ⟨h0, e, he, hp⟩ := hthere rfl
    exact ⟨hflags, .entry e.key, hp, hgreatest e he h0, by simp⟩

/-- Without a position there is nothing to step to. -/
theorem btreelite_next_off (h : AtPos g v.bt.page T dep c .off) : Moves (btreelite_next g) v c
    (fun done c' => Flags c c' ∧ AtPos g v.bt.page T dep c' .off ∧ done = true) fun _ _ => True := by
  refine (sqlite3BtreeNext_invalid h.2).post ?_
  rintro done c' ⟨rfl, rfl⟩
  exact ⟨⟨rfl, rfl, rfl, fun _ => rfl⟩, ⟨h.1.congr rfl rfl, h.2⟩, rfl⟩

theorem btreelite_prev_off (h : AtPos g v.bt.page T dep c .off) : Moves (btreelite_prev g) v c
    (fun done c' => Flags c c' ∧ AtPos g v.bt.page T dep c' .off ∧ done = true) fun _ _ => True := by
  refine (sqlite3BtreePrevious_invalid h.2).post ?_
  rintro done c' ⟨rfl, rfl⟩
  exact ⟨⟨rfl, rfl, rfl, fun _ => rfl⟩, ⟨h.1.congr rfl rfl, h.2⟩, rfl⟩

/-- `btreelite_first` goes to the least key. -/
theorem btreelite_first_atPos {pos : Pos} (hT : Standing g v.bt T dep) (h : AtPos g v.bt.page T dep c pos) :
    Moves (btreelite_first g) v c (fun empty c' => Flags c c' ∧ ∃ pos', AtPos g v.bt.page T dep c' pos'
      ∧ LeastOf T.map.dom pos' ∧ (empty = true ↔ pos' = .off)) fun _ _ => True := by
  have h0 : c.pgnoRoot ≠ 0 := h.rooted.root ▸ hT.root_inRange.ne_zero
  refine ((sqlite3BtreeFirst_moves hT allows_true h.rooted fun _ _ _ => trivial).and_cur
    (sqlite3BtreeFirst_returns g h0)).post ?_
  rintro empty c' ⟨⟨hr, hn, h1⟩, hflags, hv⟩
  cases empty with
  | true => exact ⟨hflags, .off, ⟨h1.2.2, h1.2.1⟩, Tree.dom_empty h1.1, by simp⟩
  | false =>
    have hget := List.getElem?_eq_getElem h1.2.2.lt
    have hcut : Cut Entry.key T.es (fun _ => False) 0 := fun j e _ => by simp
    refine ⟨hflags, .entry _, Or.inl ⟨0, _, ⟨⟨hr, h1.1, fun h => absurd hn h, h1.2.2⟩, hget, fun hat => ?_,
      fun h => ?_⟩, rfl⟩, (hT.ok.cut_least hcut fun x => by simp).1 _ hget, by simp⟩
    · exact absurd (hat.symm.trans h1.2.1) (by simp)
    · exact absurd (h.symm.trans hv) (by simp)

/-- `btreelite_last` goes to the greatest key. -/
theorem btreelite_last_atPos {pos : Pos} (hT : Standing g v.bt T dep) (h : AtPos g v.bt.page T dep c pos) :
    Moves (btreelite_last g) v c (fun empty c' => Flags c c' ∧ ∃ pos', AtPos g v.bt.page T dep c' pos'
      ∧ GreatestOf T.map.dom pos' ∧ (empty = true ↔ pos' = .off)) fun _ _ => True := by
  have h0 : c.pgnoRoot ≠ 0 := h.rooted.root ▸ hT.root_inRange.ne_zero
  have hlast : c.eState = .valid → c.atLast = true →
      OnEntry g v.bt.page T dep c (T.es.length - 1) ∧ ∃ e, Parked g v.bt.page T dep c (T.es.length - 1) e := by
    intro hst hat
    obtain ⟨i, e, hp, -⟩ | ⟨hroot, -⟩ := h.valid hst
    · have := hp.last hat
      obtain rfl : i = T.es.length - 1 := by omega
      exact ⟨hp.atEntry.onEntry, e, hp⟩
    · exact absurd (hat.symm.trans hroot.atLast) (by simp)
  refine ((sqlite3BtreeLast_moves hT allows_true h.rooted (fun h1 h2 => (hlast h1 h2).1)
    fun _ _ _ => trivial).and_cur (sqlite3BtreeLast_returns g h0)).post ?_
  rintro empty c' ⟨⟨hr, hn, h1⟩, hflags, hv⟩
  cases empty with
  | true => exact ⟨hflags, .off, ⟨h1.2.2, h1.2.1⟩, Tree.dom_empty h1.1, by simp⟩
  | false =>
    have hlt := h1.2.2.lt
    have hget := List.getElem?_eq_getElem hlt
    have hcut : Cut Entry.key T.es (fun _ => True) T.es.length := fun j e he => by
      simpa using (List.getElem?_eq_some_iff.1 he).1
    have hgreat := (hT.ok.cut_greatest (s := T.map.dom) hcut fun x => by simp).1 _ hget (by omega)
    refine ⟨hflags, .entry _, Or.inl ?_, hgreat, by simp⟩
    by_cases hc : c' = c
    · subst hc
      obtain ⟨e, hp⟩ := (hlast h1.1 h1.2.1).2
      exact ⟨_, e, hp, by rw [Option.some.inj (hp.get.symm.trans hget)]⟩
    · refine ⟨_, _, ⟨⟨hr, h1.1, fun h => absurd (hn (Or.inr hc)) h, h1.2.2⟩, hget, fun _ => by omega,
        fun h => ?_⟩, rfl⟩
      exact absurd (h.symm.trans (hv.resolve_left hc)) (by simp)

theorem kvMoveto_found {pos : Pos} {key : Key} (hT : Standing g v.bt T dep)
    (h : AtPos g v.bt.page T dep c pos) : Moves (kvMoveto g key) v c
      (fun r c' => Found g v.bt.page T dep key r c c' ∧ key.length ≤ 255) fun _ _ => True := by
  refine Moves.bind (Q := fun _ c' => c' = c ∧ key.length ≤ 255) ?_ ?_
  · exact Moves.ite (fun _ => Moves.throw trivial) fun hk => Moves.pure ⟨rfl, Nat.le_of_not_lt hk⟩
  · rintro _ _ ⟨rfl, hk⟩
    exact (sqlite3BtreeKvMoveto_found hT h).post fun _ _ hf => ⟨hf, hk⟩

/-- `btreelite_seek` goes to the least key that is not before `key`. -/
theorem btreelite_seek_atPos {pos : Pos} {key : Key} (hT : Standing g v.bt T dep)
    (h : AtPos g v.bt.page T dep c pos) :
    Moves (btreelite_seek g key) v c (fun _ c' => Flags c c' ∧ ∃ pos', AtPos g v.bt.page T dep c' pos'
      ∧ LeastOf (T.map.dom ∩ Set.Ici key) pos') fun _ _ => True := by
  refine (kvMoveto_found hT h).bind ?_
  rintro r c1 ⟨hf, -⟩
  by_cases hes : T.es = []
  · obtain ⟨rfl, hr, hst, hpath⟩ := hf.empty hes
    refine Moves.ite (fun _ => ?_) fun h0 => absurd (by decide) h0
    have hoff : AtPos g v.bt.page T dep c1 .off := ⟨⟨hr, fun _ => by rw [hpath]; rfl⟩, hst⟩
    refine (btreelite_next_off hoff).bind ?_
    rintro done c2 ⟨hflags, hp, -⟩
    refine Moves.pure ⟨hf.flags.trans hflags, .off, hp, ?_⟩
    change T.map.dom ∩ _ = ∅
    rw [Tree.dom_empty hes, Set.empty_inter]
  obtain ⟨i, e, hp, hs, -⟩ := hf.sought hes
  have hcut : Cut Entry.key T.es (· < key) (i + if r < 0 then 1 else 0) := fun j x hj =>
    (hs.order hT.ok hj).1.symm
  refine Moves.ite (fun hneg => ?_) fun hneg => ?_
  · rw [if_pos hneg] at hcut
    -- no key lies between the entry and the key of the search
    have hset : T.map.dom ∩ Set.Ioi e.key = T.map.dom ∩ Set.Ici key := by
      ext x
      refine and_congr_right fun hx => ?_
      obtain ⟨y, hy, rfl⟩ := Tree.mem_dom.1 hx
      obtain ⟨j, hj⟩ := List.mem_iff_getElem?.1 hy
      have h1 : y.key < key ↔ y.key ≤ e.key :=
        (hcut j y hj).symm.trans (hT.ok.ascending.cut_le hp.get j y hj)
      rw [Set.mem_Ioi, Set.mem_Ici, ← not_le, ← h1, not_lt]
    refine (btreelite_next_atPos hT (Or.inl ⟨i, e, hp, rfl⟩)).bind ?_
    rintro done c2 ⟨hflags, pos2, hp2, hleast, -⟩
    exact Moves.pure ⟨hf.flags.trans hflags, pos2, hp2, hset ▸ hleast⟩
  · rw [if_neg hneg] at hcut
    refine Moves.pure ⟨hf.flags, .entry e.key, Or.inl ⟨i, e, hp, rfl⟩, ?_⟩
    exact (hT.ok.cut_least hcut fun x => by simp).1 e hp.get

/-! ## Saving -/

/-- Saving a valid cursor keeps its key, of which `K` is known. -/
theorem saveCursorPosition_saves {K : Key → Prop} (hst : c.eState = .valid)
    (hkey : Moves (sqlite3BtreeKvKey g) v { c with skipNext := 0 }
      (fun k c' => K k ∧ c'.pgnoRoot = c.pgnoRoot ∧ c'.skipNext = 0) fun _ _ => True) :
    Moves (saveCursorPosition g) v c (fun _ c' => ∃ k, K k ∧ SavedAt c.pgnoRoot c' k) fun _ _ => True := by
  refine Moves.modify_bind ?_
  rw [if_neg (by simp [hst])]
  have hsave : Moves (saveCursorKey g) v { c with skipNext := 0 } (fun _ c' => ∃ k, K k
      ∧ c'.pgnoRoot = c.pgnoRoot ∧ c'.skipNext = 0 ∧ c'.pKey = k) fun _ _ => True := by
    refine hkey.bind ?_
    rintro k c1 ⟨hk, hr, hz⟩
    refine (inBt_moves (P := fun _ => True)
      ((tick_does fun _ _ => ⟨rfl, trivial⟩).post fun _ _ h => ⟨h, trivial⟩)).bind ?_
    rintro _ _ ⟨rfl, -⟩
    refine (modifyCursor_moves _).post ?_
    rintro _ _ rfl
    exact ⟨k, hk, hr, hz, rfl⟩
  refine (Moves.onError (f := fun c => { c with validNKey := false, validOvfl := false, atLast := false })
    hsave).bind ?_
  rintro _ c1 ⟨k, hk, hr, hz, hp⟩
  refine (modifyCursor_moves _).post ?_
  rintro _ _ rfl
  exact ⟨k, hk, hr, rfl, rfl, hp, hz⟩

/-- The key of whatever cell the cursor is on. -/
theorem sqlite3BtreeKvKey_stays : Moves (sqlite3BtreeKvKey g) v c
    (fun _ c' => c'.pgnoRoot = c.pgnoRoot ∧ c'.skipNext = c.skipNext) fun _ _ => True := by
  have hinfo : Moves (getCellInfo g) v c (fun _ c' => c'.pgnoRoot = c.pgnoRoot ∧ c'.skipNext = c.skipNext)
      fun _ _ => True := by
    refine Moves.cursor_bind (Moves.ite (fun _ => curPage_stays.bind ?_) fun _ => Moves.pure ⟨rfl, rfl⟩)
    rintro p _ rfl
    refine (modifyCursor_moves _).post ?_
    rintro _ _ rfl
    exact ⟨rfl, rfl⟩
  refine hinfo.bind ?_
  rintro _ c1 h1
  refine curPage_stays.bind ?_
  rintro p _ rfl
  exact Moves.cursor_bind (Moves.pure h1)

/-- Saving a cursor takes it off its page and keeps its position. -/
theorem saveCursor_away {pos : Pos} (h : AtPos g v.bt.page T dep c pos) :
    Moves (saveCursor g) v c (fun _ c' => Flags c c' ∧ Away T.root c' pos) fun _ _ => True := by
  refine (Moves.and_cur ?_ (plain_saveCursor g c)).post fun _ _ h1 => h1.symm
  have hr := h.rooted.root
  refine Moves.cursor_bind ?_
  cases hst : c.eState with
  | valid =>
    obtain ⟨i, e, hp, hk⟩ | ⟨-, -, rfl⟩ := h.valid hst
    · have hentry : AtEntry g v.bt.page T dep { c with skipNext := 0 } i :=
        ⟨hp.atEntry.root, hst, hp.atEntry.cached, hp.atEntry.onEntry.congr rfl⟩
      refine (saveCursorPosition_saves (K := (· = e.key)) hst ((sqlite3BtreeKvKey_moves hentry).post ?_)).post ?_
      · rintro k c1 ⟨h1, hskip, -, x, hx, -, rfl⟩
        rw [Option.some.inj (hp.get.symm.trans hx)]
        exact ⟨rfl, h1.root.trans hr.symm, hskip⟩
      · rintro _ c1 ⟨k, rfl, h1⟩
        rw [hr] at h1
        cases pos with
        | entry k => exact hk k rfl ▸ h1
        | off => exact absurd (h.2.symm.trans hst) (by simp)
        | stray => exact Or.inl ⟨_, h1⟩
    · refine (saveCursorPosition_saves (K := fun _ => True) hst
        (sqlite3BtreeKvKey_stays.post fun _ _ h => ⟨trivial, h⟩)).post ?_
      rintro _ c1 ⟨k, -, h1⟩
      rw [hr] at h1
      exact Or.inl ⟨k, h1⟩
  | skipnext => exact absurd hst h.ne_skipnext
  | invalid =>
    refine (modifyCursor_moves _).post ?_
    rintro _ _ rfl
    cases pos with
    | entry k =>
      obtain ⟨i, e, hp, -⟩ | h := h
      · exact absurd (hp.atEntry.eState.symm.trans hst) (by simp)
      · exact absurd (h.eState.symm.trans hst) (by simp)
    | off => exact ⟨hr, rfl, hst⟩
    | stray => exact Or.inr ⟨hr, rfl, hst⟩
  | requireseek =>
    refine (modifyCursor_moves _).post ?_
    rintro _ _ rfl
    cases pos with
    | entry k =>
      obtain ⟨i, e, hp, -⟩ | h := h
      · exact absurd (hp.atEntry.eState.symm.trans hst) (by simp)
      · exact ⟨h.root, h.eState, rfl, h.pKey, h.skipNext⟩
    | off => exact absurd (h.2.symm.trans hst) (by simp)
    | stray =>
      obtain ⟨i, e, h⟩ | ⟨k, h⟩ | h | h := h
      · exact absurd (h.atEntry.eState.symm.trans hst) (by simp)
      · exact Or.inl ⟨k, h.root, h.eState, rfl, h.pKey, h.skipNext⟩
      · exact absurd (h.2.symm.trans hst) (by simp)
      · exact absurd (h.1.eState.symm.trans hst) (by simp)
  | fault e => exact absurd hst (h.noFault e)

end Step

end Btreelite
