import Btreelite.CursorPlace

/-!
# Seeking a key

The binary search on a page, the descent from the root and `sqlite3BtreeKvMoveto`. The descent keeps
the key between the bounds of the page, so the leaf it ends on has the neighbours of the key.
-/

namespace Btreelite

open Prog Segment

/-- The key of cell `i`. -/
def MemPage.key (g : Geometry) (p : MemPage) (i : Nat) : Key := cellKey g p.leaf (p.cells.getD i [])

/-! ## The search on a page -/

section Search

variable {g : Geometry} {p : MemPage} {key : Key}

/-- What the binary search finds: the cells before `lwr` are the ones with smaller keys, and the cell
looked at last is one of the two around that point. -/
structure Probe.Splits (g : Geometry) (p : MemPage) (key : Key) (r : Probe) : Prop where
  lt : r.idx < p.cells.length
  c : r.c = kvKeyCompare (p.key g r.idx) key
  below : ∀ i < r.lwr, p.key g i < key
  above : ∀ i, r.lwr ≤ i → i < p.cells.length → key ≤ p.key g i
  strict : r.c ≠ 0 → ∀ i, r.lwr ≤ i → i < p.cells.length → key < p.key g i
  le : r.c = 0 → r.lwr = r.idx
  neg : r.c < 0 → r.lwr = r.idx + 1
  pos : 0 < r.c → r.lwr = r.idx

theorem kvSearch_splits (hs : ∀ i j, i < j → j < p.cells.length → p.key g i < p.key g j) :
    ∀ {fuel lwr hi idx : Nat}, lwr ≤ idx → idx < hi → hi ≤ p.cells.length → hi ≤ lwr + fuel →
      (∀ i < lwr, p.key g i < key) → (∀ i, hi ≤ i → i < p.cells.length → key < p.key g i) →
      (kvSearch g p key fuel lwr hi idx).Splits g p key
  | 0, _, _, _, h1, h2, _, h3, _, _ => by omega
  | fuel + 1, lwr, hi, idx, h1, h2, hn, h3, hlo, hhi => by
    have hc : kvKeyCompareCell g p idx key = kvKeyCompare (p.key g idx) key := rfl
    unfold kvSearch
    dsimp only
    rw [hc]
    rcases lt_trichotomy (p.key g idx) key with hlt | heq | hgt
    · have hneg := kvKeyCompare_neg.2 hlt
      have hlo' : ∀ i < idx + 1, p.key g i < key := by
        intro i hi'
        rcases Nat.lt_succ_iff_lt_or_eq.1 hi' with h | rfl
        · exact (hs i idx h (by omega)).trans hlt
        · exact hlt
      rw [if_neg hneg.ne, if_pos hneg, if_pos hneg]
      split_ifs with hend
      · have hend' : ∀ i, idx + 1 ≤ i → i < p.cells.length → key < p.key g i :=
          fun i hi' hin => hhi i (by omega) hin
        exact ⟨h2.trans_le hn, rfl, hlo', fun i hi' hin => (hend' i hi' hin).le, fun _ => hend',
          fun h => absurd h hneg.ne, fun _ => rfl, fun h => absurd h hneg.not_gt⟩
      · exact kvSearch_splits hs (by omega) (by omega) hn (by omega) hlo' hhi
    · have hz := kvKeyCompare_zero.2 heq
      rw [if_pos hz]
      refine ⟨h2.trans_le hn, rfl, ?_, ?_, fun h => absurd hz h, fun _ => rfl, fun h => absurd hz h.ne,
        fun h => absurd hz h.ne'⟩
      · intro i hi'
        exact heq ▸ hs i idx hi' (by omega)
      · intro i hi' hin
        rcases Nat.eq_or_lt_of_le hi' with rfl | h
        · exact heq.ge
        · exact (heq ▸ hs idx i h hin).le
    · have hpos := kvKeyCompare_pos.2 hgt
      have hhi' : ∀ i, idx ≤ i → i < p.cells.length → key < p.key g i := by
        intro i hi' hin
        rcases Nat.eq_or_lt_of_le hi' with rfl | h
        · exact hgt
        · exact hgt.trans (hs idx i h hin)
      rw [if_neg hpos.ne', if_neg hpos.not_gt, if_neg hpos.not_gt]
      split_ifs with hend
      · obtain rfl : lwr = idx := by omega
        exact ⟨h2.trans_le hn, rfl, hlo, fun i hi' hin => (hhi' i hi' hin).le, fun _ => hhi', fun _ => rfl,
          fun h => absurd h hpos.not_gt, fun _ => rfl⟩
      · exact kvSearch_splits hs (by omega) (by omega) (by omega) (by omega) hlo hhi'

end Search

/-! ## The keys of a page in its tree -/

section Keys

variable {g : Geometry} {page : Nat → PageData} {T : Tree} {dep cur i j : Nat} {s : Spot}
  {anc : List (Nat × Nat)} {p : MemPage} {e : Entry}

@[simp] theorem cellKey_divider (g : Geometry) (c : Cell) : cellKey g false c = divKey c := rfl

theorem Entry.On.cellKey (h : e.On g page) : cellKey g true e.cell = e.key := by
  obtain ⟨ovfl, hparts, hcell, -⟩ := h
  rw [hcell]
  exact hparts.keyOf

theorem Reach.entry (h : Reach g page T dep s cur anc) (hp : page cur = .node p) (hd : s.dep = 0)
    (hi : i < p.cells.length) : ∃ e, T.es[s.left.length + i]? = some e ∧ s.mid[i]? = some e ∧ p.key g i = e.key := by
  obtain ⟨p', qs, hp', hok, -, hbody⟩ := h.place.node
  obtain rfl : p' = p := PageData.node.inj (hp'.symm.trans hp)
  rw [hd] at hbody
  obtain ⟨hl, hcells, hon, -⟩ := hbody
  rw [MemPage.allCells_of_ovfl_nil hok.1.1] at hcells
  have hi' : i < s.mid.length := by simpa [hcells] using hi
  refine ⟨s.mid[i], ?_, List.getElem?_eq_getElem hi', ?_⟩
  · rw [h.place.es, List.getElem?_append_right (by omega), Nat.add_sub_cancel_left,
      List.getElem?_append_left hi', List.getElem?_eq_getElem hi']
  · rw [MemPage.key, hl, hcells]
    simpa [List.getD_eq_getElem?_getD, hi'] using (hon _ (List.getElem_mem hi')).cellKey

/-- The keys of a page ascend. -/
theorem Reach.sorted (h : Reach g page T dep s cur anc) (hp : page cur = .node p) (hij : i < j)
    (hj : j < p.cells.length) : p.key g i < p.key g j := by
  obtain ⟨p', hp', hok, hleaf, -⟩ := h.page_eq
  obtain rfl : p' = p := PageData.node.inj (hp'.symm.trans hp)
  rcases hl : p'.leaf with - | -
  · obtain ⟨q, qs, hq, hokq, -, hbody⟩ := h.place.node
    obtain rfl : q = p' := PageData.node.inj (hq.symm.trans hp)
    obtain ⟨k, hk⟩ : ∃ k, s.dep = k + 1 :=
      Nat.exists_eq_succ_of_ne_zero fun h0 => by simp [hleaf.2 h0] at hl
    rw [hk] at hbody
    have hrun := (seg_sub_bounds (body_succ.1 hbody).2.2).pairwise
    rw [MemPage.kids, MemPage.allCells_of_ovfl_nil hokq.1.1, List.map_append, List.map_map] at hrun
    have hpw := (List.pairwise_append.1 hrun).1
    rw [List.pairwise_map, List.pairwise_iff_getElem] at hpw
    have := hpw i j (by omega) hj hij
    simp only [Function.comp_apply, Key.bound_lt] at this
    simpa [MemPage.key, hl, List.getD_eq_getElem?_getD, hj, show i < q.cells.length by omega] using this
  · obtain ⟨e, he, -, h1⟩ := h.entry hp (hleaf.1 hl) (show i < p'.cells.length by omega)
    obtain ⟨e', he', -, h2⟩ := h.entry hp (hleaf.1 hl) hj
    have hpw := (List.pairwise_iff_getElem.1 (IsTree.pairwise h.place.tree.choose_spec.2))
    obtain ⟨h3, rfl⟩ := List.getElem?_eq_some_iff.1 he
    obtain ⟨h4, rfl⟩ := List.getElem?_eq_some_iff.1 he'
    rw [h1, h2]
    exact hpw _ _ h3 h4 (by omega)

/-- The key of an interior cell is that of the divider. -/
theorem MemPage.key_divider (hl : p.leaf = false) (hi : i < p.cells.length) :
    ∃ c, p.cells[i]? = some c ∧ p.key g i = divKey c := by
  refine ⟨p.cells[i], List.getElem?_eq_getElem hi, ?_⟩
  simp [MemPage.key, hl, List.getD_eq_getElem?_getD, hi]

/-- Where the binary search on a page ends. -/
theorem Reach.search (h : Reach g page T dep s cur anc) (hp : page cur = .node p) (hne : p.cells ≠ [])
    (key : Key) (biasRight : Bool) :
    (kvSearch g p key p.cells.length 0 p.cells.length
      (if biasRight then p.cells.length - 1 else (p.cells.length - 1) / 2)).Splits g p key := by
  have hpos := List.length_pos_iff.2 hne
  refine kvSearch_splits (fun i j hij hj => h.sorted hp hij hj) (Nat.zero_le _) ?_ le_rfl (by omega)
    (fun i hi => absurd hi (by omega)) fun i hi hin => absurd hin (by omega)
  split_ifs <;> omega

end Keys

/-! ## The neighbours of a key -/

/-- Entry `i` is the one with the key, or, with the sign of `r`, the last before or the first after it. -/
structure Nearest (T : Tree) (key : Key) (r : Int) (i : Nat) : Prop where
  found : r = 0 → ∃ e, T.es[i]? = some e ∧ e.key = key
  before : r < 0 → (∀ j e, j ≤ i → T.es[j]? = some e → e.key < key)
    ∧ ∀ j e, i < j → T.es[j]? = some e → key < e.key
  behind : 0 < r → (∀ j e, j < i → T.es[j]? = some e → e.key < key)
    ∧ ∀ j e, i ≤ j → T.es[j]? = some e → key < e.key

section Neighbours

variable {g : Geometry} {page : Nat → PageData} {T : Tree} {dep cur : Nat} {s : Spot}
  {anc : List (Nat × Nat)} {p : MemPage} {key : Key} {r : Probe}

/-- The search on a leaf whose bounds are around the key finds a neighbour of the key in the tree. -/
theorem Reach.nearest (h : Reach g page T dep s cur anc) (hp : page cur = .node p) (hd : s.dep = 0)
    (hlo : s.lo < key.bound) (hhi : key.bound ≤ s.hi) (hr : r.Splits g p key) :
    Nearest T key r.c (s.left.length + r.idx) := by
  obtain ⟨hleft, hright⟩ := h.place.above.bounds
  have hmid : p.cells.length = s.mid.length := by
    obtain ⟨p', hp', -, -, hcells⟩ := h.page_eq
    obtain rfl : p' = p := PageData.node.inj (hp'.symm.trans hp)
    rw [hcells hd, List.length_map]
  -- an entry stands to the left of the leaf, on it, or to its right
  have hcases : ∀ {j : Nat} {e : Entry}, T.es[j]? = some e → (j < s.left.length ∧ e.key < key)
      ∨ (∃ t, j = s.left.length + t ∧ t < p.cells.length ∧ p.key g t = e.key)
      ∨ (s.left.length + p.cells.length ≤ j ∧ key < e.key) := by
    intro j e he
    have hes := he
    rw [h.place.es] at hes
    rcases Nat.lt_or_ge j s.left.length with h1 | h1
    · rw [List.getElem?_append_left h1] at hes
      exact Or.inl ⟨h1, Key.bound_lt.1 ((hleft e (List.mem_of_getElem? hes)).trans_lt hlo)⟩
    obtain ⟨t, rfl⟩ := Nat.exists_eq_add_of_le h1
    rcases Nat.lt_or_ge t p.cells.length with h2 | h2
    · obtain ⟨e', he', -, hk⟩ := h.entry hp hd h2
      rw [he] at he'
      exact Or.inr (Or.inl ⟨t, rfl, h2, by rw [hk, Option.some.inj he']⟩)
    · rw [List.getElem?_append_right (by omega), List.getElem?_append_right (by omega)] at hes
      exact Or.inr (Or.inr ⟨by omega, Key.bound_lt.1 (hhi.trans_lt (hright e (List.mem_of_getElem? hes)))⟩)
  have hbelow : ∀ {j : Nat} {e : Entry}, T.es[j]? = some e → j < s.left.length + r.lwr → e.key < key := by
    intro j e he hj
    rcases hcases he with ⟨-, h1⟩ | ⟨t, rfl, -, hk⟩ | ⟨h1, -⟩
    · exact h1
    · exact hk ▸ hr.below t (by omega)
    · have := hr.lt
      rcases lt_trichotomy r.c 0 with hc | hc | hc
      · have := hr.neg hc
        omega
      · have := hr.le hc
        omega
      · have := hr.pos hc
        omega
  have hstrict : ∀ {j : Nat} {e : Entry}, r.c ≠ 0 → T.es[j]? = some e → s.left.length + r.lwr ≤ j →
      key < e.key := by
    intro j e h0 he hj
    rcases hcases he with ⟨h1, -⟩ | ⟨t, rfl, ht, hk⟩ | ⟨-, h1⟩
    · omega
    · exact hk ▸ hr.strict h0 t (by omega) ht
    · exact h1
  obtain ⟨e, he, -, hk⟩ := h.entry hp hd hr.lt
  have hc := hr.c
  rw [hk] at hc
  refine ⟨fun h0 => ⟨e, he, kvKeyCompare_zero.1 (hc ▸ h0)⟩, fun h0 => ?_, fun h0 => ?_⟩
  · have h1 := hr.neg h0
    exact ⟨fun j e' hj he' => hbelow he' (by omega), fun j e' hj he' => hstrict h0.ne he' (by omega)⟩
  · have h1 := hr.pos h0
    exact ⟨fun j e' hj he' => hbelow he' (by omega), fun j e' hj he' => hstrict h0.ne' he' (by omega)⟩

end Neighbours

/-! ## The descent -/

section Descent

variable {g : Geometry} {v : Env Db} {T : Tree} {dep : Nat} {c : BtCursor} {key : Key} {biasRight : Bool}
  {E : Rc → BtCursor → Prop}

/-- The cursor is on entry `i`, which answers a search for `key` with `r`, on the leaf between whose
bounds the key is. -/
structure Sought (g : Geometry) (page : Nat → PageData) (T : Tree) (dep : Nat) (key : Key) (r : Int)
    (c : BtCursor) (i : Nat) : Prop where
  root : c.pgnoRoot = T.root
  eState : c.eState = .valid
  onEntry : OnEntry g page T dep c i
  leaf : ∃ s cur ix anc, c.path = (cur, ix) :: anc ∧ Reach g page T dep s cur anc ∧ s.dep = 0
    ∧ s.lo < key.bound ∧ key.bound ≤ s.hi
  nearest : Nearest T key r i

theorem kvDescend_moves (hT : Standing g v.bt T dep) (hE : Allows T dep E) :
    ∀ {fuel : Nat} {s : Spot} {cur : Nat} {anc : List (Nat × Nat)} {c : BtCursor},
      c.pgnoRoot = T.root → c.path = (cur, 0) :: anc → c.eState = .valid → c.atLast = false →
      c.info.nSize = 0 → Reach g v.bt.page T dep s cur anc → s.mid ≠ [] → s.lo < key.bound →
      key.bound ≤ s.hi → 20 ≤ fuel + anc.length →
      Moves (kvDescend g key biasRight fuel) v c (fun r c' => c'.info.nSize = 0 ∧ c'.atLast = false
        ∧ c'.skipNext = c.skipNext ∧ ∃ i, Sought g v.bt.page T dep key r c' i) E
  | 0, s, cur, anc, c, hr, hp, _, _, _, h, _, _, _, hfuel => by
    have := h.dep
    exact Moves.throw (hE.deep c (by omega) (h.rooted hr hp))
  | fuel + 1, s, cur, anc, c, hr, hp, hst, hat, hn, h, hmid, hlo, hhi, hfuel => by
    obtain ⟨p, hpage, hok, hleaf, hcells⟩ := h.page_eq
    have hne : p.cells ≠ [] := by
      intro h0
      by_cases hd : s.dep = 0
      · exact hmid (by simpa [h0] using hcells hd)
      · exact hok.1.2.2 hd h0
    refine (curPage_moves (by rwa [BtCursor.pPage_eq hp])).bind ?_
    intro p' c' h1
    obtain ⟨rfl, rfl⟩ := h1
    have hsp := h.search hpage hne key biasRight
    set r := kvSearch g p' key p'.cells.length 0 p'.cells.length
      (if biasRight then p'.cells.length - 1 else (p'.cells.length - 1) / 2)
    refine Moves.ite (fun hl => ?_) fun hl => ?_
    · have hd := hleaf.1 hl
      refine (modifyCursor_moves _).bind ?_
      intro _ c1 h1
      subst h1
      have hlt := hsp.lt
      rw [hcells hd, List.length_map] at hlt
      have hp1 := BtCursor.setIx_path (i := r.idx) hp
      exact Moves.pure ⟨rfl, hat, rfl, _, hr, hst, ⟨s, cur, r.idx, anc, hp1, h, hd, hlt, rfl⟩,
        ⟨s, cur, r.idx, anc, hp1, h, hd, hlo, hhi⟩, h.nearest hpage hd hlo hhi hsp⟩
    have hl : p'.leaf = false := by simpa using hl
    have hlwr : r.lwr ≤ p'.cells.length := by
      have := hsp.lt
      rcases lt_trichotomy r.c 0 with hc | hc | hc
      · have := hsp.neg hc
        omega
      · have := hsp.le hc
        omega
      · have := hsp.pos hc
        omega
    obtain ⟨s', hs', -, h0, h1, h2, h3⟩ := h.child hpage hl hlwr
    -- the key stays between the bounds
    have hlo' : s'.lo < key.bound := by
      rcases hi : r.lwr with - | i
      · rwa [(h0 hi).2]
      · obtain ⟨c, hc, hk⟩ := MemPage.key_divider (g := g) hl (show i < p'.cells.length by omega)
        rw [h1 i c hi hc, Key.bound_lt, ← hk]
        exact hsp.below i (by omega)
    have hhi' : key.bound ≤ s'.hi := by
      rcases Nat.eq_or_lt_of_le hlwr with heq | hlt
      · rwa [(h2 heq).2]
      · obtain ⟨c, hc, hk⟩ := MemPage.key_divider (g := g) hl hlt
        rw [h3 c hc, Key.bound_le, ← hk]
        exact hsp.above _ le_rfl hlt
    refine (modifyCursor_moves _).bind ?_
    intro _ c1 h4
    subst h4
    refine (moveToChild_moves hT hE (c := c.setIx r.lwr) hr (BtCursor.setIx_path hp) hs').bind ?_
    intro _ c2 h4
    obtain ⟨hm, hn2, hp2⟩ := h4
    refine (kvDescend_moves hT hE (hm.root.trans hr) hp2 (hm.eState.trans hst) (hm.atLast.trans hat) hn2
      hs' hs'.mid_ne_nil hlo' hhi' (by simp only [List.length_cons]; omega)).post ?_
    intro r' c3 h4
    obtain ⟨h5, h6, h7, h8⟩ := h4
    exact ⟨h5, h6, h7.trans hm.skipNext, h8⟩

/-- The search of `sqlite3BtreeKvMoveto` from the root. -/
def kvMovetoFromRoot (g : Geometry) (key : Key) (biasRight : Bool) : CurM Int := do
  if ← moveToRoot g then return -1
  else kvDescend g key biasRight 21

/-- What a search answers, and where it leaves the cursor. -/
structure Answers (g : Geometry) (page : Nat → PageData) (T : Tree) (dep : Nat) (key : Key) (r : Int)
    (c : BtCursor) : Prop where
  rooted : Rooted T c
  empty : T.es = [] → r = -1 ∧ c.eState = .invalid
  sought : T.es ≠ [] → ∃ i, Sought g page T dep key r c i

theorem kvMovetoFromRoot_moves (hT : Standing g v.bt T dep) (hE : Allows T dep E) (hc : Rooted T c)
    (hf : ∀ e, c.path = [] → c.eState = .fault e → E e c) :
    Moves (kvMovetoFromRoot g key biasRight) v c (fun r c' => Answers g v.bt.page T dep key r c'
      ∧ c'.info.nSize = 0 ∧ c'.skipNext = c.skipNext ∧ (c'.eState = .valid → c'.atLast = false)) E := by
  refine (moveToRoot_moves hT hE hc hf).bind ?_
  intro empty c1 h1
  obtain ⟨hskip, h1⟩ := h1
  cases empty with
  | true =>
    obtain ⟨hes, hst, hr, hn⟩ := h1
    exact Moves.pure ⟨⟨hr, fun _ => ⟨rfl, hst⟩, fun h => absurd hes h⟩, hn, hskip,
      fun h => absurd (hst.symm.trans h) (by simp)⟩
  | false =>
    obtain ⟨hr, hpath, hst, hat, hn, hes⟩ := h1
    obtain ⟨s, hs, hlo, hhi, -, hmid, -⟩ := hT.reach_root
    refine (kvDescend_moves hT hE hr hpath hst hat hn hs (hmid ▸ hes) (by simp [hlo]) (by simp [hhi])
      (by simp)).post ?_
    intro r c2 h2
    obtain ⟨hn2, hat2, hskip2, i, hi⟩ := h2
    exact ⟨⟨hi.onEntry.rooted hi.root, fun h => absurd h hes, fun _ => ⟨i, hi⟩⟩, hn2, hskip2.trans hskip,
      fun _ => hat2⟩

/-- When `sqlite3BtreeKvMoveto` does not search: the cursor is on a cell with the key. -/
def TakesFastPath (g : Geometry) (page : Nat → PageData) (c : BtCursor) (key : Key) : Prop :=
  c.eState = .valid ∧ c.validNKey = true ∧ c.skipNext = 0
    ∧ ∀ p, page c.pPage = .node p → p.key g c.ix = key

/-- On the entry with the key, the shortcut answers what a search would. -/
theorem OnEntry.answers {page : Nat → PageData} {i : Nat} (hon : OnEntry g page T dep c i)
    (hr : c.pgnoRoot = T.root) (hf : TakesFastPath g page c key) : Answers g page T dep key 0 c := by
  obtain ⟨p, e, hp, hl, hix, he, hcell, heOn⟩ := hon.page_eq
  have hk : e.key = key := by
    have := hf.2.2.2 p hp
    rwa [MemPage.key, hl, hcell, heOn.cellKey] at this
  refine ⟨hon.rooted hr, fun h0 => by simp [h0] at he, fun _ => ⟨i, hr, hf.1, hon, ?_,
    fun _ => ⟨e, he, hk⟩, fun h => absurd h (lt_irrefl _), fun h => absurd h (lt_irrefl _)⟩⟩
  obtain ⟨s, cur, ix, anc, hpath, hreach, hd, hlt, rfl⟩ := hon
  obtain ⟨q, qs, -, -, -, hbody⟩ := hreach.place.node
  rw [hreach.place.es, List.getElem?_append_right (by omega), Nat.add_sub_cancel_left,
    List.getElem?_append_left hlt] at he
  have := hbody.run.mem _ (List.mem_map_of_mem (List.mem_of_getElem? he))
  rw [hk] at this
  exact ⟨s, cur, ix, anc, hpath, hreach, hd, this⟩

/-- `sqlite3BtreeKvMoveto` finds the key or one of its neighbours. -/
theorem sqlite3BtreeKvMoveto_moves (hT : Standing g v.bt T dep) (hE : Allows T dep E) (hc : Rooted T c)
    (hf : ∀ e, c.path = [] → c.eState = .fault e → E e c)
    (hfast : TakesFastPath g v.bt.page c key → ∃ i, OnEntry g v.bt.page T dep c i) :
    Moves (sqlite3BtreeKvMoveto g key biasRight) v c (fun r c' => Answers g v.bt.page T dep key r c'
      ∧ c'.skipNext = c.skipNext
      ∧ (c' = c ∨ c'.info.nSize = 0 ∧ (c'.eState = .valid → c'.atLast = false))
      ∧ (TakesFastPath g v.bt.page c key → r = 0 ∧ c' = c)) E := by
  have hsearch : ¬ TakesFastPath g v.bt.page c key →
      Moves (kvMovetoFromRoot g key biasRight) v c (fun r c' => Answers g v.bt.page T dep key r c'
        ∧ c'.skipNext = c.skipNext
        ∧ (c' = c ∨ c'.info.nSize = 0 ∧ (c'.eState = .valid → c'.atLast = false))
        ∧ (TakesFastPath g v.bt.page c key → r = 0 ∧ c' = c)) E := by
    intro hslow
    refine (kvMovetoFromRoot_moves hT hE hc hf).post ?_
    intro r c' h
    exact ⟨h.1, h.2.2.1, Or.inr ⟨h.2.1, h.2.2.2⟩, fun h' => absurd h' hslow⟩
  refine cursor_moves.bind ?_
  intro a c' h1
  obtain ⟨rfl, rfl⟩ := h1
  by_cases hif : TakesFastPath g v.bt.page a key
  · obtain ⟨i, hon⟩ := hfast hif
    obtain ⟨p, e, hp, -⟩ := hon.page_eq
    refine (curPage_moves hp).bind ?_
    intro p' c1 h1
    obtain ⟨rfl, rfl⟩ := h1
    rw [if_pos ⟨hif.1, hif.2.1, hif.2.2.1, hif.2.2.2 p' hp⟩]
    exact Moves.pure ⟨hon.answers hc.root hif, rfl, Or.inl rfl, fun _ => ⟨rfl, rfl⟩⟩
  by_cases hflags : a.eState = .valid ∧ a.validNKey = true ∧ a.skipNext = 0
  · obtain ⟨p, hp, hne⟩ : ∃ p, v.bt.page a.pPage = .node p ∧ p.key g a.ix ≠ key := by
      by_contra hall
      push Not at hall
      exact hif ⟨hflags.1, hflags.2.1, hflags.2.2, hall⟩
    refine (curPage_moves hp).bind ?_
    intro p' c1 h1
    obtain ⟨rfl, rfl⟩ := h1
    rw [if_neg fun h => hne h.2.2.2]
    exact hsearch hif
  · refine curPage_stays.bind ?_
    intro p' c1 h1
    subst h1
    rw [if_neg fun h => hflags ⟨h.1, h.2.1, h.2.2.1⟩]
    exact hsearch hif

end Descent

end Btreelite
