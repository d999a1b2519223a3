import Btreelite.Cursor
import Btreelite.Freelist

/-!
# Where a cursor stands

A cursor on an entry of the tree, and the moves down from a page and from the root. A move fails for
a fault of the environment, or because the tree has more levels than `BTCURSOR_MAX_DEPTH` pages.
-/

namespace Btreelite

open Prog Segment

/-- The tree `T` of depth `dep` stands in the database. -/
structure Standing (g : Geometry) (d : Db) (T : Tree) (dep : Nat) : Prop where
  node : Node g d.page (RootOk g dep) dep ⊥ T.root ⊤ T.es T.pages
  inRange : ∀ q ∈ T.pages, InRange g d.nPage q

/-- Below the pages `anc`, page `cur` of the tree of depth `dep` is at `s`. -/
structure Reach (g : Geometry) (page : Nat → PageData) (T : Tree) (dep : Nat) (s : Spot) (cur : Nat)
    (anc : List (Nat × Nat)) : Prop where
  place : s.At g page T cur anc
  dep : s.dep + anc.length = dep

/-- The cursor is on the leaf cell of entry `i`. -/
def OnEntry (g : Geometry) (page : Nat → PageData) (T : Tree) (dep : Nat) (c : BtCursor) (i : Nat) :
    Prop :=
  ∃ s cur ix anc, c.path = (cur, ix) :: anc ∧ Reach g page T dep s cur anc ∧ s.dep = 0
    ∧ ix < s.mid.length ∧ i = s.left.length + ix

/-- The cursor belongs to the tree: its path, if it has one, starts at the root. -/
structure Rooted (T : Tree) (c : BtCursor) : Prop where
  root : c.pgnoRoot = T.root
  top : c.path ≠ [] → c.path.getLast?.map Prod.fst = some T.root

/-- The errors a move may end with: faults, and `SQLITE_CORRUPT` in a tree of more than 20 levels. -/
structure Allows (T : Tree) (dep : Nat) (E : Rc → BtCursor → Prop) : Prop where
  fault : ∀ e c, e.isFault = true → Rooted T c → E e c
  deep : ∀ c, 19 < dep → Rooted T c → E .corrupt c

/-- What moves within the tree leave alone. -/
structure Moved (c c' : BtCursor) : Prop where
  root : c'.pgnoRoot = c.pgnoRoot
  eState : c'.eState = c.eState
  skipNext : c'.skipNext = c.skipNext
  atLast : c'.atLast = c.atLast
  nSize : c.info.nSize = 0 → c'.info.nSize = 0

theorem Moved.rfl {c : BtCursor} : Moved c c := ⟨Eq.refl _, Eq.refl _, Eq.refl _, Eq.refl _, id⟩

theorem Moved.trans {c c' c'' : BtCursor} (h : Moved c c') (h' : Moved c' c'') : Moved c c'' :=
  ⟨h'.root.trans h.root, h'.eState.trans h.eState, h'.skipNext.trans h.skipNext,
    h'.atLast.trans h.atLast, fun h1 => h'.nSize (h.nSize h1)⟩

namespace BtCursor

variable {c : BtCursor} {cur ix i : Nat} {anc : List (Nat × Nat)}

theorem pPage_eq (h : c.path = (cur, ix) :: anc) : c.pPage = cur := by simp [pPage, h]

theorem ix_eq (h : c.path = (cur, ix) :: anc) : c.ix = ix := by simp [BtCursor.ix, h]

theorem setIx_path (h : c.path = (cur, ix) :: anc) : (c.setIx i).path = (cur, i) :: anc := by
  simp [setIx, pPage, h]

@[simp] theorem forget_path : c.forget.path = c.path := rfl

@[simp] theorem forget_eState : c.forget.eState = c.eState := rfl

@[simp] theorem setIx_eState : (c.setIx i).eState = c.eState := rfl

theorem moved_setIx : Moved c (c.setIx i) := ⟨rfl, rfl, rfl, rfl, id⟩

theorem moved_forget : Moved c c.forget := ⟨rfl, rfl, rfl, rfl, fun _ => rfl⟩

end BtCursor

/-! ## Places and paths -/

section Places

variable {g : Geometry} {d : Db} {page : Nat → PageData} {T : Tree} {dep cur parent ix idx i : Nat}
  {s : Spot} {anc : List (Nat × Nat)} {c c' : BtCursor}

theorem Standing.ok (h : Standing g d T dep) : T.Ok g d.page := ⟨dep, h.node⟩

theorem Standing.root_inRange (h : Standing g d T dep) : InRange g d.nPage T.root := by
  obtain ⟨p, qs, -, -, hps, -⟩ := h.node
  exact h.inRange _ (by simp [hps])

theorem Standing.reach_root (h : Standing g d T dep) :
    ∃ s : Spot, Reach g d.page T dep s T.root [] ∧ s.lo = ⊥ ∧ s.hi = ⊤ ∧ s.left = [] ∧ s.mid = T.es
      ∧ s.right = [] :=
  ⟨⟨dep, ⊥, ⊤, [], T.es, [], T.pages, []⟩, ⟨⟨⟨rfl, rfl, rfl, rfl, rfl, rfl⟩,
    h.node.imp fun _ h => ⟨h, by simp⟩, by simp, by simp⟩, by simp⟩, rfl, rfl, rfl, rfl, rfl⟩

theorem Reach.inRange (hT : Standing g d T dep) (h : Reach g d.page T dep s cur anc) :
    InRange g d.nPage cur := hT.inRange cur h.place.mem_pages

theorem Reach.rooted (h : Reach g page T dep s cur anc) (hr : c.pgnoRoot = T.root)
    (hp : c.path = (cur, ix) :: anc) : Rooted T c :=
  ⟨hr, fun _ => by rw [hp]; exact h.place.above.getLast⟩

theorem Rooted.congr (h : Rooted T c) (hr : c'.pgnoRoot = c.pgnoRoot) (hp : c'.path = c.path) :
    Rooted T c' :=
  ⟨hr.trans h.root, fun h' => by rw [hp] at h' ⊢; exact h.top h'⟩

theorem Rooted.setIx (h : Rooted T c) (hp : c.path = (cur, ix) :: anc) : Rooted T (c.setIx i) := by
  refine ⟨h.root, fun _ => ?_⟩
  have htop := h.top (by simp [hp])
  rw [hp] at htop
  rw [BtCursor.setIx_path hp]
  cases anc with
  | nil => exact htop
  | cons a anc => simpa using htop

/-- The page at a place, and what its kind says. -/
theorem Reach.page_eq (h : Reach g page T dep s cur anc) :
    ∃ p, page cur = .node p ∧ OkBelow g anc s.dep p ∧ (p.leaf = true ↔ s.dep = 0)
      ∧ (s.dep = 0 → p.cells = s.mid.map Entry.cell) := by
  obtain ⟨p, qs, hp, hok, -, hbody⟩ := h.place.node
  refine ⟨p, hp, hok, ?_, ?_⟩
  · cases hd : s.dep with
    | zero =>
      rw [hd] at hbody
      simp [hbody.1]
    | succ k =>
      rw [hd] at hbody
      simp [(body_succ.1 hbody).1]
  · intro hd
    rw [hd] at hbody
    rw [← MemPage.allCells_of_ovfl_nil hok.1.1]
    exact hbody.2.1

/-- Below another page, a page has entries. -/
theorem Reach.mid_ne_nil {a : Nat × Nat} (h : Reach g page T dep s cur (a :: anc)) : s.mid ≠ [] :=
  Sub.ne_nil (h.place.node.imp fun _ h => okBelow_cons.1 h)

theorem Reach.root_page (h : Reach g page T dep s cur []) : cur = T.root ∧ s.left = [] ∧ s.right = [] := by
  obtain ⟨rfl, -, -, h1, h2, -⟩ := h.place.above
  exact ⟨rfl, h1, h2⟩

/-- The place of a child. -/
theorem Reach.child {p : MemPage} (h : Reach g page T dep s cur anc) (hp : page cur = .node p)
    (hl : p.leaf = false) (hidx : idx ≤ p.cells.length) :
    ∃ s' : Spot, Reach g page T dep s' (p.childAt idx) ((cur, idx) :: anc) ∧ s'.dep + 1 = s.dep
      ∧ (idx = 0 → s'.left = s.left ∧ s'.lo = s.lo)
      ∧ (∀ i c, idx = i + 1 → p.cells[i]? = some c → s'.lo = (divKey c).bound)
      ∧ (idx = p.cells.length → s'.right = s.right ∧ s'.hi = s.hi)
      ∧ (∀ c, p.cells[idx]? = some c → s'.hi = (divKey c).bound) := by
  obtain ⟨p', hp', -, hleaf, -⟩ := h.page_eq
  obtain rfl : p' = p := PageData.node.inj (hp'.symm.trans hp)
  obtain ⟨k, hk⟩ : ∃ k, s.dep = k + 1 := by
    refine Nat.exists_eq_succ_of_ne_zero fun h0 => ?_
    rw [hleaf.2 h0] at hl
    exact absurd hl (by simp)
  obtain ⟨s', hat, hd, -, h1, h2, h3, h4⟩ := h.place.child hk hp hidx
  refine ⟨s', ⟨hat, ?_⟩, by omega, h1, h2, h3, h4⟩
  have := h.dep
  simp only [List.length_cons]
  omega

/-- The place of the parent. -/
theorem Reach.up (h : Reach g page T dep s cur ((parent, idx) :: anc)) :
    ∃ p, ∃ s' : Spot, page parent = .node p ∧ Settled g p ∧ p.leaf = false ∧ idx ≤ p.cells.length
      ∧ Reach g page T dep s' parent anc
      ∧ (idx = p.cells.length → s'.left ++ s'.mid = s.left ++ s.mid ∧ s'.right = s.right)
      ∧ (idx = 0 → s'.left = s.left ∧ s'.mid ++ s'.right = s.mid ++ s.right) := by
  obtain ⟨p, s', hp, hset, hl, hidx, hat, hd, h1, h2⟩ := h.place.up
  refine ⟨p, s', hp, hset, hl, hidx, ⟨hat, ?_⟩, h1, h2⟩
  have := h.dep
  simp only [List.length_cons] at this
  omega

theorem OnEntry.lt (h : OnEntry g page T dep c i) : i < T.es.length := by
  obtain ⟨s, cur, ix, anc, -, hr, -, hix, rfl⟩ := h
  rw [hr.place.es]
  simp only [List.length_append]
  omega

theorem OnEntry.rooted (h : OnEntry g page T dep c i) (hr : c.pgnoRoot = T.root) : Rooted T c := by
  obtain ⟨s, cur, ix, anc, hp, hreach, -⟩ := h
  exact hreach.rooted hr hp

theorem OnEntry.congr (h : OnEntry g page T dep c i) (hp : c'.path = c.path) :
    OnEntry g page T dep c' i := by
  obtain ⟨s, cur, ix, anc, h1, h⟩ := h
  exact ⟨s, cur, ix, anc, hp.trans h1, h⟩

/-- The page of the entry under the cursor, and its cell. -/
theorem OnEntry.page_eq (h : OnEntry g page T dep c i) :
    ∃ p e, page c.pPage = .node p ∧ p.leaf = true ∧ c.ix < p.cells.length ∧ T.es[i]? = some e
      ∧ p.cells.getD c.ix [] = e.cell ∧ e.On g page := by
  obtain ⟨s, cur, ix, anc, hpath, hr, hd, hix, rfl⟩ := h
  obtain ⟨p, qs, hp, hok, -, hbody⟩ := hr.place.node
  rw [hd] at hbody
  obtain ⟨hl, hcells, hon, -⟩ := hbody
  rw [MemPage.allCells_of_ovfl_nil hok.1.1] at hcells
  rw [BtCursor.pPage_eq hpath, BtCursor.ix_eq hpath]
  refine ⟨p, s.mid[ix], hp, hl, by simpa [hcells] using hix, ?_, ?_, hon _ (List.getElem_mem hix)⟩
  · rw [hr.place.es, List.getElem?_append_right (by omega), Nat.add_sub_cancel_left,
      List.getElem?_append_left hix, List.getElem?_eq_getElem hix]
  · simp [hcells, List.getD_eq_getElem?_getD, hix]

/-- Two positions with one index are at one place of the tree's order. -/
theorem OnEntry.key_inj {j : Nat} {e e' : Entry} (h : T.Ok g page) (hi : T.es[i]? = some e)
    (hj : T.es[j]? = some e') (hk : e.key = e'.key) : i = j := by
  have hp := IsTree.pairwise h
  rw [List.pairwise_iff_getElem] at hp
  obtain ⟨hil, rfl⟩ := List.getElem?_eq_some_iff.1 hi
  obtain ⟨hjl, rfl⟩ := List.getElem?_eq_some_iff.1 hj
  rcases Nat.lt_trichotomy i j with hlt | heq | hgt
  · exact absurd hk (hp i j hil hjl hlt).ne
  · exact heq
  · exact absurd hk (hp j i hjl hil hgt).ne'

end Places

/-! ## Moving down -/

section Down

variable {g : Geometry} {v : Env Db} {T : Tree} {dep cur child ix : Nat} {s : Spot}
  {anc : List (Nat × Nat)} {c : BtCursor} {E : Rc → BtCursor → Prop}

theorem moveToChild_moves (hT : Standing g v.bt T dep) (hE : Allows T dep E) (hr : c.pgnoRoot = T.root)
    (hp : c.path = (cur, ix) :: anc) (h : Reach g v.bt.page T dep s child ((cur, ix) :: anc)) :
    Moves (moveToChild g child) v c
      (fun _ c' => Moved c c' ∧ c'.info.nSize = 0 ∧ c'.path = (child, 0) :: (cur, ix) :: anc) E := by
  obtain ⟨p, hpage, hok, -, -⟩ := h.page_eq
  have hne := hok.2 (by simp)
  have hin := h.inRange hT
  have hroot : Rooted T c := by
    refine ⟨hr, fun _ => ?_⟩
    rw [hp]
    have hlast : (((child, 0) :: (cur, ix) :: anc).getLast?.map Prod.fst) = some T.root :=
      h.place.above.getLast
    rwa [List.getLast?_cons_cons] at hlast
  refine cursor_moves.bind ?_
  intro a c' h1
  obtain ⟨rfl, rfl⟩ := h1
  refine Moves.ite (fun hfull => Moves.throw (hE.deep _ ?_ hroot)) fun _ => ?_
  · have := h.dep
    rw [hp] at hfull
    simp only [List.length_cons] at this hfull
    omega
  refine (modifyCursor_moves _).bind ?_
  intro _ c1 h1
  subst h1
  have hroot1 : Rooted T ((a.setIx 0).forget) := (hroot.setIx hp).congr rfl rfl
  refine (inBt_moves (getAndInitPage_does hpage hin.2.1 hin.ne_zero hin.2.2
    fun e he => ⟨rfl, hE.fault e _ he hroot1⟩)).bind ?_
  intro p' c2 h2
  obtain ⟨rfl, rfl⟩ := h2
  refine Moves.ite (fun h0 => absurd h0 hne) fun _ => (modifyCursor_moves _).post ?_
  intro _ c3 h3
  subst h3
  exact ⟨⟨rfl, rfl, rfl, rfl, fun _ => rfl⟩, rfl, by rw [hp]⟩

/-- Down to the leftmost leaf, from the first cell of a page. -/
theorem moveToLeftmost_top (hT : Standing g v.bt T dep) (hE : Allows T dep E) :
    ∀ {fuel : Nat} {s : Spot} {cur : Nat} {anc : List (Nat × Nat)} {c : BtCursor},
      c.pgnoRoot = T.root → c.path = (cur, 0) :: anc → Reach g v.bt.page T dep s cur anc → s.mid ≠ [] →
      20 ≤ fuel + anc.length →
      Moves (moveToLeftmost g fuel) v c
        (fun _ c' => Moved c c' ∧ OnEntry g v.bt.page T dep c' s.left.length) E
  | 0, s, cur, anc, c, hr, hp, h, _, hfuel => by
    have := h.dep
    exact Moves.throw (hE.deep c (by omega) (h.rooted hr hp))
  | fuel + 1, s, cur, anc, c, hr, hp, h, hmid, hfuel => by
    obtain ⟨p, hpage, -, hleaf, -⟩ := h.page_eq
    refine (curPage_moves (by rwa [BtCursor.pPage_eq hp])).bind ?_
    intro p' c' h1
    obtain ⟨rfl, rfl⟩ := h1
    refine Moves.ite (fun hl => Moves.pure ⟨Moved.rfl, ?_⟩) fun hl => ?_
    · exact ⟨s, cur, 0, anc, hp, h, hleaf.1 hl, List.length_pos_iff.2 hmid, rfl⟩
    obtain ⟨s', hs', -, hleft, -⟩ := h.child hpage (by simpa using hl) (Nat.zero_le _)
    refine cursor_moves.bind ?_
    intro a c1 h1
    obtain ⟨rfl, rfl⟩ := h1
    rw [BtCursor.ix_eq hp]
    refine (moveToChild_moves hT hE hr hp hs').bind ?_
    intro _ c2 h2
    obtain ⟨hm, -, hp2⟩ := h2
    refine (moveToLeftmost_top hT hE (hm.root.trans hr) hp2 hs' hs'.mid_ne_nil
      (by simp only [List.length_cons]; omega)).post ?_
    intro _ c3 h3
    rw [(hleft rfl).1] at h3
    exact ⟨hm.trans h3.1, h3.2⟩

/-- Down to the leftmost leaf below the child of an interior page the cursor is at. -/
theorem moveToLeftmost_moves {p : MemPage} (hT : Standing g v.bt T dep) (hE : Allows T dep E)
    (hr : c.pgnoRoot = T.root) (hp : c.path = (cur, ix) :: anc) (hpage : v.bt.page cur = .node p)
    (hl : p.leaf = false) (h : Reach g v.bt.page T dep s (p.childAt ix) ((cur, ix) :: anc)) :
    Moves (moveToLeftmost g 21) v c
      (fun _ c' => Moved c c' ∧ OnEntry g v.bt.page T dep c' s.left.length) E := by
  refine (curPage_moves (by rwa [BtCursor.pPage_eq hp])).bind ?_
  intro p' c' h1
  obtain ⟨rfl, rfl⟩ := h1
  rw [hl, if_neg (by simp)]
  refine cursor_moves.bind ?_
  intro a c1 h1
  obtain ⟨rfl, rfl⟩ := h1
  rw [BtCursor.ix_eq hp]
  refine (moveToChild_moves hT hE hr hp h).bind ?_
  intro _ c2 h2
  obtain ⟨hm, -, hp2⟩ := h2
  refine (moveToLeftmost_top hT hE (hm.root.trans hr) hp2 h h.mid_ne_nil
    (by simp only [List.length_cons]; omega)).post ?_
  intro _ c3 h3
  exact ⟨hm.trans h3.1, h3.2⟩

/-- Down to the rightmost leaf below a page. -/
theorem moveToRightmost_moves (hT : Standing g v.bt T dep) (hE : Allows T dep E) :
    ∀ {fuel : Nat} {s : Spot} {cur ix : Nat} {anc : List (Nat × Nat)} {c : BtCursor},
      c.pgnoRoot = T.root → c.path = (cur, ix) :: anc → Reach g v.bt.page T dep s cur anc → s.mid ≠ [] →
      20 ≤ fuel + anc.length →
      Moves (moveToRightmost g fuel) v c (fun _ c' => Moved c c'
        ∧ OnEntry g v.bt.page T dep c' (T.es.length - s.right.length - 1)) E
  | 0, s, cur, ix, anc, c, hr, hp, h, _, hfuel => by
    have := h.dep
    exact Moves.throw (hE.deep c (by omega) (h.rooted hr hp))
  | fuel + 1, s, cur, ix, anc, c, hr, hp, h, hmid, hfuel => by
    obtain ⟨p, hpage, hok, hleaf, hcells⟩ := h.page_eq
    refine (curPage_moves (by rwa [BtCursor.pPage_eq hp])).bind ?_
    intro p' c' h1
    obtain ⟨rfl, rfl⟩ := h1
    refine Moves.ite (fun hl => (modifyCursor_moves _).post ?_) fun hl => ?_
    · intro _ c1 h1
      subst h1
      have hpos := List.length_pos_iff.2 hmid
      have hlen := congrArg List.length h.place.es
      have hc := congrArg List.length (hcells (hleaf.1 hl))
      rw [List.length_map] at hc
      simp only [List.length_append] at hlen
      exact ⟨BtCursor.moved_setIx, s, cur, _, anc, BtCursor.setIx_path hp, h, hleaf.1 hl, by omega, by omega⟩
    obtain ⟨s', hs', -, -, -, hright, -⟩ := h.child hpage (by simpa using hl) le_rfl
    refine (modifyCursor_moves _).bind ?_
    intro _ c1 h1
    subst h1
    have hchild : p'.childAt p'.cells.length = p'.right := by
      rw [MemPage.childAt, List.getElem?_eq_none le_rfl]
    rw [hchild] at hs'
    have hp1 : (c.setIx p'.cells.length).path = (cur, p'.cells.length) :: anc := BtCursor.setIx_path hp
    refine (moveToChild_moves (c := c.setIx p'.cells.length) hT hE hr hp1 hs').bind ?_
    intro _ c2 h2
    obtain ⟨hm, -, hp2⟩ := h2
    refine (moveToRightmost_moves hT hE (hm.root.trans hr) hp2 hs' hs'.mid_ne_nil
      (by simp only [List.length_cons]; omega)).post ?_
    intro _ c3 h3
    rw [(hright rfl).1] at h3
    exact ⟨BtCursor.moved_setIx.trans (hm.trans h3.1), h3.2⟩

end Down

/-! ## To the root -/

section Root

variable {g : Geometry} {v : Env Db} {T : Tree} {dep : Nat} {c : BtCursor} {E : Rc → BtCursor → Prop}

/-- The cursor is on the root page, ready to descend. -/
structure AtRoot (T : Tree) (c : BtCursor) : Prop where
  root : c.pgnoRoot = T.root
  path : c.path = [(T.root, 0)]
  eState : c.eState = .valid
  atLast : c.atLast = false
  nSize : c.info.nSize = 0
  es : T.es ≠ []

/-- The root page, and whether the tree has entries. -/
theorem Standing.root_page (hT : Standing g v.bt T dep) :
    ∃ p, v.bt.page T.root = .node p ∧ (p.cells = [] ↔ T.es = []) ∧ (p.cells = [] → p.leaf = true) := by
  obtain ⟨s, hs, -, -, -, hmid, -⟩ := hT.reach_root
  obtain ⟨p, hpage, hok, hleaf, hcells⟩ := hs.page_eq
  have hl : p.cells = [] → p.leaf = true := by
    intro h0
    by_contra hd
    exact hok.1.2.2 (fun h => hd (hleaf.2 h)) h0
  refine ⟨p, hpage, ⟨fun h0 => ?_, fun h0 => ?_⟩, hl⟩
  · have := hcells (hleaf.1 (hl h0))
    rwa [h0, hmid, eq_comm, List.map_eq_nil_iff] at this
  · by_contra hne
    rcases hd : p.leaf with - | -
    · obtain ⟨s', hs', -⟩ := hs.child hpage hd (Nat.zero_le _)
      have hes := hs'.place.es
      rw [h0] at hes
      exact hs'.mid_ne_nil (by simp_all)
    · have := hcells (hleaf.1 hd)
      rw [hmid, h0] at this
      exact hne this

theorem moveToRoot_moves (hT : Standing g v.bt T dep) (hE : Allows T dep E) (hc : Rooted T c)
    (hf : ∀ e, c.path = [] → c.eState = .fault e → E e c) :
    Moves (moveToRoot g) v c (fun empty c' => c'.skipNext = c.skipNext ∧
      if empty then T.es = [] ∧ c'.eState = .invalid ∧ Rooted T c' ∧ c'.info.nSize = 0
      else AtRoot T c') E := by
  have hin := hT.root_inRange
  obtain ⟨p, hpage, hempty, hleaf⟩ := hT.root_page
  have hpRoot : (c.path.getLast?.map Prod.fst).getD c.pgnoRoot = T.root := by
    by_cases hpath : c.path = []
    · simp [hpath, hc.root]
    · simp [hc.top hpath]
  -- the page is at hand
  have hdown : ∀ c' : BtCursor, c'.pgnoRoot = T.root → c'.skipNext = c.skipNext →
      Moves (do
        modifyCursor fun c => { c with path := [(T.root, 0)], atLast := false }.forget
        let p ← inBt (nodeAt T.root)
        if p.cells ≠ [] then
          modifyCursor fun c => { c with eState := .valid }
          return false
        else if p.leaf then
          modifyCursor fun c => { c with eState := .invalid }
          return true
        else throw .corrupt) v c' (fun empty c' => c'.skipNext = c.skipNext ∧
          if empty then T.es = [] ∧ c'.eState = .invalid ∧ Rooted T c' ∧ c'.info.nSize = 0
          else AtRoot T c') E := by
    intro c' hr hs
    refine (modifyCursor_moves _).bind ?_
    intro _ c1 h1
    subst h1
    refine (inBt_moves (nodeAt_does hpage)).bind ?_
    intro p' c2 h2
    obtain ⟨rfl, rfl⟩ := h2
    refine Moves.ite (fun hne => ?_) fun h0 => ?_
    · refine (modifyCursor_moves _).bind ?_
      intro _ c3 h3
      subst h3
      exact Moves.pure ⟨hs, hr, rfl, rfl, rfl, rfl, fun h0 => hne (hempty.2 h0)⟩
    · have h0 : p'.cells = [] := not_not.1 h0
      rw [if_pos (hleaf h0)]
      refine (modifyCursor_moves _).bind ?_
      intro _ c3 h3
      subst h3
      exact Moves.pure ⟨hs, hempty.1 h0, rfl, ⟨hr, fun _ => rfl⟩, rfl⟩
  -- the page is read first
  have hopen : ∀ c' : BtCursor, Rooted T c' → Moves (onError (do
        let _ ← inBt (getAndInitPage g c.pgnoRoot)) (modifyCursor fun c => { c with eState := .invalid }))
      v c' (fun _ c'' => c' = c'') E := by
    intro c' hr
    rw [hc.root]
    refine Moves.onError ?_
    refine (inBt_moves (P := fun _ => True) ((getAndInitPage_does hpage hin.2.1 hin.ne_zero hin.2.2
      fun e he => ⟨rfl, hE.fault e _ he (hr.congr rfl rfl)⟩).post fun _ _ h => ⟨h.1, trivial⟩)).bind ?_
    intro _ c2 h2
    exact Moves.pure h2.1
  refine cursor_moves.bind ?_
  intro a c' h1
  obtain ⟨rfl, rfl⟩ := h1
  rw [if_neg fun h => hin.ne_zero (hc.root.symm.trans h.2), hpRoot]
  refine Ensures.ite (fun hpath => ?_) fun hpath => hdown _ hc.root rfl
  dsimp only
  split
  · rename_i rc hrc
    exact Moves.throw_bind (hf rc hpath hrc)
  · refine (modifyCursor_moves _).bind ?_
    intro _ c2 h2
    subst h2
    refine (hopen { a with pKey := [], eState := .invalid } (hc.congr rfl rfl)).bind ?_
    intro _ c3 h3
    subst h3
    exact hdown { a with pKey := [], eState := .invalid } hc.root rfl
  · refine (hopen a hc).bind ?_
    intro _ c3 h3
    subst h3
    exact hdown a hc.root rfl

/-- `sqlite3BtreeFirst` goes to the first entry. -/
theorem sqlite3BtreeFirst_moves (hT : Standing g v.bt T dep) (hE : Allows T dep E) (hc : Rooted T c)
    (hf : ∀ e, c.path = [] → c.eState = .fault e → E e c) :
    Moves (sqlite3BtreeFirst g) v c (fun empty c' => c'.pgnoRoot = T.root ∧ c'.info.nSize = 0 ∧
      if empty then T.es = [] ∧ c'.eState = .invalid ∧ Rooted T c'
      else c'.eState = .valid ∧ c'.atLast = false ∧ OnEntry g v.bt.page T dep c' 0) E := by
  refine (moveToRoot_moves hT hE hc hf).bind ?_
  intro empty c1 h1
  obtain ⟨-, h1⟩ := h1
  cases empty with
  | true => exact Moves.pure ⟨h1.2.2.1.root, h1.2.2.2, h1.1, h1.2.1, h1.2.2.1⟩
  | false =>
    obtain ⟨hr, hpath, hst, hat, hn, hes⟩ := h1
    obtain ⟨s, hs, -, -, hleft, hmid, -⟩ := hT.reach_root
    refine (moveToLeftmost_top hT hE hr hpath hs (hmid ▸ hes) (by simp)).bind ?_
    intro _ c2 h2
    obtain ⟨hm, hon⟩ := h2
    rw [hleft] at hon
    exact Moves.pure ⟨hm.root.trans hr, hm.nSize hn, hm.eState.trans hst, hm.atLast.trans hat, hon⟩

/-- `sqlite3BtreeLast` goes to the last entry. The flag `BTCF_AtLast` saves it the way. -/
theorem sqlite3BtreeLast_moves (hT : Standing g v.bt T dep) (hE : Allows T dep E) (hc : Rooted T c)
    (hlast : c.eState = .valid → c.atLast = true → OnEntry g v.bt.page T dep c (T.es.length - 1))
    (hf : ∀ e, c.path = [] → c.eState = .fault e → E e c) :
    Moves (sqlite3BtreeLast g) v c (fun empty c' => c'.pgnoRoot = T.root
      ∧ (c.info.nSize = 0 ∨ c' ≠ c → c'.info.nSize = 0) ∧
      if empty then T.es = [] ∧ c'.eState = .invalid ∧ Rooted T c'
      else c'.eState = .valid ∧ c'.atLast = true
        ∧ OnEntry g v.bt.page T dep c' (T.es.length - 1)) E := by
  refine cursor_moves.bind ?_
  intro a c' h1
  obtain ⟨rfl, rfl⟩ := h1
  refine Moves.ite (fun h => Moves.pure ⟨hc.root, ?_, h.1, h.2, hlast h.1 h.2⟩) fun _ => ?_
  · intro h0
    exact h0.resolve_right fun h => h rfl
  refine (moveToRoot_moves hT hE hc hf).bind ?_
  intro empty c1 h1
  obtain ⟨-, h1⟩ := h1
  cases empty with
  | true => exact Moves.pure ⟨h1.2.2.1.root, fun _ => h1.2.2.2, h1.1, h1.2.1, h1.2.2.1⟩
  | false =>
    obtain ⟨hr, hpath, hst, hat, hn, hes⟩ := h1
    obtain ⟨s, hs, -, -, -, hmid, hright⟩ := hT.reach_root
    have hE' : Allows T dep fun e c' => E e { c' with atLast := false } :=
      ⟨fun e c he hc => hE.fault e _ he (hc.congr rfl rfl), fun c hd hc => hE.deep _ hd (hc.congr rfl rfl)⟩
    refine (Moves.onError (moveToRightmost_moves hT hE' hr hpath hs (hmid ▸ hes) (by simp))).bind ?_
    intro _ c2 h2
    obtain ⟨hm, hon⟩ := h2
    rw [hright, List.length_nil, Nat.sub_zero] at hon
    refine (modifyCursor_moves _).bind ?_
    intro _ c3 h3
    subst h3
    exact Moves.pure ⟨hm.root.trans hr, fun _ => hm.nSize hn, hm.eState.trans hst, rfl, hon.congr rfl⟩

end Root

end Btreelite
