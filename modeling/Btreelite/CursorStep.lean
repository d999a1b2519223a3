import Btreelite.CursorSeek

/-!
# Stepping through a tree

`sqlite3BtreeNext` and `sqlite3BtreePrevious` go to the entry ahead of and behind the cursor. A cursor
that lost its entry lies between two entries, and a step leads to one of these.
-/

namespace Btreelite

open Prog Segment

/-- How far a step forward and a step back are from entry `i`, by the sign of `skipNext`. -/
def Skips (skipNext : Int) (i f b : Nat) : Prop :=
  f = i + (if 0 < skipNext then 0 else 1) ∧ b = i + (if skipNext < 0 then 1 else 0)

/-- The entries before index `f` are not ahead of the cursor and those from index `b` on not behind it. -/
def Faces (g : Geometry) (page : Nat → PageData) (T : Tree) (dep : Nat) (c : BtCursor) (f b : Nat) : Prop :=
  match c.eState with
  | .valid => ∃ i, OnEntry g page T dep c i ∧ Skips 0 i f b
  | .skipnext => ∃ i, OnEntry g page T dep c i ∧ Skips c.skipNext i f b
  | .requireseek => c.path = [] ∧ f ≤ T.es.length ∧ b ≤ T.es.length ∧ ∀ (j : Nat) e, T.es[j]? = some e →
      (j < f ↔ e.key < c.pKey ∨ e.key = c.pKey ∧ ¬ 0 < c.skipNext)
        ∧ (j < b ↔ e.key < c.pKey ∨ e.key = c.pKey ∧ c.skipNext < 0)
  | _ => False

/-! ## Climbing -/

section Climb

variable {g : Geometry} {v : Env Db} {T : Tree} {dep : Nat} {E : Rc → BtCursor → Prop}

/-- Climbing past the last cells ends below a page with a child behind, or at the root. -/
theorem climbNext_moves : ∀ {anc : List (Nat × Nat)} {s : Spot} {cur ix : Nat} {c : BtCursor},
    c.pgnoRoot = T.root → c.path = (cur, ix) :: anc → Reach g v.bt.page T dep s cur anc →
    Moves (climbNext c.path) v c (fun done c' => c'.pgnoRoot = T.root ∧ c'.atLast = c.atLast
      ∧ (c.info.nSize = 0 → c'.info.nSize = 0) ∧
      if done then s.right = [] ∧ c'.eState = .invalid ∧ Rooted T c'
      else c'.eState = c.eState ∧ ∃ s' child parent idx anc' p, c'.path = (parent, idx) :: anc'
        ∧ Reach g v.bt.page T dep s' child ((parent, idx) :: anc') ∧ v.bt.page parent = .node p
        ∧ p.leaf = false ∧ idx < p.cells.length ∧ s'.left ++ s'.mid = s.left ++ s.mid ∧ s'.right = s.right) E
  | [], s, cur, ix, c, hr, hp, h => by
    rw [hp]
    refine (modifyCursor_moves _).bind ?_
    intro _ c1 h1
    subst h1
    exact Moves.pure ⟨hr, rfl, id, h.root_page.2.2, rfl, (h.rooted hr hp).congr rfl rfl⟩
  | (parent, idx) :: anc, s, cur, ix, c, hr, hp, h => by
    obtain ⟨p, s', hpage, hset, hl, hidx, hreach, hend, -⟩ := h.up
    rw [hp]
    have hp1 : ({ c with path := c.path.tail }.forget).path = (parent, idx) :: anc := by simp [hp]
    refine (modifyCursor_moves _).bind ?_
    intro _ c1 h1
    subst h1
    refine (curPage_moves (by rwa [BtCursor.pPage_eq hp1])).bind ?_
    intro p' c2 h2
    obtain ⟨rfl, rfl⟩ := h2
    refine cursor_moves.bind ?_
    intro a c3 h3
    obtain ⟨rfl, rfl⟩ := h3
    rw [BtCursor.ix_eq hp1]
    refine Moves.ite (fun hge => ?_) fun hlt => ?_
    · obtain ⟨h1, h2⟩ := hend (by omega)
      have ih := climbNext_moves (c := { c with path := c.path.tail }.forget) hr hp1 hreach
      rw [hp1] at ih
      refine ih.post ?_
      intro done c4 h4
      obtain ⟨h5, h6, h7, h8⟩ := h4
      refine ⟨h5, h6, fun _ => h7 rfl, ?_⟩
      cases done with
      | true => exact ⟨h2 ▸ h8.1, h8.2⟩
      | false =>
        obtain ⟨h9, s2, child, par, i, anc', q, h10, h11, h12, h13, h14, h15, h16⟩ := h8
        exact ⟨h9, s2, child, par, i, anc', q, h10, h11, h12, h13, h14, h15.trans h1, h16.trans h2⟩
    · exact Moves.pure ⟨hr, rfl, fun _ => rfl, rfl, s, cur, parent, idx, anc, p', hp1, h, hpage, hl,
        by omega, rfl, rfl⟩

/-- Climbing past the first cells ends at a page with a cell before, or at the root. -/
theorem climbPrevious_moves : ∀ {anc : List (Nat × Nat)} {s : Spot} {cur ix : Nat} {c : BtCursor},
    c.pgnoRoot = T.root → c.path = (cur, ix) :: anc → Reach g v.bt.page T dep s cur anc →
    Moves (climbPrevious c.path) v c (fun done c' => c'.pgnoRoot = T.root ∧ c'.atLast = c.atLast
      ∧ (c.info.nSize = 0 → c'.info.nSize = 0) ∧
      if done then ix = 0 ∧ s.left = [] ∧ c'.eState = .invalid ∧ Rooted T c'
      else c'.eState = c.eState ∧ ((c' = c ∧ ix ≠ 0)
        ∨ ix = 0 ∧ ∃ s' child parent idx anc' p, c'.path = (parent, idx + 1) :: anc'
        ∧ Reach g v.bt.page T dep s' child ((parent, idx + 1) :: anc') ∧ v.bt.page parent = .node p
        ∧ p.leaf = false ∧ s'.left = s.left)) E
  | [], s, cur, ix, c, hr, hp, h => by
    rw [hp]
    refine cursor_moves.bind ?_
    intro a c1 h1
    obtain ⟨rfl, rfl⟩ := h1
    rw [BtCursor.ix_eq hp]
    refine Moves.ite (fun h0 => Moves.pure ⟨hr, rfl, id, rfl, Or.inl ⟨rfl, h0⟩⟩) fun h0 => ?_
    refine (modifyCursor_moves _).bind ?_
    intro _ c1 h1
    subst h1
    exact Moves.pure ⟨hr, rfl, id, not_not.1 h0, h.root_page.2.1, rfl, (h.rooted hr hp).congr rfl rfl⟩
  | (parent, idx) :: anc, s, cur, ix, c, hr, hp, h => by
    obtain ⟨p, s', hpage, hset, hl, hidx, hreach, -, hstart⟩ := h.up
    rw [hp]
    have hp1 : ({ c with path := c.path.tail }.forget).path = (parent, idx) :: anc := by simp [hp]
    refine cursor_moves.bind ?_
    intro a c1 h1
    obtain ⟨rfl, rfl⟩ := h1
    rw [BtCursor.ix_eq hp]
    refine Moves.ite (fun h0 => Moves.pure ⟨hr, rfl, id, rfl, Or.inl ⟨rfl, h0⟩⟩) fun h0 => ?_
    have h0 : ix = 0 := not_not.1 h0
    refine (modifyCursor_moves _).bind ?_
    intro _ c1 h1
    subst h1
    have ih := climbPrevious_moves (c := { a with path := a.path.tail }.forget) hr hp1 hreach
    rw [hp1] at ih
    refine ih.post ?_
    intro done c4 h4
    obtain ⟨h5, h6, h7, h8⟩ := h4
    refine ⟨h5, h6, fun _ => h7 rfl, ?_⟩
    cases done with
    | true =>
      obtain ⟨h1, h2, h3⟩ := h8
      exact ⟨h0, (hstart h1).1 ▸ h2, h3⟩
    | false =>
      obtain ⟨h9, h10⟩ := h8
      refine ⟨h9, Or.inr ⟨h0, ?_⟩⟩
      rcases h10 with ⟨rfl, hne⟩ | ⟨rfl, s2, child, par, i, anc', q, h11, h12, h13, h14, h15⟩
      · obtain ⟨i, rfl⟩ := Nat.exists_eq_succ_of_ne_zero hne
        exact ⟨s, cur, parent, i, anc, p, hp1, h, hpage, hl, rfl⟩
      · exact ⟨s2, child, par, i, anc', q, h11, h12, h13, h14, h15.trans (hstart rfl).1⟩

end Climb

/-! ## From an entry to the next -/

section Steps

variable {g : Geometry} {v : Env Db} {T : Tree} {dep cur parent idx i fuel : Nat} {s : Spot}
  {anc : List (Nat × Nat)} {p : MemPage} {c : BtCursor} {E : Rc → BtCursor → Prop}

/-- The place of the child behind. -/
theorem Reach.next {page : Nat → PageData} (h : Reach g page T dep s cur ((parent, idx) :: anc))
    (hp : page parent = .node p) (hidx : idx < p.cells.length) :
    ∃ s', Reach g page T dep s' (p.childAt (idx + 1)) ((parent, idx + 1) :: anc)
      ∧ s'.left = s.left ++ s.mid := by
  obtain ⟨s', hat, hd, hl, -⟩ := h.place.next hp hidx
  refine ⟨s', ⟨hat, ?_⟩, hl⟩
  have := h.dep
  simp only [List.length_cons] at this ⊢
  omega

/-- The place of the child before. -/
theorem Reach.prev {page : Nat → PageData} (h : Reach g page T dep s cur ((parent, idx + 1) :: anc))
    (hp : page parent = .node p) :
    ∃ s', Reach g page T dep s' (p.childAt idx) ((parent, idx) :: anc)
      ∧ s.left = s'.left ++ s'.mid ∧ s'.right = s.mid ++ s.right := by
  obtain ⟨s', hat, hd, hl, hr⟩ := h.place.prev hp
  refine ⟨s', ⟨hat, ?_⟩, hl, hr⟩
  have := h.dep
  simp only [List.length_cons] at this ⊢
  omega

theorem restoreStep_valid {ahead : Int → Bool} (hst : c.eState = .valid) :
    Moves (restoreStep g ahead) v c (fun ans c' => c = c' ∧ ans = none) E := by
  refine Moves.cursor_bind ?_
  rw [if_pos hst]
  exact Moves.pure ⟨rfl, rfl⟩

theorem btreeNext_valid {next : CurM Bool} {Q : Bool → BtCursor → Prop} (hst : c.eState = .valid)
    (h : Moves (stepNext g next) v c Q E) : Moves (btreeNext g next) v c Q E := by
  refine (restoreStep_valid hst).bind ?_
  intro ans c' h1
  obtain ⟨rfl, rfl⟩ := h1
  exact h

theorem btreePrevious_valid {previous : CurM Bool} {Q : Bool → BtCursor → Prop} (hst : c.eState = .valid)
    (h : Moves (stepPrevious g previous) v c Q E) : Moves (btreePrevious g previous) v c Q E := by
  refine (restoreStep_valid hst).bind ?_
  intro ans c' h1
  obtain ⟨rfl, rfl⟩ := h1
  exact h

/-- From a cell of an interior page, `sqlite3BtreeNext` goes to the first entry of the child behind. -/
theorem sqlite3BtreeNext_inner (hT : Standing g v.bt T dep) (hE : Allows T dep E)
    (hr : c.pgnoRoot = T.root) (hst : c.eState = .valid) (hp : c.path = (parent, idx) :: anc)
    (hpage : v.bt.page parent = .node p) (hl : p.leaf = false)
    (h : Reach g v.bt.page T dep s (p.childAt (idx + 1)) ((parent, idx + 1) :: anc)) :
    Moves (sqlite3BtreeNext g (fuel + 1)) v c (fun done c' => done = false ∧ Moved c c'
      ∧ c'.info.nSize = 0 ∧ OnEntry g v.bt.page T dep c' s.left.length) E := by
  have hp1 : c.forget.path = (parent, idx) :: anc := hp
  have hp2 := BtCursor.setIx_path (i := idx + 1) hp1
  have hm2 : Moved c (c.forget.setIx (idx + 1)) := BtCursor.moved_forget.trans BtCursor.moved_setIx
  have hpage1 : v.bt.page c.forget.pPage = .node p := by rwa [BtCursor.pPage_eq hp1]
  refine Moves.modify_bind (Moves.cursor_bind ?_)
  rw [if_neg fun h => h hst]
  refine Moves.curPage_bind hpage1 (Moves.cursor_bind ?_)
  rw [BtCursor.ix_eq hp1]
  refine Moves.ite (fun hend => btreeNext_valid hst ?_) fun _ => ?_
  · -- behind the last cell is the right child
    refine Moves.curPage_bind hpage1 (Moves.modify_bind (Moves.cursor_bind ?_))
    rw [BtCursor.ix_eq hp1, BtCursor.ix_eq hp2, if_pos hend, if_neg (by simp [hl])]
    have hchild : p.childAt (idx + 1) = p.right := by
      rw [MemPage.childAt, List.getElem?_eq_none (by omega)]
    rw [hchild] at h
    refine (moveToChild_moves hT hE (c := c.forget.setIx (idx + 1)) hr hp2 h).bind ?_
    intro _ c1 h1
    obtain ⟨hm, hn, hp3⟩ := h1
    refine (moveToLeftmost_top hT hE (hm.root.trans hr) hp3 h h.mid_ne_nil
      (by simp only [List.length_cons]; omega)).bind ?_
    intro _ c2 h2
    exact Moves.pure ⟨rfl, hm2.trans (hm.trans h2.1), h2.1.nSize hn, h2.2⟩
  · refine Moves.modify_bind ?_
    rw [BtCursor.ix_eq hp1, if_neg (by simp [hl])]
    refine (moveToLeftmost_moves hT hE (c := c.forget.setIx (idx + 1)) hr hp2 hpage hl h).bind ?_
    intro _ c2 h2
    exact Moves.pure ⟨rfl, hm2.trans h2.1, h2.1.nSize rfl, h2.2⟩

/-- From a cell of an interior page, `sqlite3BtreePrevious` goes to the last entry of the child before. -/
theorem sqlite3BtreePrevious_inner (hT : Standing g v.bt T dep) (hE : Allows T dep E)
    (hr : c.pgnoRoot = T.root) (hst : c.eState = .valid) (hp : c.path = (parent, idx) :: anc)
    (hpage : v.bt.page parent = .node p) (hl : p.leaf = false)
    (h : Reach g v.bt.page T dep s (p.childAt idx) ((parent, idx) :: anc)) :
    Moves (sqlite3BtreePrevious g (fuel + 1)) v c (fun done c' => done = false ∧ c'.pgnoRoot = T.root
      ∧ c'.eState = .valid ∧ c'.atLast = false ∧ c'.info.nSize = 0
      ∧ OnEntry g v.bt.page T dep c' (T.es.length - s.right.length - 1)) E := by
  have hp1 : ({ c with atLast := false }.forget).path = (parent, idx) :: anc := hp
  have hpage1 : v.bt.page ({ c with atLast := false }.forget).pPage = .node p := by
    rwa [BtCursor.pPage_eq hp1]
  refine Moves.modify_bind (Moves.cursor_bind (Moves.curPage_bind hpage1 ?_))
  rw [if_pos (by simp [hl])]
  refine btreePrevious_valid hst (Moves.curPage_bind hpage1 ?_)
  rw [if_neg (by simp [hl])]
  refine Moves.cursor_bind ?_
  rw [BtCursor.ix_eq hp1]
  refine (moveToChild_moves hT hE (c := { c with atLast := false }.forget) hr hp1 h).bind ?_
  intro _ c1 h1
  obtain ⟨hm, hn, hp3⟩ := h1
  refine (moveToRightmost_moves hT hE (hm.root.trans hr) hp3 h h.mid_ne_nil
    (by simp only [List.length_cons]; omega)).bind ?_
  intro _ c2 h2
  have hm2 := hm.trans h2.1
  exact Moves.pure ⟨rfl, hm2.root.trans hr, hm2.eState.trans hst, hm2.atLast, h2.1.nSize hn, h2.2⟩

/-- Where a step from an entry ends. -/
structure Stepped (g : Geometry) (page : Nat → PageData) (T : Tree) (dep : Nat) (done : Bool) (end_ : Prop)
    (j : Nat) (c : BtCursor) : Prop where
  root : c.pgnoRoot = T.root
  nSize : c.info.nSize = 0
  past : done = true → end_ ∧ c.eState = .invalid ∧ Rooted T c
  there : done = false → ¬ end_ ∧ c.eState = .valid ∧ OnEntry g page T dep c j

theorem stepNext_moves (hT : Standing g v.bt T dep) (hE : Allows T dep E) (hr : c.pgnoRoot = T.root)
    (hst : c.eState = .valid) (hn : c.info.nSize = 0) (hon : OnEntry g v.bt.page T dep c i) :
    Moves (stepNext g (sqlite3BtreeNext g (fuel + 1))) v c (fun done c' =>
      Stepped g v.bt.page T dep done (i + 1 = T.es.length) (i + 1) c' ∧ c'.atLast = c.atLast) E := by
  obtain ⟨s, cur, ix, anc, hp, h, hd, hix, rfl⟩ := hon
  obtain ⟨p, hpage, hok, hleaf, hcells⟩ := h.page_eq
  have hl := hleaf.2 hd
  have hlen : p.cells.length = s.mid.length := by rw [hcells hd, List.length_map]
  have hes := congrArg List.length h.place.es
  simp only [List.length_append] at hes
  have hp1 := BtCursor.setIx_path (i := ix + 1) hp
  refine Moves.curPage_bind (by rwa [BtCursor.pPage_eq hp]) (Moves.modify_bind (Moves.cursor_bind ?_))
  rw [BtCursor.ix_eq hp, BtCursor.ix_eq hp1]
  refine Moves.ite (fun hend => ?_) fun hlt => ?_
  · rw [if_pos hl]
    refine Moves.cursor_bind ?_
    refine (climbNext_moves (c := c.setIx (ix + 1)) hr hp1 h).bind ?_
    intro done c1 h1
    obtain ⟨hr1, hat1, hn1, h1⟩ := h1
    cases done with
    | true =>
      obtain ⟨hright, hst1, hroot⟩ := h1
      rw [hright, List.length_nil] at hes
      exact Moves.pure ⟨⟨hr1, hn1 hn, fun _ => ⟨by omega, hst1, hroot⟩, fun h => absurd h (by simp)⟩, hat1⟩
    | false =>
      obtain ⟨hst1, s1, child, parent, idx, anc1, q, hp2, hreach, hq, hql, hidx, hsum, -⟩ := h1
      obtain ⟨s2, hs2, hleft⟩ := hreach.next hq hidx
      refine (sqlite3BtreeNext_inner hT hE hr1 (hst1.trans hst) hp2 hq hql hs2).post ?_
      intro done c2 h2
      obtain ⟨rfl, hm, hn2, hon2⟩ := h2
      have hsum' := congrArg List.length hsum
      simp only [List.length_append] at hsum'
      rw [hleft, List.length_append, hsum'] at hon2
      have hpos := hon2.lt
      refine ⟨⟨hm.root.trans hr1, hn2, fun h => absurd h (by simp), fun _ =>
        ⟨by omega, hm.eState.trans (hst1.trans hst), ?_⟩⟩, hm.atLast.trans hat1⟩
      rwa [show s.left.length + ix + 1 = s.left.length + s.mid.length by omega]
  · rw [if_pos hl]
    exact Moves.pure ⟨⟨hr, hn, fun h => absurd h (by simp), fun _ => ⟨by omega, hst,
      s, cur, ix + 1, anc, hp1, h, hd, by omega, rfl⟩⟩, rfl⟩

theorem stepPrevious_moves (hT : Standing g v.bt T dep) (hE : Allows T dep E) (hr : c.pgnoRoot = T.root)
    (hst : c.eState = .valid) (hn : c.info.nSize = 0) (hat : c.atLast = false)
    (hon : OnEntry g v.bt.page T dep c i) :
    Moves (stepPrevious g (sqlite3BtreePrevious g (fuel + 1))) v c (fun done c' =>
      Stepped g v.bt.page T dep done (i = 0) (i - 1) c' ∧ c'.atLast = false) E := by
  obtain ⟨s, cur, ix, anc, hp, h, hd, hix, rfl⟩ := hon
  obtain ⟨p, hpage, hok, hleaf, hcells⟩ := h.page_eq
  have hl := hleaf.2 hd
  have hes := congrArg List.length h.place.es
  simp only [List.length_append] at hes
  refine Moves.curPage_bind (by rwa [BtCursor.pPage_eq hp]) ?_
  rw [if_pos hl]
  refine Moves.cursor_bind ((climbPrevious_moves hr hp h).bind ?_)
  intro done c1 h1
  obtain ⟨hr1, hat1, hn1, h1⟩ := h1
  cases done with
  | true =>
    obtain ⟨rfl, hleft, hst1, hroot⟩ := h1
    exact Moves.pure ⟨⟨hr1, hn1 hn, fun _ => ⟨by simp [hleft], hst1, hroot⟩, fun h => absurd h (by simp)⟩,
      hat1.trans hat⟩
  | false =>
    obtain ⟨hst1, h1⟩ := h1
    rcases h1 with ⟨rfl, hne⟩ | ⟨rfl, s1, child, parent, idx, anc1, q, hp2, hreach, hq, hql, hleft⟩
    · have hp1 := BtCursor.setIx_path (i := ix - 1) hp
      refine Moves.modify_bind ?_
      rw [BtCursor.ix_eq hp]
      refine Moves.curPage_bind (by rwa [BtCursor.pPage_eq hp1]) ?_
      rw [if_pos hl]
      exact Moves.pure ⟨⟨hr, hn, fun h => absurd h (by simp), fun _ => ⟨by omega, hst,
        s, cur, ix - 1, anc, hp1, h, hd, by omega, by omega⟩⟩, hat⟩
    · obtain ⟨s2, hs2, hl2, hr2⟩ := hreach.prev hq
      have hp3 := BtCursor.setIx_path (i := idx) hp2
      refine Moves.modify_bind ?_
      rw [BtCursor.ix_eq hp2, Nat.add_sub_cancel]
      refine Moves.curPage_bind (by rwa [BtCursor.pPage_eq hp3]) ?_
      rw [if_neg (by simp [hql])]
      refine (sqlite3BtreePrevious_inner (c := c1.setIx idx) hT hE hr1 (hst1.trans hst) hp3 hq hql hs2).post ?_
      intro done c2 h2
      obtain ⟨rfl, hr3, hst3, hat3, hn3, hon3⟩ := h2
      have h3 := congrArg List.length hs2.place.es
      have h4 := congrArg List.length hl2
      have h5 := List.length_pos_iff.2 hs2.mid_ne_nil
      simp only [List.length_append] at h3 h4
      rw [hleft] at h4
      refine ⟨⟨hr3, hn3, fun h => absurd h (by simp), fun _ => ⟨by omega, hst3, ?_⟩⟩, hat3⟩
      rwa [show s.left.length + 0 - 1 = T.es.length - s2.right.length - 1 by omega]

end Steps

/-! ## From any position -/

section Positions

variable {g : Geometry} {v : Env Db} {T : Tree} {dep f b i : Nat} {c : BtCursor} {E : Rc → BtCursor → Prop}

/-- Where the key of a search stands among the entries. -/
theorem Sought.order {page : Nat → PageData} {k : Key} {r : Int} (h : T.Ok g page)
    (hs : Sought g page T dep k r c i) {j : Nat} {e : Entry} (he : T.es[j]? = some e) :
    (e.key < k ↔ j < i + (if r < 0 then 1 else 0)) ∧ (e.key = k ↔ r = 0 ∧ j = i) := by
  rcases lt_trichotomy r 0 with hr | rfl | hr
  · obtain ⟨h1, h2⟩ := hs.nearest.before hr
    rw [if_pos hr]
    rcases Nat.lt_or_ge i j with hlt | hle
    · have := h2 j e hlt he
      exact ⟨⟨fun h => absurd h this.not_gt, fun h => absurd hlt (by omega)⟩,
        ⟨fun h => absurd h this.ne', fun h => absurd h.1 hr.ne⟩⟩
    · have := h1 j e hle he
      exact ⟨⟨fun _ => by omega, fun _ => this⟩, ⟨fun h => absurd h this.ne, fun h => absurd h.1 hr.ne⟩⟩
  · obtain ⟨e', he', rfl⟩ := hs.nearest.found rfl
    have hp := List.pairwise_iff_getElem.1 (IsTree.pairwise h)
    obtain ⟨hj, rfl⟩ := List.getElem?_eq_some_iff.1 he
    obtain ⟨hi, rfl⟩ := List.getElem?_eq_some_iff.1 he'
    rcases Nat.lt_trichotomy j i with hlt | rfl | hgt
    · have := hp j i hj hi hlt
      exact ⟨⟨fun _ => by simpa using hlt, fun _ => this⟩, ⟨fun h => absurd h this.ne, fun h => by omega⟩⟩
    · simp
    · have := hp i j hi hj hgt
      exact ⟨⟨fun h => absurd h this.not_gt, fun h => absurd hgt (by simpa using h.le)⟩,
        ⟨fun h => absurd h this.ne', fun h => by omega⟩⟩
  · obtain ⟨h1, h2⟩ := hs.nearest.behind hr
    rw [if_neg hr.not_gt]
    rcases Nat.lt_or_ge j i with hlt | hle
    · have := h1 j e hlt he
      exact ⟨⟨fun _ => by omega, fun _ => this⟩, ⟨fun h => absurd h this.ne, fun h => absurd h.1 hr.ne'⟩⟩
    · have := h2 j e hle he
      exact ⟨⟨fun h => absurd h this.not_gt, fun h => absurd hle (by omega)⟩,
        ⟨fun h => absurd h this.ne', fun h => absurd h.1 hr.ne'⟩⟩

/-- A search for the key a cursor saved finds the gap the cursor was in. -/
theorem Sought.skips {page : Nat → PageData} {k : Key} {r z : Int} (h : T.Ok g page)
    (hs : Sought g page T dep k r c i) (hf : f ≤ T.es.length) (hb : b ≤ T.es.length)
    (hgap : ∀ (j : Nat) e, T.es[j]? = some e → (j < f ↔ e.key < k ∨ e.key = k ∧ ¬ 0 < z)
      ∧ (j < b ↔ e.key < k ∨ e.key = k ∧ z < 0)) :
    Skips (if r ≠ 0 then r else z) i f b := by
  have hi := hs.onEntry.lt
  -- an index is known by the entries before it
  have hcount : ∀ {n m : Nat}, n ≤ T.es.length → m ≤ T.es.length →
      (∀ j, j < T.es.length → (j < n ↔ j < m)) → n = m := by
    intro n m hn hm hall
    rcases Nat.lt_trichotomy n m with hlt | heq | hgt
    · exact absurd ((hall n (by omega)).2 hlt) (lt_irrefl n)
    · exact heq
    · exact absurd ((hall m (by omega)).1 hgt) (lt_irrefl m)
  refine ⟨hcount hf ?_ fun j hj => ?_, hcount hb ?_ fun j hj => ?_⟩
  · split_ifs <;> omega
  · obtain ⟨h1, h2⟩ := hs.order h (List.getElem?_eq_getElem hj)
    rw [(hgap j _ (List.getElem?_eq_getElem hj)).1, h1, h2]
    split_ifs <;> omega
  · split_ifs <;> omega
  · obtain ⟨h1, h2⟩ := hs.order h (List.getElem?_eq_getElem hj)
    rw [(hgap j _ (List.getElem?_eq_getElem hj)).2, h1, h2]
    split_ifs <;> omega

/-- A cursor that saved its key comes back to the gap it was in. -/
theorem restoreCursorPosition_moves (hT : Standing g v.bt T dep) (hE : Allows T dep E)
    (hr : c.pgnoRoot = T.root) (hn : c.info.nSize = 0) (hst : c.eState = .requireseek)
    (hfaces : Faces g v.bt.page T dep c f b) :
    Moves (restoreCursorPosition g) v c (fun _ c' => c'.pgnoRoot = T.root ∧ c'.info.nSize = 0
      ∧ (T.es = [] → c'.eState = .invalid ∧ Rooted T c')
      ∧ (T.es ≠ [] → c'.atLast = false ∧ c'.eState = (if c'.skipNext ≠ 0 then .skipnext else .valid)
        ∧ ∃ i, OnEntry g v.bt.page T dep c' i ∧ Skips c'.skipNext i f b)) E := by
  unfold Faces at hfaces
  rw [hst] at hfaces
  obtain ⟨hpath, hf, hb, hgap⟩ := hfaces
  have hroot : Rooted T { c with eState := .invalid } := ⟨hr, fun h => absurd hpath h⟩
  refine Moves.cursor_bind ?_
  rw [hst]
  refine Moves.cursor_bind ?_
  rw [hst]
  refine Moves.modify_bind (Moves.cursor_bind ?_)
  refine (sqlite3BtreeKvMoveto_moves hT hE hroot (fun e _ h => by simp at h)
    fun h => absurd h.1 (by simp)).bind ?_
  intro r c1 h1
  obtain ⟨hans, hskip, hkeep, -⟩ := h1
  have hn1 : c1.info.nSize = 0 := hkeep.elim (fun h => h ▸ hn) fun h => h.1
  refine (modifyCursor_moves _).post ?_
  intro _ c2 h2
  subst h2
  by_cases hes : T.es = []
  · obtain ⟨-, hst1⟩ := hans.empty hes
    rw [if_neg (by simp [hst1])]
    exact ⟨hans.rooted.root, hn1, fun _ => ⟨hst1, hans.rooted.congr rfl rfl⟩, fun h => absurd hes h⟩
  · obtain ⟨i, hi⟩ := hans.sought hes
    have hat : c1.atLast = false := by
      rcases hkeep with rfl | h
      · exact absurd hi.eState (by simp)
      · exact h.2 hi.eState
    have hz := hi.skips hT.ok hf hb hgap
    have hz1 : (if r ≠ 0 then r else c1.skipNext) = if r ≠ 0 then r else c.skipNext := by rw [hskip]
    rw [← hz1] at hz
    dsimp only
    generalize (if r ≠ 0 then r else c1.skipNext) = w at hz ⊢
    by_cases h0 : w = 0
    · rw [if_neg fun h => h.1 h0]
      exact ⟨hi.root, hn1, fun h => absurd h hes, fun _ => ⟨hat, by simp [h0, hi.eState], i,
        hi.onEntry.congr rfl, hz⟩⟩
    · rw [if_pos ⟨h0, hi.eState⟩]
      exact ⟨hi.root, hn1, fun h => absurd h hes, fun _ => ⟨hat, by simp [h0], i, hi.onEntry.congr rfl, hz⟩⟩

/-- What `btreeNext` and `btreePrevious` go on from: an entry, with how far the step leads from it. -/
theorem restoreStep_moves {ahead : Int → Bool} (h0 : ahead 0 = false) (hT : Standing g v.bt T dep)
    (hE : Allows T dep E) (hr : c.pgnoRoot = T.root) (hn : c.info.nSize = 0)
    (hat : c.eState = .skipnext → c.atLast = false) (hfaces : Faces g v.bt.page T dep c f b) :
    Moves (restoreStep g ahead) v c (fun ans c' => c'.pgnoRoot = T.root ∧ c'.info.nSize = 0 ∧
      ((ans = some true ∧ T.es = [] ∧ c'.eState = .invalid ∧ Rooted T c')
        ∨ c'.eState = .valid ∧ (c.eState = .valid ∧ c' = c ∨ c'.atLast = false) ∧
          ∃ i z, OnEntry g v.bt.page T dep c' i ∧ Skips z i f b
          ∧ ((ans = some false ∧ ahead z = true) ∨ (ans = none ∧ ahead z = false)))) E := by
  by_cases hst : c.eState = .valid
  · refine (restoreStep_valid hst).post ?_
    intro ans c' h1
    obtain ⟨rfl, rfl⟩ := h1
    unfold Faces at hfaces
    rw [hst] at hfaces
    obtain ⟨i, hon, hz⟩ := hfaces
    exact ⟨hr, hn, Or.inr ⟨hst, Or.inl ⟨hst, rfl⟩, i, 0, hon, hz, Or.inr ⟨rfl, h0⟩⟩⟩
  -- the cursor stands on an entry it need not leave
  have hskip : ∀ c1 : BtCursor, c1.pgnoRoot = T.root → c1.info.nSize = 0 → c1.eState = .skipnext →
      c1.atLast = false → (∃ i, OnEntry g v.bt.page T dep c1 i ∧ Skips c1.skipNext i f b) →
      Moves (do
        modifyCursor fun c => { c with eState := .valid }
        return if ahead (← cursor).skipNext then some false else none) v c1 (fun ans c' =>
          c'.pgnoRoot = T.root ∧ c'.info.nSize = 0 ∧
          ((ans = some true ∧ T.es = [] ∧ c'.eState = .invalid ∧ Rooted T c')
            ∨ c'.eState = .valid ∧ (c.eState = .valid ∧ c' = c ∨ c'.atLast = false) ∧
              ∃ i z, OnEntry g v.bt.page T dep c' i ∧ Skips z i f b
              ∧ ((ans = some false ∧ ahead z = true) ∨ (ans = none ∧ ahead z = false)))) E := by
    intro c1 hr1 hn1 hst1 hat1 hon1
    obtain ⟨i, hon1, hz⟩ := hon1
    refine Moves.modify_bind (Moves.cursor_bind (Moves.pure
      ⟨hr1, hn1, Or.inr ⟨rfl, Or.inr hat1, i, c1.skipNext, hon1.congr rfl, hz, ?_⟩⟩))
    dsimp only
    split_ifs with h
    · exact Or.inl ⟨rfl, h⟩
    · exact Or.inr ⟨rfl, by simpa using h⟩
  refine Moves.cursor_bind ?_
  rw [if_neg hst]
  rcases hcase : c.eState with - | - | - | - | rc
  · exact absurd hcase hst
  · unfold Faces at hfaces
    rw [hcase] at hfaces
    exact hfaces.elim
  · unfold Faces at hfaces
    rw [hcase] at hfaces
    have hrest : Moves (restoreCursorPosition g) v c (fun _ c' => c = c') E := by
      refine Moves.cursor_bind ?_
      rw [hcase]
      exact Moves.pure rfl
    refine hrest.bind ?_
    intro _ c1 h1
    subst h1
    refine Moves.cursor_bind ?_
    have hstay := hskip c hr hn hcase (hat hcase) hfaces
    rw [hcase] at hstay ⊢
    exact hstay
  · refine (restoreCursorPosition_moves hT hE hr hn hcase hfaces).bind ?_
    intro _ c1 h1
    obtain ⟨hr1, hn1, hempty, hfull⟩ := h1
    refine Moves.cursor_bind ?_
    by_cases hes : T.es = []
    · obtain ⟨hst1, hroot⟩ := hempty hes
      rw [hst1]
      exact Moves.pure ⟨hr1, hn1, Or.inl ⟨rfl, hes, hst1, hroot⟩⟩
    obtain ⟨hat1, hst1, i, hon, hz⟩ := hfull hes
    by_cases hz0 : c1.skipNext = 0
    · rw [if_neg (not_not.2 hz0)] at hst1
      rw [hst1]
      rw [hz0] at hz
      exact Moves.pure ⟨hr1, hn1, Or.inr ⟨hst1, Or.inr hat1, i, 0, hon, hz, Or.inr ⟨rfl, h0⟩⟩⟩
    · rw [if_pos hz0] at hst1
      have hstay := hskip c1 hr1 hn1 hst1 hat1 ⟨i, hon, hz⟩
      rw [hcase] at hstay
      rw [hst1]
      exact hstay
  · unfold Faces at hfaces
    rw [hcase] at hfaces
    exact hfaces.elim

theorem Faces.le (h : Faces g v.bt.page T dep c f b) : f ≤ T.es.length ∧ b ≤ T.es.length := by
  unfold Faces at h
  rcases hst : c.eState with - | - | - | - | rc <;> rw [hst] at h
  · obtain ⟨i, hon, rfl, rfl⟩ := h
    have := hon.lt
    simp only [lt_irrefl, if_false]
    omega
  · exact h.elim
  · obtain ⟨i, hon, rfl, rfl⟩ := h
    have := hon.lt
    split_ifs <;> omega
  · exact ⟨h.2.1, h.2.2.1⟩
  · exact h.elim

/-- `sqlite3BtreeNext` goes to the entry ahead of the cursor. -/
theorem sqlite3BtreeNext_moves (hT : Standing g v.bt T dep) (hE : Allows T dep E)
    (hr : c.pgnoRoot = T.root) (hat : c.eState = .skipnext → c.atLast = false)
    (hfaces : Faces g v.bt.page T dep c f b) :
    Moves (sqlite3BtreeNext g 2) v c (fun done c' =>
      Stepped g v.bt.page T dep done (f = T.es.length) f c'
      ∧ (c.eState = .valid ∧ c'.atLast = c.atLast ∨ c'.eState = .invalid ∨ c'.atLast = false)) E := by
  have hle := hfaces.le.1
  refine Moves.modify_bind (Moves.cursor_bind ?_)
  refine Moves.ite (fun hst => ?_) fun hst => ?_
  · refine (restoreStep_moves rfl hT hE (c := c.forget) hr rfl hat hfaces).bind ?_
    intro ans c1 h1
    obtain ⟨hr1, hn1, h1⟩ := h1
    rcases h1 with ⟨rfl, hes, hst1, hroot⟩ | ⟨hst1, hat1, i, z, hon, ⟨hf, -⟩, hans⟩
    · rw [hes, List.length_nil] at hle
      exact Moves.pure ⟨⟨hr1, hn1, fun _ => ⟨by simp [hes]; omega, hst1, hroot⟩, fun h => absurd h (by simp)⟩,
        Or.inr (Or.inl hst1)⟩
    have hat1 : c1.atLast = false := hat1.resolve_left fun h => hst h.1
    have hlt := hon.lt
    rcases hans with ⟨rfl, hz⟩ | ⟨rfl, hz⟩
    · rw [if_pos (of_decide_eq_true hz), Nat.add_zero] at hf
      subst hf
      exact Moves.pure ⟨⟨hr1, hn1, fun h => absurd h (by simp), fun _ => ⟨hlt.ne, hst1, hon⟩⟩,
        Or.inr (Or.inr hat1)⟩
    · rw [if_neg (of_decide_eq_false hz)] at hf
      subst hf
      refine (stepNext_moves hT hE hr1 hst1 hn1 hon).post ?_
      intro done c2 h2
      exact ⟨h2.1, Or.inr (Or.inr (h2.2.trans hat1))⟩
  · have hst : c.eState = .valid := not_not.1 hst
    unfold Faces at hfaces
    rw [hst] at hfaces
    obtain ⟨i, hon, rfl, -⟩ := hfaces
    have hon1 : OnEntry g v.bt.page T dep c.forget i := hon.congr rfl
    obtain ⟨p, e, hpage, hl, -⟩ := hon1.page_eq
    simp only [lt_irrefl, if_false]
    refine Moves.curPage_bind hpage (Moves.cursor_bind ?_)
    refine Moves.ite (fun hend => btreeNext_valid hst ?_) fun hlt => ?_
    · refine (stepNext_moves hT hE (c := c.forget) hr hst rfl hon1).post ?_
      intro done c2 h2
      exact ⟨h2.1, Or.inl ⟨hst, h2.2⟩⟩
    · obtain ⟨s, cur, ix, anc, hp, h, hd, hix, rfl⟩ := hon1
      rw [BtCursor.ix_eq hp] at hlt
      obtain ⟨q, hq, -, -, hcells⟩ := h.page_eq
      rw [BtCursor.pPage_eq hp] at hpage
      obtain rfl : q = p := PageData.node.inj (hq.symm.trans hpage)
      have hlen := congrArg List.length (hcells hd)
      rw [List.length_map] at hlen
      have hes := congrArg List.length h.place.es
      simp only [List.length_append] at hes
      refine Moves.modify_bind ?_
      rw [BtCursor.ix_eq hp, if_pos hl]
      exact Moves.pure ⟨⟨hr, rfl, fun h => absurd h (by simp), fun _ => ⟨by omega, hst,
        s, cur, ix + 1, anc, BtCursor.setIx_path hp, h, hd, by omega, rfl⟩⟩, Or.inl ⟨hst, rfl⟩⟩

/-- `sqlite3BtreePrevious` goes to the entry behind the cursor. -/
theorem sqlite3BtreePrevious_moves (hT : Standing g v.bt T dep) (hE : Allows T dep E)
    (hr : c.pgnoRoot = T.root) (hfaces : Faces g v.bt.page T dep c f b) :
    Moves (sqlite3BtreePrevious g 2) v c (fun done c' =>
      Stepped g v.bt.page T dep done (b = 0) (b - 1) c'
      ∧ (c'.eState = .invalid ∨ c'.atLast = false)) E := by
  have hle := hfaces.le.2
  set c0 : BtCursor := { c with atLast := false }.forget with hc0
  have hfaces0 : Faces g v.bt.page T dep c0 f b := hfaces
  -- the slow way, from an entry or from a gap
  have hslow : Moves (btreePrevious g (sqlite3BtreePrevious g 1)) v c0 (fun done c' =>
      Stepped g v.bt.page T dep done (b = 0) (b - 1) c' ∧ (c'.eState = .invalid ∨ c'.atLast = false)) E := by
    refine (restoreStep_moves rfl hT hE (c := c0) hr rfl (fun _ => rfl) hfaces0).bind ?_
    intro ans c1 h1
    obtain ⟨hr1, hn1, h1⟩ := h1
    rcases h1 with ⟨rfl, hes, hst1, hroot⟩ | ⟨hst1, hat1, i, z, hon, ⟨-, hb⟩, hans⟩
    · rw [hes, List.length_nil] at hle
      exact Moves.pure ⟨⟨hr1, hn1, fun _ => ⟨by omega, hst1, hroot⟩, fun h => absurd h (by simp)⟩,
        Or.inl hst1⟩
    have hat1 : c1.atLast = false := hat1.elim (fun h => by rw [h.2]; rfl) id
    rcases hans with ⟨rfl, hz⟩ | ⟨rfl, hz⟩
    · rw [if_pos (of_decide_eq_true hz)] at hb
      subst hb
      exact Moves.pure ⟨⟨hr1, hn1, fun h => absurd h (by simp), fun _ => ⟨by omega, hst1, hon⟩⟩, Or.inr hat1⟩
    · rw [if_neg (of_decide_eq_false hz), Nat.add_zero] at hb
      subst hb
      refine (stepPrevious_moves hT hE hr1 hst1 hn1 hat1 hon).post ?_
      intro done c2 h2
      exact ⟨h2.1, Or.inr h2.2⟩
  refine Moves.modify_bind (Moves.cursor_bind ?_)
  by_cases hst : c.eState = .valid
  · have hfaces1 := hfaces0
    unfold Faces at hfaces1
    rw [show c0.eState = .valid from hst] at hfaces1
    obtain ⟨i, hon, -, hb⟩ := hfaces1
    simp only [lt_irrefl, if_false, Nat.add_zero] at hb
    subst hb
    obtain ⟨p, e, hpage, hl, -⟩ := hon.page_eq
    refine Moves.curPage_bind hpage ?_
    refine Moves.ite (fun _ => hslow) fun hfast => ?_
    obtain ⟨s, cur, ix, anc, hp, h, hd, hix, rfl⟩ := hon
    rw [← hc0, BtCursor.ix_eq hp] at hfast
    have hix0 : ix ≠ 0 := fun h0 => hfast (Or.inr (Or.inl h0))
    refine Moves.modify_bind (Moves.pure ⟨⟨hr, rfl, fun h => absurd h (by simp), fun _ => ⟨by omega, hst, ?_⟩⟩,
      Or.inr rfl⟩)
    rw [← hc0, BtCursor.ix_eq hp]
    exact ⟨s, cur, ix - 1, anc, BtCursor.setIx_path hp, h, hd, by omega, by omega⟩
  · refine curPage_stays.bind ?_
    intro p c1 h1
    subst h1
    exact Moves.ite (fun _ => hslow) fun hfast => absurd (Or.inl hst) hfast

/-- Without a position there is nothing ahead or behind. -/
theorem restoreStep_invalid {ahead : Int → Bool} (hst : c.eState = .invalid) :
    Moves (restoreStep g ahead) v c (fun ans c' => c = c' ∧ ans = some true) E := by
  refine Moves.cursor_bind ?_
  rw [if_neg (by simp [hst])]
  have hrest : Moves (restoreCursorPosition g) v c (fun _ c' => c = c') E := by
    refine Moves.cursor_bind ?_
    rw [hst]
    exact Moves.pure rfl
  refine hrest.bind ?_
  intro _ c1 h1
  subst h1
  refine Moves.cursor_bind ?_
  rw [hst]
  exact Moves.pure ⟨rfl, rfl⟩

theorem sqlite3BtreeNext_invalid (hst : c.eState = .invalid) :
    Moves (sqlite3BtreeNext g 2) v c (fun done c' => done = true ∧ c' = c.forget) E := by
  refine Moves.modify_bind (Moves.cursor_bind ?_)
  rw [if_pos (by simp [hst])]
  refine (restoreStep_invalid (c := c.forget) hst).bind ?_
  intro ans c1 h1
  obtain ⟨rfl, rfl⟩ := h1
  exact Moves.pure ⟨rfl, rfl⟩

theorem sqlite3BtreePrevious_invalid (hst : c.eState = .invalid) :
    Moves (sqlite3BtreePrevious g 2) v c
      (fun done c' => done = true ∧ c' = { c with atLast := false }.forget) E := by
  refine Moves.modify_bind (Moves.cursor_bind (curPage_stays.bind ?_))
  intro p c1 h1
  subst h1
  refine Moves.ite (fun _ => ?_) fun hfast => absurd (Or.inl (by simp [hst])) hfast
  refine (restoreStep_invalid (c := { c with atLast := false }.forget) hst).bind ?_
  intro ans c1 h1
  obtain ⟨rfl, rfl⟩ := h1
  exact Moves.pure ⟨rfl, rfl⟩

end Positions

end Btreelite
