import Btreelite.CursorStep

/-!
# Cursors behind the API

The cursor calls of `btreelite_api.c` and clients that walk a whole tree with them.
-/

namespace Btreelite

open Prog Segment

section Api

variable (g : Geometry)

/-- `kvCheckKey`; a key that is a list of bytes has no null pointer. -/
def kvCheckKey (key : Key) : CurM Unit := do
  if 255 < key.length then throw .toobig

def kvMoveto (key : Key) : CurM Int := do
  kvCheckKey key
  sqlite3BtreeKvMoveto g key false

/-- `btreelite_seek`. It reports nothing but its result code. -/
def btreelite_seek (key : Key) : CurM Unit := do
  let res ← kvMoveto g key
  if res < 0 then
    let _ ← sqlite3BtreeNext g 2

/-- `sqlite3BtreeEof`. -/
def btreelite_eof : CurM Bool := do
  return decide ((← cursor).eState ≠ .valid)

/-- The answer is `*pRes`. -/
def btreelite_first : CurM Bool := sqlite3BtreeFirst g

def btreelite_last : CurM Bool := sqlite3BtreeLast g

/-- The answer tells whether it is `BTREELITE_DONE`. -/
def btreelite_next : CurM Bool := sqlite3BtreeNext g 2

def btreelite_prev : CurM Bool := sqlite3BtreePrevious g 2

/-- `btreelite_key`; the answer is `*pnLen` with the bytes copied. -/
def btreelite_key (nMax : Nat) : CurM (Nat × Key) := do
  if ← btreelite_eof then throw .error
  else
    let k ← sqlite3BtreeKvKey g
    return (k.length, k.take nMax)

/-! ## Clients -/

end Api

/-! ## The key under the cursor -/

/-- The parsed cell the cursor keeps, if it keeps one, is the cell it is on. -/
def Cached (g : Geometry) (page : Nat → PageData) (c : BtCursor) : Prop :=
  c.info.nSize ≠ 0 → ∀ p, page c.pPage = .node p →
    c.info = xParseCell g p.leaf (p.cells.getD c.ix [])

/-- The cursor is on entry `i`, and what it keeps of the entry is right. -/
structure AtEntry (g : Geometry) (page : Nat → PageData) (T : Tree) (dep : Nat) (c : BtCursor) (i : Nat) :
    Prop where
  root : c.pgnoRoot = T.root
  eState : c.eState = .valid
  cached : Cached g page c
  onEntry : OnEntry g page T dep c i

section Keys

variable {g : Geometry} {v : Env Db} {T : Tree} {dep i : Nat} {c : BtCursor} {E : Rc → BtCursor → Prop}

theorem AtEntry.faces {page : Nat → PageData} (h : AtEntry g page T dep c i) :
    Faces g page T dep c (i + 1) i := by
  unfold Faces
  rw [h.eState]
  exact ⟨i, h.onEntry, by simp [Skips]⟩

theorem Stepped.atEntry {page : Nat → PageData} {done : Bool} {end_ : Prop}
    (h : Stepped g page T dep done end_ i c) (hd : done = false) : AtEntry g page T dep c i :=
  ⟨h.root, (h.there hd).2.1, fun h0 => absurd h.nSize h0, (h.there hd).2.2⟩

theorem getCellInfo_moves {p : MemPage} (h : AtEntry g v.bt.page T dep c i)
    (hp : v.bt.page c.pPage = .node p) :
    Moves (getCellInfo g) v c (fun _ c' => AtEntry g v.bt.page T dep c' i ∧ c'.path = c.path
      ∧ c'.skipNext = c.skipNext ∧ c'.atLast = c.atLast
      ∧ c'.info = xParseCell g p.leaf (p.cells.getD c.ix [])) E := by
  refine Moves.cursor_bind (Moves.ite (fun _ => Moves.curPage_bind hp ?_) fun hn => ?_)
  · refine (modifyCursor_moves _).post ?_
    intro _ c1 h1
    subst h1
    refine ⟨⟨h.root, h.eState, fun _ q hq => ?_, h.onEntry.congr rfl⟩, rfl, rfl, rfl, rfl⟩
    rw [PageData.node.inj (hq.symm.trans hp)]
    rfl
  · exact Moves.pure ⟨h, rfl, rfl, rfl, h.cached hn p hp⟩

/-- `sqlite3BtreeKvKey` reads the key of the entry the cursor is on. -/
theorem sqlite3BtreeKvKey_moves (h : AtEntry g v.bt.page T dep c i) :
    Moves (sqlite3BtreeKvKey g) v c (fun k c' => AtEntry g v.bt.page T dep c' i
      ∧ c'.skipNext = c.skipNext ∧ c'.atLast = c.atLast
      ∧ ∃ e, T.es[i]? = some e ∧ e.On g v.bt.page ∧ k = e.key) E := by
  obtain ⟨p, e, hpage, hl, -, he, hcell, heOn⟩ := h.onEntry.page_eq
  refine (getCellInfo_moves h hpage).bind ?_
  intro _ c1 h1
  obtain ⟨h2, hpath, hskip, hat, hinfo⟩ := h1
  have hpg : c1.pPage = c.pPage := by simp [BtCursor.pPage, hpath]
  have hix : c1.ix = c.ix := by simp [BtCursor.ix, hpath]
  refine Moves.curPage_bind (by rwa [hpg]) (Moves.cursor_bind (Moves.pure ⟨h2, hskip, hat, e, he, heOn, ?_⟩))
  rw [hinfo, hix, hl, hcell]
  exact heOn.cellKey

theorem btreelite_eof_moves : Moves btreelite_eof v c (fun b c' => c = c' ∧ (b = true ↔ c.eState ≠ .valid)) E :=
  Moves.cursor_bind (Moves.pure ⟨rfl, by simp⟩)

theorem btreelite_key_moves {nMax : Nat} (h : AtEntry g v.bt.page T dep c i) :
    Moves (btreelite_key g nMax) v c (fun k c' => AtEntry g v.bt.page T dep c' i
      ∧ c'.skipNext = c.skipNext ∧ c'.atLast = c.atLast
      ∧ ∃ e, T.es[i]? = some e ∧ k = (e.key.length, e.key.take nMax)) E := by
  refine btreelite_eof_moves.bind ?_
  intro b c1 h1
  obtain ⟨rfl, hb⟩ := h1
  rw [if_neg fun h0 => hb.1 h0 h.eState]
  refine (sqlite3BtreeKvKey_moves h).bind ?_
  intro k c1 h1
  obtain ⟨h2, hskip, hat, e, he, -, rfl⟩ := h1
  exact Moves.pure ⟨h2, hskip, hat, e, he, rfl⟩

theorem Entry.On.key_le {page : Nat → PageData} {e : Entry} (h : e.On g page) : e.key.length ≤ 255 := by
  obtain ⟨ovfl, hparts, -⟩ := h
  exact hparts.key_le

end Keys

/-! ## Walks -/

section Walks

variable {g : Geometry} {v : Env Db} {T : Tree} {dep : Nat} {E : Rc → BtCursor → Prop}

end Walks

/-! ## Cursors that calls have moved -/

/-- A cursor `sqlite3BtreeCursor` has opened on the tree. -/
structure Fresh (root : Nat) (c : BtCursor) : Prop where
  root : c.pgnoRoot = root
  path : c.path = []
  eState : c.eState = .invalid

/-- The calls that read through a cursor; `save` is what the connection does to it before another cursor
changes the tree. -/
inductive CursorCall
  | first
  | last
  | next
  | prev
  | seek (key : Key)
  | readKey (nMax : Nat)
  | save

def CursorCall.run (g : Geometry) : CursorCall → CurM Unit
  | .first => do
    let _ ← btreelite_first g
  | .last => do
    let _ ← btreelite_last g
  | .next => do
    let _ ← btreelite_next g
  | .prev => do
    let _ ← btreelite_prev g
  | .seek key => btreelite_seek g key
  | .readKey nMax => do
    let _ ← btreelite_key g nMax
  | .save => do
    if (← cursor).eState = .valid ∨ (← cursor).eState = .skipnext then saveCursorPosition g

/-- The cursors that calls which succeeded make of a new one. While a cursor has no page, other cursors
may change the tree. -/
inductive Reached (g : Geometry) (root : Nat) : Env Db → BtCursor → Prop
  | fresh {v : Env Db} {c : BtCursor} : Fresh root c → Reached g root v c
  | call {v : Env Db} {e e' : Env BtShared} {T : Tree} {dep : Nat} (k : CursorCall) :
      Standing g v.bt T dep → T.root = root → Reached g root v e.cur → e.view = { v with cur := e.cur } →
      k.run g e = .ok () e' → Reached g root v e'.cur
  | edit {v v' : Env Db} {c : BtCursor} : Reached g root v c →
      c.eState = .requireseek ∨ c.eState = .invalid → Reached g root v' c

/-- What holds of a cursor between two calls. -/
structure Seated (g : Geometry) (page : Nat → PageData) (T : Tree) (dep : Nat) (c : BtCursor) : Prop where
  rooted : Rooted T c
  faces : c.eState = .valid ∨ c.eState = .skipnext ∨ c.eState = .requireseek →
    ∃ f b, Faces g page T dep c f b
  noFault : ∀ e, c.eState ≠ .fault e
  last : c.eState = .valid → c.atLast = true → OnEntry g page T dep c (T.es.length - 1)
  skip : c.eState = .skipnext → c.atLast = false
  cached : c.eState = .valid ∨ c.eState = .skipnext → Cached g page c

section Calls

variable {g : Geometry} {v : Env Db} {T : Tree} {dep i : Nat} {c : BtCursor} {E : Rc → BtCursor → Prop}

theorem seated_fresh {page : Nat → PageData} (h : Fresh T.root c) : Seated g page T dep c where
  rooted := ⟨h.root, fun h' => absurd h.path h'⟩
  faces h' := by simp [h.eState] at h'
  noFault e := by simp [h.eState]
  last h' := by simp [h.eState] at h'
  skip h' := by simp [h.eState] at h'
  cached h' := by simp [h.eState] at h'

theorem seated_invalid {page : Nat → PageData} (h : Rooted T c) (hst : c.eState = .invalid) :
    Seated g page T dep c where
  rooted := h
  faces h' := by simp [hst] at h'
  noFault e := by simp [hst]
  last h' := by simp [hst] at h'
  skip h' := by simp [hst] at h'
  cached h' := by simp [hst] at h'

theorem AtEntry.seated {page : Nat → PageData} (h : AtEntry g page T dep c i)
    (hlast : c.atLast = true → i + 1 = T.es.length) : Seated g page T dep c where
  rooted := h.onEntry.rooted h.root
  faces _ := ⟨i + 1, i, h.faces⟩
  noFault e := by simp [h.eState]
  last _ hat := by
    have := hlast hat
    rw [show T.es.length - 1 = i by omega]
    exact h.onEntry
  skip h' := absurd (h.eState.symm.trans h') (by simp)
  cached _ := h.cached

theorem OnEntry.unique {page : Nat → PageData} {j : Nat} (hT : T.Ok g page) (h : OnEntry g page T dep c i)
    (h' : OnEntry g page T dep c j) : i = j := by
  obtain ⟨p, e, hp, hl, -, he, hcell, heOn⟩ := h.page_eq
  obtain ⟨p', e', hp', -, -, he', hcell', heOn'⟩ := h'.page_eq
  obtain rfl : p' = p := PageData.node.inj (hp'.symm.trans hp)
  refine OnEntry.key_inj hT he he' ?_
  rw [← heOn.cellKey, ← heOn'.cellKey, ← hcell, hcell']

theorem Seated.atEntry {page : Nat → PageData} (hT : T.Ok g page) (h : Seated g page T dep c)
    (hst : c.eState = .valid) :
    ∃ i, AtEntry g page T dep c i ∧ (c.atLast = true → i + 1 = T.es.length) := by
  obtain ⟨f, b, hf⟩ := h.faces (Or.inl hst)
  unfold Faces at hf
  rw [hst] at hf
  obtain ⟨i, hon, -⟩ := hf
  refine ⟨i, ⟨h.rooted.root, hst, h.cached (Or.inl hst), hon⟩, fun hat => ?_⟩
  have := hon.unique hT (h.last hst hat)
  have := hon.lt
  omega

/-- The first entry whose key is not before `key` is at index `i`. -/
def LowerBound (T : Tree) (key : Key) (i : Nat) : Prop :=
  ∀ (j : Nat) e, T.es[j]? = some e → (j < i ↔ e.key < key)

theorem kvMoveto_moves {key : Key} (hT : Standing g v.bt T dep) (hE : Allows T dep E)
    (h : Seated g v.bt.page T dep c) (hk : key.length ≤ 255) :
    Moves (kvMoveto g key) v c (fun r c' => Seated g v.bt.page T dep c'
      ∧ Answers g v.bt.page T dep key r c') E := by
  have hcheck : Moves (kvCheckKey key) v c (fun _ c' => c = c') E := by
    unfold kvCheckKey
    rw [if_neg (by omega)]
    exact Moves.pure rfl
  refine hcheck.bind ?_
  intro _ c1 h1
  subst h1
  refine (sqlite3BtreeKvMoveto_moves hT hE h.rooted (fun e _ h' => absurd h' (h.noFault e)) fun hf => ?_).post ?_
  · obtain ⟨i, hi, -⟩ := h.atEntry hT.ok hf.1
    exact ⟨i, hi.onEntry⟩
  intro r c1 h1
  obtain ⟨hans, -, hkeep, -⟩ := h1
  refine ⟨?_, hans⟩
  rcases hkeep with rfl | ⟨hn, hat⟩
  · exact h
  by_cases hes : T.es = []
  · exact seated_invalid hans.rooted (hans.empty hes).2
  · obtain ⟨i, hi⟩ := hans.sought hes
    have hentry : AtEntry g v.bt.page T dep c1 i := ⟨hi.root, hi.eState, fun h0 => absurd hn h0, hi.onEntry⟩
    exact hentry.seated fun h' => absurd (h'.symm.trans (hat hi.eState)) (by simp)

/-- The cursor after `sqlite3BtreeNext`. -/
theorem Stepped.seated {page : Nat → PageData} {done : Bool} {end_ : Prop} {j : Nat}
    (h : Stepped g page T dep done end_ j c)
    (hlast : done = false → c.atLast = true → j + 1 = T.es.length) : Seated g page T dep c := by
  cases done with
  | true => exact seated_invalid (h.past rfl).2.2 (h.past rfl).2.1
  | false => exact (h.atEntry rfl).seated (hlast rfl)

theorem btreelite_next_moves (hT : Standing g v.bt T dep) (hE : Allows T dep E)
    (h : Seated g v.bt.page T dep c) {f b : Nat} (hf : Faces g v.bt.page T dep c f b) :
    Moves (btreelite_next g) v c (fun done c' => Seated g v.bt.page T dep c'
      ∧ Stepped g v.bt.page T dep done (f = T.es.length) f c') E := by
  refine (sqlite3BtreeNext_moves hT hE h.rooted.root h.skip hf).post ?_
  intro done c1 h1
  refine ⟨h1.1.seated fun hd hat => ?_, h1.1⟩
  obtain ⟨hne, hst1, hon⟩ := h1.1.there hd
  rcases h1.2 with ⟨hst, hat1⟩ | hst | hat1
  · -- a cursor at the last entry has nowhere to go
    obtain ⟨i, hi, hlast⟩ := h.atEntry hT.ok hst
    unfold Faces at hf
    rw [hst] at hf
    obtain ⟨k, hk, rfl, -⟩ := hf
    have := hi.onEntry.unique hT.ok hk
    have := hlast (hat1 ▸ hat)
    simp only [lt_irrefl, if_false] at hne
    omega
  · exact absurd (hst1.symm.trans hst) (by simp)
  · exact absurd (hat.symm.trans hat1) (by simp)

theorem btreelite_prev_moves (hT : Standing g v.bt T dep) (hE : Allows T dep E)
    (h : Seated g v.bt.page T dep c) {f b : Nat} (hf : Faces g v.bt.page T dep c f b) :
    Moves (btreelite_prev g) v c (fun done c' => Seated g v.bt.page T dep c'
      ∧ Stepped g v.bt.page T dep done (b = 0) (b - 1) c') E := by
  refine (sqlite3BtreePrevious_moves hT hE h.rooted.root hf).post ?_
  intro done c1 h1
  refine ⟨h1.1.seated fun hd hat => ?_, h1.1⟩
  rcases h1.2 with hst | hat1
  · exact absurd ((h1.1.there hd).2.1.symm.trans hst) (by simp)
  · exact absurd (hat.symm.trans hat1) (by simp)

/-- `btreelite_seek` goes to the first key that is not before `key`, or past the end. -/
theorem btreelite_seek_moves {key : Key} (hT : Standing g v.bt T dep) (hE : Allows T dep E)
    (h : Seated g v.bt.page T dep c) (hk : key.length ≤ 255) :
    Moves (btreelite_seek g key) v c (fun _ c' => Seated g v.bt.page T dep c'
      ∧ ((∃ i, AtEntry g v.bt.page T dep c' i ∧ LowerBound T key i)
        ∨ c'.eState = .invalid ∧ LowerBound T key T.es.length)) E := by
  refine (kvMoveto_moves hT hE h hk).bind ?_
  intro r c1 h1
  obtain ⟨h1, hans⟩ := h1
  by_cases hes : T.es = []
  · obtain ⟨rfl, hst⟩ := hans.empty hes
    rw [if_pos (by decide)]
    refine (sqlite3BtreeNext_invalid hst).bind ?_
    intro done c2 h2
    obtain ⟨rfl, rfl⟩ := h2
    refine Moves.pure ⟨seated_invalid (h1.rooted.congr rfl rfl) hst, Or.inr ⟨hst, fun j e he => ?_⟩⟩
    simp [hes] at he
  obtain ⟨i, hi⟩ := hans.sought hes
  have hlt := hi.onEntry.lt
  have horder : LowerBound T key (i + (if r < 0 then 1 else 0)) :=
    fun j e he => (hi.order hT.ok he).1.symm
  have hentry : AtEntry g v.bt.page T dep c1 i :=
    ⟨hi.root, hi.eState, h1.cached (Or.inl hi.eState), hi.onEntry⟩
  refine Moves.ite (fun hr => ?_) fun hr => Moves.pure ⟨h1, Or.inl ⟨i, hentry, ?_⟩⟩
  · rw [if_pos hr] at horder
    refine (btreelite_next_moves hT hE h1 hentry.faces).bind ?_
    intro done c2 h2
    obtain ⟨h2, h3⟩ := h2
    refine Moves.pure ⟨h2, ?_⟩
    cases done with
    | true => exact Or.inr ⟨(h3.past rfl).2.1, (h3.past rfl).1 ▸ horder⟩
    | false => exact Or.inl ⟨i + 1, h3.atEntry rfl, horder⟩
  · rwa [if_neg hr] at horder

/-- A saved cursor faces the entries it faced before. -/
theorem saved_faces {page : Nat → PageData} {f b : Nat} {z : Int} {k : Key} {e : Entry} (hT : T.Ok g page)
    (hs : Skips z i f b) (he : T.es[i]? = some e) (hk : e.key = k) (hst : c.eState = .requireseek)
    (hpath : c.path = []) (hkey : c.pKey = k) (hskip : c.skipNext = z) : Faces g page T dep c f b := by
  obtain ⟨rfl, rfl⟩ := hs
  obtain ⟨hi, rfl⟩ := List.getElem?_eq_some_iff.1 he
  unfold Faces
  rw [hst]
  refine ⟨hpath, by split_ifs <;> omega, by split_ifs <;> omega, fun j e he' => ?_⟩
  have hp := List.pairwise_iff_getElem.1 (IsTree.pairwise hT)
  obtain ⟨hj, rfl⟩ := List.getElem?_eq_some_iff.1 he'
  rw [hkey, hskip, ← hk]
  rcases Nat.lt_trichotomy j i with hlt | rfl | hgt
  · have := hp j i hj hi hlt
    simp only [this, true_or, iff_true]
    omega
  · simp only [lt_irrefl, true_and, false_or]
    split_ifs <;> omega
  · have := hp i j hi hj hgt
    simp only [this.not_gt, this.ne', false_and, or_false, iff_false]
    split_ifs <;> omega

theorem saveCursorKey_moves {f : BtCursor → BtCursor} (hE : Allows T dep E)
    (hf : ∀ c, Rooted T c → Rooted T (f c)) (h : AtEntry g v.bt.page T dep c i) :
    Moves (saveCursorKey g) v c (fun _ c' => c'.pgnoRoot = T.root ∧ c'.skipNext = c.skipNext
      ∧ ∃ e, T.es[i]? = some e ∧ c'.pKey = e.key) fun e c' => E e (f c') := by
  refine (sqlite3BtreeKvKey_moves h).bind ?_
  intro k c1 h1
  obtain ⟨h2, hskip, -, e, he, -, rfl⟩ := h1
  refine (inBt_moves (P := fun _ => True) ((tick_does fun e he => ⟨rfl, hE.fault e _ he
    (hf _ (h2.onEntry.rooted h2.root))⟩).post fun _ _ h => ⟨h, trivial⟩)).bind ?_
  intro _ c2 h3
  obtain ⟨rfl, -⟩ := h3
  refine (modifyCursor_moves _).post ?_
  intro _ c3 h3
  subst h3
  exact ⟨h2.root, hskip, e, he, rfl⟩

/-- Saving the position of a cursor keeps what it faces. -/
theorem saveCursorPosition_moves (hT : Standing g v.bt T dep) (hE : Allows T dep E)
    (h : Seated g v.bt.page T dep c) (hst : c.eState = .valid ∨ c.eState = .skipnext) :
    Moves (saveCursorPosition g) v c (fun _ c' => c'.eState = .requireseek ∧ Rooted T c'
      ∧ ∃ f b, Faces g v.bt.page T dep c f b ∧ Faces g v.bt.page T dep c' f b) E := by
  obtain ⟨f, b, hf⟩ := h.faces (hst.imp_right Or.inl)
  -- the cursor as it is when its key is read
  have hentry : ∀ c0 : BtCursor, c0 = (if c.eState = .skipnext then { c with eState := .valid }
      else { c with skipNext := 0 }) →
      ∃ i, AtEntry g v.bt.page T dep c0 i ∧ Skips c0.skipNext i f b := by
    rintro c0 rfl
    have hf := hf
    unfold Faces at hf
    rcases hst with hst | hst
    · rw [hst] at hf
      rw [if_neg (by simp [hst])]
      obtain ⟨i, hon, hz⟩ := hf
      exact ⟨i, ⟨h.rooted.root, hst, h.cached (Or.inl hst), hon.congr rfl⟩, hz⟩
    · rw [hst] at hf
      rw [if_pos hst]
      obtain ⟨i, hon, hz⟩ := hf
      exact ⟨i, ⟨h.rooted.root, rfl, h.cached (Or.inr hst), hon.congr rfl⟩, hz⟩
  refine Moves.modify_bind ?_
  obtain ⟨i, hi, hz⟩ := hentry _ rfl
  refine (Moves.onError (f := fun c => { c with validNKey := false, validOvfl := false, atLast := false })
    (saveCursorKey_moves hE (fun c hc => hc.congr rfl rfl) hi)).bind ?_
  intro _ c1 h1
  obtain ⟨hr, hskip, e, he, hkey⟩ := h1
  refine (modifyCursor_moves _).post ?_
  intro _ c2 h2
  subst h2
  exact ⟨rfl, ⟨hr, fun h => absurd rfl h⟩, f, b, hf, saved_faces hT.ok hz he rfl rfl rfl hkey hskip⟩

theorem btreelite_first_moves (hT : Standing g v.bt T dep) (hE : Allows T dep E)
    (h : Seated g v.bt.page T dep c) :
    Moves (btreelite_first g) v c (fun empty c' => Seated g v.bt.page T dep c' ∧
      if empty then T.es = [] ∧ c'.eState = .invalid else AtEntry g v.bt.page T dep c' 0) E := by
  refine (sqlite3BtreeFirst_moves hT hE h.rooted fun e _ h' => absurd h' (h.noFault e)).post ?_
  intro empty c1 h1
  obtain ⟨hr, hn, h1⟩ := h1
  cases empty with
  | true => exact ⟨seated_invalid h1.2.2 h1.2.1, h1.1, h1.2.1⟩
  | false =>
    have hentry : AtEntry g v.bt.page T dep c1 0 := ⟨hr, h1.1, fun h0 => absurd hn h0, h1.2.2⟩
    exact ⟨hentry.seated fun h' => absurd (h'.symm.trans h1.2.1) (by simp), hentry⟩

theorem btreelite_last_moves (hT : Standing g v.bt T dep) (hE : Allows T dep E)
    (h : Seated g v.bt.page T dep c) :
    Moves (btreelite_last g) v c (fun empty c' => Seated g v.bt.page T dep c' ∧
      if empty then T.es = [] ∧ c'.eState = .invalid
      else AtEntry g v.bt.page T dep c' (T.es.length - 1)) E := by
  refine (sqlite3BtreeLast_moves hT hE h.rooted h.last fun e _ h' => absurd h' (h.noFault e)).post ?_
  intro empty c1 h1
  obtain ⟨hr, hn, h1⟩ := h1
  cases empty with
  | true => exact ⟨seated_invalid h1.2.2 h1.2.1, h1.1, h1.2.1⟩
  | false =>
    have hlt := h1.2.2.lt
    have hentry : AtEntry g v.bt.page T dep c1 (T.es.length - 1) := by
      refine ⟨hr, h1.1, fun h0 => ?_, h1.2.2⟩
      by_cases hc : c1 = c
      · exact hc ▸ h.cached (Or.inl (hc ▸ h1.1)) (hc ▸ h0)
      · exact absurd (hn (Or.inr hc)) h0
    exact ⟨hentry.seated fun _ => by omega, hentry⟩

/-- Every call that succeeds leaves the cursor as the next one expects it. -/
theorem CursorCall.run_moves (hT : Standing g v.bt T dep) (k : CursorCall)
    (h : Seated g v.bt.page T dep c) :
    Moves (k.run g) v c (fun _ c' => Seated g v.bt.page T dep c') fun _ _ => True := by
  have hE : Allows T dep fun _ _ => True := ⟨fun _ _ _ _ => trivial, fun _ _ _ => trivial⟩
  -- a step from a position, or from none
  have hstep : (∃ f b, Faces g v.bt.page T dep c f b) ∨ c.eState = .invalid := by
    rcases hst : c.eState with - | - | - | - | e
    · exact Or.inl (h.faces (Or.inl hst))
    · exact Or.inr rfl
    · exact Or.inl (h.faces (Or.inr (Or.inl hst)))
    · exact Or.inl (h.faces (Or.inr (Or.inr hst)))
    · exact absurd hst (h.noFault e)
  cases k with
  | first =>
    refine (btreelite_first_moves hT hE h).bind ?_
    intro _ c1 h1
    exact Moves.pure h1.1
  | last =>
    refine (btreelite_last_moves hT hE h).bind ?_
    intro _ c1 h1
    exact Moves.pure h1.1
  | next =>
    rcases hstep with ⟨f, b, hf⟩ | hst
    · refine (btreelite_next_moves hT hE h hf).bind ?_
      intro _ c1 h1
      exact Moves.pure h1.1
    · refine (sqlite3BtreeNext_invalid hst).bind ?_
      intro _ c1 h1
      obtain ⟨-, rfl⟩ := h1
      exact Moves.pure (seated_invalid (h.rooted.congr rfl rfl) hst)
  | prev =>
    rcases hstep with ⟨f, b, hf⟩ | hst
    · refine (btreelite_prev_moves hT hE h hf).bind ?_
      intro _ c1 h1
      exact Moves.pure h1.1
    · refine (sqlite3BtreePrevious_invalid hst).bind ?_
      intro _ c1 h1
      obtain ⟨-, rfl⟩ := h1
      exact Moves.pure (seated_invalid (h.rooted.congr rfl rfl) hst)
  | seek key =>
    by_cases hk : key.length ≤ 255
    · exact (btreelite_seek_moves hT hE h hk).post fun _ _ h' => h'.1
    · refine Moves.bind (Q := fun _ _ => False) (Moves.bind (Q := fun _ _ => False) ?_ ?_) ?_
      · unfold kvCheckKey
        rw [if_pos (by omega)]
        exact Moves.throw trivial
      · intro _ _ h'
        exact h'.elim
      · intro _ _ h'
        exact h'.elim
  | readKey nMax =>
    by_cases hst : c.eState = .valid
    · obtain ⟨i, hi, hlast⟩ := h.atEntry hT.ok hst
      refine (btreelite_key_moves hi).bind ?_
      intro _ c1 h1
      obtain ⟨h2, -, hat, -⟩ := h1
      exact Moves.pure (h2.seated fun h' => hlast (hat ▸ h'))
    · refine Moves.bind (Q := fun _ _ => False) (btreelite_eof_moves.bind ?_) ?_
      · intro b c1 h1
        obtain ⟨rfl, hb⟩ := h1
        rw [if_pos (hb.2 hst)]
        exact Moves.throw trivial
      · intro _ _ h'
        exact h'.elim
  | save =>
    refine Moves.cursor_bind (Moves.cursor_bind (Moves.ite (fun hst => ?_) fun _ => Moves.pure h))
    refine (saveCursorPosition_moves hT hE h hst).post ?_
    intro _ c1 h1
    obtain ⟨hst1, hr, f, b, -, hf⟩ := h1
    exact ⟨hr, fun _ => ⟨f, b, hf⟩, fun e => by simp [hst1], fun h' => by simp [hst1] at h',
      fun h' => by simp [hst1] at h', fun h' => by simp [hst1] at h'⟩

/-- A property that later elements of a row pass on to earlier ones holds up to some index. -/
theorem exists_cut {α : Type} {P : α → Prop} : ∀ {l : List α}, (l.Pairwise fun a b => P b → P a) →
    ∃ n ≤ l.length, ∀ (j : Nat) a, l[j]? = some a → (j < n ↔ P a)
  | [], _ => ⟨0, le_rfl, by simp⟩
  | a :: l, h => by
    obtain ⟨ha, hl⟩ := List.pairwise_cons.1 h
    by_cases hp : P a
    · obtain ⟨n, hn, hcut⟩ := exists_cut hl
      refine ⟨n + 1, by simpa using hn, fun j x hj => ?_⟩
      rcases j with - | j
      · simp_all
      · simpa using hcut j x (by simpa using hj)
    · refine ⟨0, Nat.zero_le _, fun j x hj => ?_⟩
      rcases j with - | j
      · simp_all
      · have := ha x (List.mem_of_getElem? (by simpa using hj))
        simpa using fun hx => hp (this hx)

/-- A saved cursor faces some entries of any tree. -/
theorem faces_of_saved {page : Nat → PageData} (hT : T.Ok g page) (hst : c.eState = .requireseek)
    (hpath : c.path = []) : ∃ f b, Faces g page T dep c f b := by
  have hcut : ∀ z : Prop, ∃ n ≤ T.es.length, ∀ (j : Nat) e, T.es[j]? = some e →
      (j < n ↔ e.key < c.pKey ∨ e.key = c.pKey ∧ z) := by
    refine fun z => exists_cut ((IsTree.pairwise hT).imp fun {a b} hab hb => Or.inl ?_)
    rcases hb with hb | ⟨hb, -⟩
    · exact hab.trans hb
    · exact hb ▸ hab
  obtain ⟨f, hf, hcutf⟩ := hcut (¬ 0 < c.skipNext)
  obtain ⟨b, hb, hcutb⟩ := hcut (c.skipNext < 0)
  refine ⟨f, b, ?_⟩
  unfold Faces
  rw [hst]
  exact ⟨hpath, hf, hb, fun j e he => ⟨hcutf j e he, hcutb j e he⟩⟩

/-- What holds of a cursor whatever tree its root page is the root of. -/
structure Loose (root : Nat) (c : BtCursor) : Prop where
  pgnoRoot : c.pgnoRoot = root
  top : c.path ≠ [] → c.path.getLast?.map Prod.fst = some root
  saved : c.eState = .requireseek → c.path = []

theorem Seated.loose {page : Nat → PageData} (h : Seated g page T dep c) : Loose T.root c := by
  refine ⟨h.rooted.root, h.rooted.top, fun hst => ?_⟩
  obtain ⟨f, b, hf⟩ := h.faces (Or.inr (Or.inr hst))
  unfold Faces at hf
  rw [hst] at hf
  exact hf.1

theorem Loose.seated {page : Nat → PageData} (hT : T.Ok g page) (h : Loose T.root c)
    (hst : c.eState = .requireseek ∨ c.eState = .invalid) : Seated g page T dep c := by
  rcases hst with hst | hst
  · exact ⟨⟨h.pgnoRoot, h.top⟩, fun _ => faces_of_saved hT hst (h.saved hst), fun e => by simp [hst],
      fun h' => by simp [hst] at h', fun h' => by simp [hst] at h', fun h' => by simp [hst] at h'⟩
  · exact seated_invalid ⟨h.pgnoRoot, h.top⟩ hst

theorem Reached.loose_seated {root : Nat} (h : Reached g root v c) :
    Loose root c ∧ ∀ (T : Tree) dep, Standing g v.bt T dep → T.root = root → Seated g v.bt.page T dep c := by
  induction h with
  | fresh h =>
    refine ⟨⟨h.root, fun h' => absurd h.path h', fun _ => h.path⟩, fun T dep _ hr => ?_⟩
    exact seated_fresh (hr ▸ h)
  | @call v e e' T dep k hT hr _ hview hrun ih =>
    have hcall : ∀ (T : Tree) dep, Standing g v.bt T dep → T.root = root →
        Seated g v.bt.page T dep e'.cur := by
      intro T dep hT hr
      obtain ⟨c', hv, hc'⟩ := (k.run_moves hT (ih.2 T dep hT hr) e hview).of_ok hrun
      have hcur : e'.cur = c' := congrArg Env.cur hv
      exact hcur ▸ hc'
    exact ⟨hr ▸ (hcall T dep hT hr).loose, hcall⟩
  | edit _ hst ih => exact ⟨ih.1, fun T dep hT hr => (hr ▸ ih.1 : Loose T.root _).seated hT.ok hst⟩

/-- A cursor that calls have moved is where the next call expects it. -/
theorem Reached.seated (hT : Standing g v.bt T dep) (h : Reached g T.root v c) :
    Seated g v.bt.page T dep c := h.loose_seated.2 T dep hT rfl

end Calls

end Btreelite
