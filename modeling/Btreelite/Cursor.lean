import Btreelite.Path

/-!
# Cursors

A cursor and the functions that move it. The program runs on the shared B-tree state, the cursor at
work and the other cursors of the connection.
-/

namespace Btreelite

open Prog Segment

inductive CursorState
  | valid
  | invalid
  | skipnext
  | requireseek
  | fault (rc : Rc)
deriving DecidableEq, Repr

/-- `BtCursor`. `path` is `pPage` with `ix` and the pages above it with `aiIdx[]`, nearest first; it is
empty when `iPage` is negative. -/
structure BtCursor where
  pgnoRoot : Nat
  wrFlag : Bool
  eState : CursorState
  skipNext : Int
  path : List (Nat × Nat)
  info : CellInfo
  validNKey : Bool
  validOvfl : Bool
  atLast : Bool
  incrblob : Bool
  multiple : Bool
  aOverflow : List Nat
  pKey : Key
deriving DecidableEq, Repr

namespace BtCursor

def pPage (c : BtCursor) : Nat := (c.path.headD (0, 0)).1

def ix (c : BtCursor) : Nat := (c.path.headD (0, 0)).2

def setIx (c : BtCursor) (i : Nat) : BtCursor := { c with path := (c.pPage, i) :: c.path.tail }

/-- `pCur->info.nSize = 0`, without the flags that go with a position. -/
def forget (c : BtCursor) : BtCursor :=
  { c with info := { c.info with nSize := 0 }, validNKey := false, validOvfl := false }

end BtCursor

/-- The state cursor functions run on: the cursor at work stands between the cursors before and after
it in the list of the connection. -/
structure Env (σ : Type) where
  bt : σ
  before : List BtCursor
  cur : BtCursor
  after : List BtCursor
  hasIncrblobCur : Bool

abbrev CurM := EStateM Rc (Env BtShared)

/-! ## Moving between pages -/

section Moves

variable (g : Geometry)

def cursor : CurM BtCursor := do
  return (← get).cur

def modifyCursor (f : BtCursor → BtCursor) : CurM Unit :=
  modify fun e => { e with cur := f e.cur }

def inBt {α : Type} (m : BtM α) : CurM α := zoom Env.bt (fun e bt => { e with bt }) m

/-- `pCur->pPage`. -/
def curPage : CurM MemPage := do
  inBt (nodeAt (← cursor).pPage)

/-- `moveToChild`. `iPage` is 19 when there are 20 pages on the path. -/
def moveToChild (newPgno : Nat) : CurM Unit := do
  let c ← cursor
  if 20 ≤ c.path.length then throw .corrupt
  else
    modifyCursor fun c => (c.setIx 0).forget
    let p ← inBt (getAndInitPage g newPgno)
    if p.cells = [] then throw .corrupt
    else modifyCursor fun c' => { c' with path := (newPgno, 0) :: c.path }

/-- `moveToParent`. -/
def moveToParent : CurM Unit :=
  modifyCursor fun c => { c with path := c.path.tail }.forget

/-- `moveToRoot`; the answer tells whether it is `SQLITE_EMPTY`. -/
def moveToRoot : CurM Bool := do
  let c ← cursor
  if c.path = [] ∧ c.pgnoRoot = 0 then
    modifyCursor fun c => { c with eState := .invalid }
    return true
  else
    if c.path = [] then
      match c.eState with
      | .fault rc => throw rc
      | .requireseek => modifyCursor fun c => { c with pKey := [], eState := .invalid }
      | _ => pure ()
      onError (do
        let _ ← inBt (getAndInitPage g c.pgnoRoot)) (modifyCursor fun c => { c with eState := .invalid })
    let pRoot := (c.path.getLast?.map Prod.fst).getD c.pgnoRoot
    modifyCursor fun c => { c with path := [(pRoot, 0)], atLast := false }.forget
    let p ← inBt (nodeAt pRoot)
    if p.cells ≠ [] then
      modifyCursor fun c => { c with eState := .valid }
      return false
    else if p.leaf then
      modifyCursor fun c => { c with eState := .invalid }
      return true
    else throw .corrupt

/-- The loop of `moveToLeftmost`; no path is longer than 20 pages. -/
def moveToLeftmost : Nat → CurM Unit
  | 0 => throw .corrupt
  | fuel + 1 => do
    let p ← curPage
    if p.leaf then return
    else
      moveToChild g (p.childAt (← cursor).ix)
      moveToLeftmost fuel

/-- The loop of `moveToRightmost`. -/
def moveToRightmost : Nat → CurM Unit
  | 0 => throw .corrupt
  | fuel + 1 => do
    let p ← curPage
    if p.leaf then modifyCursor (·.setIx (p.cells.length - 1))
    else
      modifyCursor (·.setIx p.cells.length)
      moveToChild g p.right
      moveToRightmost fuel

/-- `sqlite3BtreeFirst`; the answer is `*pRes`. -/
def sqlite3BtreeFirst : CurM Bool := do
  if ← moveToRoot g then return true
  else
    moveToLeftmost g 21
    return false

/-- `sqlite3BtreeLast` with `btreeLast`. -/
def sqlite3BtreeLast : CurM Bool := do
  let c ← cursor
  if c.eState = .valid ∧ c.atLast then return false
  else if ← moveToRoot g then return true
  else
    onError (moveToRightmost g 21) (modifyCursor fun c => { c with atLast := false })
    modifyCursor fun c => { c with atLast := true }
    return false

end Moves

/-! ## Seeking -/

section Seek

variable (g : Geometry)

/-- The key of a cell. -/
def cellKey (leaf : Bool) (cell : Cell) : Key := (xParseCell g leaf cell).keyOf cell

/-- `kvKeyCompareCell`. -/
def kvKeyCompareCell (p : MemPage) (idx : Nat) (key : Key) : Int :=
  kvKeyCompare (cellKey g p.leaf (p.cells.getD idx [])) key

/-- Where the binary search on a page ends: the cell looked at last, how its key compares, and `lwr`. -/
structure Probe where
  idx : Nat
  c : Int
  lwr : Nat

/-- The binary search of `sqlite3BtreeKvMoveto` on a page. `hi` is `upr + 1`; every turn takes a cell
away from the `fuel` cells in question. -/
def kvSearch (p : MemPage) (key : Key) : Nat → Nat → Nat → Nat → Probe
  | 0, lwr, _, idx => { idx, c := kvKeyCompareCell g p idx key, lwr }
  | fuel + 1, lwr, hi, idx =>
    let c := kvKeyCompareCell g p idx key
    if c = 0 then { idx, c, lwr := idx }
    else
      let lwr := if c < 0 then idx + 1 else lwr
      let hi := if c < 0 then hi else idx
      if hi ≤ lwr then { idx, c, lwr }
      else kvSearch p key fuel lwr hi ((lwr + hi - 1) / 2)

/-- The descent of `sqlite3BtreeKvMoveto` from the page the cursor is on. -/
def kvDescend (key : Key) (biasRight : Bool) : Nat → CurM Int
  | 0 => throw .corrupt
  | fuel + 1 => do
    let p ← curPage
    let n := p.cells.length
    let r := kvSearch g p key n 0 n (if biasRight then n - 1 else (n - 1) / 2)
    if p.leaf then
      modifyCursor fun c => { c.setIx r.idx with
        info := { c.info with nSize := 0 }, validNKey := c.validNKey || decide (r.c = 0) }
      return r.c
    else
      modifyCursor (·.setIx r.lwr)
      moveToChild g (p.childAt r.lwr)
      kvDescend key biasRight fuel

/-- `sqlite3BtreeKvMoveto`; the answer is `*pRes`. -/
def sqlite3BtreeKvMoveto (key : Key) (biasRight : Bool) : CurM Int := do
  let c ← cursor
  let p ← curPage
  if c.eState = .valid ∧ c.validNKey ∧ c.skipNext = 0
      ∧ cellKey g p.leaf (p.cells.getD c.ix []) = key then return 0
  else if ← moveToRoot g then return -1
  else kvDescend g key biasRight 21

/-- `btreeRestoreCursorPosition`. -/
def btreeRestoreCursorPosition : CurM Unit := do
  match (← cursor).eState with
  | .fault rc => throw rc
  | _ =>
    modifyCursor fun c => { c with eState := .invalid }
    let skipNext ← sqlite3BtreeKvMoveto g (← cursor).pKey false
    modifyCursor fun c =>
      let c := { c with pKey := [], skipNext := if skipNext ≠ 0 then skipNext else c.skipNext }
      if c.skipNext ≠ 0 ∧ c.eState = .valid then { c with eState := .skipnext } else c

/-- `restoreCursorPosition`. -/
def restoreCursorPosition : CurM Unit := do
  match (← cursor).eState with
  | .requireseek | .fault _ => btreeRestoreCursorPosition g
  | _ => return

end Seek

/-! ## Stepping -/

section Step

variable (g : Geometry)

/-- How `btreeNext` and `btreePrevious` start: the answer of a step that is over, which it is at a
restored cursor that is `ahead` already. -/
def restoreStep (ahead : Int → Bool) : CurM (Option Bool) := do
  if (← cursor).eState = .valid then return none
  else
    restoreCursorPosition g
    match (← cursor).eState with
    | .invalid => return some true
    | .skipnext =>
      modifyCursor fun c => { c with eState := .valid }
      return if ahead (← cursor).skipNext then some false else none
    | _ => return none

/-- The climbing loop of `btreeNext`; the answer tells whether it ends at the root. -/
def climbNext : List (Nat × Nat) → CurM Bool
  | [] | [_] => do
    modifyCursor fun c => { c with eState := .invalid }
    return true
  | _ :: path => do
    moveToParent
    let p ← curPage
    if p.cells.length ≤ (← cursor).ix then climbNext path else return false

/-- `btreeNext` from an entry on; the answer tells whether it is `SQLITE_DONE`. A page climbed to is an
interior page, whose cells `next` goes past. -/
def stepNext (next : CurM Bool) : CurM Bool := do
  let p ← curPage
  modifyCursor fun c => c.setIx (c.ix + 1)
  if p.cells.length ≤ (← cursor).ix then
    if p.leaf then
      if ← climbNext (← cursor).path then return true else next
    else
      moveToChild g p.right
      moveToLeftmost g 21
      return false
  else if p.leaf then return false
  else
    moveToLeftmost g 21
    return false

/-- `btreeNext`. -/
def btreeNext (next : CurM Bool) : CurM Bool := do
  match ← restoreStep g fun skipNext => decide (0 < skipNext) with
  | some done => return done
  | none => stepNext g next

/-- `sqlite3BtreeNext`. It calls itself on an interior page, and from there not again. -/
def sqlite3BtreeNext : Nat → CurM Bool
  | 0 => throw .corrupt
  | fuel + 1 => do
    modifyCursor (·.forget)
    if (← cursor).eState ≠ .valid then btreeNext g (sqlite3BtreeNext fuel)
    else
      let p ← curPage
      if p.cells.length ≤ (← cursor).ix + 1 then btreeNext g (sqlite3BtreeNext fuel)
      else
        modifyCursor fun c => c.setIx (c.ix + 1)
        if p.leaf then return false
        else
          moveToLeftmost g 21
          return false

/-- The climbing loop of `btreePrevious`. -/
def climbPrevious : List (Nat × Nat) → CurM Bool
  | [] | [_] => do
    if (← cursor).ix ≠ 0 then return false
    else
      modifyCursor fun c => { c with eState := .invalid }
      return true
  | _ :: path => do
    if (← cursor).ix ≠ 0 then return false
    else
      moveToParent
      climbPrevious path

/-- `btreePrevious` from an entry on. -/
def stepPrevious (previous : CurM Bool) : CurM Bool := do
  let p ← curPage
  if p.leaf then
    if ← climbPrevious (← cursor).path then return true
    else
      modifyCursor fun c => c.setIx (c.ix - 1)
      let p ← curPage
      if p.leaf then return false else previous
  else
    moveToChild g (p.childAt (← cursor).ix)
    moveToRightmost g 21
    return false

/-- `btreePrevious`. -/
def btreePrevious (previous : CurM Bool) : CurM Bool := do
  match ← restoreStep g fun skipNext => decide (skipNext < 0) with
  | some done => return done
  | none => stepPrevious g previous

/-- `sqlite3BtreePrevious`. -/
def sqlite3BtreePrevious : Nat → CurM Bool
  | 0 => throw .corrupt
  | fuel + 1 => do
    modifyCursor fun c => { c with atLast := false }.forget
    let c ← cursor
    let p ← curPage
    if c.eState ≠ .valid ∨ c.ix = 0 ∨ ¬ p.leaf then btreePrevious g (sqlite3BtreePrevious fuel)
    else
      modifyCursor fun c => c.setIx (c.ix - 1)
      return false

end Step

/-! ## The entry under the cursor -/

section Entry

variable (g : Geometry)

/-- `getCellInfo`. -/
def getCellInfo : CurM Unit := do
  if (← cursor).info.nSize = 0 then
    let p ← curPage
    modifyCursor fun c =>
      { c with validNKey := true, info := xParseCell g p.leaf (p.cells.getD c.ix []) }

/-- `sqlite3BtreeKvKey`. -/
def sqlite3BtreeKvKey : CurM Key := do
  getCellInfo g
  let p ← curPage
  let c ← cursor
  return c.info.keyOf (p.cells.getD c.ix [])

/-- `saveCursorKey`. The copy of the key needs memory. -/
def saveCursorKey : CurM Unit := do
  let key ← sqlite3BtreeKvKey g
  inBt tick
  modifyCursor fun c => { c with pKey := key }

/-- `saveCursorPosition`; no cursor is pinned. -/
def saveCursorPosition : CurM Unit := do
  modifyCursor fun c =>
    if c.eState = .skipnext then { c with eState := .valid } else { c with skipNext := 0 }
  onError (saveCursorKey g)
    (modifyCursor fun c => { c with validNKey := false, validOvfl := false, atLast := false })
  modifyCursor fun c => { c with
    path := [], eState := .requireseek, validNKey := false, validOvfl := false, atLast := false }

end Entry

/-! ## Programs that only move the cursor -/

/-- What the specifications see of the state. -/
def Env.view (e : Env BtShared) : Env Db :=
  ⟨e.bt.db, e.before, e.cur, e.after, e.hasIncrblobCur⟩

/-- `m` changes nothing but the cursor, from `c` to one with `Q`, or to one with `E` when it fails. -/
abbrev Moves {α : Type} (m : CurM α) (v : Env Db) (c : BtCursor) (Q : α → BtCursor → Prop)
    (E : Rc → BtCursor → Prop) : Prop :=
  Ensures Env.view m { v with cur := c } (fun a v' => ∃ c', v' = { v with cur := c' } ∧ Q a c')
    fun e v' => ∃ c', v' = { v with cur := c' } ∧ E e c'

section Rules

variable {α β : Type} {v : Env Db} {c : BtCursor} {m : CurM α} {Q Q' : α → BtCursor → Prop}
  {E E' : Rc → BtCursor → Prop}

theorem Moves.pure {a : α} (h : Q a c) : Moves (pure a) v c Q E := Ensures.pure ⟨c, rfl, h⟩

theorem Moves.throw {e : Rc} (h : E e c) : Moves (throw e : CurM α) v c Q E := Ensures.throw ⟨c, rfl, h⟩

theorem Moves.throw_bind {e : Rc} {f : β → CurM α} (h : E e c) :
    Moves ((MonadExcept.throw e : CurM β) >>= f) v c Q E := by
  intro s hs
  exact ⟨c, hs, h⟩

theorem Moves.bind {f : α → CurM β} {R : β → BtCursor → Prop} (h : Moves m v c Q E)
    (hf : ∀ a c', Q a c' → Moves (f a) v c' R E) : Moves (m >>= f) v c R E := by
  refine Ensures.bind h ?_
  intro a v' ha
  obtain ⟨c', rfl, hQ⟩ := ha
  exact hf a c' hQ

theorem Moves.mono (h : Moves m v c Q E) (hQ : ∀ a c', Q a c' → Q' a c')
    (hE : ∀ e c', E e c' → E' e c') : Moves m v c Q' E' := by
  refine Ensures.mono h ?_ ?_
  · intro a v' ha
    obtain ⟨c', hv, hc⟩ := ha
    exact ⟨c', hv, hQ a c' hc⟩
  · intro e v' he
    obtain ⟨c', hv, hc⟩ := he
    exact ⟨c', hv, hE e c' hc⟩

theorem Moves.post (h : Moves m v c Q E) (hQ : ∀ a c', Q a c' → Q' a c') : Moves m v c Q' E :=
  h.mono hQ fun _ _ => id

theorem Moves.ite {p : Prop} [Decidable p] {m' : CurM α} (h : p → Moves m v c Q E)
    (h' : ¬ p → Moves m' v c Q E) : Moves (if p then m else m') v c Q E := Ensures.ite h h'

theorem cursor_moves : Moves cursor v c (fun a c' => c = c' ∧ a = c) E := by
  refine Ensures.get.bind ?_
  intro e v' h
  obtain ⟨rfl, he⟩ := h
  exact Ensures.pure ⟨c, rfl, rfl, congrArg Env.cur he⟩

theorem modifyCursor_moves (f : BtCursor → BtCursor) :
    Moves (modifyCursor f) v c (fun _ c' => c' = f c) E := by
  intro e he
  refine ⟨f c, ?_, rfl⟩
  have h2 : e.view = { v with cur := c } := he
  simp only [Env.view, Env.mk.injEq] at h2 ⊢
  obtain ⟨h3, h4, h5, h6, h7⟩ := h2
  exact ⟨h3, h4, congrArg f h5, h6, h7⟩

theorem Moves.onError {f : BtCursor → BtCursor} (h : Moves m v c Q fun e c' => E e (f c')) :
    Moves (onError m (modifyCursor f)) v c Q E := by
  intro s hs
  refine wp_onError.2 ((h s hs).mono (fun _ _ => id) ?_)
  intro e s' he
  obtain ⟨c', hv, hE⟩ := he
  have h2 : s'.view = { v with cur := c' } := hv
  -- setting the cursor cannot fail
  refine (modifyCursor_moves (E := fun _ _ => False) f s' h2).mono ?_ ?_
  · intro _ s'' h4
    obtain ⟨c'', hv', rfl⟩ := h4
    exact ⟨_, hv', hE⟩
  · intro _ s'' h4
    obtain ⟨_, -, h5⟩ := h4
    exact h5.elim

/-- What `inBt` does to the whole state. -/
theorem inBt_ensures {m : BtM α} {P : α → Db → Prop} {F : Rc → Db → Prop}
    (h : Does m v.bt P F) :
    Ensures Env.view (inBt m) v (fun a v' => ∃ d', v' = { v with bt := d' } ∧ P a d')
      fun e v' => ∃ d', v' = { v with bt := d' } ∧ F e d' := by
  intro e he
  have h1 : e.bt.db = v.bt := congrArg Env.bt he
  refine wp_zoom.2 ((h e.bt h1).mono (fun a s hs => ⟨s.db, ?_, hs⟩) fun x s hs => ⟨s.db, ?_, hs⟩)
  · rw [← he]
    rfl
  · rw [← he]
    rfl

theorem inBt_moves {m : BtM α} {P : α → Prop}
    (h : Does m v.bt (fun a d' => v.bt = d' ∧ P a) fun e d' => v.bt = d' ∧ E e c) :
    Moves (inBt m) v c (fun a c' => c = c' ∧ P a) E := by
  refine (inBt_ensures (v := { v with cur := c }) h).mono ?_ ?_
  · intro a v' hv
    obtain ⟨d', rfl, hd, hP⟩ := hv
    obtain rfl : v.bt = d' := hd
    exact ⟨c, rfl, rfl, hP⟩
  · intro e v' hv
    obtain ⟨d', rfl, hd, hE⟩ := hv
    obtain rfl : v.bt = d' := hd
    exact ⟨c, rfl, hE⟩

theorem curPage_moves {p : MemPage} (hp : v.bt.page c.pPage = .node p) :
    Moves curPage v c (fun a c' => c = c' ∧ a = p) E := by
  refine cursor_moves.bind ?_
  intro a c' h
  obtain ⟨rfl, rfl⟩ := h
  exact inBt_moves (nodeAt_does hp)

/-- Whatever page the cursor is on, reading it changes nothing. -/
theorem curPage_stays : Moves curPage v c (fun _ c' => c = c') E := by
  refine cursor_moves.bind ?_
  intro a c' h
  obtain ⟨rfl, rfl⟩ := h
  refine (inBt_moves (P := fun _ => True) ?_).post fun _ _ h => h.1
  refine (pageData_does _).bind ?_
  intro x d' h
  obtain ⟨rfl, -⟩ := h
  split <;> exact Ensures.pure ⟨rfl, trivial⟩

/-! ### The first instruction of a program -/

theorem Moves.cursor_bind {f : BtCursor → CurM β} {R : β → BtCursor → Prop} (h : Moves (f c) v c R E) :
    Moves (cursor >>= f) v c R E := by
  refine cursor_moves.bind ?_
  intro a c' h1
  obtain ⟨rfl, rfl⟩ := h1
  exact h

theorem Moves.modify_bind {f : BtCursor → BtCursor} {k : Unit → CurM β} {R : β → BtCursor → Prop}
    (h : Moves (k ()) v (f c) R E) : Moves (modifyCursor f >>= k) v c R E := by
  refine (modifyCursor_moves f).bind ?_
  intro _ c' h1
  subst h1
  exact h

theorem Moves.curPage_bind {p : MemPage} {f : MemPage → CurM β} {R : β → BtCursor → Prop}
    (hp : v.bt.page c.pPage = .node p) (h : Moves (f p) v c R E) : Moves (curPage >>= f) v c R E := by
  refine (curPage_moves hp).bind ?_
  intro a c' h1
  obtain ⟨rfl, rfl⟩ := h1
  exact h

end Rules

end Btreelite
