import Btreelite.CursorApi

/-!
# The cursors of a connection

The cursors on one `BtShared` in the order of the list `pBt->pCursor`, and what happens to the others
before one of them changes a tree.
-/

namespace Btreelite

open Prog

structure Conn (σ : Type) where
  bt : σ
  cursors : List BtCursor
  hasIncrblobCur : Bool

abbrev ConnM := EStateM Rc (Conn BtShared)

/-- A cursor as `btreeCursor` fills it in. -/
def newCursor (iTable : Nat) (wrFlag multiple : Bool) : BtCursor where
  pgnoRoot := iTable
  wrFlag
  eState := .invalid
  skipNext := 0
  path := []
  info := { nKey := 0, pKey := 0, nKeyLen := 0, pPayload := 0, nPayload := 0, nLocal := 0, nSize := 0 }
  validNKey := false
  validOvfl := false
  atLast := false
  incrblob := false
  multiple
  aOverflow := []
  pKey := []

namespace Conn

variable {σ : Type}

/-- The state as the programs of cursor `j` see it. -/
def env (s : Conn σ) (j : Nat) : Env σ where
  bt := s.bt
  before := s.cursors.take j
  cur := s.cursors.getD j (newCursor 0 false false)
  after := s.cursors.drop (j + 1)
  hasIncrblobCur := s.hasIncrblobCur

def put (s : Conn σ) (j : Nat) (e : Env σ) : Conn σ where
  bt := e.bt
  cursors := s.cursors.set j e.cur
  hasIncrblobCur := e.hasIncrblobCur

def setCursor (s : Conn σ) (j : Nat) (c : BtCursor) : Conn σ := { s with cursors := s.cursors.set j c }

end Conn

section Code

variable (g : Geometry)

/-- A program of cursor `j`. -/
def onCursor {α : Type} (j : Nat) (m : CurM α) : ConnM α := zoom (Conn.env · j) (Conn.put · j) m

def onBt {α : Type} (m : BtM α) : ConnM α := zoom Conn.bt (fun s bt => { s with bt }) m

/-- What `saveCursorsOnList` does to a cursor; without a position, it is `btreeReleaseAllCursorPages`. -/
def saveCursor : CurM Unit := do
  match (← cursor).eState with
  | .valid | .skipnext => saveCursorPosition g
  | _ => modifyCursor fun c => { c with path := [] }

/-- The cursors but `pExcept` that are open on the tree, or on any tree when `iRoot` is 0. -/
def Conn.others {σ : Type} (s : Conn σ) (iRoot : Nat) (pExcept : Option Nat) : List Nat :=
  (List.range s.cursors.length).filter fun j =>
    decide (pExcept ≠ some j ∧ (iRoot = 0 ∨ (s.env j).cur.pgnoRoot = iRoot))

def saveCursorsOnList : List Nat → ConnM Unit
  | [] => return
  | j :: js => do
    onCursor j (saveCursor g)
    saveCursorsOnList js

def saveAllCursors (iRoot : Nat) (pExcept : Option Nat) : ConnM Unit := do
  match (← get).others iRoot pExcept with
  | [] =>
    match pExcept with
    | some j => onCursor j (modifyCursor fun c => { c with multiple := false })
    | none => return
  | js => saveCursorsOnList g js

/-- `invalidateIncrblobCursors`; in these trees `info.nKey` is the length of the key. -/
def invalidateIncrblobCursors (pgnoRoot iRow : Nat) (isClearTable : Bool) : ConnM Unit :=
  modify fun s => { s with
    hasIncrblobCur := s.cursors.any (·.incrblob),
    cursors := s.cursors.map fun c =>
      if c.incrblob ∧ c.pgnoRoot = pgnoRoot ∧ (isClearTable ∨ c.info.nKey = iRow) then
        { c with eState := .invalid }
      else c }

/-- What `btreeCursor` does to the list of cursors: all cursors on one tree have `BTCF_Multiple` set when
there are several. -/
def linkCursor (iTable : Nat) (wrFlag : Bool) (cs : List BtCursor) : List BtCursor :=
  newCursor iTable wrFlag (cs.any fun c => decide (c.pgnoRoot = iTable))
    :: cs.map fun c => if c.pgnoRoot = iTable then { c with multiple := true } else c

/-- `btreelite_cursor_open` with `btreeCursor`; the `tick` is for the memory. -/
def btreelite_cursor_open (iRoot : Nat) (wrFlag : Bool) : ConnM Unit := do
  onBt tick
  if iRoot < 1 then throw .corrupt
  else
    let n ← onBt btreePagecount
    let iTable := if iRoot ≤ 1 ∧ n = 0 then 0 else iRoot
    modify fun s => { s with cursors := linkCursor iTable wrFlag s.cursors }

/-- `btreelite_cursor_close` with `sqlite3BtreeCloseCursor`. -/
def btreelite_cursor_close (j : Nat) : ConnM Unit :=
  modify fun s => { s with cursors := s.cursors.eraseIdx j }

end Code

/-! ## What the specifications see -/

def Conn.view (s : Conn BtShared) : Conn Db := ⟨s.bt.db, s.cursors, s.hasIncrblobCur⟩

section Rules

variable {α : Type} {w : Conn Db} {j : Nat} {c : BtCursor}

theorem Conn.view_env (s : Conn BtShared) (j : Nat) : (s.env j).view = s.view.env j := rfl

theorem Conn.view_put (s : Conn BtShared) (j : Nat) (e : Env BtShared) :
    (s.put j e).view = s.view.put j e.view := rfl

theorem Conn.env_cur (h : w.cursors[j]? = some c) : (w.env j).cur = c := by
  simp [Conn.env, List.getD_eq_getElem?_getD, h]

theorem onCursor_does {m : CurM α} {Q : α → Env Db → Prop} {E : Rc → Env Db → Prop}
    (h : Ensures Env.view m (w.env j) Q E) :
    Ensures Conn.view (onCursor j m) w (fun a w' => ∃ v, w' = w.put j v ∧ Q a v)
      fun e w' => ∃ v, w' = w.put j v ∧ E e v := by
  rintro s rfl
  refine wp_zoom.2 ((h (s.env j) (Conn.view_env s j)).mono ?_ ?_)
  · intro a e hQ
    exact ⟨e.view, rfl, hQ⟩
  · intro x e hE
    exact ⟨e.view, rfl, hE⟩

theorem Moves.onCursor {m : CurM α} {Q : α → BtCursor → Prop} {E : Rc → BtCursor → Prop}
    (hc : w.cursors[j]? = some c) (h : Moves m (w.env j) c Q E) :
    Ensures Conn.view (onCursor j m) w (fun a w' => ∃ c', w' = w.setCursor j c' ∧ Q a c')
      fun e w' => ∃ c', w' = w.setCursor j c' ∧ E e c' := by
  obtain rfl := Conn.env_cur hc
  refine (onCursor_does h).mono ?_ ?_
  · rintro a w' ⟨v, rfl, c', rfl, hQ⟩
    exact ⟨c', rfl, hQ⟩
  · rintro e w' ⟨v, rfl, c', rfl, hE⟩
    exact ⟨c', rfl, hE⟩

theorem onBt_does {m : BtM α} {Q : α → Db → Prop} {E : Rc → Db → Prop} (h : Does m w.bt Q E) :
    Ensures Conn.view (onBt m) w (fun a w' => ∃ d, w' = { w with bt := d } ∧ Q a d)
      fun e w' => ∃ d, w' = { w with bt := d } ∧ E e d := by
  rintro s rfl
  refine wp_zoom.2 ((h s.bt rfl).mono ?_ ?_)
  · intro a bt hQ
    exact ⟨bt.db, rfl, hQ⟩
  · intro e bt hE
    exact ⟨bt.db, rfl, hE⟩

end Rules

end Btreelite
