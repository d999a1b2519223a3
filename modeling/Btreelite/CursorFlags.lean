import Btreelite.Connection

/-!
# The flags of a cursor

What the programs of a cursor leave alone whatever is on the pages: `BTCF_Multiple`, `BTCF_Incrblob` and
`BTCF_WriteFlag`, and a cache of overflow pages that has been dropped stays so until a value is read.
-/

namespace Btreelite

open Prog

/-- The flags of `c'` are those of `c`; the cache of overflow pages is not filled in between. -/
structure Flags (c c' : BtCursor) : Prop where
  multiple : c'.multiple = c.multiple
  incrblob : c'.incrblob = c.incrblob
  wrFlag : c'.wrFlag = c.wrFlag
  validOvfl : c.validOvfl = false → c'.validOvfl = false

theorem Flags.rfl {c : BtCursor} : Flags c c := ⟨Eq.refl _, Eq.refl _, Eq.refl _, id⟩

theorem Flags.trans {c c' c'' : BtCursor} (h : Flags c c') (h' : Flags c' c'') : Flags c c'' :=
  ⟨h'.multiple.trans h.multiple, h'.incrblob.trans h.incrblob, h'.wrFlag.trans h.wrFlag,
    fun hv => h'.validOvfl (h.validOvfl hv)⟩

/-- A program that keeps the flags. -/
def Plain {α : Type} (m : CurM α) : Prop := ∀ c, Returns Env.cur m c fun _ c' => Flags c c'

section Rules

variable {α β : Type} {m : CurM α} {f : α → CurM β}

theorem Plain.bind (h : Plain m) (hf : ∀ a, Plain (f a)) : Plain (m >>= f) := fun c =>
  (h c).bind fun a c' h1 => (hf a c').post fun _ _ h2 => h1.trans h2

theorem Plain.ite {p : Prop} [Decidable p] {m' : CurM α} (h : Plain m) (h' : Plain m') :
    Plain (if p then m else m') := fun c => Ensures.ite (fun _ => h c) fun _ => h' c

theorem plain_pure (a : α) : Plain (pure a) := fun _ => Ensures.pure .rfl

theorem plain_throw (e : Rc) : Plain (throw e : CurM α) := fun _ => Ensures.throw trivial

theorem Plain.onError (h : Plain m) (m' : CurM Unit) : Plain (onError m m') := fun c => (h c).onError

theorem cursor_returns {c : BtCursor} : Returns Env.cur cursor c fun a c' => a = c ∧ c' = c :=
  Ensures.get.bind fun _ _ h => Ensures.pure ⟨h.2, h.1.symm⟩

theorem plain_cursor : Plain cursor := fun _ => cursor_returns.post fun _ _ h => h.2 ▸ .rfl

theorem modifyCursor_returns {f : BtCursor → BtCursor} {c : BtCursor} :
    Returns Env.cur (modifyCursor f) c fun _ c' => c' = f c := by
  rintro s rfl
  exact Eq.refl _

theorem plain_modify {f : BtCursor → BtCursor} (h : ∀ c, Flags c (f c)) : Plain (modifyCursor f) :=
  fun c => modifyCursor_returns.post fun _ _ h' => h' ▸ h c

/-- Programs on the shared state do not touch the cursor. -/
theorem inBt_returns {m : BtM α} {c : BtCursor} : Returns Env.cur (inBt m) c fun _ c' => c' = c := by
  rintro s rfl
  exact wp_zoom.2 (wp.true.mono (fun _ _ _ => Eq.refl _) fun _ _ _ => trivial)

theorem plain_inBt (m : BtM α) : Plain (inBt m) := fun _ => inBt_returns.post fun _ _ h => h ▸ .rfl

theorem curPage_returns {c : BtCursor} : Returns Env.cur curPage c fun _ c' => c' = c := by
  refine cursor_returns.bind ?_
  rintro _ _ ⟨rfl, rfl⟩
  exact inBt_returns

theorem plain_curPage : Plain curPage := fun _ => curPage_returns.post fun _ _ h => h ▸ .rfl

theorem plain_setIx (i : BtCursor → Nat) : Plain (modifyCursor fun c => c.setIx (i c)) :=
  plain_modify fun _ => ⟨rfl, rfl, rfl, id⟩

theorem plain_eState (st : CursorState) : Plain (modifyCursor fun c => { c with eState := st }) :=
  plain_modify fun _ => ⟨rfl, rfl, rfl, id⟩

theorem plain_forget : Plain (modifyCursor (·.forget)) := plain_modify fun _ => ⟨rfl, rfl, rfl, fun _ => rfl⟩

/-- What a program does to the cursor and what it does to the flags. -/
theorem Moves.and_cur {v : Env Db} {c : BtCursor} {Q Q' : α → BtCursor → Prop} {E : Rc → BtCursor → Prop}
    (h : Moves m v c Q E) (h' : Returns Env.cur m c Q') : Moves m v c (fun a c' => Q a c' ∧ Q' a c') E := by
  intro s hs
  have hc : s.cur = c := congrArg Env.cur hs
  refine ((h s hs).and (h' s hc)).mono ?_ fun e s' he => he.1
  rintro a s' ⟨⟨c', hv, hQ⟩, hQ'⟩
  have hcur : s'.cur = c' := congrArg Env.cur hv
  exact ⟨c', hv, hQ, hcur ▸ hQ'⟩

end Rules

/-! ## The programs that move a cursor -/

section Programs

variable (g : Geometry)

theorem plain_moveToChild (n : Nat) : Plain (moveToChild g n) :=
  .bind plain_cursor fun _ => .ite (plain_throw _) <|
    .bind (plain_modify fun _ => ⟨rfl, rfl, rfl, fun _ => rfl⟩) fun _ => .bind (plain_inBt _) fun _ =>
      .ite (plain_throw _) (plain_modify fun _ => ⟨rfl, rfl, rfl, id⟩)

theorem plain_moveToParent : Plain moveToParent := plain_modify fun _ => ⟨rfl, rfl, rfl, fun _ => rfl⟩

theorem plain_moveToLeftmost : ∀ fuel, Plain (moveToLeftmost g fuel)
  | 0 => plain_throw _
  | fuel + 1 => .bind plain_curPage fun _ => .ite (plain_pure _) <| .bind plain_cursor fun _ =>
      .bind (plain_moveToChild g _) fun _ => plain_moveToLeftmost fuel

theorem plain_moveToRightmost : ∀ fuel, Plain (moveToRightmost g fuel)
  | 0 => plain_throw _
  | fuel + 1 => .bind plain_curPage fun _ => .ite (plain_setIx _) <| .bind (plain_setIx _) fun _ =>
      .bind (plain_moveToChild g _) fun _ => plain_moveToRightmost fuel

/-- After `moveToRoot` the cursor is on the root page and keeps nothing of an entry. -/
theorem moveToRoot_returns (c : BtCursor) : Returns Env.cur (moveToRoot g) c fun empty c' => Flags c c'
    ∧ (c.pgnoRoot ≠ 0 → c'.validNKey = false ∧ (c'.validOvfl = false ∧ c'.atLast = false)
      ∧ c'.path = [((c.path.getLast?.map Prod.fst).getD c.pgnoRoot, 0)]
      ∧ (empty = false → c'.eState = .valid)) := by
  have hdown : ∀ (q : Nat) (c1 : BtCursor), Flags c c1 → Returns Env.cur (do
      modifyCursor fun c => { c with path := [(q, 0)], atLast := false }.forget
      let p ← inBt (nodeAt q)
      if p.cells ≠ [] then
        modifyCursor fun c => { c with eState := .valid }
        return false
      else if p.leaf then
        modifyCursor fun c => { c with eState := .invalid }
        return true
      else throw .corrupt) c1 fun empty c' => Flags c c' ∧ (c.pgnoRoot ≠ 0 → c'.validNKey = false
        ∧ (c'.validOvfl = false ∧ c'.atLast = false) ∧ c'.path = [(q, 0)] ∧ (empty = false → c'.eState = .valid)) := by
    intro q c1 h1
    refine modifyCursor_returns.bind ?_
    rintro _ _ rfl
    refine inBt_returns.bind ?_
    rintro p _ rfl
    refine Ensures.ite (fun _ => ?_) fun _ => Ensures.ite (fun _ => ?_) fun _ => Ensures.throw trivial
    · refine modifyCursor_returns.bind ?_
      rintro _ _ rfl
      exact Ensures.pure ⟨h1.trans ⟨rfl, rfl, rfl, fun _ => rfl⟩, fun _ => ⟨rfl, ⟨rfl, rfl⟩, rfl, fun _ => rfl⟩⟩
    · refine modifyCursor_returns.bind ?_
      rintro _ _ rfl
      exact Ensures.pure ⟨h1.trans ⟨rfl, rfl, rfl, fun _ => rfl⟩,
        fun _ => ⟨rfl, ⟨rfl, rfl⟩, rfl, fun h => absurd h (by simp)⟩⟩
  have hopen : Plain (onError (do
      let _ ← inBt (getAndInitPage g c.pgnoRoot)) (modifyCursor fun c => { c with eState := .invalid })) :=
    ((plain_inBt _).bind fun _ => plain_pure _).onError _
  refine cursor_returns.bind ?_
  rintro _ _ ⟨rfl, rfl⟩
  refine Ensures.ite (fun h => ?_) fun _ => Ensures.ite (fun _ => ?_) fun _ => hdown _ _ .rfl
  · refine modifyCursor_returns.bind ?_
    rintro _ _ rfl
    exact Ensures.pure ⟨⟨rfl, rfl, rfl, id⟩, fun h0 => absurd h.2 h0⟩
  · dsimp only
    split
    · rintro s -
      exact trivial
    · refine modifyCursor_returns.bind ?_
      rintro _ _ rfl
      exact (hopen _).bind fun _ c1 h1 => hdown _ c1 ⟨h1.multiple, h1.incrblob, h1.wrFlag, h1.validOvfl⟩
    · exact (hopen _).bind fun _ c1 h1 => hdown _ c1 h1

theorem plain_moveToRoot : Plain (moveToRoot g) := fun c => (moveToRoot_returns g c).post fun _ _ h => h.1

theorem sqlite3BtreeFirst_returns {c : BtCursor} (h0 : c.pgnoRoot ≠ 0) :
    Returns Env.cur (sqlite3BtreeFirst g) c fun _ c' => Flags c c' ∧ c'.validOvfl = false := by
  refine (moveToRoot_returns g c).bind fun empty c1 h1 => ?_
  have hrest : Plain (if empty then pure true else do
      moveToLeftmost g 21
      return false) := .ite (plain_pure _) <| .bind (plain_moveToLeftmost g _) fun _ => plain_pure _
  exact (hrest c1).post fun _ _ h2 => ⟨h1.1.trans h2, h2.validOvfl (h1.2 h0).2.1.1⟩

/-- `sqlite3BtreeLast` stays at the last entry, or forgets the entry it was on. -/
theorem sqlite3BtreeLast_returns {c : BtCursor} (h0 : c.pgnoRoot ≠ 0) :
    Returns Env.cur (sqlite3BtreeLast g) c fun _ c' => Flags c c' ∧ (c' = c ∨ c'.validOvfl = false) := by
  refine cursor_returns.bind ?_
  rintro _ _ ⟨rfl, rfl⟩
  refine Ensures.ite (fun _ => Ensures.pure ⟨.rfl, Or.inl rfl⟩) fun _ => ?_
  refine (moveToRoot_returns g _).bind fun empty c1 h1 => ?_
  have hrest : Plain (if empty then pure true else do
      onError (moveToRightmost g 21) (modifyCursor fun c => { c with atLast := false })
      modifyCursor fun c => { c with atLast := true }
      return false) := .ite (plain_pure _) <| .bind ((plain_moveToRightmost g _).onError _) fun _ =>
        .bind (plain_modify fun _ => ⟨rfl, rfl, rfl, id⟩) fun _ => plain_pure _
  exact (hrest c1).post fun _ _ h2 => ⟨h1.1.trans h2, Or.inr (h2.validOvfl (h1.2 h0).2.1.1)⟩

theorem plain_kvDescend (key : Key) (biasRight : Bool) : ∀ fuel, Plain (kvDescend g key biasRight fuel)
  | 0 => plain_throw _
  | fuel + 1 => .bind plain_curPage fun _ => .ite
      (.bind (plain_modify fun _ => ⟨rfl, rfl, rfl, id⟩) fun _ => plain_pure _) <|
      .bind (plain_setIx _) fun _ => .bind (plain_moveToChild g _) fun _ => plain_kvDescend key biasRight fuel

theorem plain_sqlite3BtreeKvMoveto (key : Key) (biasRight : Bool) :
    Plain (sqlite3BtreeKvMoveto g key biasRight) :=
  .bind plain_cursor fun _ => .bind plain_curPage fun _ => .ite (plain_pure _) <|
    .bind (plain_moveToRoot g) fun _ => .ite (plain_pure _) (plain_kvDescend g key biasRight _)

theorem plain_btreeRestoreCursorPosition : Plain (btreeRestoreCursorPosition g) := by
  refine .bind plain_cursor fun c => ?_
  split
  · exact plain_throw _
  · refine .bind (plain_eState _) fun _ => .bind plain_cursor fun _ =>
      .bind (plain_sqlite3BtreeKvMoveto g _ _) fun _ => plain_modify fun _ => ?_
    dsimp only
    split_ifs <;> exact ⟨rfl, rfl, rfl, id⟩

theorem plain_restoreCursorPosition : Plain (restoreCursorPosition g) := by
  refine .bind plain_cursor fun c => ?_
  split
  · exact plain_btreeRestoreCursorPosition g
  · exact plain_btreeRestoreCursorPosition g
  · exact plain_pure _

theorem plain_restoreStep (ahead : Int → Bool) : Plain (restoreStep g ahead) := by
  refine .bind plain_cursor fun c => .ite (plain_pure _) <| .bind (plain_restoreCursorPosition g) fun _ =>
    .bind plain_cursor fun c => ?_
  split
  · exact plain_pure _
  · exact .bind (plain_eState _) fun _ => .bind plain_cursor fun _ => plain_pure _
  · exact plain_pure _

theorem plain_climbNext : ∀ path, Plain (climbNext path)
  | [] => .bind (plain_eState _) fun _ => plain_pure _
  | [_] => .bind (plain_eState _) fun _ => plain_pure _
  | _ :: b :: path => .bind plain_moveToParent fun _ => .bind plain_curPage fun _ => .bind plain_cursor fun _ =>
      .ite (plain_climbNext (b :: path)) (plain_pure _)

theorem plain_stepNext {next : CurM Bool} (h : Plain next) : Plain (stepNext g next) :=
  .bind plain_curPage fun _ => .bind (plain_setIx _) fun _ => .bind plain_cursor fun _ => .ite
    (.ite (.bind plain_cursor fun _ => .bind (plain_climbNext _) fun _ => .ite (plain_pure _) h) <|
      .bind (plain_moveToChild g _) fun _ => .bind (plain_moveToLeftmost g _) fun _ => plain_pure _) <|
    .ite (plain_pure _) (.bind (plain_moveToLeftmost g _) fun _ => plain_pure _)

theorem plain_btreeNext {next : CurM Bool} (h : Plain next) : Plain (btreeNext g next) := by
  refine .bind (plain_restoreStep g _) fun r => ?_
  cases r with
  | none => exact plain_stepNext g h
  | some done => exact plain_pure _

/-- A program that starts by forgetting the entry the cursor is on. -/
theorem Plain.forget_bind {α : Type} {f : BtCursor → BtCursor} {k : Unit → CurM α} {c : BtCursor}
    (hf : Flags c (f c)) (hv : (f c).validOvfl = false) (hk : Plain (k ())) :
    Returns Env.cur (modifyCursor f >>= k) c fun _ c' => Flags c c' ∧ c'.validOvfl = false := by
  refine modifyCursor_returns.bind ?_
  rintro _ _ rfl
  exact (hk _).post fun _ _ h => ⟨hf.trans h, h.validOvfl hv⟩

theorem sqlite3BtreeNext_returns : ∀ (fuel : Nat) (c : BtCursor),
    Returns Env.cur (sqlite3BtreeNext g fuel) c fun _ c' => Flags c c' ∧ c'.validOvfl = false
  | 0, _ => Ensures.throw trivial
  | fuel + 1, _ =>
    have hin : Plain (sqlite3BtreeNext g fuel) := fun c =>
      (sqlite3BtreeNext_returns fuel c).post fun _ _ h => h.1
    Plain.forget_bind ⟨rfl, rfl, rfl, fun _ => rfl⟩ rfl <| .bind plain_cursor fun _ =>
      .ite (plain_btreeNext g hin) <| .bind plain_curPage fun _ => .bind plain_cursor fun _ =>
        .ite (plain_btreeNext g hin) <| .bind (plain_setIx _) fun _ => .ite (plain_pure _) <|
          .bind (plain_moveToLeftmost g _) fun _ => plain_pure _

theorem plain_climbPrevious : ∀ path, Plain (climbPrevious path)
  | [] => .bind plain_cursor fun _ => .ite (plain_pure _) <| .bind (plain_eState _) fun _ => plain_pure _
  | [_] => .bind plain_cursor fun _ => .ite (plain_pure _) <| .bind (plain_eState _) fun _ => plain_pure _
  | _ :: b :: path => .bind plain_cursor fun _ => .ite (plain_pure _) <| .bind plain_moveToParent fun _ =>
      plain_climbPrevious (b :: path)

theorem plain_stepPrevious {previous : CurM Bool} (h : Plain previous) : Plain (stepPrevious g previous) :=
  .bind plain_curPage fun _ => .ite
    (.bind plain_cursor fun _ => .bind (plain_climbPrevious _) fun _ => .ite (plain_pure _) <|
      .bind (plain_setIx _) fun _ => .bind plain_curPage fun _ => .ite (plain_pure _) h) <|
    .bind plain_cursor fun _ => .bind (plain_moveToChild g _) fun _ =>
      .bind (plain_moveToRightmost g _) fun _ => plain_pure _

theorem plain_btreePrevious {previous : CurM Bool} (h : Plain previous) : Plain (btreePrevious g previous) := by
  refine .bind (plain_restoreStep g _) fun r => ?_
  cases r with
  | none => exact plain_stepPrevious g h
  | some done => exact plain_pure _

theorem sqlite3BtreePrevious_returns : ∀ (fuel : Nat) (c : BtCursor),
    Returns Env.cur (sqlite3BtreePrevious g fuel) c fun _ c' => Flags c c' ∧ c'.validOvfl = false
  | 0, _ => Ensures.throw trivial
  | fuel + 1, _ =>
    have hin : Plain (sqlite3BtreePrevious g fuel) := fun c =>
      (sqlite3BtreePrevious_returns fuel c).post fun _ _ h => h.1
    Plain.forget_bind ⟨rfl, rfl, rfl, fun _ => rfl⟩ rfl <| .bind plain_cursor fun _ => .bind plain_curPage fun _ =>
      .ite (plain_btreePrevious g hin) <| .bind (plain_setIx _) fun _ => plain_pure _

theorem moveToChild_returns {c : BtCursor} (n : Nat) : Returns Env.cur (moveToChild g n) c fun _ c' =>
    c'.eState = c.eState ∧ c'.atLast = c.atLast := by
  refine cursor_returns.bind ?_
  rintro _ _ ⟨rfl, rfl⟩
  refine Ensures.ite (fun _ => Ensures.throw trivial) fun _ => modifyCursor_returns.bind ?_
  rintro _ _ rfl
  refine inBt_returns.bind ?_
  rintro p _ rfl
  refine Ensures.ite (fun _ => Ensures.throw trivial) fun _ => modifyCursor_returns.post ?_
  rintro _ _ rfl
  exact ⟨rfl, rfl⟩

theorem kvDescend_returns (key : Key) (biasRight : Bool) : ∀ (fuel : Nat) (c : BtCursor),
    Returns Env.cur (kvDescend g key biasRight fuel) c fun _ c' =>
      c'.eState = c.eState ∧ c'.atLast = c.atLast
  | 0, _ => Ensures.throw trivial
  | fuel + 1, c => by
    refine curPage_returns.bind ?_
    rintro p _ rfl
    refine Ensures.ite (fun _ => ?_) fun _ => ?_
    · refine modifyCursor_returns.bind ?_
      rintro _ _ rfl
      exact Ensures.pure ⟨rfl, rfl⟩
    · refine modifyCursor_returns.bind ?_
      rintro _ _ rfl
      refine (moveToChild_returns g _).bind fun _ c1 h1 => (kvDescend_returns key biasRight fuel c1).post ?_
      intro _ c2 h2
      exact ⟨h2.1.trans h1.1, h2.2.trans h1.2⟩

/-- A search either finds the cursor where it has to be, or forgets the entry it was on. Without an entry
to go to it leaves the cursor at the root. -/
theorem sqlite3BtreeKvMoveto_returns (key : Key) (biasRight : Bool) {c : BtCursor} (h0 : c.pgnoRoot ≠ 0) :
    Returns Env.cur (sqlite3BtreeKvMoveto g key biasRight) c fun r c' => Flags c c'
      ∧ (r = 0 ∧ c' = c ∧ c.eState = .valid ∧ c.validNKey = true
        ∨ (c'.validOvfl = false ∧ c'.atLast = false) ∧ (c'.eState = .valid
          ∨ c'.path = [((c.path.getLast?.map Prod.fst).getD c.pgnoRoot, 0)])) := by
  refine cursor_returns.bind ?_
  rintro _ _ ⟨rfl, rfl⟩
  refine curPage_returns.bind ?_
  rintro p _ rfl
  refine Ensures.ite (fun h => Ensures.pure ⟨.rfl, Or.inl ⟨rfl, rfl, h.1, h.2.1⟩⟩) fun _ => ?_
  refine (moveToRoot_returns g _).bind ?_
  rintro empty c1 ⟨hf, h1⟩
  obtain ⟨-, hv, hpath, hst⟩ := h1 h0
  cases empty with
  | true => exact Ensures.pure ⟨hf, Or.inr ⟨hv, Or.inr hpath⟩⟩
  | false =>
    refine ((plain_kvDescend g key biasRight _ c1).and (kvDescend_returns g key biasRight _ c1)).mono ?_
      fun _ _ _ => trivial
    rintro _ c2 ⟨h2, h3⟩
    exact ⟨hf.trans h2, Or.inr ⟨⟨h2.validOvfl hv.1, h3.2.trans hv.2⟩, Or.inl (h3.1.trans (hst rfl))⟩⟩

/-! ## Reading and saving -/

theorem plain_getCellInfo : Plain (getCellInfo g) :=
  .bind plain_cursor fun _ => .ite
    (.bind plain_curPage fun _ => plain_modify fun _ => ⟨rfl, rfl, rfl, id⟩) (plain_pure _)

theorem plain_sqlite3BtreeKvKey : Plain (sqlite3BtreeKvKey g) :=
  .bind (plain_getCellInfo g) fun _ => .bind plain_curPage fun _ => .bind plain_cursor fun _ => plain_pure _

theorem plain_saveCursorKey : Plain (saveCursorKey g) :=
  .bind (plain_sqlite3BtreeKvKey g) fun _ => .bind (plain_inBt _) fun _ =>
    plain_modify fun _ => ⟨rfl, rfl, rfl, id⟩

theorem plain_saveCursorPosition : Plain (saveCursorPosition g) := by
  refine .bind (plain_modify fun c => ?_) fun _ => .bind ((plain_saveCursorKey g).onError _) fun _ =>
    plain_modify fun _ => ⟨rfl, rfl, rfl, fun _ => rfl⟩
  split_ifs <;> exact ⟨rfl, rfl, rfl, id⟩

theorem plain_saveCursor : Plain (saveCursor g) := by
  refine .bind plain_cursor fun c => ?_
  split
  · exact plain_saveCursorPosition g
  · exact plain_saveCursorPosition g
  · exact plain_modify fun _ => ⟨rfl, rfl, rfl, id⟩

end Programs

end Btreelite
