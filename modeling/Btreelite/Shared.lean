import Btreelite.Prog
import Btreelite.Cell

/-!
# Pages and the shared B-tree state

What a page holds, the part of `BtShared` the B-tree functions read, and how they reach pages.
Every call that can fail for a reason outside the program takes one decision from `io`.
-/

namespace Btreelite

open Prog

inductive Rc
  | error
  | toobig
  | notfound
  | done
  | empty
  | corrupt
  | readonly
  | abort
  | nomem
  | ioerr
  | full
  | cantopen
  | busy
  | busySnapshot
deriving DecidableEq, Repr

/-- The failures the environment can cause. -/
def Rc.isFault : Rc → Bool
  | .nomem | .ioerr | .full => true
  | _ => false

/-- What the environment decides at a call that it can make fail. -/
inductive Fault
  | ioerr
  | nomem
  | full
deriving DecidableEq, Repr

def Fault.rc : Fault → Rc
  | .ioerr => .ioerr
  | .nomem => .nomem
  | .full => .full

@[simp] theorem Fault.rc_isFault (f : Fault) : f.rc.isFault = true := by cases f <;> rfl

abbrev Cell := List UInt8

/-- A B-tree page: its cells in cell-pointer order, the right child of an interior page, and the
cells `insertCell` could not place (`aiOvfl`, `apOvfl`). -/
structure MemPage where
  leaf : Bool
  cells : List Cell
  right : Nat
  ovfl : List (Nat × Cell)
deriving DecidableEq, Inhabited, Repr

/-- The fields of page 1 the B-tree layer reads: the size of the database at offset 28, the
first freelist trunk at 32 and the number of free pages at 36. -/
structure Page1 where
  nPage : Nat
  trunk : Nat
  nFree : Nat
deriving DecidableEq, Inhabited, Repr

inductive PageData
  | page1 (h : Page1)
  | node (p : MemPage)
  | ovfl (next : Nat) (data : List UInt8)
  | trunk (next : Nat) (leaves : List Nat)
  | raw
deriving DecidableEq, Repr

instance : Inhabited PageData := ⟨.raw⟩

structure BtShared where
  pager : Pager PageData
  nPage : Nat
  /-- `pHasContent`: the size of the bit vector and the bits set in it. -/
  pHasContent : Option (Nat × List Nat)
  io : List (Option Fault)

abbrev BtM := EStateM Rc BtShared

/-- What the B-tree functions see of the state: the pages and the size of the database. -/
@[ext] structure Db where
  page : Nat → PageData
  nPage : Nat

def BtShared.db (s : BtShared) : Db := ⟨s.pager.image, s.nPage⟩

/-- `PENDING_BYTE_PAGE`. -/
def pendingBytePage (g : Geometry) : Nat := 0x40000000 / g.pageSize + 1

/-- `SQLITE_MAX_PAGE_COUNT`. -/
def mxPgno : Nat := 0xfffffffe

/-! ## Reaching pages -/

section Access

variable (g : Geometry)

/-- A call the environment can make fail. -/
def tick : BtM Unit := fun s =>
  match s.io with
  | [] => .ok () s
  | none :: io => .ok () { s with io }
  | some f :: io => .error f.rc { s with io }

/-- `sqlite3PagerWrite`. -/
def sqlite3PagerWrite (pgno : Nat) : BtM Unit := do
  tick
  modify fun s => { s with pager := s.pager.write pgno }

/-- A change of the bytes of a page. -/
def setPage (pgno : Nat) (d : PageData) : BtM Unit :=
  modify fun s => { s with pager := s.pager.setImage pgno d }

/-- The bytes of a page that is at hand. -/
def pageData (pgno : Nat) : BtM PageData := do
  return (← get).pager.image pgno

def btreePagecount : BtM Nat := do
  return (← get).nPage

/-- A change of `pBt->nPage`. -/
def setNPage (n : Nat) : BtM Unit :=
  modify fun s => { s with nPage := n }

def getPage1 : BtM Page1 := do
  match ← pageData 1 with
  | .page1 h => return h
  | _ => return default

def setPage1 (h : Page1) : BtM Unit := setPage 1 (.page1 h)

/-- `btreeGetPage` without flags. -/
def btreeGetPage (pgno : Nat) : BtM PageData := do
  if pgno = 0 ∨ pgno = pendingBytePage g then throw .corrupt
  else
    tick
    let s ← get
    if s.pager.dbSize < pgno ∧ mxPgno < pgno then throw .full
    else pageData pgno

/-- `btreeGetUnusedPage`; with `PAGER_GET_NOCONTENT`, the page comes back zeroed. -/
def btreeGetUnusedPage (pgno : Nat) (noContent : Bool) : BtM PageData := do
  if noContent then
    if pgno = 0 ∨ pgno = pendingBytePage g then throw .corrupt
    else
      tick
      if mxPgno < pgno then throw .full
      else
        modify fun s => { s with pager := s.pager.getNoContent pgno }
        return .raw
  else btreeGetPage g pgno

/-- `getAndInitPage`. -/
def getAndInitPage (pgno : Nat) : BtM MemPage := do
  if pgno > (← btreePagecount) then throw .corrupt
  else
    match ← btreeGetPage g pgno with
    | .node p => return p
    | _ => throw .corrupt

def sqlite3PagerDontWrite (pgno : Nat) : BtM Unit :=
  modify fun s => { s with pager := s.pager.dontWrite pgno }

def btreeSetHasContent (pgno : Nat) : BtM Unit := do
  tick
  modify fun s =>
    let (size, bits) := s.pHasContent.getD (s.nPage, [])
    { s with pHasContent := some (size, if pgno ≤ size then pgno :: bits else bits) }

def btreeGetHasContent (pgno : Nat) : BtM Bool := do
  match (← get).pHasContent with
  | none => return false
  | some (size, bits) => return decide (pgno > size ∨ pgno ∈ bits)

end Access

/-! ## What the primitives do to the database -/

namespace Db

def set (d : Db) (pgno : Nat) (x : PageData) : Db := { d with page := Function.update d.page pgno x }

def page1 (d : Db) : Page1 :=
  match d.page 1 with
  | .page1 h => h
  | _ => default

variable (d : Db) (pgno q : Nat) (x y : PageData)

@[simp] theorem set_page_self : (d.set pgno x).page pgno = x := Function.update_self ..

theorem set_page_of_ne {q : Nat} (h : q ≠ pgno) : (d.set pgno x).page q = d.page q :=
  Function.update_of_ne h ..

@[simp] theorem set_nPage : (d.set pgno x).nPage = d.nPage := rfl

variable {d pgno x} in
theorem set_eq_self (h : d.page pgno = x) : d.set pgno x = d := by
  rw [set, ← h, Function.update_eq_self]

@[simp] theorem set_set : (d.set pgno x).set pgno y = d.set pgno y := by
  simp [set]

end Db

/-- A specification of a B-tree function by what it does to the database. -/
abbrev Does {α : Type} (m : BtM α) (d : Db) (Q : α → Db → Prop) (E : Rc → Db → Prop) : Prop :=
  Ensures BtShared.db m d Q E

section Rules

variable {g : Geometry} {d : Db} {E : Rc → Db → Prop}

theorem tick_does (hE : ∀ e, e.isFault = true → E e d) :
    Does tick d (fun _ d' => d = d') E := by
  rintro s rfl
  unfold wp tick
  cases s.io with
  | nil => rfl
  | cons x io =>
    cases x with
    | none => rfl
    | some f => exact hE _ f.rc_isFault

theorem modify_does {f : BtShared → BtShared} {Q : Unit → Db → Prop}
    (h : ∀ s, s.db = d → Q () (f s).db) : Does (modify f) d Q E :=
  fun s hs => h s hs

theorem setPage_does (pgno : Nat) (x : PageData) :
    Does (setPage pgno x) d (fun _ d' => d' = d.set pgno x) E := by
  refine modify_does ?_
  rintro s rfl
  rfl

theorem setPage1_does (h : Page1) :
    Does (setPage1 h) d (fun _ d' => d' = d.set 1 (.page1 h)) E := setPage_does _ _

theorem setNPage_does (n : Nat) : Does (setNPage n) d (fun _ d' => d' = { d with nPage := n }) E := by
  refine modify_does ?_
  rintro s rfl
  rfl

theorem pageData_does (pgno : Nat) :
    Does (pageData pgno) d (fun x d' => d = d' ∧ x = d.page pgno) E := by
  refine Ensures.get.bind fun s d' h => Ensures.pure ⟨h.1, ?_⟩
  rw [← h.2]
  rfl

theorem btreePagecount_does : Does btreePagecount d (fun n d' => d = d' ∧ n = d.nPage) E := by
  refine Ensures.get.bind fun s d' h => Ensures.pure ⟨h.1, ?_⟩
  rw [← h.2]
  rfl

theorem getPage1_does : Does getPage1 d (fun h d' => d = d' ∧ h = d.page1) E := by
  refine (pageData_does 1).bind ?_
  rintro _ _ ⟨rfl, rfl⟩
  unfold Db.page1
  split <;> exact Ensures.pure ⟨rfl, rfl⟩

theorem sqlite3PagerWrite_does (pgno : Nat) (hE : ∀ e, e.isFault = true → E e d) :
    Does (sqlite3PagerWrite pgno) d (fun _ d' => d = d') E := by
  refine (tick_does hE).bind ?_
  rintro _ _ rfl
  refine modify_does ?_
  rintro s rfl
  simp [BtShared.db]

theorem btreeGetPage_does {pgno : Nat} (h0 : pgno ≠ 0) (hp : pgno ≠ pendingBytePage g)
    (hE : ∀ e, e.isFault = true → E e d) :
    Does (btreeGetPage g pgno) d (fun x d' => d = d' ∧ x = d.page pgno) E := by
  unfold btreeGetPage
  rw [if_neg (by tauto)]
  refine (tick_does hE).bind ?_
  rintro _ _ rfl
  refine Ensures.get.bind ?_
  rintro s _ ⟨rfl, -⟩
  exact Ensures.ite (fun _ => Ensures.throw (hE _ rfl)) fun _ => pageData_does pgno

theorem btreeGetUnusedPage_does {pgno : Nat} {noContent : Bool} (h0 : pgno ≠ 0)
    (hp : pgno ≠ pendingBytePage g) (hE : ∀ e, e.isFault = true → E e d) :
    Does (btreeGetUnusedPage g pgno noContent) d
      (fun x d' => (noContent = false → d = d' ∧ x = d.page pgno)
        ∧ (noContent = true → d' = d.set pgno .raw ∧ pgno ≤ mxPgno)) E := by
  unfold btreeGetUnusedPage
  cases noContent with
  | false =>
    simp only [Bool.false_eq_true, if_false]
    exact (btreeGetPage_does h0 hp hE).post fun x d' h => ⟨fun _ => h, by simp⟩
  | true =>
    simp only [if_true]
    rw [if_neg (by tauto)]
    refine (tick_does hE).bind ?_
    rintro _ _ rfl
    refine Ensures.ite (fun _ => Ensures.throw (hE _ rfl)) fun hmx => ?_
    refine Ensures.bind (R := fun _ d' => d' = d.set pgno .raw) (modify_does ?_) ?_
    · rintro s rfl
      simp [BtShared.db, Db.set, Pager.getNoContent_image]
      rfl
    · rintro _ _ rfl
      exact Ensures.pure ⟨by simp, fun _ => ⟨rfl, Nat.le_of_not_lt hmx⟩⟩

theorem getAndInitPage_does {pgno : Nat} {p : MemPage} (hp : d.page pgno = .node p)
    (hn : pgno ≤ d.nPage) (h0 : pgno ≠ 0) (hpd : pgno ≠ pendingBytePage g)
    (hE : ∀ e, e.isFault = true → E e d) :
    Does (getAndInitPage g pgno) d (fun x d' => d = d' ∧ x = p) E := by
  refine btreePagecount_does.bind ?_
  rintro _ _ ⟨rfl, rfl⟩
  rw [if_neg (Nat.not_lt.2 hn)]
  refine (btreeGetPage_does h0 hpd hE).bind ?_
  rintro _ _ ⟨rfl, rfl⟩
  rw [hp]
  exact Ensures.pure ⟨rfl, rfl⟩

theorem sqlite3PagerDontWrite_does (pgno : Nat) :
    Does (sqlite3PagerDontWrite pgno) d (fun _ d' => d = d' ∨ d' = d.set pgno .raw) E := by
  refine modify_does ?_
  rintro s rfl
  simp only [BtShared.db, Pager.dontWrite]
  split_ifs
  · exact Or.inr rfl
  · exact Or.inl rfl

theorem btreeSetHasContent_does (pgno : Nat) (hE : ∀ e, e.isFault = true → E e d) :
    Does (btreeSetHasContent pgno) d (fun _ d' => d = d') E := by
  refine (tick_does hE).bind ?_
  rintro _ _ rfl
  refine modify_does ?_
  rintro s rfl
  rfl

theorem btreeGetHasContent_does (pgno : Nat) :
    Does (btreeGetHasContent pgno) d (fun _ d' => d = d') E := by
  refine Ensures.get.bind ?_
  rintro s _ ⟨rfl, -⟩
  split <;> exact Ensures.pure rfl

end Rules

end Btreelite
