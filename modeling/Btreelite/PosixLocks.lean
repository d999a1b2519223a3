import Mathlib.Data.Nat.Notation
import Mathlib.Logic.Function.Basic

/-!
# Record locks of processes on one file

A record lock belongs to a process, not to a descriptor: a request sets the type of the lock of the
calling process on a range of bytes, and closing any descriptor of the file drops all of them. A
program is a function from the private state of one process to its next state and its system call;
what the processes share are the locks alone.
-/

namespace Posix

inductive LockType
  | unlck
  | rdlck
  | wrlck
deriving DecidableEq, Repr

/-- A request to the system. A length of zero reaches to the end of the file. -/
structure Flock where
  l_type : LockType
  l_start : ℕ
  l_len : ℕ
deriving DecidableEq, Repr

/-- The bytes a request is about. -/
def Flock.Covers (f : Flock) (b : ℕ) : Prop :=
  f.l_start ≤ b ∧ (f.l_len = 0 ∨ b < f.l_start + f.l_len)

instance Flock.decidableCovers (f : Flock) (b : ℕ) : Decidable (f.Covers b) :=
  inferInstanceAs (Decidable (_ ∧ _))

/-- The locks of one process. -/
abbrev Row := ℕ → LockType

/-- What a step asks of the system. -/
inductive SysCall
  | none
  | fcntl (f : Flock)
  | close
deriving DecidableEq, Repr

/-- The locks of a process behind its own system call. -/
def Row.after (r : Row) : SysCall → Row
  | .none => r
  | .fcntl f => fun b => if f.Covers b then f.l_type else r b
  | .close => fun _ => .unlck

/-- Two processes may not hold these types on one byte. -/
def LockType.Excludes : LockType → LockType → Prop
  | .wrlck, t => t ≠ .unlck
  | .rdlck, t => t = .wrlck
  | .unlck, _ => False

section Table

variable {P : Type} {rows : P → Row} {p q : P} {f : Flock} {b : ℕ}

/-- The system grants the call of `p`: no other process holds a lock that excludes it. -/
def Granted (rows : P → Row) (p : P) : SysCall → Prop
  | .fcntl f => ∀ q ≠ p, ∀ b, f.Covers b → ¬ f.l_type.Excludes (rows q b)
  | _ => True

/-- A byte write-locked by one process is locked by no other. -/
def Coherent (rows : P → Row) : Prop :=
  ∀ p q b, p ≠ q → rows p b = .wrlck → rows q b = .unlck

@[simp] theorem Row.after_none (r : Row) : r.after .none = r := rfl

theorem Row.after_fcntl (r : Row) :
    r.after (.fcntl f) b = if f.Covers b then f.l_type else r b := rfl

theorem Row.after_covers (r : Row) (h : f.Covers b) : r.after (.fcntl f) b = f.l_type :=
  if_pos h

theorem Row.after_not_covers (r : Row) (h : ¬ f.Covers b) : r.after (.fcntl f) b = r b :=
  if_neg h

/-- An unlocking request is always granted. -/
theorem granted_unlck (h : f.l_type = .unlck) : Granted rows p (.fcntl f) := by
  intro q hq b hb
  rw [h]
  exact id

theorem Coherent.update [DecidableEq P] {c : SysCall} (hc : Coherent rows)
    (hg : Granted rows p c) : Coherent (Function.update rows p ((rows p).after c)) := by
  intro x y b hxy hx
  by_cases hxp : x = p
  · subst hxp
    rw [Function.update_self] at hx
    rw [Function.update_of_ne (Ne.symm hxy)]
    cases c with
    | none => exact hc x y b hxy hx
    | close => simp [Row.after] at hx
    | fcntl f =>
      by_cases hb : f.Covers b
      · rw [Row.after_covers _ hb] at hx
        have h := hg y (Ne.symm hxy) b hb
        simpa [hx, LockType.Excludes] using h
      · rw [Row.after_not_covers _ hb] at hx
        exact hc x y b hxy hx
  · rw [Function.update_of_ne hxp] at hx
    by_cases hyp : y = p
    · subst hyp
      rw [Function.update_self]
      cases c with
      | none => exact hc x y b hxy hx
      | close => rfl
      | fcntl f =>
        by_cases hb : f.Covers b
        · have h := hg x hxp b hb
          rw [Row.after_covers _ hb]
          cases ht : f.l_type <;> simp_all [LockType.Excludes]
        · rw [Row.after_not_covers _ hb]
          exact hc x y b hxy hx
    · rw [Function.update_of_ne hyp]
      exact hc x y b hxy hx

end Table

section System

variable {P σ A : Type} [DecidableEq P]

/-- A program over record locks: its state in a fresh process and the step an action takes, with the
system call of the step. A call the system refuses is an action of its own without a call. -/
structure Machine (σ A : Type) where
  init : σ
  step : σ → A → Option (σ × SysCall)

/-- One process: its private state and its locks. -/
structure Process (σ : Type) where
  st : σ
  row : Row

/-- Process `p` takes a step. -/
def Machine.Step (m : Machine σ A) (s : P → Process σ) (p : P) (a : A) (s' : P → Process σ) :
    Prop :=
  ∃ t c, m.step (s p).st a = some (t, c) ∧ Granted (fun q => (s q).row) p c ∧
    s' = Function.update s p ⟨t, (s p).row.after c⟩

/-- The runs from fresh processes whose steps are all regular. -/
inductive Machine.Run (m : Machine σ A) (Regular : σ → A → Prop) : (P → Process σ) → Prop
  | init : Machine.Run m Regular fun _ => ⟨m.init, fun _ => .unlck⟩
  | snoc {s s' : P → Process σ} {p : P} {a : A} (hrun : Machine.Run m Regular s)
      (hreg : Regular (s p).st a) (hstep : m.Step s p a s') : Machine.Run m Regular s'

variable {m : Machine σ A} {Regular : σ → A → Prop} {s s' : P → Process σ}

/-- The processes that take no step keep state and locks. -/
theorem Machine.Step.of_ne {p q : P} {a : A} (h : m.Step s p a s') (hq : q ≠ p) : s' q = s q := by
  obtain ⟨t, c, -, -, rfl⟩ := h
  exact Function.update_of_ne hq _ _

theorem Machine.Step.self {p : P} {a : A} (h : m.Step s p a s') :
    ∃ t c, m.step (s p).st a = some (t, c) ∧ s' p = ⟨t, (s p).row.after c⟩ := by
  obtain ⟨t, c, hstep, -, rfl⟩ := h
  exact ⟨t, c, hstep, Function.update_self ..⟩

theorem Machine.Step.coherent {p : P} {a : A} (h : m.Step s p a s')
    (hc : Coherent fun q => (s q).row) : Coherent fun q => (s' q).row := by
  obtain ⟨t, c, -, hg, rfl⟩ := h
  have hrows : (fun q => (Function.update s p ⟨t, (s p).row.after c⟩ q).row) =
      Function.update (fun q => (s q).row) p ((s p).row.after c) := by
    funext q
    by_cases hq : q = p
    · subst hq
      simp
    · simp [hq]
  rw [hrows]
  exact hc.update hg

theorem Machine.Run.coherent (h : m.Run Regular s) : Coherent fun q => (s q).row := by
  induction h with
  | init => exact fun p q b _ h => nomatch h
  | snoc _ _ hstep ih => exact hstep.coherent ih

theorem Machine.Run.mono {Regular' : σ → A → Prop} (h : m.Run Regular s)
    (hr : ∀ x a, Regular x a → Regular' x a) : m.Run Regular' s := by
  induction h with
  | init => exact .init
  | snoc _ hreg hstep ih => exact ih.snoc (hr _ _ hreg) hstep

/-- What every process keeps in its own steps holds of every process in every run. -/
theorem Machine.Run.invariant {I : Process σ → Prop} (hinit : I ⟨m.init, fun _ => .unlck⟩)
    (hstep : ∀ x a t c, I x → Regular x.st a → m.step x.st a = some (t, c) →
      I ⟨t, x.row.after c⟩) (h : m.Run Regular s) : ∀ p, I (s p) := by
  induction h with
  | init => exact fun _ => hinit
  | @snoc s s' p a _ hreg hst ih =>
    intro q
    by_cases hq : q = p
    · subst hq
      obtain ⟨t, c, hs, hs'⟩ := hst.self
      rw [hs']
      exact hstep _ _ _ _ (ih q) hreg hs
    · rw [hst.of_ne hq]
      exact ih q

/-- The state behind the listed actions, without those the program does not allow. -/
def Machine.exec (m : Machine σ A) (s : P → Process σ) : List (P × A) → P → Process σ
  | [] => s
  | (p, a) :: as =>
    match m.step (s p).st a with
    | some (t, c) => Machine.exec m (Function.update s p ⟨t, (s p).row.after c⟩) as
    | none => Machine.exec m s as

/-- Each of the listed actions is regular, and the system grants its call. -/
def Machine.Executes (m : Machine σ A) (Regular : σ → A → Prop) (s : P → Process σ) :
    List (P × A) → Prop
  | [] => True
  | (p, a) :: as =>
    match m.step (s p).st a with
    | some (t, c) => Regular (s p).st a ∧ Granted (fun q => (s q).row) p c ∧
        Machine.Executes m Regular (Function.update s p ⟨t, (s p).row.after c⟩) as
    | none => False

theorem Machine.Run.exec : ∀ {as : List (P × A)} {s : P → Process σ}, m.Run Regular s →
    m.Executes Regular s as → m.Run Regular (m.exec s as)
  | [], _, h, _ => h
  | (p, a) :: as, s, h, he => by
    unfold Machine.Executes at he
    unfold Machine.exec
    split at he
    · rename_i t c hs
      obtain ⟨hreg, hg, he⟩ := he
      exact (h.snoc hreg ⟨t, c, hs, hg, rfl⟩).exec he
    · exact he.elim

end System

end Posix
