import Mathlib.Tactic.SplitIfs

/-!
# Weakest preconditions for programs with state and errors

A program that fails keeps the state it failed in, so a specification has two postconditions.
-/

namespace Prog

variable {ε σ τ α β : Type}

/-- From `s`, `m` returns a value and a state with `Q`, or an error and a state with `E`. -/
def wp (m : EStateM ε σ α) (Q : α → σ → Prop) (E : ε → σ → Prop) (s : σ) : Prop :=
  match m s with
  | .ok a s' => Q a s'
  | .error e s' => E e s'

variable {Q Q' : α → σ → Prop} {E E' : ε → σ → Prop} {s : σ}

theorem wp.mono {m : EStateM ε σ α} (h : wp m Q E s) (hQ : ∀ a s', Q a s' → Q' a s')
    (hE : ∀ e s', E e s' → E' e s') : wp m Q' E' s := by
  unfold wp at h ⊢
  cases hm : m s with
  | ok a s' => rw [hm] at h; exact hQ a s' h
  | error e s' => rw [hm] at h; exact hE e s' h

theorem wp.post {m : EStateM ε σ α} (h : wp m Q E s) (hQ : ∀ a s', Q a s' → Q' a s') :
    wp m Q' E s :=
  h.mono hQ fun _ _ => id

theorem wp.and {m : EStateM ε σ α} (h : wp m Q E s) (h' : wp m Q' E' s) :
    wp m (fun a s' => Q a s' ∧ Q' a s') (fun e s' => E e s' ∧ E' e s') s := by
  unfold wp at h h' ⊢
  cases hm : m s with
  | ok a s' => rw [hm] at h h'; exact ⟨h, h'⟩
  | error e s' => rw [hm] at h h'; exact ⟨h, h'⟩

theorem wp.all {ι : Type} {m : EStateM ε σ α} {Q : ι → α → σ → Prop} {E : ι → ε → σ → Prop}
    (h : ∀ i, wp m (Q i) (E i) s) : wp m (fun a s' => ∀ i, Q i a s') (fun e s' => ∀ i, E i e s') s := by
  unfold wp at h ⊢
  cases hm : m s with
  | ok a s' => rw [hm] at h; exact h
  | error e s' => rw [hm] at h; exact h

theorem wp.false {m : EStateM ε σ α} (h : wp m (fun _ _ => False) (fun _ _ => False) s) : False := by
  unfold wp at h
  split at h <;> exact h

theorem wp.true {m : EStateM ε σ α} : wp m (fun _ _ => True) (fun _ _ => True) s := by
  unfold wp
  split <;> trivial

@[simp] theorem wp_pure {a : α} : wp (pure a : EStateM ε σ α) Q E s ↔ Q a s := Iff.rfl

@[simp] theorem wp_bind {m : EStateM ε σ β} {f : β → EStateM ε σ α} :
    wp (m >>= f) Q E s ↔ wp m (fun b s' => wp (f b) Q E s') E s := by
  simp only [wp, bind, EStateM.bind]
  cases m s <;> rfl

@[simp] theorem wp_map {m : EStateM ε σ β} {f : β → α} :
    wp (f <$> m) Q E s ↔ wp m (fun b s' => Q (f b) s') E s := by
  simp only [wp, Functor.map, EStateM.map]
  cases m s <;> rfl

@[simp] theorem wp_throw {e : ε} : wp (throw e : EStateM ε σ α) Q E s ↔ E e s := Iff.rfl

@[simp] theorem wp_get {Q : σ → σ → Prop} :
    wp (get : EStateM ε σ σ) Q E s ↔ Q s s := Iff.rfl

@[simp] theorem wp_set {Q : PUnit → σ → Prop} {s' : σ} :
    wp (set s' : EStateM ε σ PUnit) Q E s ↔ Q ⟨⟩ s' := Iff.rfl

@[simp] theorem wp_modify {Q : PUnit → σ → Prop} {f : σ → σ} :
    wp (modify f : EStateM ε σ PUnit) Q E s ↔ Q ⟨⟩ (f s) := Iff.rfl

theorem wp_ite {c : Prop} [Decidable c] {m m' : EStateM ε σ α} :
    wp (if c then m else m') Q E s ↔ (c → wp m Q E s) ∧ (¬ c → wp m' Q E s) := by
  split_ifs with h <;> simp [h]

/-- A run that returned satisfies the postcondition. -/
theorem wp.of_ok {m : EStateM ε σ α} (h : wp m Q E s) {a : α} {s' : σ} (hm : m s = .ok a s') :
    Q a s' := by
  simpa only [wp, hm] using h

theorem wp.of_error {m : EStateM ε σ α} (h : wp m Q E s) {e : ε} {s' : σ}
    (hm : m s = .error e s') : E e s' := by
  simpa only [wp, hm] using h

/-! ## Specifications over a view of the state

`Ensures view m v Q E` says what `m` does to the part `view` of the state, whatever the rest of
the state is. Sequencing takes the specification of the first program as its midcondition. -/

section Ensures

variable {V W : Type} {view : σ → V} {v : V}

def Ensures (view : σ → V) (m : EStateM ε σ α) (v : V) (Q : α → V → Prop) (E : ε → V → Prop) :
    Prop :=
  ∀ s, view s = v → wp m (fun a s' => Q a (view s')) (fun e s' => E e (view s')) s

variable {Q Q' : α → V → Prop} {E E' : ε → V → Prop}

theorem Ensures.pure {a : α} (h : Q a v) : Ensures view (pure a) v Q E := by
  rintro s rfl
  exact h

theorem Ensures.throw {e : ε} (h : E e v) : Ensures view (throw e : EStateM ε σ α) v Q E := by
  rintro s rfl
  exact h

theorem Ensures.bind {m : EStateM ε σ β} {f : β → EStateM ε σ α} {R : β → V → Prop}
    (h : Ensures view m v R E) (hf : ∀ b v', R b v' → Ensures view (f b) v' Q E) :
    Ensures view (m >>= f) v Q E := fun s hs =>
  wp_bind.2 <| (h s hs).post fun b s' hR => hf b (view s') hR s' rfl

theorem Ensures.map {m : EStateM ε σ β} {f : β → α}
    (h : Ensures view m v (fun b v' => Q (f b) v') E) : Ensures view (f <$> m) v Q E := fun s hs =>
  wp_map.2 (h s hs)

theorem Ensures.mono {m : EStateM ε σ α} (h : Ensures view m v Q E)
    (hQ : ∀ a v', Q a v' → Q' a v') (hE : ∀ e v', E e v' → E' e v') : Ensures view m v Q' E' :=
  fun s hs => (h s hs).mono (fun a s' => hQ a (view s')) fun e s' => hE e (view s')

theorem Ensures.post {m : EStateM ε σ α} (h : Ensures view m v Q E)
    (hQ : ∀ a v', Q a v' → Q' a v') : Ensures view m v Q' E :=
  h.mono hQ fun _ _ => id

theorem Ensures.and {m : EStateM ε σ α} (h : Ensures view m v Q E) (h' : Ensures view m v Q' E') :
    Ensures view m v (fun a v' => Q a v' ∧ Q' a v') (fun e v' => E e v' ∧ E' e v') := fun s hs =>
  (h s hs).and (h' s hs)

theorem Ensures.ite {c : Prop} [Decidable c] {m m' : EStateM ε σ α}
    (h : c → Ensures view m v Q E) (h' : ¬ c → Ensures view m' v Q E) :
    Ensures view (if c then m else m') v Q E := by
  split_ifs with hc
  · exact h hc
  · exact h' hc

theorem Ensures.get : Ensures view (MonadState.get : EStateM ε σ σ) v (fun s v' => v = v' ∧ view s = v) E :=
  fun _ hs => ⟨hs.symm, hs⟩

theorem Ensures.of_ok {m : EStateM ε σ α} {s s' : σ} {a : α} (h : Ensures view m (view s) Q E)
    (hm : m s = .ok a s') : Q a (view s') :=
  (h s rfl).of_ok hm

theorem Ensures.of_error {m : EStateM ε σ α} {s s' : σ} {e : ε} (h : Ensures view m (view s) Q E)
    (hm : m s = .error e s') : E e (view s') :=
  (h s rfl).of_error hm

end Ensures

/-! ## Cleaning up after an error -/

section OnError

/-- Runs `h` when `m` fails, and fails with the error of `m`. -/
def onError (m : EStateM ε σ α) (h : EStateM ε σ Unit) : EStateM ε σ α := fun s =>
  match m s with
  | .ok a s => .ok a s
  | .error e s =>
    match h s with
    | .ok _ s => .error e s
    | .error _ s => .error e s

theorem wp_onError {m : EStateM ε σ α} {h : EStateM ε σ Unit} {Q : α → σ → Prop} {E : ε → σ → Prop}
    {s : σ} : wp (onError m h) Q E s
      ↔ wp m Q (fun e s' => wp h (fun _ s'' => E e s'') (fun _ s'' => E e s'') s') s := by
  simp only [wp, onError]
  cases m s with
  | ok a s' => rfl
  | error e s' =>
    simp only []
    cases h s' <;> rfl

/-- Runs `m` and returns its error as a value. -/
def attempt (m : EStateM ε σ α) : EStateM ε σ (Except ε α) := fun s =>
  match m s with
  | .ok a s => .ok (.ok a) s
  | .error e s => .ok (.error e) s

theorem wp_attempt {m : EStateM ε σ α} {Q : Except ε α → σ → Prop} {E : ε → σ → Prop} {s : σ} :
    wp (attempt m) Q E s ↔ wp m (fun a s' => Q (.ok a) s') (fun e s' => Q (.error e) s') s := by
  simp only [wp, attempt]
  cases m s <;> rfl

variable {V : Type} {view : σ → V} {v : V} {Q : α → V → Prop}

/-- What holds of the runs of `m` that return. -/
abbrev Returns (view : σ → V) (m : EStateM ε σ α) (v : V) (Q : α → V → Prop) : Prop :=
  Ensures view m v Q fun _ _ => True

theorem Ensures.returns {m : EStateM ε σ α} {E : ε → V → Prop} (h : Ensures view m v Q E) :
    Returns view m v Q :=
  h.mono (fun _ _ => id) fun _ _ _ => trivial

theorem Returns.onError {m : EStateM ε σ α} {h : EStateM ε σ Unit} (hm : Returns view m v Q) :
    Returns view (onError m h) v Q := by
  intro s hs
  have hw := hm s hs
  unfold wp at hw ⊢
  unfold Prog.onError
  cases hr : m s with
  | ok a s' =>
    rw [hr] at hw
    exact hw
  | error e s' =>
    simp only []
    cases h s' <;> exact trivial

end OnError

/-! ## A program on part of a larger state -/

section Zoom

/-- Runs `m` on the part of the state that `get` reads and `put` replaces. -/
def zoom (get : τ → σ) (put : τ → σ → τ) (m : EStateM ε σ α) : EStateM ε τ α := fun t =>
  match m (get t) with
  | .ok a s => .ok a (put t s)
  | .error e s => .error e (put t s)

theorem wp_zoom {get : τ → σ} {put : τ → σ → τ} {m : EStateM ε σ α} {Q : α → τ → Prop}
    {E : ε → τ → Prop} {t : τ} :
    wp (zoom get put m) Q E t
      ↔ wp m (fun a s => Q a (put t s)) (fun e s => E e (put t s)) (get t) := by
  simp only [wp, zoom]
  cases m (get t) <;> rfl

end Zoom

end Prog
