import Btreelite.UnixLock
import Mathlib.Data.Set.Card

/-!
# The levels of the handles of one process

What the inode's fields say about the levels its handles are at, with no system call in sight: the
highest level is the inode's, at most one handle is above SHARED, and one that is EXCLUSIVE is alone.
A handle takes the SHARED lock, is promoted, is lowered to SHARED or gives its lock up.
-/

namespace Btreelite

open FileLock

namespace FileLock

theorem noLock_le (l : FileLock) : noLock ≤ l := by cases l <;> decide

theorem le_exclusiveLock (l : FileLock) : l ≤ exclusiveLock := by cases l <;> decide

theorem ne_noLock_iff {l : FileLock} : l ≠ noLock ↔ sharedLock ≤ l := by cases l <;> decide

theorem le_noLock {l : FileLock} : l ≤ noLock ↔ l = noLock := by cases l <;> decide

theorem noLock_lt {l : FileLock} : noLock < l ↔ l ≠ noLock := by cases l <;> decide

theorem le_sharedLock {l : FileLock} : l ≤ sharedLock ↔ l = noLock ∨ l = sharedLock := by
  cases l <;> decide

end FileLock

/-- The handles are at the levels `lv`, the inode at `e`, and `n` of them have a lock. -/
structure Levels {H : Type} (lv : H → FileLock) (e : FileLock) (n : ℕ) : Prop where
  le : ∀ h, lv h ≤ e
  top : ∀ h, sharedLock < lv h → lv h = e
  unique : ∀ g h, sharedLock < lv g → sharedLock < lv h → g = h
  alone : ∀ g h, lv g = exclusiveLock → lv h ≠ noLock → g = h
  card : {h | lv h ≠ noLock}.encard = n
  attained : e ≠ noLock → n ≠ 0 → ∃ h, lv h = e

namespace Levels

variable {H : Type} {lv : H → FileLock} {e e' : FileLock} {n : ℕ} {h : H}

theorem init : Levels (fun _ : H => noLock) noLock 0 where
  le _ := le_rfl
  top _ h := absurd h (by decide)
  unique _ _ h := absurd h (by decide)
  alone _ _ h := absurd h (by decide)
  card := by simp
  attained h := absurd rfl h

theorem eq_noLock (hl : Levels lv e 0) (h : H) : lv h = noLock := by
  by_contra hne
  have hempty : {h | lv h ≠ noLock} = ∅ := Set.encard_eq_zero.1 hl.card
  exact Set.eq_empty_iff_forall_notMem.1 hempty h hne

theorem pos (hl : Levels lv e n) (hh : lv h ≠ noLock) : n ≠ 0 := by
  rintro rfl
  exact hh (hl.eq_noLock h)

/-- The handle at `h` is the only one above SHARED. -/
theorem others_le (hl : Levels lv e n) (hh : sharedLock < lv h) {g : H} (hg : g ≠ h) :
    lv g ≤ sharedLock :=
  not_lt.1 fun hlt => hg (hl.unique g h hlt hh)

/-- With one lock on the inode the other handles have none. -/
theorem others_noLock (hl : Levels lv e n) (hn : n ≤ 1) (hh : lv h ≠ noLock) {g : H}
    (hg : g ≠ h) : lv g = noLock := by
  by_contra hne
  have hle : {h | lv h ≠ noLock}.encard ≤ 1 := by
    rw [hl.card]
    exact_mod_cast hn
  exact hg (Set.encard_le_one_iff.1 hle g h hne hh)

variable [DecidableEq H]

theorem card_insert (hl : Levels lv e n) (hh : lv h = noLock) {l : FileLock} (hne : l ≠ noLock) :
    {g | Function.update lv h l g ≠ noLock}.encard = (n + 1 : ℕ) := by
  have hset : {g | Function.update lv h l g ≠ noLock} = insert h {g | lv g ≠ noLock} := by
    ext g
    by_cases hg : g = h <;> simp [hg, hne]
  rw [hset, Set.encard_insert_of_notMem (by simpa using hh), hl.card]
  rfl

theorem card_same (hl : Levels lv e n) (hh : lv h ≠ noLock) {l : FileLock} (hne : l ≠ noLock) :
    {g | Function.update lv h l g ≠ noLock}.encard = n := by
  have hset : {g | Function.update lv h l g ≠ noLock} = {g | lv g ≠ noLock} := by
    ext g
    by_cases hg : g = h <;> simp [hg, hne, hh]
  rw [hset, hl.card]

theorem card_erase (hl : Levels lv e n) (hh : lv h ≠ noLock) :
    {g | Function.update lv h noLock g ≠ noLock}.encard = (n - 1 : ℕ) := by
  have hset : {g | Function.update lv h noLock g ≠ noLock} = {g | lv g ≠ noLock} \ {h} := by
    ext g
    by_cases hg : g = h <;> simp [hg]
  have hadd := Set.encard_sdiff_singleton_add_one (s := {g | lv g ≠ noLock}) (a := h) hh
  rw [hl.card] at hadd
  rw [hset]
  obtain ⟨m, rfl⟩ : ∃ m, n = m + 1 := ⟨n - 1, (Nat.succ_pred (hl.pos hh)).symm⟩
  simpa using hadd

/-- A handle without a lock takes the SHARED lock. -/
theorem share (hl : Levels lv e n) (e' : FileLock) (hh : lv h = noLock)
    (he : e = noLock ∧ e' = sharedLock ∨
      e' = e ∧ n ≠ 0 ∧ (e = sharedLock ∨ e = reservedLock)) :
    Levels (Function.update lv h sharedLock) e' (n + 1) := by
  have hle : e ≤ e' := by
    rcases he with ⟨rfl, rfl⟩ | ⟨rfl, -⟩
    · exact noLock_le _
    · exact le_rfl
  have hlt : e < pendingLock := by
    rcases he with ⟨rfl, -⟩ | ⟨-, -, rfl | rfl⟩ <;> decide
  have hs : sharedLock ≤ e' := by
    rcases he with ⟨-, rfl⟩ | ⟨rfl, -, rfl | rfl⟩ <;> decide
  have hother : ∀ g, sharedLock < Function.update lv h sharedLock g → g ≠ h ∧ sharedLock < lv g := by
    intro g hg
    by_cases hgh : g = h
    · simp [hgh] at hg
    · exact ⟨hgh, by simpa [hgh] using hg⟩
  refine ⟨?_, ?_, ?_, ?_, hl.card_insert hh (by decide), ?_⟩
  · intro g
    by_cases hg : g = h
    · simpa [hg] using hs
    · simpa [hg] using (hl.le g).trans hle
  · intro g hg
    obtain ⟨hgh, hlv⟩ := hother g hg
    rw [Function.update_of_ne hgh, hl.top g hlv]
    rcases he with ⟨rfl, -⟩ | ⟨rfl, -⟩
    · exact absurd (hlv.trans_le (hl.le g)) (by decide)
    · rfl
  · intro g g' hg hg'
    exact hl.unique g g' (hother g hg).2 (hother g' hg').2
  · intro g g' hg hg'
    have hgh : g ≠ h := fun hgh => by simp [hgh] at hg
    rw [Function.update_of_ne hgh] at hg
    exact absurd ((hg ▸ hl.le g).trans_lt hlt) (by decide)
  · intro _ _
    rcases he with ⟨-, rfl⟩ | ⟨rfl, hn, -⟩
    · exact ⟨h, by simp⟩
    · obtain ⟨g, hg⟩ := hl.attained (fun h0 => by simp [h0] at hs; exact absurd hs (by decide)) hn
      by_cases hgh : g = h
      · exact absurd (hg ▸ hgh ▸ hh) (fun h0 => absurd hs (by rw [h0]; decide))
      · exact ⟨g, by simpa [hgh] using hg⟩

/-- The handle that is at the level of the inode goes up to `e'`. -/
theorem promote (hl : Levels lv e n) (e' : FileLock) (hh : lv h = e) (hs : lv h ≠ noLock) (hlt : e < e')
    (hn : e' = exclusiveLock → n ≤ 1) : Levels (Function.update lv h e') e' n := by
  have hother : ∀ g, g ≠ h → lv g ≤ sharedLock := by
    intro g hg
    by_contra hgt
    rw [not_le] at hgt
    exact hg (hl.unique g h hgt (hh ▸ hl.top g hgt ▸ hgt))
  have hself : ∀ g, sharedLock < Function.update lv h e' g → g = h := by
    intro g hg
    by_contra hgh
    rw [Function.update_of_ne hgh] at hg
    exact absurd hg (not_lt.2 (hother g hgh))
  have hne : e' ≠ noLock := fun h0 => absurd (h0 ▸ hlt) (not_lt.2 (noLock_le e))
  refine ⟨?_, ?_, ?_, ?_, hl.card_same hs hne, fun _ _ => ⟨h, by simp⟩⟩
  · intro g
    by_cases hg : g = h
    · simp [hg]
    · simpa [hg] using (hl.le g).trans hlt.le
  · intro g hg
    simp [hself g hg]
  · intro g g' hg hg'
    rw [hself g hg, hself g' hg']
  · intro g g' hg hg'
    have hgh : g = h := hself g (by rw [hg]; decide)
    subst hgh
    by_contra hne'
    rw [Function.update_self] at hg
    rw [Function.update_of_ne (Ne.symm hne')] at hg'
    exact hg' (hl.others_noLock (hn hg) hs (Ne.symm hne'))

/-- The handle above SHARED goes down to it. -/
theorem lower (hl : Levels lv e n) (hh : sharedLock < lv h) :
    Levels (Function.update lv h sharedLock) sharedLock n := by
  have hs : lv h ≠ noLock := fun h0 => absurd (h0 ▸ hh) (by decide)
  have hle : ∀ g, Function.update lv h sharedLock g ≤ sharedLock := by
    intro g
    by_cases hg : g = h
    · simp [hg]
    · simpa [hg] using hl.others_le hh hg
  refine ⟨hle, ?_, ?_, ?_, hl.card_same hs (by decide), fun _ _ => ⟨h, by simp⟩⟩
  · intro g hg
    exact absurd hg (not_lt.2 (hle g))
  · intro g _ hg
    exact absurd hg (not_lt.2 (hle g))
  · intro g _ hg
    exact absurd (hg ▸ hle g) (by decide)

/-- A handle gives its lock up, and with a lock above SHARED the inode goes down to that. -/
theorem drop (hl : Levels lv e n) (hh : lv h ≠ noLock) :
    Levels (Function.update lv h noLock) (if sharedLock < lv h then sharedLock else e) (n - 1) := by
  have hother : ∀ g, Function.update lv h noLock g ≠ noLock →
      g ≠ h ∧ Function.update lv h noLock g = lv g := by
    intro g hg
    have hgh : g ≠ h := by
      rintro rfl
      simp at hg
    exact ⟨hgh, Function.update_of_ne hgh ..⟩
  have habove : ∀ g, sharedLock < Function.update lv h noLock g →
      g ≠ h ∧ Function.update lv h noLock g = lv g := fun g hg =>
    hother g fun h0 => absurd (h0 ▸ hg) (by decide)
  refine ⟨?_, ?_, ?_, ?_, hl.card_erase hh, ?_⟩
  · intro g
    by_cases hg : g = h
    · simpa [hg] using noLock_le _
    · rw [Function.update_of_ne hg]
      split
      · exact hl.others_le ‹_› hg
      · exact hl.le g
  · intro g hg
    obtain ⟨hgh, heq⟩ := habove g hg
    rw [heq] at hg ⊢
    rw [if_neg fun hlt => hgh (hl.unique g h hg hlt)]
    exact hl.top g hg
  · intro g g' hg hg'
    obtain ⟨-, heq⟩ := habove g hg
    obtain ⟨-, heq'⟩ := habove g' hg'
    exact hl.unique g g' (heq ▸ hg) (heq' ▸ hg')
  · intro g g' hg hg'
    obtain ⟨-, heq⟩ := hother g (by rw [hg]; decide)
    obtain ⟨-, heq'⟩ := hother g' hg'
    exact hl.alone g g' (heq ▸ hg) (heq' ▸ hg')
  · intro _ hn
    -- the lock that is left belongs to a sibling, which is at the level of the inode
    have hcard := hl.card_erase hh
    obtain ⟨g, hg⟩ : {g | Function.update lv h noLock g ≠ noLock}.Nonempty := by
      rw [Set.nonempty_iff_ne_empty]
      intro hempty
      rw [hempty, Set.encard_empty] at hcard
      exact hn (by exact_mod_cast hcard.symm)
    obtain ⟨hgh, heq⟩ := hother g hg
    have hgs : sharedLock ≤ lv g := ne_noLock_iff.1 (heq ▸ hg)
    split
    · exact ⟨g, heq.trans (le_antisymm (hl.others_le ‹_› hgh) hgs)⟩
    · rename_i hle
      by_cases he : e = sharedLock
      · exact ⟨g, heq.trans (le_antisymm (he ▸ hl.le g) hgs |>.trans he.symm)⟩
      · obtain ⟨g', hg'⟩ := hl.attained
          (fun h0 => absurd (hgs.trans (h0 ▸ hl.le g)) (by decide)) (by omega)
        have hne : g' ≠ h := by
          rintro rfl
          rw [hg', not_lt] at hle
          exact he (le_antisymm hle (hgs.trans (hl.le g)))
        exact ⟨g', by rw [Function.update_of_ne hne, hg']⟩

omit [DecidableEq H] in
/-- With no lock left the inode may be at any level. -/
theorem none (hl : Levels lv e 0) : Levels lv e' 0 where
  le h := hl.eq_noLock h ▸ noLock_le _
  top h hh := absurd (hl.eq_noLock h ▸ hh) (by decide)
  unique g _ hg := absurd (hl.eq_noLock g ▸ hg) (by decide)
  alone g _ hg := absurd (hl.eq_noLock g ▸ hg) (by decide)
  card := hl.card
  attained _ h := absurd rfl h

end Levels

end Btreelite
