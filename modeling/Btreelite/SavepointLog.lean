import Btreelite.PagerWriteAhead

/-!
# Savepoints come back

What a savepoint was opened on can be told from its part of the journals and from what reads return now:
the first record of a page there says what it was, and a page without one is as it was. A release may cut
the sub-journal off only where the savepoints before it have their records of the pages.
-/

namespace Btreelite.FilePager

open Function UndoLog

variable {k : Settings} {W V G : Set ℕ} {x p q n N : ℕ} {s s' s₀ : FilePager} {c : CachePage}
  {f f' : ℕ → PageImage} {P : ℕ → Prop} {b b' : Books}

/-- The same page, but for the counter of page 1. -/
def Same (q : ℕ) (a a' : PageImage) : Prop := ∀ j, q ≠ 1 ∨ ¬ PageImage.Counter j → a j = a' j

/-- What a savepoint was opened on. The content of some pages is not needed. -/
structure Image where
  size : ℕ
  content : ℕ → PageImage
  waived : Set ℕ

def Image.waive (V : Set ℕ) (i : Image) : Image := { i with waived := i.waived ∪ V }

/-- The records that a rollback to the savepoint plays back. -/
def Books.log (b : Books) (sp : Savepoint) : List (ℕ × PageImage) :=
  b.jfd.drop sp.iOffset ++ b.sjfd.drop sp.iSubRec

/-- The savepoint can come back, where reads return `f`. -/
structure Remembers (b : Books) (f : ℕ → PageImage) (sp : Savepoint) (i : Image) : Prop where
  size : sp.nOrig = i.size
  image : ∀ q, q ≤ sp.nOrig → q ∉ i.waived → Same q (before (b.log sp) f q) (i.content q)
  marked : ∀ q ∈ sp.inSavepoint, q ≤ sp.nOrig → q ∉ i.waived → q ∈ (b.log sp).map Prod.fst

/-- A savepoint and one opened after it, whose part of the sub-journal the first can do without when it may
be cut off. -/
structure Nested (b : Books) (sp : Savepoint) (i : Image) (sp' : Savepoint) : Prop where
  nOrig : sp.nOrig ≤ sp'.nOrig
  iOffset : sp.iOffset ≤ sp'.iOffset
  iSubRec : sp.iSubRec ≤ sp'.iSubRec
  spare : sp'.bTruncateOnRelease = true → ∀ q ∈ (b.sjfd.drop sp'.iSubRec).map Prod.fst, q ≤ sp.nOrig →
    q ∉ i.waived → q ∈ (b.jfd.drop sp.iOffset ++ (b.sjfd.take sp'.iSubRec).drop sp.iSubRec).map Prod.fst

/-- All open savepoints can come back. -/
structure Keeps (N : ℕ) (b : Books) (f : ℕ → PageImage) (C : List Image) : Prop where
  length : C.length = b.savepoints.length
  remembers : ∀ y ∈ b.savepoints.zip C, Remembers b f y.1 y.2
  nested : (b.savepoints.zip C).Pairwise fun y z => Nested b y.1 y.2 z.1
  within : ∀ sp ∈ b.savepoints, sp.iOffset ≤ b.jfd.length ∧ sp.iSubRec ≤ b.sjfd.length
  subIn : ∀ q ∈ b.sjfd.map Prod.fst, q ∈ b.pInJournal ∨ N < q

variable {C : List Image} {sp sp' : Savepoint} {i : Image}

theorem Same.trans {a₁ a₂ a₃ : PageImage} (h : Same q a₁ a₂) (h' : Same q a₂ a₃) : Same q a₁ a₃ :=
  fun j hj => (h j hj).trans (h' j hj)

theorem Same.symm {a₁ a₂ : PageImage} (h : Same q a₁ a₂) : Same q a₂ a₁ := fun j hj => (h j hj).symm

/-! ## Logging a page -/

/-- A savepoint as a new record leaves it: a page more is marked, and its part of the sub-journal may no
longer be cut off. -/
structure Relogged (p : ℕ) (sp sp' : Savepoint) : Prop where
  nOrig : sp'.nOrig = sp.nOrig
  iOffset : sp'.iOffset = sp.iOffset
  iSubRec : sp'.iSubRec = sp.iSubRec
  marked : ∀ q ∈ sp'.inSavepoint, q ∈ sp.inSavepoint ∨ q = p
  truncate : sp'.bTruncateOnRelease = true → sp.bTruncateOnRelease = true

theorem Relogged.mark (p : ℕ) (sp : Savepoint) : Relogged p sp (markPage p sp) := by
  obtain ⟨l, he, hl⟩ := markPage_eq p sp
  rw [he]
  exact ⟨rfl, rfl, rfl, hl, id⟩

theorem Relogged.clear (p : ℕ) (sp : Savepoint) :
    Relogged p sp (markPage p { sp with bTruncateOnRelease := false }) := by
  obtain ⟨l, he, hl⟩ := markPage_eq p { sp with bTruncateOnRelease := false }
  rw [he]
  exact ⟨rfl, rfl, rfl, hl, fun h => by cases h⟩

theorem Remembers.main (h : Remembers b f sp i) (hmain : sp.iOffset ≤ b.jfd.length)
    (hsub : p ∉ b.sjfd.map Prod.fst) (hr : Relogged p sp sp') {J : List ℕ} {l : List Savepoint} :
    Remembers ⟨b.jfd ++ [(p, f p)], J, l, b.sjfd⟩ f sp' i := by
  have hlog : (⟨b.jfd ++ [(p, f p)], J, l, b.sjfd⟩ : Books).log sp' =
      b.jfd.drop sp.iOffset ++ [(p, f p)] ++ b.sjfd.drop sp.iSubRec := by
    rw [Books.log, hr.iOffset, hr.iSubRec, List.drop_append_of_le_length hmain]
  refine ⟨hr.nOrig.trans h.size, fun q hq hw => ?_, fun q hq hle hw => ?_⟩ <;> rw [hlog]
  · rw [before_insert fun hp => hsub (((List.drop_sublist _ _).map _).subset hp)]
    exact h.image q (hr.nOrig ▸ hq) hw
  · rcases hr.marked q hq with hq | rfl
    · have := h.marked q hq (hr.nOrig ▸ hle) hw
      simp only [Books.log, List.map_append, List.mem_append] at this ⊢
      exact this.imp_left .inl
    · simp

theorem Nested.main {t t' : Savepoint} (h : Nested b sp i t) (hmain : sp.iOffset ≤ b.jfd.length)
    (hr : Relogged p sp sp') (ht : Relogged p t t') {J : List ℕ} {l : List Savepoint} :
    Nested ⟨b.jfd ++ [(p, f p)], J, l, b.sjfd⟩ sp' i t' := by
  refine ⟨?_, ?_, ?_, fun htr q hq hle hw => ?_⟩
  · rw [hr.nOrig, ht.nOrig]
    exact h.nOrig
  · rw [hr.iOffset, ht.iOffset]
    exact h.iOffset
  · rw [hr.iSubRec, ht.iSubRec]
    exact h.iSubRec
  · rw [hr.iOffset, hr.iSubRec, ht.iSubRec, List.drop_append_of_le_length hmain]
    have := h.spare (ht.truncate htr) q (by rwa [ht.iSubRec] at hq) (hr.nOrig ▸ hle) hw
    simp only [List.map_append, List.mem_append] at this ⊢
    exact this.imp_left .inl

/-- The main journal has no record of the page, and the sub-journal none either. -/
theorem Keeps.main (h : Keeps N b f C) (hj : p ∉ b.pInJournal) (hle : p ≤ N) :
    Keeps N ⟨b.jfd ++ [(p, f p)], p :: b.pInJournal, addBits p b.savepoints, b.sjfd⟩ f C := by
  have hsub : p ∉ b.sjfd.map Prod.fst := fun hp => (h.subIn p hp).elim hj (Nat.not_lt.2 hle)
  have hmain : ∀ y ∈ b.savepoints.zip C, y.1.iOffset ≤ b.jfd.length := fun y hy =>
    (h.within y.1 (List.of_mem_zip hy).1).1
  constructor
  · exact h.length.trans (List.length_map _).symm
  · rw [addBits, List.zip_map_left]
    intro y hy
    obtain ⟨z, hz, rfl⟩ := List.mem_map.1 hy
    exact (h.remembers z hz).main (hmain z hz) hsub (.mark p z.1)
  · rw [addBits, List.zip_map_left, List.pairwise_map]
    exact h.nested.imp_of_mem fun {y z} hy _ hn => hn.main (hmain y hy) (.mark p y.1) (.mark p z.1)
  · intro t ht
    obtain ⟨u, hu, rfl⟩ := List.mem_map.1 ht
    have hr := Relogged.mark p u
    rw [hr.iOffset, hr.iSubRec, List.length_append]
    exact ⟨(h.within u hu).1.trans (Nat.le_add_right _ _), (h.within u hu).2⟩
  · exact fun q hq => (h.subIn q hq).imp_left (List.mem_cons_of_mem _)

/-- The savepoints before the first that lacks the page have it, and those after it may not be cut off. -/
theorem subjRequiresPage_split : ∀ {l l' : List Savepoint}, Pager.subjRequiresPage p l = some l' →
    ∃ l₁ sp l₂, l = l₁ ++ sp :: l₂ ∧ (∀ t ∈ l₁, p ≤ t.nOrig → p ∈ t.inSavepoint) ∧
      l' = l₁ ++ sp :: l₂.map fun t => { t with bTruncateOnRelease := false }
  | [], l', h => by simp [Pager.subjRequiresPage] at h
  | sp :: l, l', h => by
    simp only [Pager.subjRequiresPage] at h
    split_ifs at h with hsp
    · exact ⟨[], sp, l, rfl, by simp, (Option.some.inj h).symm⟩
    · obtain ⟨l₁, h₁, rfl⟩ := Option.map_eq_some_iff.1 h
      obtain ⟨l₂, sp₂, l₃, rfl, hl, rfl⟩ := subjRequiresPage_split h₁
      refine ⟨sp :: l₂, sp₂, l₃, rfl, fun t ht hle => ?_, rfl⟩
      rcases List.mem_cons.1 ht with rfl | ht
      · exact Classical.by_contradiction fun hn => hsp ⟨hle, hn⟩
      · exact hl t ht hle

/-- A page that no savepoint lacks is marked in all that have it. -/
theorem subjRequiresPage_none : ∀ {l : List Savepoint}, Pager.subjRequiresPage p l = none →
    ∀ t ∈ l, p ≤ t.nOrig → p ∈ t.inSavepoint
  | sp :: l, h, t, ht, hle => by
    simp only [Pager.subjRequiresPage] at h
    split_ifs at h with hsp
    rcases List.mem_cons.1 ht with rfl | ht
    · exact Classical.by_contradiction fun hn => hsp ⟨hle, hn⟩
    · exact subjRequiresPage_none (Option.map_eq_none_iff.1 h) t ht hle

theorem Remembers.sub (h : Remembers b f sp i) (hsub : sp.iSubRec ≤ b.sjfd.length) (hr : Relogged p sp sp')
    {l : List Savepoint} :
    Remembers ⟨b.jfd, b.pInJournal, l, b.sjfd ++ [(p, f p)]⟩ f sp' i := by
  have hlog : (⟨b.jfd, b.pInJournal, l, b.sjfd ++ [(p, f p)]⟩ : Books).log sp' = b.log sp ++ [(p, f p)] := by
    rw [Books.log, Books.log, hr.iOffset, hr.iSubRec, List.drop_append_of_le_length hsub, List.append_assoc]
  refine ⟨hr.nOrig.trans h.size, fun q hq hw => ?_, fun q hq hle hw => ?_⟩ <;> rw [hlog]
  · rw [before_concat]
    exact h.image q (hr.nOrig ▸ hq) hw
  · rw [List.map_append, List.mem_append]
    rcases hr.marked q hq with hq | rfl
    · exact .inl (h.marked q hq (hr.nOrig ▸ hle) hw)
    · exact .inr (by simp)

theorem Nested.sub {t t' : Savepoint} (h : Nested b sp i t) (hR : Remembers b f sp i)
    (hsub : t.iSubRec ≤ b.sjfd.length) (hr : Relogged p sp sp') (ht : Relogged p t t')
    (hp : t'.bTruncateOnRelease = true → p ≤ sp.nOrig → p ∈ sp.inSavepoint) {l : List Savepoint} :
    Nested ⟨b.jfd, b.pInJournal, l, b.sjfd ++ [(p, f p)]⟩ sp' i t' := by
  refine ⟨?_, ?_, ?_, fun htr q hq hle hw => ?_⟩
  · rw [hr.nOrig, ht.nOrig]
    exact h.nOrig
  · rw [hr.iOffset, ht.iOffset]
    exact h.iOffset
  · rw [hr.iSubRec, ht.iSubRec]
    exact h.iSubRec
  · have hold := h.spare (ht.truncate htr) q
    simp only [hr.nOrig, hr.iOffset, hr.iSubRec, ht.iSubRec, List.take_append_of_le_length hsub,
      List.drop_append_of_le_length hsub, List.map_append, List.mem_append] at hq hle hold ⊢
    rcases hq with hq | hq
    · exact hold hq hle hw
    · have hqp : q = p := by simpa using hq
      subst hqp
      have hm := hR.marked q (hp htr hle) hle hw
      rw [Books.log, List.map_append, List.mem_append] at hm
      rcases hm with hm | hm
      · exact .inl hm
      · -- the record is behind the start of the later savepoint, or before it
        have hsplit : b.sjfd.drop sp.iSubRec =
            (b.sjfd.take t.iSubRec).drop sp.iSubRec ++ b.sjfd.drop t.iSubRec := by
          conv_lhs => rw [← List.take_append_drop t.iSubRec b.sjfd]
          refine List.drop_append_of_le_length ?_
          rw [List.length_take]
          exact le_min h.iSubRec (h.iSubRec.trans hsub)
        rw [hsplit, List.map_append, List.mem_append] at hm
        exact hm.elim .inr fun hm => hold hm hle hw

theorem Keeps.sub (h : Keeps N b f C) (hj : p ∈ b.pInJournal ∨ N < p) {ss : List Savepoint}
    (hss : Pager.subjRequiresPage p b.savepoints = some ss) :
    Keeps N ⟨b.jfd, b.pInJournal, addBits p ss, b.sjfd ++ [(p, f p)]⟩ f C := by
  obtain ⟨l₁, sp, l₂, he, hl, rfl⟩ := subjRequiresPage_split hss
  obtain ⟨hlen, hrem, hnest, hwithin, hin⟩ := h
  rw [he] at hlen hrem hnest hwithin
  obtain ⟨C₁, C', rfl, hC₁⟩ : ∃ C₁ C', C = C₁ ++ C' ∧ C₁.length = l₁.length :=
    ⟨C.take l₁.length, C.drop l₁.length, (List.take_append_drop _ _).symm, by
      rw [List.length_take, hlen, List.length_append]
      exact Nat.min_eq_left (Nat.le_add_right _ _)⟩
  obtain ⟨i, C₂, rfl⟩ : ∃ i C₂, C' = i :: C₂ := by
    cases C' with
    | nil =>
      simp only [List.append_nil, List.length_append, List.length_cons] at hlen
      omega
    | cons i C₂ => exact ⟨i, C₂, rfl⟩
  have hzip : (l₁ ++ sp :: l₂).zip (C₁ ++ i :: C₂) = l₁.zip C₁ ++ (sp, i) :: l₂.zip C₂ := by
    rw [List.zip_append hC₁.symm, List.zip_cons_cons]
  rw [hzip] at hrem hnest
  have hsub : ∀ y ∈ l₁.zip C₁ ++ (sp, i) :: l₂.zip C₂, y.1.iSubRec ≤ b.sjfd.length := fun y hy =>
    (hwithin y.1 (List.of_mem_zip (hzip ▸ hy)).1).2
  have hzip' : (addBits p (l₁ ++ sp :: l₂.map fun t => { t with bTruncateOnRelease := false })).zip (C₁ ++ i :: C₂) =
      (l₁.zip C₁).map (Prod.map (markPage p) id) ++ (markPage p sp, i) :: (l₂.zip C₂).map
        (Prod.map (fun t => markPage p { t with bTruncateOnRelease := false }) id) := by
    rw [addBits, List.map_append, List.map_cons, List.map_map, List.zip_append (by simpa using hC₁.symm),
      List.zip_cons_cons, List.zip_map_left, List.zip_map_left]
    rfl
  refine ⟨?_, fun y hy => ?_, ?_, fun t ht => ?_, fun q hq => ?_⟩
  · simpa [addBits] using hlen
  · rw [hzip'] at hy
    rcases List.mem_append.1 hy with hy | hy
    · obtain ⟨z, hz, rfl⟩ := List.mem_map.1 hy
      have hz' := List.mem_append_left ((sp, i) :: l₂.zip C₂) hz
      exact (hrem z hz').sub (hsub z hz') (.mark p z.1)
    · rcases List.mem_cons.1 hy with rfl | hy
      · exact (hrem (sp, i) (by simp)).sub (hsub (sp, i) (by simp)) (.mark p sp)
      · obtain ⟨z, hz, rfl⟩ := List.mem_map.1 hy
        have hz' : z ∈ l₁.zip C₁ ++ (sp, i) :: l₂.zip C₂ := List.mem_append_right _ (List.mem_cons_of_mem _ hz)
        exact (hrem z hz').sub (hsub z hz') (.clear p z.1)
  · have hall := hrem
    have hclear : ∀ (t : Savepoint), (markPage p { t with bTruncateOnRelease := false }).bTruncateOnRelease ≠ true :=
      fun t ht => by
        obtain ⟨l, he, -⟩ := markPage_eq p { t with bTruncateOnRelease := false }
        rw [he] at ht
        cases ht
    have hfirst : ∀ y ∈ l₁.zip C₁, p ≤ y.1.nOrig → p ∈ y.1.inSavepoint := fun y hy =>
      hl y.1 (List.of_mem_zip hy).1
    rw [hzip']
    rw [List.pairwise_append, List.pairwise_cons] at hnest ⊢
    obtain ⟨h1, ⟨h2, h3⟩, h4⟩ := hnest
    have hm₁ : ∀ {y}, y ∈ l₁.zip C₁ → y ∈ l₁.zip C₁ ++ (sp, i) :: l₂.zip C₂ := List.mem_append_left _
    have hm₂ : ∀ {y}, y ∈ l₂.zip C₂ → y ∈ l₁.zip C₁ ++ (sp, i) :: l₂.zip C₂ := fun hy =>
      List.mem_append_right _ (List.mem_cons_of_mem _ hy)
    have hm : (sp, i) ∈ l₁.zip C₁ ++ (sp, i) :: l₂.zip C₂ := by simp
    refine ⟨List.pairwise_map.2 (h1.imp_of_mem fun {y z} hy hz hn => ?_), ⟨fun z hz => ?_,
      List.pairwise_map.2 (h3.imp_of_mem fun {y z} hy hz hn => ?_)⟩, fun y hy z hz => ?_⟩
    · exact hn.sub (hrem y (hm₁ hy)) (hsub z (hm₁ hz)) (.mark p y.1) (.mark p z.1) fun _ => hfirst y hy
    · obtain ⟨u, hu, rfl⟩ := List.mem_map.1 hz
      exact (h2 u hu).sub (hrem _ hm) (hsub u (hm₂ hu)) (.mark p sp) (.clear p u.1) fun ht => absurd ht (hclear u.1)
    · exact hn.sub (hrem y (hm₂ hy)) (hsub z (hm₂ hz)) (.clear p y.1) (.clear p z.1) fun ht => absurd ht (hclear z.1)
    · obtain ⟨v, hv, rfl⟩ := List.mem_map.1 hy
      rcases List.mem_cons.1 hz with rfl | hz
      · exact (h4 v hv _ List.mem_cons_self).sub (hrem v (hm₁ hv)) (hsub _ hm) (.mark p v.1) (.mark p sp) fun _ =>
          hfirst v hv
      · obtain ⟨u, hu, rfl⟩ := List.mem_map.1 hz
        exact (h4 v hv u (List.mem_cons_of_mem _ hu)).sub (hrem v (hm₁ hv)) (hsub u (hm₂ hu)) (.mark p v.1)
          (.clear p u.1) fun _ => hfirst v hv
  · obtain ⟨u, hu, rfl⟩ := List.mem_map.1 ht
    obtain ⟨v, hv, hr⟩ : ∃ v ∈ l₁ ++ sp :: l₂, Relogged p v (markPage p u) := by
      rcases List.mem_append.1 hu with hu | hu
      · exact ⟨u, List.mem_append_left _ hu, .mark p u⟩
      · rcases List.mem_cons.1 hu with rfl | hu
        · exact ⟨u, by simp, .mark p u⟩
        · obtain ⟨v, hv, rfl⟩ := List.mem_map.1 hu
          exact ⟨v, List.mem_append_right _ (List.mem_cons_of_mem _ hv), .clear p v⟩
    rw [hr.iOffset, hr.iSubRec, List.length_append]
    exact ⟨(hwithin v hv).1, (hwithin v hv).2.trans (Nat.le_add_right _ _)⟩
  · rw [List.map_append, List.mem_append] at hq
    rcases hq with hq | hq
    · exact hin q hq
    · have hqp : q = p := by simpa using hq
      exact hqp ▸ hj

theorem Keeps.logs (h : Keeps N b f C) (hl : Logs N f P b b') : Keeps N b' f C := by
  induction hl with
  | refl => exact h
  | main _ hj hle => exact h.main hj hle
  | sub _ hj hss => exact h.sub hj hss
  | trans _ _ ih ih' => exact ih' (ih h)

/-! ## The other calls -/

/-- Pages that the savepoints have in their parts of the journals may change. -/
theorem Keeps.congr (h : Keeps N b f C) (hf : ∀ y ∈ b.savepoints.zip C, ∀ q, q ≤ y.1.nOrig → q ∉ y.2.waived →
    q ∉ (b.log y.1).map Prod.fst → Same q (f' q) (f q)) : Keeps N b f' C := by
  refine { h with remembers := fun y hy => ?_ }
  have hR := h.remembers y hy
  refine { hR with image := fun q hq hw => ?_ }
  by_cases hm : q ∈ (b.log y.1).map Prod.fst
  · rw [before_congr (g := f) fun hn => absurd hm hn]
    exact hR.image q hq hw
  · refine Same.trans ?_ (hR.image q hq hw)
    simp only [before, first_eq_none.2 hm, Option.getD_none]
    exact hf y hy q hq hw hm

/-- A page that no savepoint lacks may change. -/
theorem Keeps.change (h : Keeps N b f C) (hp : Pager.subjRequiresPage p b.savepoints = none)
    (hf : ∀ q, q ≠ p → ∀ sp ∈ b.savepoints, q ≤ sp.nOrig → Same q (f' q) (f q)) : Keeps N b f' C := by
  refine h.congr fun y hy q hq hw hm => ?_
  have hsp := (List.of_mem_zip hy).1
  refine hf q (fun hqp => ?_) y.1 hsp hq
  have hmark := subjRequiresPage_none hp y.1 hsp (hqp ▸ hq)
  exact hm ((h.remembers y hy).marked q (hqp ▸ hmark) hq hw)

theorem Keeps.take (h : Keeps N b f C) (m : ℕ) :
    Keeps N { b with savepoints := b.savepoints.take m } f (C.take m) := by
  have hzip : (b.savepoints.take m).zip (C.take m) = (b.savepoints.zip C).take m := List.take_zipWith.symm
  refine ⟨?_, fun y hy => ?_, ?_, fun sp hsp => h.within sp (List.mem_of_mem_take hsp), h.subIn⟩
  · simp only [List.length_take, h.length]
  · rw [hzip] at hy
    have hR := h.remembers y (List.mem_of_mem_take hy)
    exact ⟨hR.size, hR.image, hR.marked⟩
  · rw [hzip]
    exact (h.nested.sublist (List.take_sublist _ _)).imp fun hn => ⟨hn.nOrig, hn.iOffset, hn.iSubRec, hn.spare⟩

/-- A savepoint with its image, and those before it. -/
theorem Keeps.split (h : Keeps N b f C) {m : ℕ} {l : List Savepoint} (hm : b.savepoints.drop m = sp :: l) :
    ∃ i C', C[m]? = some i ∧ b.savepoints.zip C = (b.savepoints.zip C).take m ++ (sp, i) :: l.zip C' := by
  obtain ⟨i, C', hC⟩ : ∃ i C', C.drop m = i :: C' := by
    cases hC : C.drop m with
    | nil =>
      have h1 := congrArg List.length hC
      have h2 := congrArg List.length hm
      rw [List.length_drop, h.length, List.length_nil] at h1
      rw [List.length_drop, List.length_cons] at h2
      omega
    | cons i C' => exact ⟨i, C', rfl⟩
  refine ⟨i, C', ?_, ?_⟩
  · have h0 : (C.drop m)[0]? = some i := by rw [hC, List.getElem?_cons_zero]
    rwa [List.getElem?_drop, Nat.add_zero] at h0
  · conv_lhs => rw [← List.take_append_drop m (b.savepoints.zip C)]
    have hdrop : (b.savepoints.zip C).drop m = (b.savepoints.drop m).zip (C.drop m) := List.drop_zipWith
    rw [hdrop, hm, hC, List.zip_cons_cons]

/-- The savepoints before one that may be cut off do without its part of the sub-journal. -/
theorem Keeps.cut (h : Keeps N b f C) {m : ℕ} {l : List Savepoint} (hm : b.savepoints.drop m = sp :: l)
    (ht : sp.bTruncateOnRelease = true) :
    Keeps N { b with savepoints := b.savepoints.take m, sjfd := b.sjfd.take sp.iSubRec } f (C.take m) := by
  have hzip : (b.savepoints.take m).zip (C.take m) = (b.savepoints.zip C).take m := List.take_zipWith.symm
  have hsp : sp ∈ b.savepoints := List.mem_of_mem_drop (hm ▸ List.mem_cons_self)
  obtain ⟨i, C', -, hsplit⟩ := h.split hm
  have hnest := h.nested
  rw [hsplit, List.pairwise_append] at hnest
  obtain ⟨h1, -, h2⟩ := hnest
  have hnested : ∀ y ∈ (b.savepoints.zip C).take m, Nested b y.1 y.2 sp := fun y hy => h2 y hy _ List.mem_cons_self
  have hle := (h.within sp hsp).2
  have hlog : ∀ y ∈ (b.savepoints.zip C).take m, b.log y.1 =
      (b.jfd.drop y.1.iOffset ++ (b.sjfd.take sp.iSubRec).drop y.1.iSubRec) ++ b.sjfd.drop sp.iSubRec :=
    fun y hy => by
      rw [Books.log, List.append_assoc]
      conv_lhs => rw [← List.take_append_drop sp.iSubRec b.sjfd]
      rw [List.drop_append_of_le_length]
      rw [List.length_take]
      exact le_min (hnested y hy).iSubRec ((hnested y hy).iSubRec.trans hle)
  refine ⟨?_, fun y hy => ?_, ?_, fun t ht => ?_, fun q hq => ?_⟩
  · simp only [List.length_take, h.length]
  · rw [hzip] at hy
    have hR := h.remembers y (List.mem_of_mem_take hy)
    have hn := hnested y hy
    refine ⟨hR.size, fun q hq hw => ?_, fun q hq hqn hw => ?_⟩
    · have := hR.image q hq hw
      rw [hlog y hy, before, first_append] at this
      rw [Books.log, before]
      by_cases hin : q ∈ (b.sjfd.drop sp.iSubRec).map Prod.fst
      · obtain ⟨v, hv⟩ := Option.ne_none_iff_exists'.1 (mt first_eq_none.1 (not_not.2 (hn.spare ht q hin hq hw)))
        rw [hv] at this ⊢
        exact this
      · rwa [first_eq_none.2 hin, Option.or_none] at this
    · have hm := hR.marked q hq hqn hw
      rw [hlog y hy, List.map_append, List.mem_append] at hm
      exact hm.elim id fun hm => hn.spare ht q hm hqn hw
  · rw [hzip]
    refine h1.imp_of_mem fun {y z} hy hz hyz => ⟨hyz.nOrig, hyz.iOffset, hyz.iSubRec, fun ht' q hq hqn hw => ?_⟩
    have htake : (b.sjfd.take sp.iSubRec).take z.1.iSubRec = b.sjfd.take z.1.iSubRec := by
      rw [List.take_take, Nat.min_eq_left (hnested z hz).iSubRec]
    rw [htake]
    refine hyz.spare ht' q ?_ hqn hw
    exact (((List.take_sublist _ _).drop _).map _).subset hq
  · have ht' : t ∈ b.savepoints := List.mem_of_mem_take ht
    replace ht : t ∈ b.savepoints.take m := ht
    have hlen : (b.savepoints.take m).length ≤ (C.take m).length := by simp [h.length]
    rw [← List.map_fst_zip hlen, hzip] at ht
    obtain ⟨y, hy, rfl⟩ := List.mem_map.1 ht
    rw [List.length_take]
    exact ⟨(h.within y.1 ht').1, le_min (hnested y hy).iSubRec (h.within y.1 ht').2⟩
  · exact h.subIn q (((List.take_sublist _ _).map _).subset hq)

/-- A savepoint that is opened now. -/
def Books.opened (b : Books) (n : ℕ) : Savepoint := ⟨n, [], b.jfd.length, b.sjfd.length, true⟩

/-- A savepoint on what reads return now. -/
theorem Keeps.push (h : Keeps N b f C) (hn : ∀ sp ∈ b.savepoints, sp.nOrig ≤ n) (V : Set ℕ) :
    Keeps N { b with savepoints := b.savepoints ++ [b.opened n] } f (C ++ [⟨n, f, V⟩]) := by
  have hzip : (b.savepoints ++ [b.opened n]).zip (C ++ [⟨n, f, V⟩]) =
      b.savepoints.zip C ++ [(b.opened n, ⟨n, f, V⟩)] := by
    rw [List.zip_append h.length.symm]
    rfl
  refine ⟨by simp [h.length], fun y hy => ?_, ?_, fun sp hsp => ?_, h.subIn⟩
  · rw [hzip] at hy
    rcases List.mem_append.1 hy with hy | hy
    · have hR := h.remembers y hy
      exact ⟨hR.size, hR.image, hR.marked⟩
    · rw [List.mem_singleton.1 hy]
      refine ⟨rfl, fun q _ _ j _ => ?_, by simp [Books.opened]⟩
      simp [Books.log, Books.opened, before]
  · rw [hzip, List.pairwise_append]
    refine ⟨h.nested.imp fun hn => ⟨hn.nOrig, hn.iOffset, hn.iSubRec, hn.spare⟩, List.pairwise_singleton _ _,
      fun y hy z hz => ?_⟩
    rw [List.mem_singleton.1 hz]
    have hsp := (List.of_mem_zip hy).1
    exact ⟨hn y.1 hsp, (h.within y.1 hsp).1, (h.within y.1 hsp).2, fun _ q hq => by simp [Books.opened] at hq⟩
  · rcases List.mem_append.1 hsp with hsp | hsp
    · exact h.within sp hsp
    · rw [List.mem_singleton.1 hsp]
      exact ⟨le_rfl, le_rfl⟩

theorem Keeps.pushMany (h : Keeps N b f C) (hn : ∀ sp ∈ b.savepoints, sp.nOrig ≤ n) (V : Set ℕ) : ∀ m : ℕ,
    Keeps N { b with savepoints := b.savepoints ++ List.replicate m (b.opened n) } f
      (C ++ List.replicate m ⟨n, f, V⟩)
  | 0 => by simpa using h
  | m + 1 => by
    have hm : ∀ sp ∈ b.savepoints ++ List.replicate m (b.opened n), sp.nOrig ≤ n := fun sp hsp => by
      rcases List.mem_append.1 hsp with hsp | hsp
      · exact hn sp hsp
      · rw [List.eq_of_mem_replicate hsp]
        rfl
    have h1 := (h.pushMany hn V m).push hm V
    rw [List.replicate_succ', List.replicate_succ', ← List.append_assoc, ← List.append_assoc]
    exact h1

theorem Remembers.waive (h : Remembers b f sp i) (V : Set ℕ) : Remembers b f sp (i.waive V) :=
  ⟨h.size, fun q hq hw => h.image q hq fun hi => hw (.inl hi), fun q hq hle hw =>
    h.marked q hq hle fun hi => hw (.inl hi)⟩

theorem Nested.waive (h : Nested b sp i sp') (V : Set ℕ) : Nested b sp (i.waive V) sp' :=
  ⟨h.nOrig, h.iOffset, h.iSubRec, fun ht q hq hle hw => h.spare ht q hq hle fun hi => hw (.inl hi)⟩

theorem Keeps.waive (h : Keeps N b f C) (V : Set ℕ) : Keeps N b f (C.map (Image.waive V)) := by
  refine ⟨by rw [List.length_map, h.length], ?_, ?_, h.within, h.subIn⟩
  · rw [List.zip_map_right]
    intro y hy
    obtain ⟨z, hz, rfl⟩ := List.mem_map.1 hy
    exact (h.remembers z hz).waive V
  · rw [List.zip_map_right, List.pairwise_map]
    exact h.nested.imp fun hn => hn.waive V

/-- A page whose content is waived may count as journalled. -/
theorem Keeps.noContent (h : Keeps N b f C) {J : List ℕ} (hJ : ∀ q ∈ b.pInJournal, q ∈ J)
    (hw : ∀ i ∈ C, p ∈ i.waived) (hf : ∀ q, q ≠ p → f' q = f q) :
    Keeps N ⟨b.jfd, J, addBits p b.savepoints, b.sjfd⟩ f' C := by
  have h1 : Keeps N b f' C := h.congr fun y hy q _ hq _ j _ => by
    rw [hf q fun hqp => hq (hqp ▸ hw y.2 (List.of_mem_zip hy).2)]
  refine ⟨h1.length.trans (List.length_map _).symm, ?_, ?_, fun t ht => ?_, fun q hq => (h1.subIn q hq).imp_left (hJ q)⟩
  · rw [addBits, List.zip_map_left]
    intro y hy
    obtain ⟨z, hz, rfl⟩ := List.mem_map.1 hy
    obtain ⟨hs, hi, hm⟩ := h1.remembers z hz
    have hr := Relogged.mark p z.1
    have hlog : ∀ l, (⟨b.jfd, J, l, b.sjfd⟩ : Books).log (markPage p z.1) = b.log z.1 := fun l => by
      rw [Books.log, Books.log, hr.iOffset, hr.iSubRec]
    refine ⟨hr.nOrig.trans hs, fun q hq hqw => ?_, fun q hq hle hqw => ?_⟩
    · rw [Prod.map_fst, hlog]
      exact hi q (hr.nOrig ▸ hq) hqw
    · rw [Prod.map_fst, hlog]
      refine hm q ((hr.marked q hq).resolve_right fun hqp => hqw ?_) (hr.nOrig ▸ hle) hqw
      exact hqp ▸ hw z.2 (List.of_mem_zip hz).2
  · rw [addBits, List.zip_map_left, List.pairwise_map]
    refine h1.nested.imp fun {y z} hn => ?_
    have hr := Relogged.mark p y.1
    have ht := Relogged.mark p z.1
    refine ⟨?_, ?_, ?_, fun htr q hq hle hqw => ?_⟩ <;>
      simp only [Prod.map_fst, Prod.map_snd, id, hr.nOrig, hr.iOffset, hr.iSubRec, ht.nOrig, ht.iOffset, ht.iSubRec] at *
    · exact hn.nOrig
    · exact hn.iOffset
    · exact hn.iSubRec
    · exact hn.spare (ht.truncate htr) q hq hle hqw
  · obtain ⟨u, hu, rfl⟩ := List.mem_map.1 ht
    have hr := Relogged.mark p u
    rw [hr.iOffset, hr.iSubRec]
    exact h1.within u hu

end Btreelite.FilePager
