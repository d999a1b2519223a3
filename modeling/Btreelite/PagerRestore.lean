import Btreelite.SavepointLog

/-!
# Rollbacks restore what was

A rollback to a savepoint brings back what reads returned when it was opened, and a rollback of the whole
transaction what the file was at its start, whatever was called in between. Of a page that was fetched without
its content, or that was not to be written when the savepoint was opened, nothing is promised.
-/

namespace Btreelite.FilePager

open Function UndoLog

variable {k : Settings} {W V D G : Set ℕ} {x p q n : ℕ} {s s' s₀ : FilePager} {c : CachePage} {C : List Image}
  {sp : Savepoint} {i : Image}

/-- Pages of which the file may not tell what reads return: they are not to be written, or the image grew over
them. -/
def Loose (G : Set ℕ) (s : FilePager) : Set ℕ := {q | s.has (·.dontWrite) q = true ∨ q ∈ G}

/-- The images of the savepoints that are open after a call, where the content of the pages in `V` was waived. -/
def images (G V : Set ℕ) (s s' : FilePager) (C : List Image) : List Image :=
  (C.map (Image.waive V)).take s'.savepoints.length ++
    List.replicate (s'.savepoints.length - s.savepoints.length) ⟨s.dbSize, s.content, Loose G s⟩

/-- A transaction up to some call, with the pages that the image grew over and that stand clean in the cache
since, those whose content was waived, and what the open savepoints were opened on. -/
inductive Imaged (k : Settings) (s₀ : FilePager) : FilePager → Set ℕ → Set ℕ → List Image → Prop
  | start : Imaged k s₀ s₀ ∅ {q | s₀.has (·.dontWrite) q = true} []
  | call {s s' : FilePager} {G W V Y : Set ℕ} {C : List Image} (h : Imaged k s₀ s G W C)
    (hc : Call k V Set.univ s Y s') :
    Imaged k s₀ s' {p | p ∈ G ∪ grown s s' ∧ StandsClean s' p} (W ∪ V) (images G V s s' C)

theorem Call.mono {Y : Set ℕ} (h : Call k V D s Y s') (hV : V ⊆ W) : Call k W D s Y s' := by
  cases h with
  | read h => exact .read h
  | write h hw => exact .write h fun hn => hV (hw hn)
  | modify a h => exact .modify a h
  | dontWrite h => exact .dontWrite h
  | stress h => exact .stress h
  | evict h => exact .evict h
  | exchange hab ha hb => exact .exchange hab ha hb
  | openSavepoint n => exact .openSavepoint n
  | release i => exact .release i
  | rollback i => exact .rollback i
  | busy h => exact .busy h

theorem Imaged.run (h : Imaged k s₀ s G W C) : Run k s₀ s G := by
  induction h with
  | start => exact .start
  | call _ hc ih => exact ih.step hc.step

theorem Logged.mono {F : ℕ → PageImage} (h : Logged V F s q) (hV : V ⊆ W) : Logged W F s q :=
  h.imp_left fun h => hV h

theorem SectorLogged.waive {F : ℕ → PageImage} (h : SectorLogged k V F s p) (hV : V ⊆ W) : SectorLogged k W F s p :=
  fun q hv hle hs => (h q hv hle hs).mono hV

theorem Ahead.mono {F : ℕ → PageImage} (h : Ahead k V F s) (hV : V ⊆ W) : Ahead k W F s :=
  { h with
    record := fun r hr hW => h.record r hr fun hr' => hW (hV hr')
    recorded := fun q hq hW => h.recorded q hq fun hq' => hW (hV hq')
    original := fun q hle hj hW => h.original q hle hj fun hq' => hW (hV hq')
    sub := fun r hr => (h.sub r hr).imp_right fun h hk => (h hk).imp_right fun h => h.waive hV
    sector := fun i hi r hr => (h.sector i hi r hr).waive hV }

/-- What the journals say of the original image, in a run with its images. -/
theorem Imaged.ahead (h₀ : Begun k s₀) (h : Imaged k s₀ s G W C) :
    Ahead k W s₀.file s ∧ s.dbOrigSize = s₀.dbOrigSize := by
  induction h with
  | start => exact ⟨h₀.ahead fun _ hp => hp, rfl⟩
  | call h hc ih =>
    have hf := (ih.1.mono Set.subset_union_left).call (h.run.consistent h₀) (hc.mono Set.subset_union_right)
    exact ⟨hf.ahead, hf.logKept.dbOrigSize.trans ih.2⟩

/-! ## What a playback does to the images -/

/-- A playback of a record changes the file and the cache, and only what reads of its page return. -/
theorem Sound.playbackOnePage_frame (h : Sound k G 0 s) {j : Option ℕ} {r : ℕ × PageImage} {d : Option (List ℕ)}
    (hr : IsRecord s (j, r)) : ∃ file fileSize dbFileSize v,
      (s.pagerPlaybackOnePage k j r d).1 = { if s.dbSize < r.1 ∨ r.1 ∈ d.getD [] then s else s.setData r.1 r.2 with
        file := file, fileSize := fileSize, dbFileSize := dbFileSize, dbFileVers := v } ∧
      (s.pagerPlaybackOnePage k j r d).1.content =
        if s.dbSize < r.1 ∨ r.1 ∈ d.getD [] then s.content else update s.content r.1 r.2 := by
  unfold pagerPlaybackOnePage
  split_ifs with hskip
  · exact ⟨_, _, _, _, rfl, rfl⟩
  · rw [not_or, Nat.not_lt] at hskip
    have hn : j = none → r.1 ∈ s.sjfd.map Prod.fst := fun hj => List.mem_map_of_mem (hr.2 hj)
    unfold FilePager.playbackTarget
    split_ifs with hw hc
    · refine ⟨_, _, _, _, rfl, funext fun q => ?_⟩
      by_cases hq : q = r.1
      · subst hq
        rw [update_self]
        cases hc : s.cache r.1 <;>
          simp [content, FilePager.setData, FilePager.mapPage, osWrite, hc, Nat.not_lt.2 hskip.1]
      · rw [update_of_ne hq]
        exact content_frame (mapPage_of_ne (s := s.osWrite r.1 r.2) hq) (update_of_ne hq _ _) rfl
    · obtain ⟨c, hc'⟩ := h.cached r.1 (h.dirty_of_record (fun j hj => hr.1 j hj) hn hw)
      rw [hc.2] at hc'
      cases hc'
    · obtain ⟨c, hc⟩ := h.cached r.1 (h.dirty_of_record (fun j hj => hr.1 j hj) hn hw)
      refine ⟨_, _, _, _, rfl, funext fun q => ?_⟩
      by_cases hq : q = r.1
      · subst hq
        rw [update_self]
        simp [content, FilePager.setData, FilePager.mapPage, hc]
      · rw [update_of_ne hq]
        exact content_frame (mapPage_of_ne hq) rfl rfl

/-- What a playback leaves as it is. -/
structure PutBack (s s' : FilePager) : Prop where
  books : s'.books = s.books
  isOpenJfd : s'.isOpenJfd = s.isOpenJfd
  dbSize : s'.dbSize = s.dbSize
  dontWrite : ∀ q, s'.has (·.dontWrite) q = s.has (·.dontWrite) q

theorem PutBack.trans {s₁ : FilePager} (h : PutBack s s₁) (h' : PutBack s₁ s') : PutBack s s' :=
  ⟨h'.1.trans h.1, h'.2.trans h.2, h'.3.trans h.3, fun q => (h'.4 q).trans (h.4 q)⟩

theorem Sound.playbackOnePage_putBack (h : Sound k G 0 s) {j : Option ℕ} {r : ℕ × PageImage} {d : Option (List ℕ)}
    (hr : IsRecord s (j, r)) : PutBack s (s.pagerPlaybackOnePage k j r d).1 := by
  obtain ⟨file, m, m', v, he, -⟩ := h.playbackOnePage_frame (d := d) hr
  rw [he]
  split_ifs
  · exact ⟨rfl, rfl, rfl, fun _ => rfl⟩
  · exact ⟨rfl, rfl, rfl, fun q => setData_has fun _ _ => rfl⟩

theorem playback_cons {j : Option ℕ} {r : ℕ × PageImage} {rs : List (Option ℕ × ℕ × PageImage)}
    {d : Option (List ℕ)} : FilePager.playback k ((j, r) :: rs) s d =
      FilePager.playback k rs (s.pagerPlaybackOnePage k j r d).1 (s.pagerPlaybackOnePage k j r d).2 := rfl

/-- Each page comes back as its first record has it. -/
theorem Sound.playback_undo : ∀ {l : List (Option ℕ × ℕ × PageImage)} {s : FilePager} {d : List ℕ},
    Sound k G 0 s → Together k 0 s → (∀ r ∈ l, IsRecord s r) →
    PutBack s (FilePager.playback k l s (some d)) ∧ (FilePager.playback k l s (some d)).content =
      undo (fun q => decide (q ≤ s.dbSize)) (l.map Prod.snd) d s.content
  | [], s, d, _, _, _ => ⟨⟨rfl, rfl, rfl, fun _ => rfl⟩, rfl⟩
  | (j, r) :: rs, s, d, h, ht, hrs => by
    have hr := hrs _ List.mem_cons_self
    obtain ⟨h1, ht1, hJ⟩ := h.playbackOnePage (d := some d) ht hr
    have hp1 := h.playbackOnePage_putBack (d := some d) hr
    obtain ⟨-, -, -, -, -, hc1⟩ := h.playbackOnePage_frame (d := some d) hr
    have hd : (s.pagerPlaybackOnePage k j r (some d)).2 =
        if s.dbSize < r.1 ∨ r.1 ∈ d then some d else some (r.1 :: d) := by
      unfold pagerPlaybackOnePage
      split_ifs with h1 h2 h2
      · rfl
      · exact absurd h1 h2
      · exact absurd h2 h1
      · rfl
    obtain ⟨t, ht'⟩ : ∃ t, t = s.pagerPlaybackOnePage k j r (some d) := ⟨_, rfl⟩
    rw [← ht'] at h1 ht1 hJ hp1 hc1 hd
    have hrec : ∀ r' ∈ rs, IsRecord t.1 r' := fun r' hr' => by
      rw [IsRecord, hJ.jfd, hJ.sjfd]
      exact hrs r' (List.mem_cons_of_mem _ hr')
    simp only [Option.getD_some] at hc1
    rw [playback_cons, ← ht', List.map_cons, undo, hd]
    by_cases hskip : s.dbSize < r.1 ∨ r.1 ∈ d
    · rw [if_pos hskip] at hc1
      have hS : ¬ (decide (r.1 ≤ s.dbSize) = true ∧ r.1 ∉ d) := fun hS =>
        hskip.elim (Nat.not_lt.2 (of_decide_eq_true hS.1)) hS.2
      rw [if_pos hskip, if_neg hS]
      obtain ⟨h2, h3⟩ := Sound.playback_undo (l := rs) (d := d) h1 ht1 hrec
      exact ⟨hp1.trans h2, by rw [h3, hc1, hJ.dbSize]⟩
    · rw [if_neg hskip] at hc1
      have hS : decide (r.1 ≤ s.dbSize) = true ∧ r.1 ∉ d := by
        rw [not_or, Nat.not_lt] at hskip
        exact ⟨decide_eq_true hskip.1, hskip.2⟩
      rw [if_neg hskip, if_pos hS]
      obtain ⟨h2, h3⟩ := Sound.playback_undo (l := rs) (d := r.1 :: d) h1 ht1 hrec
      exact ⟨hp1.trans h2, by rw [h3, hc1, hJ.dbSize]⟩

/-- All records of pages in the image are put back in their order. -/
theorem Sound.playback_restore : ∀ {l : List (Option ℕ × ℕ × PageImage)} {s : FilePager},
    Sound k G 0 s → Together k 0 s → (∀ r ∈ l, IsRecord s r) → (∀ r ∈ l, r.2.1 ≤ s.dbSize) →
    PutBack s (FilePager.playback k l s none) ∧
      (FilePager.playback k l s none).content = UndoLog.restore (l.map Prod.snd) s.content
  | [], s, _, _, _, _ => ⟨⟨rfl, rfl, rfl, fun _ => rfl⟩, rfl⟩
  | (j, r) :: rs, s, h, ht, hrs, hle => by
    have hr := hrs _ List.mem_cons_self
    have hskip : ¬ (s.dbSize < r.1 ∨ r.1 ∈ (none : Option (List ℕ)).getD []) := by
      simpa using hle _ List.mem_cons_self
    obtain ⟨h1, ht1, hJ⟩ := h.playbackOnePage (d := none) ht hr
    have hp1 := h.playbackOnePage_putBack (d := none) hr
    obtain ⟨-, -, -, -, -, hc1⟩ := h.playbackOnePage_frame (d := none) hr
    have hd : (s.pagerPlaybackOnePage k j r none).2 = none := by
      unfold pagerPlaybackOnePage
      rw [if_neg hskip]
      rfl
    rw [if_neg hskip] at hc1
    obtain ⟨t, ht'⟩ : ∃ t, t = s.pagerPlaybackOnePage k j r none := ⟨_, rfl⟩
    rw [← ht'] at h1 ht1 hJ hp1 hc1 hd
    have hrec : ∀ r' ∈ rs, IsRecord t.1 r' := fun r' hr' => by
      rw [IsRecord, hJ.jfd, hJ.sjfd]
      exact hrs r' (List.mem_cons_of_mem _ hr')
    obtain ⟨h2, h3⟩ := Sound.playback_restore (l := rs) h1 ht1 hrec fun r' hr' => by
      rw [hJ.dbSize]
      exact hle r' (List.mem_cons_of_mem _ hr')
    rw [playback_cons, ← ht', hd]
    exact ⟨hp1.trans h2, by rw [h3, hc1]; rfl⟩

theorem mainRecords_snd {j : ℕ} : (s.mainRecords j).map Prod.snd = s.jfd.drop j := by
  rw [mainRecords, List.map_map]
  change ((s.jfd.zipIdx.drop j).map Prod.fst) = _
  rw [List.map_drop, List.zipIdx_map_fst]

theorem subRecords_snd {j : ℕ} : (s.subRecords j).map Prod.snd = s.sjfd.drop j := by
  rw [subRecords, List.map_map]
  exact List.map_id _

/-! ## What the calls keep -/

/-- What holds between calls of the open savepoints, where `C` has their images. -/
structure Kept (G : Set ℕ) (s : FilePager) (C : List Image) : Prop where
  keeps : Keeps s.dbOrigSize s.books s.content C
  loose : ∀ i ∈ C, ∀ q, q ≤ i.size → q ∈ Loose G s → q ∈ i.waived
  opened : s.isOpenJfd = true ∨ s.eState = .locked

theorem Kept.waive (h : Kept G s C) (V : Set ℕ) : Kept G s (C.map (Image.waive V)) := by
  refine ⟨h.keeps.waive V, fun i hi q hq hl => ?_, h.opened⟩
  obtain ⟨i', hi', rfl⟩ := List.mem_map.1 hi
  exact .inl (h.loose i' hi' q hq hl)

/-- The images are those of the savepoints. -/
theorem Kept.size_mem (h : Kept G s C) (hi : i ∈ C) : i.size ∈ s.savepoints.map (·.nOrig) := by
  have hlen : C.length ≤ s.books.savepoints.length := h.keeps.length.le
  rw [← List.map_snd_zip hlen] at hi
  obtain ⟨y, hy, rfl⟩ := List.mem_map.1 hi
  rw [← (h.keeps.remembers y hy).size]
  exact List.mem_map_of_mem (List.of_mem_zip hy).1

theorem Kept.size_le (h : Kept G s C) (hs : SavedIn s) (hi : i ∈ C) : i.size ≤ s.dbSize :=
  hs _ (h.size_mem hi)

/-- A call that logs pages, and after which reads of the pages of the images return what they did. -/
theorem Kept.logs {P : ℕ → Prop} (h : Kept G s C) (hs : SavedIn s) (hl : Logs s.dbOrigSize s.content P s.books s'.books)
    (ho : s'.dbOrigSize = s.dbOrigSize) (hh : HdrKept s s')
    (hc : ∀ q, q ≤ s.dbSize → q ∉ Loose G s → Same q (s'.content q) (s.content q))
    (hw : ∀ q, s'.has (·.dontWrite) q = true → s.has (·.dontWrite) q = true) :
    Kept (G ∪ grown s s') s' C := by
  have h1 := h.keeps.logs hl
  have hsize : ∀ sp ∈ s'.books.savepoints, sp.nOrig ≤ s.dbSize := fun sp hsp =>
    hs _ (hl.nOrig ▸ List.mem_map_of_mem hsp)
  refine ⟨ho ▸ h1.congr fun y hy q hq hqw _ => ?_, fun i hi q hq hl => ?_, ?_⟩
  · have hm := List.of_mem_zip hy
    have hle := hq.trans (hsize y.1 hm.1)
    exact hc q hle fun hl => hqw (h.loose y.2 hm.2 q ((h1.remembers y hy).size ▸ hq) hl)
  · refine h.loose i hi q hq (hl.imp (hw q) fun hg => ?_)
    exact hg.resolve_right fun hg => Nat.not_lt.2 (hq.trans (h.size_le hs hi)) hg.1
  · rcases hh with ⟨⟨-, hj⟩, he⟩ | ⟨-, -, hj⟩
    · rw [hj, he]
      exact h.opened
    · exact .inl hj

/-- A call that logs nothing. -/
theorem Kept.frame (h : Kept G s C) (hs : SavedIn s) (hb : s'.books = s.books) (ho : s'.dbOrigSize = s.dbOrigSize)
    (hj : s'.isOpenJfd = s.isOpenJfd) (he : s'.eState ≠ s.eState → s.eState ≠ .locked)
    (hc : ∀ q, q ≤ s.dbSize → q ∉ Loose G s → Same q (s'.content q) (s.content q))
    (hw : ∀ q, s'.has (·.dontWrite) q = true → s.has (·.dontWrite) q = true ∨ s.savepoints = []) :
    Kept (G ∪ grown s s') s' C := by
  refine ⟨ho ▸ hb ▸ h.keeps.congr fun y hy q hq hqw _ => ?_, fun i hi q hq hl => ?_, ?_⟩
  · have hm := List.of_mem_zip hy
    have hsize := (h.keeps.remembers y hy).size
    exact hc q (hq.trans (hs _ (List.mem_map_of_mem hm.1))) fun hl => hqw (h.loose y.2 hm.2 q (hsize ▸ hq) hl)
  · have hne : s.savepoints ≠ [] := fun hne => by
      have := h.size_mem hi
      rw [hne] at this
      cases this
    refine h.loose i hi q hq (hl.imp (fun hq => (hw q hq).resolve_right hne) fun hg => ?_)
    exact hg.resolve_right fun hg => Nat.not_lt.2 (hq.trans (h.size_le hs hi)) hg.1
  · rw [hj]
    refine h.opened.imp_right fun hl => ?_
    by_cases hne : s'.eState = s.eState
    · exact hne.trans hl
    · exact absurd hl (he hne)

theorem Same.of_eq {a a' : PageImage} (h : a = a') : Same q a a' := fun _ _ => h ▸ rfl

theorem Kept.anti {G' : Set ℕ} (h : Kept G s C) (hG : G' ⊆ G) : Kept G' s C :=
  ⟨h.keeps, fun i hi q hq hl => h.loose i hi q hq (hl.imp_right fun hq => hG hq), h.opened⟩

variable {F : ℕ → PageImage}

theorem Kept.getPage (h : Kept G s C) (hs : SavedIn s) :
    Kept (G ∪ grown s (s.getPage p)) (s.getPage p) C := by
  obtain ⟨cache, v, he⟩ := s.getPage_frame (p := p)
  refine h.frame hs getPage_books ?_ ?_ (fun hne => absurd ?_ hne) (fun q _ _ => .of_eq s.getPage_content)
    fun q hq => .inl ((getPage_has (fun _ => rfl) s).symm.trans hq)
  · rw [he]
  · rw [he]
  · rw [he]

/-- A page that was fetched is written. -/
theorem Kept.write {x : ℕ} (h : Kept G s C) (hC : Sound k D x s) (ht : Together k x s) (hx : x = 0 ∨ x = p)
    (hc : ∃ c, s.cache p = some c) (hs : SavedIn s) (ho : s.dbOrigSize ≤ s.dbSize) :
    Kept (G ∪ grown s (s.sqlite3PagerWrite k p)) (s.sqlite3PagerWrite k p) C := by
  obtain ⟨hlogs, hhdr⟩ := hC.write_logs hc hs ho
  obtain ⟨-, -, hP⟩ := hC.sqlite3PagerWrite ht hx hc
  exact h.logs hs hlogs hP.dbOrigSize hhdr (fun q hq _ => .of_eq (hP.content q hq)) hP.dontWrite

theorem Kept.readWrite (h : Kept G s C) (hC : Consistent k G s) (ha : Ahead k W F s) (hv : k.Valid p) :
    Kept (G ∪ grown s ((s.getPage p).sqlite3PagerWrite k p)) ((s.getPage p).sqlite3PagerWrite k p) C := by
  have h1 := hC.getPage hv
  obtain ⟨cache, v, he⟩ := s.getPage_frame (p := p)
  have hg : grown s ((s.getPage p).sqlite3PagerWrite k p) =
      grown (s.getPage p) ((s.getPage p).sqlite3PagerWrite k p) := by
    rw [grown, grown, show (s.getPage p).dbSize = s.dbSize by rw [he]]
  have h2 := (h.getPage (p := p) ha.saved).write h1.sound h1.together (.inl rfl) s.exists_getPage ha.getPage.saved
    h1.origLe
  rw [hg]
  exact h2.anti (Set.union_subset_union_left _ Set.subset_union_left)

theorem Kept.noContent (h : Kept G s C) (hw : ∀ i ∈ C, p ∈ i.waived) : Kept G (s.getNoContent p) C := by
  refine ⟨h.keeps.noContent (fun q hq => mem_pInJournal_getNoContent.2 (.inl hq)) hw fun q hq => ?_,
    fun i hi q hq hl => h.loose i hi q hq (hl.imp_left fun hd => ?_), h.opened⟩
  · exact content_frame (update_of_ne hq _ _) rfl rfl
  · rwa [getNoContent_has (fun _ => rfl) fun _ _ => rfl] at hd

theorem Kept.getWrite (h : Kept G s C) (hC : Consistent k G s) (ha : Ahead k W F s) {noContent : Bool} {t : FilePager}
    (ht : s.sqlite3PagerGet k p noContent = some t) (hV : noContent = true → p ∈ V) (hVW : V ⊆ W) :
    Kept (G ∪ grown s (t.sqlite3PagerWrite k p)) (t.sqlite3PagerWrite k p) (C.map (Image.waive V)) := by
  unfold sqlite3PagerGet at ht
  split_ifs at ht with hbad hno
  · rw [not_or] at hbad
    obtain rfl := Option.some.inj ht
    have h1 := hC.sound.getNoContent (p := p) ⟨Nat.pos_of_ne_zero hbad.1, hbad.2⟩
    have h2 : Kept G (s.getNoContent p) (C.map (Image.waive V)) := (h.waive V).noContent fun i hi => by
      obtain ⟨i', -, rfl⟩ := List.mem_map.1 hi
      exact .inr (hV hno)
    exact h2.write h1 (hC.together.getNoContent hC.sound) (.inr rfl) ⟨_, getNoContent_eq_some.2 (.inr ⟨rfl, rfl⟩)⟩
      (ha.getNoContent (hVW (hV hno))).saved hC.origLe
  · rw [not_or] at hbad
    obtain rfl := Option.some.inj ht
    exact (h.readWrite hC ha ⟨Nat.pos_of_ne_zero hbad.1, hbad.2⟩).waive V

theorem Kept.setData (h : Kept G s C) (hp : Pager.subjRequiresPage p s.savepoints = none) (a : PageImage) :
    Kept G (s.setData p a) C := by
  refine ⟨h.keeps.change hp fun q hq sp _ _ => .of_eq (content_frame (mapPage_of_ne hq) rfl rfl),
    fun i hi q hq hl => h.loose i hi q hq (hl.imp_left fun hd => ?_), h.opened⟩
  rwa [setData_has fun _ _ => rfl] at hd

theorem dontWrite_content : (s.sqlite3PagerDontWrite p).content q = s.content q := by
  unfold sqlite3PagerDontWrite
  split_ifs
  · exact mapPage_content fun _ => rfl
  · rfl

theorem Kept.dontWrite (h : Kept G s C) (hs : SavedIn s) :
    Kept (G ∪ grown s (s.sqlite3PagerDontWrite p)) (s.sqlite3PagerDontWrite p) C := by
  refine h.frame hs ?_ ?_ ?_ (fun hne => absurd ?_ hne) (fun q _ _ => .of_eq dontWrite_content) ?_ <;>
    unfold sqlite3PagerDontWrite <;> split_ifs with hd
  · rfl
  · rfl
  · rfl
  · rfl
  · rfl
  · rfl
  · rfl
  · rfl
  · exact fun _ _ => .inr hd.2
  · exact fun _ => .inl

/-- A clean page is as the file has it, unless it is loose. -/
theorem Kept.evict (h : Kept G s C) (hC : Consistent k G s) (hs : SavedIn s) (hp : p ∉ s.pDirty) :
    Kept (G ∪ grown s (s.evict p)) (s.evict p) C := by
  refine h.frame hs rfl rfl rfl (fun hne => absurd rfl hne) (fun q hq hl => .of_eq ?_) fun q hq => .inl (evict_has.1 hq).2
  by_cases hqp : q = p
  · subst hqp
    have hn : (s.evict q).cache q = none := by simp [FilePager.evict]
    rw [content_of_none hn]
    cases hc : s.cache q with
    | none => exact (content_of_none hc).symm
    | some c =>
      rw [content_of_some hc]
      simp only [Loose, Set.mem_ofPred_eq, not_or] at hl
      have hd : c.dontWrite = false := Bool.eq_false_iff.2 fun hd => hl.1 (has_iff.2 ⟨c, hc, hd⟩)
      exact (if_neg (Nat.not_lt.2 hq)).trans (hC.sound.clean q c hc hq hp hd hl.2).symm
  · exact content_frame (update_of_ne hqp _ _) rfl rfl

theorem Kept.exchange (h : Kept G s C) (hC : Sound k G 0 s) {a b : ℕ} (hab : a ≠ b) (ha : MayChange s a)
    (hb : MayChange s b) : Kept G (s.exchange k a b) C := by
  obtain ⟨fgA, hca, hwa⟩ := has_iff.1 ha.writeable
  obtain ⟨fgB, hcb, hwb⟩ := has_iff.1 hb.writeable
  have hsj : s.cache k.sjPgno = none := Option.eq_none_iff_forall_ne_some.2 fun c hc => (hC.valid _ c hc).2 rfl
  have hds : k.sjPgno ∉ s.pDirty := fun hd => (hC.cached _ hd).elim fun c hc => (hC.valid _ c hc).2 rfl
  obtain ⟨l, he, -⟩ := exchange_eq hca hcb hab (hC.valid a fgA hca).2 (hC.valid b fgB hcb).2 hsj
    (hC.writeable a fgA hca hwa).1 (hC.writeable b fgB hcb hwb).1 hds
  have h1 := (h.setData ha.saved fgB.data).setData (s := s.setData a fgB.data) hb.saved fgA.data
  rw [he]
  exact ⟨h1.keeps, h1.loose, h1.opened⟩

theorem Kept.syncJournal (h : Kept G s C) (hs : SavedIn s) (hl : s.eState ≠ .locked) : Kept G (s.syncJournal k) C := by
  have h1 : Kept (G ∪ grown s (s.syncJournal k)) (s.syncJournal k) C := h.frame hs rfl rfl rfl (fun _ => hl)
    (fun q _ _ => .of_eq syncJournal_content) fun q hq => .inl (syncJournal_dontWrite.symm.trans hq)
  exact h1.anti Set.subset_union_left

theorem writePage_books : (s.writePage p).books = s.books ∧ (s.writePage p).isOpenJfd = s.isOpenJfd := by
  unfold writePage
  split_ifs <;> exact ⟨rfl, rfl⟩

/-- A dirty page is written and becomes clean. -/
theorem Kept.clean {x : ℕ} (h : Kept G s C) (hS : Sound k D x s) (hs : SavedIn s) (hp : p ∈ s.pDirty) :
    Kept G ((s.pagerWritePagelist [p]).makeClean p) C := by
  have hw := hS.written hp
  have h1 : Kept (G ∪ grown s ((s.writePage p).makeClean p)) ((s.writePage p).makeClean p) C := h.frame hs
    writePage_books.1 writePage_sizes.1 writePage_books.2 (fun hne => absurd hw.eState hne)
    (fun q hq _ j hj => ?_) fun q hq => .inl ?_
  · exact h1.anti Set.subset_union_left
  · rw [← hw.content q j hq hj]
    exact congrFun (mapPage_content (f := fun c => { c with needSync := false, writeable := false }) fun _ => rfl) j
  · rw [← hw.dontWrite]
    exact (mapPage_has (f := fun c => { c with needSync := false, writeable := false }) fun _ => rfl).symm.trans hq

theorem Kept.stress (h : Kept G s C) (hS : Sound k D 0 s) (hs : SavedIn s) (hp : p ∈ s.pDirty) :
    Kept G (s.pagerStress k p) C := by
  unfold pagerStress
  split_ifs
  · exact (h.syncJournal hs (hS.ne_locked hp)).clean hS.syncJournal hs hp
  · exact h.clean hS hs hp

theorem Kept.incrChangecounter (h : Kept G s C) (hC : Consistent k G s) (ha : Ahead k W F s) :
    Kept (G ∪ grown s (s.pagerIncrChangecounter k)) (s.pagerIncrChangecounter k) C := by
  unfold pagerIncrChangecounter
  split_ifs
  · have hv : k.Valid 1 := ⟨one_pos, k.one_lt_sjPgno.ne⟩
    have h1 := h.readWrite hC ha hv
    have hf := ha.readWrite hC hv
    have hg := hC.getPage hv
    obtain ⟨h2, -, hP⟩ := hg.sound.sqlite3PagerWrite hg.together (.inl rfl) s.exists_getPage
    obtain ⟨t, ht⟩ : ∃ t, t = (s.getPage 1).sqlite3PagerWrite k 1 := ⟨_, rfl⟩
    rw [← ht] at h1 hf h2 hP ⊢
    obtain ⟨c, hc⟩ := h2.cached 1 hP.dirty
    have hw : ∀ q, t.pagerWriteChangecounter.has (·.dontWrite) q = true → t.has (·.dontWrite) q = true := fun q hq =>
      (changecounter_has fun _ _ => rfl).symm.trans hq
    have h3 : Kept _ t.pagerWriteChangecounter C := h1.frame hf.ahead.saved rfl rfl rfl (fun hne => absurd rfl hne)
      (fun q hq _ j hj => changecounter_content hc hq hj) fun q hq => .inl (hw q hq)
    obtain ⟨h4, h5, h6⟩ := h3.anti Set.subset_union_left
    exact ⟨h4, h5, h6⟩
  · exact h.anti (Set.union_subset (fun _ => id) fun q hq => absurd (hq.1.trans_le hq.2) (lt_irrefl _))

theorem Kept.openSavepoint (h : Kept G s C) (hs : SavedIn s) (n : ℕ) (V : Set ℕ) :
    Kept G (s.openSavepoint n) (images G V s (s.openSavepoint n) C) := by
  have hlen : (s.openSavepoint n).savepoints.length = s.savepoints.length + (n - s.savepoints.length) := by
    simp [FilePager.openSavepoint]
  have hC : images G V s (s.openSavepoint n) C =
      C.map (Image.waive V) ++ List.replicate (n - s.savepoints.length) ⟨s.dbSize, s.content, Loose G s⟩ := by
    rw [images, hlen, Nat.add_sub_cancel_left, List.take_of_length_le]
    rw [List.length_map, h.keeps.length]
    exact Nat.le_add_right _ _
  rw [hC]
  refine ⟨(h.waive V).keeps.pushMany (fun sp hsp => hs _ (List.mem_map_of_mem hsp)) _ _, fun i hi q hq hl => ?_, h.opened⟩
  rcases List.mem_append.1 hi with hi | hi
  · exact (h.waive V).loose i hi q hq hl
  · rw [List.eq_of_mem_replicate hi]
    exact hl

/-- The savepoints from `m` on are gone. -/
theorem images_take {m : ℕ} (hl : s'.savepoints = s.savepoints.take m) (hC : C.length = s.savepoints.length) :
    images G V s s' C = (C.map (Image.waive V)).take m := by
  have hlen : s'.savepoints.length ≤ s.savepoints.length := by
    rw [hl]
    exact List.length_take_le' _ _
  rw [images, Nat.sub_eq_zero_of_le hlen, List.replicate_zero, List.append_nil, hl, List.length_take]
  rcases Nat.le_total m s.savepoints.length with hm | hm
  · rw [Nat.min_eq_left hm]
  · rw [Nat.min_eq_right hm, List.take_of_length_le, List.take_of_length_le]
    · simpa [hC] using hm
    · simp [hC]

theorem Kept.release (h : Kept G s C) (m : ℕ) :
    Kept G (s.sqlite3PagerSavepoint k .release (some m))
      (images G V s (s.sqlite3PagerSavepoint k .release (some m)) C) := by
  have hV := h.waive V
  have hC : (C.map (Image.waive V)).length = s.savepoints.length := hV.keeps.length
  unfold sqlite3PagerSavepoint
  simp only
  split
  · rw [images_take List.take_length.symm h.keeps.length, ← hC, List.take_length]
    exact hV
  · rename_i rel l hrel
    have hsp : ∀ t : List (ℕ × PageImage), ({ s with savepoints := s.savepoints.take m, sjfd := t } :
        FilePager).savepoints = s.savepoints.take m := fun _ => rfl
    rw [images_take (hsp _) h.keeps.length]
    have hl : ∀ i ∈ (C.map (Image.waive V)).take m, ∀ q, q ≤ i.size → q ∈ Loose G s → q ∈ i.waived := fun i hi =>
      hV.loose i (List.mem_of_mem_take hi)
    split_ifs with ht
    · exact ⟨hV.keeps.cut hrel ht, hl, h.opened⟩
    · exact ⟨hV.keeps.take m, hl, h.opened⟩

/-! ## Rollbacks -/

/-- What a rollback to an image of `n` pages does, after which reads return `g` and the savepoints in `l` are
open. -/
structure RolledBack (l : List Savepoint) (n : ℕ) (g : ℕ → PageImage) (s s' : FilePager) : Prop where
  books : s'.books = { s.books with savepoints := l }
  isOpenJfd : s'.isOpenJfd = s.isOpenJfd
  dbOrigSize : s'.dbOrigSize = s.dbOrigSize
  dbSize : s'.dbSize = n
  eState : s'.eState = s.eState
  dontWrite : ∀ q, s'.has (·.dontWrite) q = s.has (·.dontWrite) q
  content : ∀ q, q ≤ n → s'.content q = g q

/-- Where a playback begins. -/
def playbackStart (l : List Savepoint) (n : ℕ) (s : FilePager) : FilePager :=
  { s with savepoints := l, dbSize := n, changeCountDone := false }

theorem PutBack.rolledBack {l : List Savepoint} {g : ℕ → PageImage} (hp : PutBack (playbackStart l n s) s')
    (hJ : SameJournals (playbackStart l n s) s') (hg : ∀ q, q ≤ n → s'.content q = g q) : RolledBack l n g s s' :=
  ⟨hp.books, hp.isOpenJfd, hJ.dbOrigSize, hJ.dbSize, hJ.eState, hp.dontWrite, hg⟩

theorem Sound.playbackStart {l : List Savepoint} (h : Sound k G 0 s) (hl : l ⊆ s.savepoints) :
    Sound k (G ∪ {q | s.dbSize < q ∧ q ≤ n}) 0 (playbackStart l n s) :=
  { h.resize (n := n) (b := false) with savedLe := fun sp hsp => h.savedLe sp (hl hsp) }

theorem Kept.rolledBack (h : Kept G s C) (hC : Consistent k G s) (hs : SavedIn s) (hI : Idle s) {m : ℕ}
    {l : List Savepoint} (hm : s.savepoints.drop m = sp :: l) :
    RolledBack (s.savepoints.take (m + 1)) sp.nOrig (before (s.books.log sp) s.content) s
      (s.sqlite3PagerSavepoint k .rollback (some m)) := by
  have hsp : sp ∈ s.savepoints := List.mem_of_mem_drop (hm ▸ List.mem_cons_self)
  have hle : sp.nOrig ≤ s.dbSize := hs _ (List.mem_map_of_mem hsp)
  simp only [sqlite3PagerSavepoint, hm]
  split_ifs with hj
  · have h1 := hC.sound.playbackStart (n := sp.nOrig) (List.take_subset (m + 1) s.savepoints)
    obtain ⟨t, ht⟩ : ∃ t, t = FilePager.playbackStart (s.savepoints.take (m + 1)) sp.nOrig s := ⟨_, rfl⟩
    rw [← ht] at h1
    have ht1 : Together k 0 t := ht ▸ hC.together.congr hC.sound rfl rfl fun _ => rfl
    have hl : ∀ r ∈ t.mainRecords sp.iOffset ++ t.subRecords sp.iSubRec, IsRecord t r := fun r hr =>
      (List.mem_append.1 hr).elim isRecord_main isRecord_sub
    obtain ⟨hp, hc⟩ := h1.playback_undo (d := []) ht1 hl
    obtain ⟨-, -, hJ⟩ := h1.playback (d := some []) ht1 hl
    have he : pagerPlaybackSavepoint k { s with savepoints := s.savepoints.take (m + 1) } (some sp) =
        FilePager.playback k (t.mainRecords sp.iOffset ++ t.subRecords sp.iSubRec) t (some []) := by
      rw [ht]
      rfl
    have hlog : (t.mainRecords sp.iOffset ++ t.subRecords sp.iSubRec).map Prod.snd = s.books.log sp := by
      rw [List.map_append, mainRecords_snd, subRecords_snd, ht]
      rfl
    rw [he]
    refine PutBack.rolledBack (ht ▸ hp) (ht ▸ hJ) fun q hq => ?_
    have hq' : decide (q ≤ t.dbSize) = true ∧ q ∉ [] := ⟨decide_eq_true (by rw [ht]; exact hq), List.not_mem_nil⟩
    have hct : t.content q = s.content q := content_congr (by rw [ht]; rfl) (by rw [ht]; rfl) (hq.trans hle)
      (by rw [ht]; exact hq)
    rw [hc, hlog, undo_eq, if_pos hq']
    exact before_congr fun _ => hct
  · have hlk := h.opened.resolve_left hj
    obtain ⟨-, -, hjn, hsn⟩ := hC.sound.quiet hlk
    obtain ⟨hd, -, hn⟩ := hI hlk
    refine ⟨rfl, rfl, rfl, hd.trans (hn sp hsp).symm, rfl, fun _ => rfl, fun q _ => ?_⟩
    have hlog : s.books.log sp = [] := by simp [Books.log, books, hjn, hsn]
    rw [hlog]
    rfl

theorem Kept.rolledBack_all (h : Kept G s C) (hC : Consistent k G s) (hI : Idle s) :
    RolledBack [] s.dbOrigSize (UndoLog.restore s.jfd s.content) s (s.sqlite3PagerSavepoint k .rollback none) := by
  simp only [sqlite3PagerSavepoint]
  split_ifs with hj
  · have h1 := hC.sound.playbackStart (n := s.dbOrigSize) (List.nil_subset s.savepoints)
    obtain ⟨t, ht⟩ : ∃ t, t = FilePager.playbackStart [] s.dbOrigSize s := ⟨_, rfl⟩
    rw [← ht] at h1
    have ht1 : Together k 0 t := ht ▸ hC.together.congr hC.sound rfl rfl fun _ => rfl
    have hl : ∀ r ∈ t.mainRecords 0, IsRecord t r := fun r => isRecord_main
    have hlog : (t.mainRecords 0).map Prod.snd = s.jfd := by
      rw [mainRecords_snd, ht]
      rfl
    have hle : ∀ r ∈ t.mainRecords 0, r.2.1 ≤ t.dbSize := fun r hr => by
      have hr' : r.2 ∈ s.jfd := hlog ▸ List.mem_map_of_mem hr
      rw [ht]
      exact (hC.sound.inJournal _ (hC.sound.mainIn r.2 hr')).1
    obtain ⟨hp, hc⟩ := h1.playback_restore ht1 hl hle
    obtain ⟨-, -, hJ⟩ := h1.playback (d := none) ht1 hl
    have he : pagerPlaybackSavepoint k { s with savepoints := [] } none =
        FilePager.playback k (t.mainRecords 0) t none := by
      rw [ht]
      rfl
    rw [he]
    refine PutBack.rolledBack (ht ▸ hp) (ht ▸ hJ) fun q hq => ?_
    rw [hc, hlog]
    exact UndoLog.restore_congr (content_congr (by rw [ht]; rfl) (by rw [ht]; rfl) (hq.trans hC.origLe)
      (by rw [ht]; exact hq))
  · have hlk := h.opened.resolve_left hj
    obtain ⟨-, -, hjn, -⟩ := hC.sound.quiet hlk
    refine ⟨rfl, rfl, rfl, (hI hlk).1, rfl, fun _ => rfl, fun q _ => ?_⟩
    rw [hjn]
    rfl

/-- What is played back for a savepoint is in the part of each savepoint before it. -/
theorem Keeps.log_subset {N : ℕ} {b : Books} {f : ℕ → PageImage} (h : Keeps N b f C) {m : ℕ} {l : List Savepoint}
    (hm : b.savepoints.drop m = sp :: l) {y : Savepoint × Image}
    (hy : y ∈ (b.savepoints.take (m + 1)).zip (C.take (m + 1))) : b.log sp ⊆ b.log y.1 := by
  have hzip : (b.savepoints.take (m + 1)).zip (C.take (m + 1)) = (b.savepoints.zip C).take (m + 1) :=
    List.take_zipWith.symm
  obtain ⟨i, C', -, hsplit⟩ := h.split hm
  have hlt : m < (b.savepoints.zip C).length := by
    have := congrArg List.length hm
    rw [List.length_drop, List.length_cons] at this
    rw [List.length_zip, h.length, Nat.min_self]
    omega
  have hsub : y.1.iOffset ≤ sp.iOffset ∧ y.1.iSubRec ≤ sp.iSubRec := by
    rw [hzip, hsplit, List.take_append, List.length_take, Nat.min_eq_left hlt.le, List.take_take,
      Nat.min_eq_right (Nat.le_succ m), Nat.add_sub_cancel_left] at hy
    rcases List.mem_append.1 hy with hy | hy
    · have hnest := h.nested
      rw [hsplit, List.pairwise_append] at hnest
      have hn := hnest.2.2 y hy _ List.mem_cons_self
      exact ⟨hn.iOffset, hn.iSubRec⟩
    · rw [List.take_succ_cons, List.take_zero, List.mem_singleton] at hy
      rw [hy]
      exact ⟨le_rfl, le_rfl⟩
  refine List.append_subset.2 ⟨fun r hr => List.mem_append_left _ ?_, fun r hr => List.mem_append_right _ ?_⟩
  · exact (List.drop_sublist_drop_left _ hsub.1).subset hr
  · exact (List.drop_sublist_drop_left _ hsub.2).subset hr

/-- A savepoint that stays open is not about a larger image, and its part of the journals is longer. -/
theorem Kept.rollback_some (h : Kept G s C) (hC : Consistent k G s) (ha : Ahead k W F s) (hI : Idle s) {m : ℕ}
    {l : List Savepoint} (hm : s.savepoints.drop m = sp :: l) :
    Kept (G ∪ grown s (s.sqlite3PagerSavepoint k .rollback (some m))) (s.sqlite3PagerSavepoint k .rollback (some m))
      (images G V s (s.sqlite3PagerSavepoint k .rollback (some m)) C) := by
  have hR := h.rolledBack hC ha.saved hI hm
  obtain ⟨t, ht⟩ : ∃ t, t = s.sqlite3PagerSavepoint k .rollback (some m) := ⟨_, rfl⟩
  rw [← ht] at hR ⊢
  have hsp : t.savepoints = s.savepoints.take (m + 1) := congrArg Books.savepoints hR.books
  have hV := h.waive V
  have hK : Keeps s.dbOrigSize { s.books with savepoints := s.books.savepoints.take (m + 1) } s.content
      ((C.map (Image.waive V)).take (m + 1)) := hV.keeps.take (m + 1)
  rw [images_take hsp h.keeps.length]
  refine ⟨?_, fun i hi q hq hl => ?_, ?_⟩
  · rw [hR.dbOrigSize, hR.books]
    refine hK.congr fun y hy q hq _ hn => .of_eq ?_
    have hle : y.1.nOrig ≤ sp.nOrig := ha.take_le hm _ (List.mem_map_of_mem (List.of_mem_zip hy).1)
    have hnot : q ∉ (s.books.log sp).map Prod.fst := fun hq =>
      hn (List.map_subset _ (hV.keeps.log_subset hm hy) hq)
    rw [hR.content q (hq.trans hle), before, first_eq_none.2 hnot]
    rfl
  · refine hV.loose i (List.mem_of_mem_take hi) q hq (hl.imp (fun hq => (hR.dontWrite q).symm.trans hq) fun hg => ?_)
    exact hg.resolve_right fun hg => Nat.not_lt.2 (hq.trans (hV.size_le ha.saved (List.mem_of_mem_take hi))) hg.1
  · rw [hR.isOpenJfd, hR.eState]
    exact h.opened

theorem Kept.rollback (h : Kept G s C) (hC : Consistent k G s) (ha : Ahead k W F s) (hI : Idle s) (j : Option ℕ) :
    Kept (G ∪ grown s (s.sqlite3PagerSavepoint k .rollback j)) (s.sqlite3PagerSavepoint k .rollback j)
      (images G V s (s.sqlite3PagerSavepoint k .rollback j) C) := by
  rcases j with _ | m
  · have hR := h.rolledBack_all hC hI
    obtain ⟨t, ht⟩ : ∃ t, t = s.sqlite3PagerSavepoint k .rollback none := ⟨_, rfl⟩
    rw [← ht] at hR ⊢
    have hsp : t.savepoints = s.savepoints.take 0 := congrArg Books.savepoints hR.books
    have hK := h.keeps.take 0
    rw [images_take hsp h.keeps.length, List.take_zero]
    refine ⟨?_, by simp, ?_⟩
    · rw [hR.dbOrigSize, hR.books]
      exact ⟨rfl, by simp, by simp, by simp, hK.subIn⟩
    · rw [hR.isOpenJfd, hR.eState]
      exact h.opened
  · cases hm : s.savepoints.drop m with
    | cons sp l => exact h.rollback_some hC ha hI hm
    | nil =>
      have he : s.sqlite3PagerSavepoint k .rollback (some m) = s := by simp only [sqlite3PagerSavepoint, hm]
      have hV := h.waive V
      have hlen : (C.map (Image.waive V)).length = s.savepoints.length := hV.keeps.length
      rw [he, images_take List.take_length.symm h.keeps.length, ← hlen, List.take_length]
      exact hV.anti (Set.union_subset (fun _ => id) fun q hq => absurd (hq.1.trans_le hq.2) (lt_irrefl _))

/-! ## Runs -/

/-- A call that opens and closes no savepoint. -/
theorem Kept.images {G' : Set ℕ} (h : Kept G s C) (h' : Kept G' s' (C.map (Image.waive V))) :
    Kept G' s' (images G V s s' C) := by
  have h1 : C.length = s.savepoints.length := h.keeps.length
  have h2 : (C.map (Image.waive V)).length = s'.savepoints.length := h'.keeps.length
  rw [List.length_map] at h2
  have hlen : s'.savepoints.length = s.savepoints.length := h2.symm.trans h1
  rw [FilePager.images, hlen, Nat.sub_self, List.replicate_zero, List.append_nil, List.take_of_length_le]
  · exact h'
  · rw [List.length_map, h1]

theorem Kept.call {Y : Set ℕ} (h : Kept G s C) (hC : Consistent k G s) (ha : Ahead k W F s) (hI : Idle s) (hVW : V ⊆ W)
    (hc : Call k V D s Y s') : Kept (G ∪ grown s s') s' (FilePager.images G V s s' C) := by
  have hstay : ∀ {t : FilePager} {C' : List Image}, t.dbSize = s.dbSize → Kept G t C' → Kept (G ∪ grown s t) t C' :=
    fun ht h' => h'.anti (Set.union_subset (fun _ => id) fun q hq =>
      absurd (hq.1.trans_le (hq.2.trans_eq ht)) (lt_irrefl _))
  cases hc with
  | read hp =>
    simp only [sqlite3PagerGet, Bool.false_eq_true, if_false] at hp
    split_ifs at hp
    obtain rfl := Option.some.inj hp
    exact h.images ((h.getPage ha.saved).waive V)
  | write hp hw => exact h.images (h.getWrite hC ha hp hw hVW)
  | modify a hp => exact h.images (hstay rfl ((h.setData hp.saved a).waive V))
  | dontWrite _ => exact h.images ((h.dontWrite ha.saved).waive V)
  | stress hp => exact h.images (hstay pagerStress_sizes.2 ((h.stress hC.sound ha.saved hp).waive V))
  | evict hp => exact h.images ((h.evict hC ha.saved hp).waive V)
  | exchange hab hpa hpb => exact h.images (hstay exchange_sizes.2.1 ((h.exchange hC.sound hab hpa hpb).waive V))
  | openSavepoint n => exact hstay rfl (h.openSavepoint ha.saved n V)
  | release m =>
    refine hstay ?_ (h.release m)
    simp only [sqlite3PagerSavepoint]
    split <;> rfl
  | rollback j => exact h.rollback hC ha hI j
  | busy hl => exact h.images ((h.incrChangecounter hC ha).waive V)

theorem Imaged.kept (h₀ : Begun k s₀) (h : Imaged k s₀ s G W C) : Kept G s C := by
  induction h with
  | start =>
    have hb : s₀.books.savepoints = [] := h₀.savepoints
    have hs : s₀.books.sjfd = [] := h₀.sjfd
    exact ⟨⟨by simp [hb], by simp [hb], by simp [hb], by simp [hb], by simp [hs]⟩, by simp, .inr h₀.locked⟩
  | @call s s' G W V Y C h hc ih =>
    have ha := (h.ahead h₀).1.mono (Set.subset_union_left (s := W) (t := V))
    have h1 := ih.call (h.run.consistent h₀) ha (h.run.idle h₀) Set.subset_union_right hc
    exact h1.anti fun q hq => hq.1

end Btreelite.FilePager
