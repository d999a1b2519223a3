import Btreelite.WalProtocol

/-!
# What the shared files show

A reader takes a page from the last frame of its range that holds it, or from the database file.
Every range that starts no later than the frame after the last one copied back shows the
committed state; here each kind of store of the protocol keeps that.
-/

namespace Btreelite

variable {α : Type} {log : List ℕ} {minFrame mxFrame p : ℕ} {own : List (ℕ × α)}

/-! ## Frames of a page -/

theorem framesOf_zero : framesOf log minFrame 0 p = ∅ :=
  Set.eq_empty_of_forall_notMem fun i ⟨h0, _, h2, _⟩ => by omega

theorem exists_isLatest (log : List ℕ) (minFrame p : ℕ) :
    ∀ mxFrame, ∃ r, IsLatest (framesOf log minFrame mxFrame p) r
  | 0 => ⟨0, .inr ⟨framesOf_zero, rfl⟩⟩
  | n + 1 => by
    by_cases hn : minFrame ≤ n + 1 ∧ log[n]? = some p
    · exact ⟨n + 1, .inl ⟨⟨by omega, hn.1, le_rfl, hn.2⟩, fun i hi => hi.2.2.1⟩⟩
    · obtain ⟨r, hr⟩ := exists_isLatest log minFrame p n
      refine ⟨r, ?_⟩
      have he : framesOf log minFrame (n + 1) p = framesOf log minFrame n p := by
        ext i
        constructor
        · intro ⟨h0, h1, h2, h3⟩
          refine ⟨h0, h1, ?_, h3⟩
          rcases Nat.lt_or_eq_of_le h2 with hlt | rfl
          · omega
          · exact absurd ⟨h1, h3⟩ hn
        · intro ⟨h0, h1, h2, h3⟩
          exact ⟨h0, h1, by omega, h3⟩
      rwa [he]

theorem IsLatest.mem {s : Set ℕ} {r : ℕ} (h : IsLatest s r) (hr : r ≠ 0) : r ∈ s :=
  (h.resolve_right fun he => hr he.2).1

theorem IsLatest.le {s : Set ℕ} {r i : ℕ} (h : IsLatest s r) (hi : i ∈ s) : i ≤ r := by
  rcases h with hg | ⟨he, -⟩
  · exact hg.2 hi
  · exact absurd (he ▸ hi) (Set.notMem_empty i)

theorem isLatest_of_mem {s : Set ℕ} {r : ℕ} (hr : r ∈ s) (h : ∀ i ∈ s, i ≤ r) : IsLatest s r :=
  .inl ⟨hr, h⟩

theorem framesOf_eq_empty (h : mxFrame < minFrame) : framesOf log minFrame mxFrame p = ∅ :=
  Set.eq_empty_of_forall_notMem fun i ⟨_, h1, h2, _⟩ => by omega

theorem IsLatest.eq_zero {r : ℕ} (h : IsLatest (framesOf log minFrame 0 p) r) : r = 0 := by
  by_contra hr
  have := framesOf_zero ▸ h.mem hr
  exact this

theorem mem_framesOf {f : ℕ} (hf : 0 < f) (hmin : minFrame ≤ f) (hmx : f ≤ mxFrame)
    (hp : log[f - 1]? = some p) : f ∈ framesOf log minFrame mxFrame p := ⟨hf, hmin, hmx, hp⟩

theorem le_length_of_getElem? {f : ℕ} (hp : log[f - 1]? = some p) : f ≤ log.length := by
  obtain ⟨h, -⟩ := List.getElem?_eq_some_iff.1 hp
  omega

/-! ## The frames of a transaction -/

theorem written_eq_none_iff : ∀ {own : List (ℕ × α)},
    written own p = none ↔ ∀ x ∈ own, x.1 ≠ p
  | [] => by simp [written]
  | x :: own => by
    have ih := @written_eq_none_iff own
    cases hw : written own p with
    | some b =>
      have hsome : ¬ ∀ x ∈ own, x.1 ≠ p := fun h => by simp [ih.2 h] at hw
      simp only [written, hw, Option.orElse, reduceCtorEq, List.mem_cons, forall_eq_or_imp,
        hsome, and_false]
    | none =>
      simp only [written, hw, Option.orElse, List.mem_cons, forall_eq_or_imp, ite_eq_right_iff,
        reduceCtorEq, imp_false, ne_eq]
      exact and_iff_left (ih.1 hw) |>.symm

theorem written_eq_some {a : α} : ∀ {own : List (ℕ × α)}, written own p = some a →
    ∃ j : ℕ, own[j]? = some (p, a) ∧ ∀ k x, j < k → own[k]? = some x → x.1 ≠ p
  | [], h => by simp [written] at h
  | y :: own, h => by
    unfold written at h
    cases hw : written own p with
    | some b =>
      rw [hw] at h
      obtain rfl : b = a := by simpa using h
      obtain ⟨j, hj, hlater⟩ := written_eq_some hw
      refine ⟨j + 1, hj, fun k x hk hx => ?_⟩
      obtain ⟨k, rfl⟩ : ∃ n, k = n + 1 := ⟨k - 1, by omega⟩
      exact hlater k x (by omega) hx
    | none =>
      rw [hw] at h
      obtain ⟨q, b⟩ := y
      obtain ⟨rfl, rfl⟩ : q = p ∧ b = a := by simpa using h
      refine ⟨0, rfl, fun k x hk hx => ?_⟩
      obtain ⟨k, rfl⟩ : ∃ n, k = n + 1 := ⟨k - 1, by omega⟩
      exact written_eq_none_iff.1 hw x (List.mem_of_getElem? hx)

/-- Among the frames of a log and those of a transaction after it, the latest of a page is the last
the transaction wrote, or else the latest of the log. -/
theorem IsLatest.transaction {r n : ℕ} (hn : n = log.length + own.length)
    (h : IsLatest (framesOf (log ++ own.map Prod.fst) minFrame n p) r) :
    (∀ a, written own p = some a → minFrame ≤ log.length + 1 →
      ∃ j, r = log.length + j + 1 ∧ own[j]? = some (p, a)) ∧
    (written own p = none → IsLatest (framesOf log minFrame log.length p) r) := by
  subst hn
  have hget : ∀ j, (log ++ own.map Prod.fst)[log.length + j]? = (own[j]?).map Prod.fst := by
    intro j
    rw [List.getElem?_append_right (by omega), List.getElem?_map]
    congr 2
    omega
  constructor
  · intro a ha hmin
    obtain ⟨j, hj, hlater⟩ := written_eq_some ha
    have hlt : j < own.length := (List.getElem?_eq_some_iff.1 hj).1
    have hmem : log.length + j + 1 ∈
        framesOf (log ++ own.map Prod.fst) minFrame (log.length + own.length) p := by
      refine mem_framesOf (by omega) (by omega) (by omega) ?_
      rw [Nat.add_sub_cancel, hget, hj]
      rfl
    have hle := h.le hmem
    have hr := h.mem (by omega)
    refine ⟨r - log.length - 1, by omega, ?_⟩
    rcases Nat.lt_or_eq_of_le hle with hlt' | he
    · exfalso
      obtain ⟨-, -, -, hp⟩ := hr
      rw [show r - 1 = log.length + (r - log.length - 1) by omega, hget] at hp
      obtain ⟨x, hx, hxp⟩ := Option.map_eq_some_iff.1 hp
      exact hlater _ x (by omega) hx hxp
    · rw [← he, show log.length + j + 1 - log.length - 1 = j by omega]
      exact hj
  · intro hnone
    have he : framesOf (log ++ own.map Prod.fst) minFrame (log.length + own.length) p
        = framesOf log minFrame log.length p := by
      rw [← framesOf_append (le_refl log.length)]
      ext i
      constructor
      · intro ⟨h0, h1, h2, h3⟩
        refine ⟨h0, h1, ?_, h3⟩
        by_contra hgt
        rw [show i - 1 = log.length + (i - log.length - 1) by omega, hget] at h3
        obtain ⟨x, hx, hxp⟩ := Option.map_eq_some_iff.1 h3
        exact written_eq_none_iff.1 hnone x (List.mem_of_getElem? hx) hxp
      · intro ⟨h0, h1, h2, h3⟩
        exact ⟨h0, h1, by omega, h3⟩
    rwa [he] at h

/-! ## What a range of frames shows -/

namespace WalShared

/-- A reader of the frames from `minFrame` to `mxFrame` sees the state `d`. -/
def Shows (σ : WalShared α) (minFrame mxFrame : ℕ) (d : DbState α) : Prop :=
  ∀ p a, d p = some a → ∀ r, IsLatest (framesOf σ.log minFrame mxFrame p) r → σ.pageAt p r = a

/-- `h` has been the header of this generation of the log. -/
structure Past (σ : WalShared α) (h : Hdr) : Prop where
  mxFrame : h.mxFrame ≤ σ.hdr0.mxFrame
  last : h.mxFrame = σ.hdr0.mxFrame → h = σ.hdr0
  /-- The database has grown only by pages that have frames since. -/
  pages : ∀ p a, σ.state p = some a →
    p ≤ h.nPage ∨ ∃ f, h.mxFrame < f ∧ σ.log[f - 1]? = some p

/-- `h` has been the header. -/
def Seen (σ : WalShared α) (h : Hdr) : Prop :=
  h.aSalt ≤ σ.hdr0.aSalt ∧ (h.aSalt = σ.hdr0.aSalt → σ.Past h)

/-- The shared invariant. -/
structure Ok (σ : WalShared α) : Prop where
  length : σ.log.length = σ.hdr0.mxFrame
  indexes : Indexes σ.apWiData σ.log
  shows : ∀ minFrame ≤ σ.nBackfill + 1, σ.Shows minFrame σ.hdr0.mxFrame σ.state
  pages : ∀ p a, σ.state p = some a → p ≤ σ.hdr0.nPage

variable {σ : WalShared α} {d : DbState α} {h : Hdr} {n : ℕ}

theorem Ok.seen (hσ : σ.Ok) : σ.Seen σ.hdr0 :=
  ⟨le_rfl, fun _ => ⟨le_rfl, fun _ => rfl, fun p a hp => .inl (hσ.pages p a hp)⟩⟩

theorem Seen.past (hs : σ.Seen h) (he : h.aSalt = σ.hdr0.aSalt) : σ.Past h := hs.2 he

/-- What a range without frames shows is in the database file. -/
theorem Shows.db (hd : σ.Shows minFrame mxFrame d) (hlt : mxFrame < minFrame) {a : α}
    (ha : d p = some a) : σ.db p = a :=
  hd p a ha 0 (.inr ⟨framesOf_eq_empty hlt, rfl⟩)

theorem Shows.setWal {wal : ℕ → α} (hd : σ.Shows minFrame mxFrame d)
    (hw : ∀ f, 0 < f → f ≤ mxFrame → wal f = σ.wal f) : (σ.setWal wal).Shows minFrame mxFrame d := by
  intro p a ha r hr
  have := hd p a ha r hr
  unfold pageAt at this ⊢
  split_ifs at this ⊢ with h0
  · exact this
  · rw [← this]
    exact hw r (hr.mem h0).1 (hr.mem h0).2.2.1

/-- A page of the database file may change when it has a frame in the range. -/
theorem Shows.setDb {db : ℕ → α} (hd : σ.Shows minFrame mxFrame d)
    (hdb : ∀ p a, d p = some a →
      (∃ f, f ∈ framesOf σ.log minFrame mxFrame p) ∨ db p = σ.db p) :
    (σ.setDb db).Shows minFrame mxFrame d := by
  intro p a ha r hr
  have := hd p a ha r hr
  unfold pageAt at this ⊢
  split_ifs at this ⊢ with h0
  · rcases hdb p a ha with ⟨f, hf⟩ | he
    · have := hr.le hf
      have := hf.1
      omega
    · exact he.trans this
  · exact this

theorem Shows.commit {pgnos : List ℕ} {st : DbState α} (hd : σ.Shows minFrame mxFrame d)
    (hmx : mxFrame ≤ σ.log.length) : (σ.commit h pgnos st).Shows minFrame mxFrame d := by
  intro p a ha r hr
  refine hd p a ha r ?_
  rwa [← framesOf_append hmx]

theorem Shows.restart (hd : σ.Shows minFrame 0 d) : (σ.restart h).Shows minFrame 0 d := by
  intro p a ha r hr
  obtain rfl := hr.eq_zero
  exact hd p a ha 0 (.inr ⟨framesOf_zero, rfl⟩)

/-! ## Stores that keep the invariant -/

theorem Ok.setMark {i : ℕ} {v : Option ℕ} (hσ : σ.Ok) : (σ.setMark i v).Ok :=
  ⟨hσ.length, hσ.indexes, hσ.shows, hσ.pages⟩

theorem Ok.setHdr1 (hσ : σ.Ok) : (σ.setHdr1 h).Ok :=
  ⟨hσ.length, hσ.indexes, hσ.shows, hσ.pages⟩

theorem Ok.setIndex {w : WalIndex} (hσ : σ.Ok) (hw : Indexes w σ.log) : (σ.setIndex w).Ok :=
  ⟨hσ.length, hw, hσ.shows, hσ.pages⟩

theorem Ok.setWal {wal : ℕ → α} (hσ : σ.Ok)
    (hw : ∀ f, 0 < f → f ≤ σ.hdr0.mxFrame → wal f = σ.wal f) :
    (σ.setWal wal).Ok :=
  ⟨hσ.length, hσ.indexes, fun m hm => (hσ.shows m hm).setWal hw, hσ.pages⟩

theorem Ok.setDb {db : ℕ → α} (hσ : σ.Ok)
    (hdb : ∀ p a, σ.state p = some a →
      (∃ f, f ∈ framesOf σ.log (σ.nBackfill + 1) σ.hdr0.mxFrame p) ∨ db p = σ.db p) :
    (σ.setDb db).Ok := by
  refine ⟨hσ.length, hσ.indexes, fun m hm => (hσ.shows m hm).setDb fun p a ha => ?_, hσ.pages⟩
  refine (hdb p a ha).imp_left fun ⟨f, h0, h1, h2, h3⟩ => ⟨f, h0, ?_, h2, h3⟩
  exact le_trans hm h1

theorem Ok.setBackfill_le (hσ : σ.Ok) (hn : n ≤ σ.nBackfill) : (σ.setBackfill n).Ok := by
  refine ⟨hσ.length, hσ.indexes, fun m hm => hσ.shows m ?_, hσ.pages⟩
  have : m ≤ n + 1 := hm
  omega

/-- The pages below `b` whose last frame up to `h` is to be copied have it in the database file. -/
def Copied (σ : WalShared α) (h : Hdr) (s b : ℕ) : Prop :=
  ∀ p < b, p ≤ h.nPage → ∀ g, IsLatest (framesOf σ.log 0 h.mxFrame p) g → σ.nBackfill < g →
    g ≤ s → σ.db p = σ.wal g

/-- What a checkpoint of an old header copied up to frame `s` need not be read from the log. -/
theorem Ok.publish {s : ℕ} (hσ : σ.Ok) (hp : σ.Past h) (hs : s ≤ h.mxFrame)
    (hall : ∀ b, σ.Copied h s b) : (σ.setBackfill s).Ok := by
  refine ⟨hσ.length, hσ.indexes, fun m hm p a ha r hr => ?_, hσ.pages⟩
  have hm' : m ≤ s + 1 := hm
  change IsLatest (framesOf σ.log m σ.hdr0.mxFrame p) r at hr
  change σ.pageAt p r = a
  rcases Nat.lt_or_ge (σ.nBackfill + 1) m with hlt | hge
  swap
  · exact hσ.shows m hge p a ha r hr
  obtain ⟨g, hg⟩ := exists_isLatest σ.log (σ.nBackfill + 1) p σ.hdr0.mxFrame
  have hga := hσ.shows _ le_rfl p a ha
  by_cases hr0 : r = 0
  · have hlow : ∀ i ∈ framesOf σ.log (σ.nBackfill + 1) σ.hdr0.mxFrame p, i < m := by
      intro i ⟨h0, h1, h2, h3⟩
      by_contra hge
      have := hr.le (mem_framesOf h0 (Nat.not_lt.1 hge) h2 h3)
      omega
    subst hr0
    by_cases hg0 : g = 0
    · exact hga 0 (hg0 ▸ hg)
    · -- the last frame of the page was copied
      obtain ⟨h0, h1, h2, h3⟩ := hg.mem hg0
      have hgm := hlow g ⟨h0, h1, h2, h3⟩
      have hlatest : IsLatest (framesOf σ.log 0 h.mxFrame p) g := by
        refine isLatest_of_mem (mem_framesOf h0 (Nat.zero_le _) (by omega) h3) ?_
        intro i ⟨i0, _, i2, i3⟩
        by_cases hi : σ.nBackfill + 1 ≤ i
        · exact hg.le (mem_framesOf i0 hi (i2.trans hp.mxFrame) i3)
        · omega
      have hpage : p ≤ h.nPage := by
        rcases hp.pages p a ha with hle | ⟨f, hf, hfp⟩
        · exact hle
        · have hfl := le_length_of_getElem? hfp
          rw [hσ.length] at hfl
          have := hg.le (mem_framesOf (by omega) (by omega) hfl hfp)
          omega
      have hcopy := hall (p + 1) p (Nat.lt_succ_self p) hpage g hlatest h1 (by omega)
      have hwal := hga g hg
      rw [pageAt, if_neg hg0] at hwal
      rw [pageAt, if_pos rfl, hcopy, hwal]
  · obtain ⟨h0, h1, h2, h3⟩ := hr.mem hr0
    refine hga r (isLatest_of_mem (mem_framesOf h0 (by omega) h2 h3) ?_)
    intro i ⟨i0, i1, i2, i3⟩
    by_cases hi : m ≤ i
    · exact hr.le (mem_framesOf i0 hi i2 i3)
    · omega

theorem Ok.restart (hσ : σ.Ok) (hb : σ.hdr0.mxFrame ≤ σ.nBackfill) :
    (σ.restart σ.hdr0.restart).Ok := by
  refine ⟨rfl, Indexes.nil _, fun m _ p a ha r hr => ?_, hσ.pages⟩
  obtain rfl : r = 0 := IsLatest.eq_zero hr
  exact (hσ.shows (σ.hdr0.mxFrame + 1) (by omega)).db (Nat.lt_succ_self _) ha

theorem DbState.apply_eq_some {a : α} (ha : d.apply own n p = some a) :
    p ≤ n ∧ (written own p = some a ∨ (written own p = none ∧ d p = some a)) := by
  unfold DbState.apply at ha
  split_ifs at ha with hp
  · refine ⟨hp.2, ?_⟩
    cases hw : written own p with
    | some b =>
      rw [hw] at ha
      exact .inl ha
    | none =>
      rw [hw] at ha
      exact .inr ⟨rfl, ha⟩

theorem Ok.commit (hσ : σ.Ok) (hmx : h.mxFrame = σ.hdr0.mxFrame + own.length)
    (hw : Indexes σ.apWiData (σ.log ++ own.map Prod.fst))
    (hown : ∀ (j : ℕ) x, own[j]? = some x → σ.wal (σ.hdr0.mxFrame + j + 1) = x.2)
    (hb : σ.nBackfill ≤ σ.hdr0.mxFrame) :
    (σ.commit h (own.map Prod.fst) (σ.state.apply own h.nPage)).Ok := by
  have hlen : (σ.log ++ own.map Prod.fst).length = h.mxFrame := by
    rw [List.length_append, List.length_map, hσ.length, hmx]
  refine ⟨hlen, hw, fun m hm p a ha r hr => ?_, fun p a ha => (DbState.apply_eq_some ha).1⟩
  have hm' : m ≤ σ.nBackfill + 1 := hm
  change IsLatest (framesOf (σ.log ++ own.map Prod.fst) m h.mxFrame p) r at hr
  change σ.pageAt p r = a
  obtain ⟨hsome, hnone⟩ := hr.transaction (by rw [hσ.length, hmx])
  rcases (DbState.apply_eq_some ha).2 with hwr | ⟨hwr, hold⟩
  · obtain ⟨j, rfl, hj⟩ := hsome a hwr (by rw [hσ.length]; omega)
    rw [pageAt, if_neg (by omega), hσ.length]
    exact hown j _ hj
  · have := hnone hwr
    rw [hσ.length] at this
    exact hσ.shows m hm' p a hold r this

/-! ## Headers seen before -/

theorem Seen.restart (hs : σ.Seen h) : (σ.restart σ.hdr0.restart).Seen h := by
  have hle := hs.1
  have hlt : h.aSalt < σ.hdr0.restart.aSalt := Nat.lt_succ_of_le hle
  exact ⟨hlt.le, fun he => absurd (he ▸ hlt) (lt_irrefl _)⟩

theorem Seen.commit {h' : Hdr} (hσ : σ.Ok) (hs : σ.Seen h) (hsalt : h'.aSalt = σ.hdr0.aSalt)
    (hmx : h'.mxFrame = σ.hdr0.mxFrame + own.length) (hne : own ≠ []) :
    (σ.commit h' (own.map Prod.fst) (σ.state.apply own n)).Seen h := by
  have hpos : 0 < own.length := List.length_pos_iff.2 hne
  refine ⟨hs.1.trans_eq hsalt.symm, fun he => ?_⟩
  change h.aSalt = h'.aSalt at he
  have hp := hs.past (he.trans hsalt)
  have hle := hp.mxFrame
  refine ⟨?_, fun e => ?_, fun p a ha => ?_⟩
  · change h.mxFrame ≤ h'.mxFrame
    omega
  · change h.mxFrame = h'.mxFrame at e
    omega
  · change p ≤ h.nPage ∨ ∃ f, h.mxFrame < f ∧ (σ.log ++ own.map Prod.fst)[f - 1]? = some p
    rcases (DbState.apply_eq_some ha).2 with hwr | ⟨-, hold⟩
    · obtain ⟨j, hj, -⟩ := written_eq_some hwr
      refine .inr ⟨σ.log.length + j + 1, by rw [hσ.length]; omega, ?_⟩
      rw [Nat.add_sub_cancel, List.getElem?_append_right (by omega), List.getElem?_map,
        Nat.add_sub_cancel_left, hj]
      rfl
    · refine (hp.pages p a hold).imp_right fun ⟨f, hf, hfp⟩ => ⟨f, hf, ?_⟩
      rw [List.getElem?_append_left (List.getElem?_eq_some_iff.1 hfp).1]
      exact hfp

end WalShared

end Btreelite
