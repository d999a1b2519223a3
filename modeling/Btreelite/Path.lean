import Btreelite.Tree

/-!
# The path to a page

A cursor remembers the pages above the one it is on and the index of the child it took in each. What
lies to the left and to the right of the page is what the tree has outside the subtree of the page.
-/

namespace Btreelite

open Segment

section Path

variable (g : Geometry) (page : Nat → PageData)

/-- Page `cur`, with the keys between `lo` and `hi`, is child `idx` of `parent`; `esl`, `esr` and `ps`
are the entries before and behind it under the parent and the pages of its siblings. -/
def Around (ok : MemPage → Prop) (dep parent idx : Nat) (plo phi : Bound) (cur : Nat) (lo hi : Bound)
    (esl esr : List Entry) (ps : List Nat) : Prop :=
  ∃ p pre post ps1 ps2, page parent = .node p ∧ ok p ∧ p.leaf = false ∧ (∀ c ∈ p.allCells, IsDivider c)
    ∧ idx = pre.length ∧ p.kids phi = pre ++ (cur, hi) :: post
    ∧ Seg (Sub g page dep) plo pre lo esl ps1 ∧ Seg (Sub g page dep) hi post phi esr ps2
    ∧ ps = ps1 ++ ps2

/-- Page `cur`, the top of a subtree of depth `dep`, is reached from `root` through the pages `anc`,
nearest first; `esl`, `esr` and `ps` are what the tree has outside that subtree. -/
def Above (root : Nat) : List (Nat × Nat) → Nat → Nat → Bound → Bound → List Entry → List Entry →
    List Nat → Prop
  | [], _, cur, lo, hi, esl, esr, ps => cur = root ∧ lo = ⊥ ∧ hi = ⊤ ∧ esl = [] ∧ esr = [] ∧ ps = []
  | (parent, idx) :: anc, dep, cur, lo, hi, esl, esr, ps => ∃ plo phi esl1 esl2 esr1 esr2 ps1 ps2,
    Around g page (Settled g) dep parent idx plo phi cur lo hi esl2 esr1 ps1
      ∧ esl = esl1 ++ esl2 ∧ esr = esr1 ++ esr2 ∧ ps = parent :: ps1 ++ ps2
      ∧ Above root anc (dep + 1) parent plo phi esl1 esr2 ps2

/-- What holds of a page with `anc` above it: a root may be a leaf without cells. -/
def OkBelow (anc : List (Nat × Nat)) (dep : Nat) (p : MemPage) : Prop :=
  RootOk g dep p ∧ (anc ≠ [] → p.cells ≠ [])

end Path

section Lemmas

variable {g : Geometry} {page page' : Nat → PageData} {ok : MemPage → Prop} {root dep cur parent idx : Nat}
  {anc : List (Nat × Nat)} {lo hi plo phi : Bound} {es esl esr : List Entry} {ps ps' : List Nat}
  {p : MemPage}

theorem okBelow_cons {a : Nat × Nat} : OkBelow g (a :: anc) dep p ↔ Settled g p := by
  constructor
  · intro h
    exact ⟨h.1.1, h.2 (by simp), h.1.2.1⟩
  · intro h
    exact ⟨⟨h.ovfl, h.nFree, fun _ => h.cells⟩, fun _ => h.cells⟩

theorem Settled.okBelow (h : Settled g p) : OkBelow g anc dep p :=
  ⟨⟨h.ovfl, h.nFree, fun _ => h.cells⟩, fun _ => h.cells⟩

theorem Around.congr (h : Around g page ok dep parent idx plo phi cur lo hi esl esr ps)
    (hp : ∀ q ∈ parent :: ps, page' q = page q) :
    Around g page' ok dep parent idx plo phi cur lo hi esl esr ps := by
  obtain ⟨p, pre, post, ps1, ps2, h1, h2, h3, h4, h5, h6, h7, h8, rfl⟩ := h
  exact ⟨p, pre, post, ps1, ps2, (hp parent (by simp)).trans h1, h2, h3, h4, h5, h6,
    seg_node_congr h7 fun q hq => hp q (by simp [hq]), seg_node_congr h8 fun q hq => hp q (by simp [hq]), rfl⟩

theorem Around.imp {ok' : MemPage → Prop}
    (h : Around g page ok dep parent idx plo phi cur lo hi esl esr ps) (hok : ∀ p, ok p → ok' p) :
    Around g page ok' dep parent idx plo phi cur lo hi esl esr ps := by
  obtain ⟨p, pre, post, ps1, ps2, h1, h2, h⟩ := h
  exact ⟨p, pre, post, ps1, ps2, h1, hok p h2, h⟩

theorem Above.congr : ∀ {anc : List (Nat × Nat)} {dep cur : Nat} {lo hi : Bound} {esl esr : List Entry}
    {ps : List Nat}, Above g page root anc dep cur lo hi esl esr ps → (∀ q ∈ ps, page' q = page q) →
    Above g page' root anc dep cur lo hi esl esr ps
  | [], _, _, _, _, _, _, _, h, _ => h
  | (parent, idx) :: anc, _, _, _, _, _, _, _, h, hp => by
    obtain ⟨plo, phi, esl1, esl2, esr1, esr2, ps1, ps2, h1, rfl, rfl, rfl, h2⟩ := h
    exact ⟨plo, phi, esl1, esl2, esr1, esr2, ps1, ps2,
      h1.congr fun q hq => hp q (List.mem_append_left _ hq), rfl, rfl, rfl,
      h2.congr fun q hq => hp q (List.mem_append_right _ hq)⟩

/-- The parent is the top of a subtree when the child is. -/
theorem Around.fill (h : Around g page ok dep parent idx plo phi cur lo hi esl esr ps)
    (hc : Sub g page dep lo cur hi es ps') :
    ∃ qs, qs.Perm (parent :: ps ++ ps') ∧ Node g page ok (dep + 1) plo parent phi (esl ++ (es ++ esr)) qs := by
  obtain ⟨p, pre, post, ps1, ps2, h1, h2, h3, h4, rfl, h5, h6, h7, rfl⟩ := h
  refine ⟨parent :: (ps1 ++ (ps' ++ ps2)), ?_, p, _, h1, h2, rfl, body_succ.2 ⟨h3, h4, ?_⟩⟩
  · refine List.perm_iff_count.2 fun x => ?_
    simp only [List.count_append, List.count_cons, List.cons_append]
    omega
  · rw [h5]
    exact h6.append ⟨es, esr, ps', ps2, rfl, rfl, hc, h7⟩

/-- A page and what is around it make up the tree. -/
theorem Above.fill : ∀ {anc : List (Nat × Nat)} {dep cur : Nat} {lo hi : Bound}
    {es esl esr : List Entry} {ps ps' : List Nat}, Above g page root anc dep cur lo hi esl esr ps →
    Node g page (OkBelow g anc dep) dep lo cur hi es ps' →
    ∃ qs, qs.Perm (ps' ++ ps) ∧ IsTree g page root (esl ++ (es ++ esr)) qs
  | [], dep, _, _, _, _, _, _, _, ps', h, hc => by
    obtain ⟨rfl, rfl, rfl, rfl, rfl, rfl⟩ := h
    exact ⟨ps', by simp, dep, by simpa using hc.imp fun _ h => h.1⟩
  | (parent, idx) :: anc, dep, _, _, _, _, _, _, _, ps', h, hc => by
    obtain ⟨plo, phi, esl1, esl2, esr1, esr2, ps1, ps2, h1, rfl, rfl, rfl, h2⟩ := h
    obtain ⟨qs, hqs, hnode⟩ := h1.fill (hc.imp fun _ h => okBelow_cons.1 h)
    obtain ⟨qs', hqs', htree⟩ := h2.fill (hnode.imp fun _ h => h.okBelow)
    refine ⟨qs', ?_, by simpa using htree⟩
    refine List.perm_iff_count.2 fun x => ?_
    have h3 := hqs.count_eq x
    have h4 := hqs'.count_eq x
    simp only [List.count_append, List.count_cons, List.cons_append] at h3 h4 ⊢
    omega

end Lemmas

/-! ## Places in a tree -/

/-- A tree with its root page, its entries in key order and its pages. -/
structure Tree where
  root : Nat
  es : List Entry
  pages : List Nat

def Tree.Ok (g : Geometry) (page : Nat → PageData) (T : Tree) : Prop :=
  IsTree g page T.root T.es T.pages

/-- What is at and around a page: the depth of its subtree, its bounds and entries, the entries to its
left and right, the pages of the subtree and the others. -/
structure Spot where
  dep : Nat
  lo : Bound
  hi : Bound
  left : List Entry
  mid : List Entry
  right : List Entry
  ps : List Nat
  rest : List Nat

/-- Below the pages `anc`, page `cur` of `T` is at `s`. -/
structure Spot.At (g : Geometry) (page : Nat → PageData) (T : Tree) (s : Spot) (cur : Nat)
    (anc : List (Nat × Nat)) : Prop where
  above : Above g page T.root anc s.dep cur s.lo s.hi s.left s.right s.rest
  node : Node g page (OkBelow g anc s.dep) s.dep s.lo cur s.hi s.mid s.ps
  es : T.es = s.left ++ (s.mid ++ s.right)
  pages : (s.ps ++ s.rest).Perm T.pages

section Places

variable {g : Geometry} {page page' : Nat → PageData} {T : Tree} {s : Spot} {cur parent idx : Nat}
  {anc : List (Nat × Nat)}

theorem Tree.Ok.at_root (h : T.Ok g page) :
    ∃ s : Spot, s.At g page T T.root [] ∧ s.lo = ⊥ ∧ s.hi = ⊤ ∧ s.left = [] ∧ s.right = [] := by
  obtain ⟨dep, h⟩ := h
  exact ⟨⟨dep, ⊥, ⊤, [], T.es, [], T.pages, []⟩, ⟨⟨rfl, rfl, rfl, rfl, rfl, rfl⟩,
    h.imp fun _ h => ⟨h, by simp⟩, by simp, by simp⟩, rfl, rfl, rfl, rfl⟩

theorem Spot.At.tree (h : s.At g page T cur anc) : ∃ qs, qs.Perm T.pages ∧ IsTree g page T.root T.es qs := by
  obtain ⟨qs, hqs, htree⟩ := h.above.fill h.node
  exact ⟨qs, hqs.trans h.pages, h.es ▸ htree⟩

theorem Spot.At.congr (h : s.At g page T cur anc) (hp : ∀ q ∈ T.pages, page' q = page q) :
    s.At g page' T cur anc where
  above := h.above.congr fun q hq => hp q (h.pages.mem_iff.1 (List.mem_append_right _ hq))
  node := h.node.congr fun q hq => hp q (h.pages.mem_iff.1 (List.mem_append_left _ hq))
  es := h.es
  pages := h.pages

theorem Spot.At.mem_pages (h : s.At g page T cur anc) : cur ∈ T.pages := by
  obtain ⟨p, qs, -, -, hps, -⟩ := h.node
  exact h.pages.mem_iff.1 (List.mem_append_left _ (by simp [hps]))

/-- The root is at the end of every path. -/
theorem Above.getLast : ∀ {anc : List (Nat × Nat)} {dep cur root ix : Nat} {lo hi : Bound}
    {esl esr : List Entry} {ps : List Nat}, Above g page root anc dep cur lo hi esl esr ps →
    (((cur, ix) :: anc).getLast?.map Prod.fst) = some root
  | [], _, _, _, _, _, _, _, _, _, h => by
    obtain ⟨rfl, -⟩ := h
    rfl
  | (parent, idx) :: anc, _, _, _, _, _, _, _, _, _, h => by
    obtain ⟨_, _, _, _, _, _, _, _, -, -, -, -, h⟩ := h
    have := @Above.getLast anc _ _ _ idx _ _ _ _ _ h
    rwa [List.getLast?_cons_cons]

theorem MemPage.kids_split {p : MemPage} (hi : Bound) (ho : p.ovfl = []) (h : idx ≤ p.cells.length) :
    ∃ pre u post, p.kids hi = pre ++ (p.childAt idx, u) :: post ∧ pre.length = idx
      ∧ pre = (p.cells.take idx).map (fun c => (get4byte c, (divKey c).bound))
      ∧ ((∃ c, p.cells[idx]? = some c ∧ u = (divKey c).bound) ∨ idx = p.cells.length ∧ u = hi) := by
  unfold MemPage.kids
  rw [MemPage.allCells_of_ovfl_nil ho]
  set kid := fun c : Cell => (get4byte c, (divKey c).bound) with hkid
  rcases Nat.lt_or_ge idx p.cells.length with hlt | hge
  · have hcells : p.cells.map kid = (p.cells.take idx).map kid
        ++ kid p.cells[idx] :: (p.cells.drop (idx + 1)).map kid := by
      rw [← List.map_cons, ← List.map_append, ← List.drop_eq_getElem_cons hlt, List.take_append_drop]
    refine ⟨(p.cells.take idx).map kid, (divKey p.cells[idx]).bound,
      (p.cells.drop (idx + 1)).map kid ++ [(p.right, hi)], ?_, ?_, rfl,
      Or.inl ⟨_, List.getElem?_eq_getElem hlt, rfl⟩⟩
    · rw [hcells, List.append_assoc, List.cons_append, MemPage.childAt, List.getElem?_eq_getElem hlt]
    · rw [List.length_map, List.length_take_of_le h]
  · obtain rfl : idx = p.cells.length := by omega
    refine ⟨p.cells.map kid, hi, [], ?_, List.length_map _, by rw [List.take_length], Or.inr ⟨rfl, rfl⟩⟩
    rw [MemPage.childAt, List.getElem?_eq_none le_rfl]

/-- The place of a child. -/
theorem Spot.At.child {p : MemPage} {dep : Nat} (h : s.At g page T cur anc) (hd : s.dep = dep + 1)
    (hp : page cur = .node p) (hidx : idx ≤ p.cells.length) :
    ∃ s' : Spot, s'.At g page T (p.childAt idx) ((cur, idx) :: anc) ∧ s'.dep = dep
      ∧ s'.left ++ (s'.mid ++ s'.right) = s.left ++ (s.mid ++ s.right)
      ∧ (idx = 0 → s'.left = s.left ∧ s'.lo = s.lo)
      ∧ (∀ i c, idx = i + 1 → p.cells[i]? = some c → s'.lo = (divKey c).bound)
      ∧ (idx = p.cells.length → s'.right = s.right ∧ s'.hi = s.hi)
      ∧ (∀ c, p.cells[idx]? = some c → s'.hi = (divKey c).bound) := by
  obtain ⟨habove, ⟨p', qs, hp', hok, hps, hbody⟩, hes, hpages⟩ := h
  obtain rfl : p' = p := PageData.node.inj (hp'.symm.trans hp)
  rw [hd] at hbody
  obtain ⟨hl, hdiv, hseg⟩ := body_succ.1 hbody
  have hset : Settled g p' := ⟨hok.1.1, hok.1.2.2 (by omega), hok.1.2.1⟩
  obtain ⟨pre, u, post, hkids, hlen, hpre, hu⟩ := MemPage.kids_split s.hi hset.ovfl hidx
  rw [hkids] at hseg
  obtain ⟨m, es1, es23, ps1, ps23, hmid, rfl, hseg1, hseg23⟩ := hseg.split
  obtain ⟨es2, es3, ps2, ps3, rfl, rfl, hsub, hseg3⟩ := hseg23
  refine ⟨⟨dep, m, u, s.left ++ es1, es2, es3 ++ s.right, ps2, cur :: (ps1 ++ ps3) ++ s.rest⟩,
    ⟨⟨s.lo, s.hi, s.left, es1, es3, s.right, ps1 ++ ps3, s.rest, ?_, rfl, rfl, rfl, ?_⟩,
      hsub.imp fun _ h => h.okBelow, ?_, ?_⟩, rfl, ?_, ?_, ?_, ?_, ?_⟩
  · exact ⟨p', pre, post, ps1, ps3, hp, hset, hl, hdiv, hlen.symm, hkids, hseg1, hseg3, rfl⟩
  · rwa [hd] at habove
  · rw [hes, hmid]
    simp
  · refine (List.perm_iff_count.2 fun x => ?_ : List.Perm _ _).trans hpages
    rw [hps]
    simp only [List.count_append, List.count_cons, List.cons_append]
    omega
  · rw [hmid]
    simp
  · intro h0
    obtain rfl : pre = [] := List.eq_nil_of_length_eq_zero (hlen.trans h0)
    obtain ⟨rfl, rfl, -⟩ := hseg1
    exact ⟨by simp, rfl⟩
  · intro i c hi hc
    have hlast : pre = (p'.cells.take i).map (fun c => (get4byte c, (divKey c).bound))
        ++ [(get4byte c, (divKey c).bound)] := by
      rw [hpre, hi, List.take_add_one, hc]
      simp
    rw [hlast] at hseg1
    exact hseg1.getLast_eq.symm
  · intro hn
    have hpost : post = [] := by
      have := congrArg List.length hkids
      simp only [MemPage.kids, MemPage.allCells_of_ovfl_nil hset.ovfl, List.length_append,
        List.length_map, List.length_cons, List.length_nil] at this
      exact List.eq_nil_of_length_eq_zero (by omega)
    rw [hpost] at hseg3
    obtain ⟨rfl, rfl, -⟩ := hseg3
    exact ⟨by simp, rfl⟩
  · intro c hc
    obtain ⟨c', hc', rfl⟩ | ⟨hn, -⟩ := hu
    · rw [hc] at hc'
      rw [Option.some.inj hc']
    · rw [List.getElem?_eq_none hn.ge] at hc
      simp at hc

theorem MemPage.kids_length {p : MemPage} (hi : Bound) (ho : p.ovfl = []) :
    (p.kids hi).length = p.cells.length + 1 := by
  simp [MemPage.kids, MemPage.allCells_of_ovfl_nil ho]

theorem MemPage.childAt_eq {p : MemPage} {hi u : Bound} {pre post : List (Nat × Bound)} {c : Nat}
    (ho : p.ovfl = []) (h : p.kids hi = pre ++ (c, u) :: post) : p.childAt pre.length = c := by
  have hlen := MemPage.kids_length hi ho
  rw [h, List.length_append, List.length_cons] at hlen
  obtain ⟨pre', u', post', hkids, hpre, -⟩ := @MemPage.kids_split pre.length p hi ho (by omega)
  rw [h] at hkids
  have := List.append_inj_right hkids hpre.symm
  simp only [List.cons.injEq, Prod.mk.injEq] at this
  exact this.1.1.symm

/-- The place of the parent. -/
theorem Spot.At.up (h : s.At g page T cur ((parent, idx) :: anc)) :
    ∃ p, ∃ s' : Spot, page parent = .node p ∧ Settled g p ∧ p.leaf = false ∧ idx ≤ p.cells.length
      ∧ s'.At g page T parent anc ∧ s'.dep = s.dep + 1
      ∧ (idx = p.cells.length → s'.left ++ s'.mid = s.left ++ s.mid ∧ s'.right = s.right)
      ∧ (idx = 0 → s'.left = s.left ∧ s'.mid ++ s'.right = s.mid ++ s.right) := by
  obtain ⟨habove, hnode, hes, hpages⟩ := h
  obtain ⟨plo, phi, esl1, esl2, esr1, esr2, ps1, ps2, har, h1, h2, h3, habove⟩ := habove
  have hfill := har.fill (hnode.imp fun _ h => okBelow_cons.1 h)
  obtain ⟨qs, hqs, hnode'⟩ := hfill
  obtain ⟨p, pre, post, qs1, qs2, hp, hset, hl, -, hlen, hkids, hpre, hpost, -⟩ := har
  have hkl := MemPage.kids_length phi hset.ovfl
  rw [hkids, List.length_append, List.length_cons] at hkl
  refine ⟨p, ⟨s.dep + 1, plo, phi, esl1, esl2 ++ (s.mid ++ esr1), esr2, qs, ps2⟩, hp, hset, hl, by omega,
    ⟨habove, hnode'.imp fun _ h => h.okBelow, ?_, ?_⟩, rfl, fun hi => ?_, fun hi => ?_⟩
  · rw [hes, h1, h2]
    simp
  · refine (List.perm_iff_count.2 fun x => ?_ : List.Perm _ _).trans hpages
    have := hqs.count_eq x
    rw [h3]
    simp only [List.count_append, List.count_cons, List.cons_append] at this ⊢
    omega
  · obtain rfl : post = [] := List.eq_nil_of_length_eq_zero (by omega)
    obtain ⟨-, rfl, -⟩ := hpost
    simp [h1, h2]
  · obtain rfl : pre = [] := List.eq_nil_of_length_eq_zero (by omega)
    obtain ⟨-, rfl, -⟩ := hpre
    simp [h1, h2]

/-- The place of the next child of the parent. -/
theorem Spot.At.next {p : MemPage} (h : s.At g page T cur ((parent, idx) :: anc))
    (hp : page parent = .node p) (hidx : idx < p.cells.length) :
    ∃ s' : Spot, s'.At g page T (p.childAt (idx + 1)) ((parent, idx + 1) :: anc) ∧ s'.dep = s.dep
      ∧ s'.left = s.left ++ s.mid ∧ s.right = s'.mid ++ s'.right := by
  obtain ⟨habove, hnode, hes, hpages⟩ := h
  obtain ⟨plo, phi, esl1, esl2, esr1, esr2, ps1, ps2, har, h1, h2, h3, habove⟩ := habove
  obtain ⟨p', pre, post, qs1, qs2, hp', hset, hl, hdiv, rfl, hkids, hpre, hpost, h4⟩ := har
  obtain rfl : p' = p := PageData.node.inj (hp'.symm.trans hp)
  have hkl := MemPage.kids_length phi hset.ovfl
  rw [hkids, List.length_append, List.length_cons] at hkl
  rcases post with - | ⟨⟨c2, u2⟩, post⟩
  · simp only [List.length_nil] at hkl
    omega
  have hkids' : p'.kids phi = (pre ++ [(cur, s.hi)]) ++ (c2, u2) :: post := by rw [hkids]; simp
  have hchild := MemPage.childAt_eq hset.ovfl hkids'
  rw [List.length_append, List.length_singleton] at hchild
  obtain ⟨es2, es3, ps3, ps4, rfl, rfl, hsub, hseg3⟩ := hpost
  have hnode' : Sub g page s.dep s.lo cur s.hi s.mid s.ps := hnode.imp fun _ h => okBelow_cons.1 h
  rw [hchild]
  refine ⟨⟨s.dep, s.hi, u2, s.left ++ s.mid, es2, es3 ++ esr2, ps3,
    parent :: ((qs1 ++ s.ps) ++ ps4) ++ ps2⟩, ⟨⟨plo, phi, esl1, esl2 ++ s.mid, es3, esr2, qs1 ++ s.ps ++ ps4,
      ps2, ?_, by simp [h1], rfl, rfl, habove⟩, hsub.imp fun _ h => h.okBelow, ?_, ?_⟩, rfl, rfl, ?_⟩
  · exact ⟨p', pre ++ [(cur, s.hi)], post, qs1 ++ s.ps, ps4, hp, hset, hl, hdiv, by simp, hkids',
      hpre.append (Seg.single hnode'), hseg3, rfl⟩
  · rw [hes, h2]
    simp
  · refine (List.perm_iff_count.2 fun x => ?_ : List.Perm _ _).trans hpages
    rw [h3, h4]
    simp only [List.count_append, List.count_cons, List.cons_append]
    omega
  · rw [h2]
    simp

/-- The place of the child of the parent before. -/
theorem Spot.At.prev {p : MemPage} (h : s.At g page T cur ((parent, idx + 1) :: anc))
    (hp : page parent = .node p) :
    ∃ s' : Spot, s'.At g page T (p.childAt idx) ((parent, idx) :: anc) ∧ s'.dep = s.dep
      ∧ s.left = s'.left ++ s'.mid ∧ s'.right = s.mid ++ s.right := by
  obtain ⟨habove, hnode, hes, hpages⟩ := h
  obtain ⟨plo, phi, esl1, esl2, esr1, esr2, ps1, ps2, har, h1, h2, h3, habove⟩ := habove
  obtain ⟨p', pre, post, qs1, qs2, hp', hset, hl, hdiv, hlen, hkids, hpre, hpost, h4⟩ := har
  obtain rfl : p' = p := PageData.node.inj (hp'.symm.trans hp)
  rcases List.eq_nil_or_concat pre with rfl | ⟨pre, ⟨c2, u2⟩, rfl⟩
  · simp at hlen
  rw [List.concat_eq_append] at hkids hpre hlen
  rw [List.append_assoc, List.singleton_append] at hkids
  obtain ⟨m, es2, es3, ps3, ps4, rfl, rfl, hseg2, hlast⟩ := hpre.split
  obtain ⟨rfl, hsub⟩ := Seg.single_iff.1 hlast
  have hchild := MemPage.childAt_eq hset.ovfl hkids
  have hi : pre.length = idx := by simpa using hlen.symm
  rw [hi] at hchild
  have hnode' : Sub g page s.dep s.lo cur s.hi s.mid s.ps := hnode.imp fun _ h => okBelow_cons.1 h
  rw [hchild]
  refine ⟨⟨s.dep, m, s.lo, esl1 ++ es2, es3, s.mid ++ s.right, ps4,
    parent :: (ps3 ++ (s.ps ++ qs2)) ++ ps2⟩, ⟨⟨plo, phi, esl1, es2, s.mid ++ esr1, esr2,
      ps3 ++ (s.ps ++ qs2), ps2, ?_, rfl, by simp [h2], rfl, habove⟩, hsub.imp fun _ h => h.okBelow, ?_, ?_⟩,
    rfl, ?_, rfl⟩
  · exact ⟨p', pre, (cur, s.hi) :: post, ps3, s.ps ++ qs2, hp, hset, hl, hdiv, hi.symm, hkids, hseg2,
      ⟨s.mid, esr1, s.ps, qs2, rfl, rfl, hnode', hpost⟩, rfl⟩
  · rw [hes, h1]
    simp
  · refine (List.perm_iff_count.2 fun x => ?_ : List.Perm _ _).trans hpages
    rw [h3, h4]
    simp only [List.count_append, List.count_cons, List.cons_append]
    omega
  · rw [h1]
    simp

/-- The entries to the left and right of a page are outside its bounds. -/
theorem Above.bounds : ∀ {anc : List (Nat × Nat)} {dep cur root : Nat} {lo hi : Bound}
    {esl esr : List Entry} {ps : List Nat}, Above g page root anc dep cur lo hi esl esr ps →
    (∀ e ∈ esl, e.key.bound ≤ lo) ∧ ∀ e ∈ esr, hi < e.key.bound
  | [], _, _, _, _, _, _, _, _, h => by
    obtain ⟨-, -, -, rfl, rfl, -⟩ := h
    simp
  | (parent, idx) :: anc, _, _, _, _, _, _, _, _, h => by
    obtain ⟨plo, phi, esl1, esl2, esr1, esr2, ps1, ps2, har, rfl, rfl, -, h⟩ := h
    obtain ⟨p, pre, post, qs1, qs2, -, -, -, -, -, -, hpre, hpost, -⟩ := har
    obtain ⟨hl, hr⟩ := h.bounds
    have h1 := seg_sub_run hpre
    have h2 := seg_sub_run hpost
    refine ⟨fun e he => ?_, fun e he => ?_⟩
    · rcases List.mem_append.1 he with he | he
      · exact (hl e he).trans h1.le
      · exact (h1.mem _ (List.mem_map_of_mem (f := fun e : Entry => e.key.bound) he)).2
    · rcases List.mem_append.1 he with he | he
      · exact (h2.mem _ (List.mem_map_of_mem (f := fun e : Entry => e.key.bound) he)).1
      · exact h2.le.trans_lt (hr e he)

theorem IsTree.pairwise {root : Nat} {es : List Entry} {ps : List Nat} (h : IsTree g page root es ps) :
    es.Pairwise fun a b => a.key < b.key := by
  obtain ⟨dep, p, qs, -, -, -, hb⟩ := h
  simpa [List.pairwise_map] using hb.run.pairwise

end Places

end Btreelite
