import Btreelite.KvUpdate
import Btreelite.CursorPos

/-!
# A leaf while its cells change

Between the first change of a leaf and the balancing, the leaf may be empty or have cells kept aside. What
is above it stays, and with any entries on it between its bounds it is part of a tree again.
-/

namespace Btreelite

open Prog Segment KeyedList

/-- Below the pages `anc`, leaf `cur` with content `p` has the entries `s.mid`; the pages in use are those
of the tree and `R`. -/
structure Leaf (g : Geometry) (d : Db) (root cur : Nat) (anc : List (Nat × Nat)) (s : Spot) (p : MemPage)
    (R : List Nat) : Prop where
  above : Above g d.page root anc 0 cur s.lo s.hi s.left s.right s.rest
  page : d.page cur = .node p
  leaf : p.leaf = true
  cells : p.allCells = s.mid.map Entry.cell
  nFree : 0 ≤ p.nFree g
  stored : ∀ e ∈ s.mid, e.On g d.page
  run : Run s.lo (s.mid.map fun e => e.key.bound) s.hi
  own : Owns g d (((cur :: s.mid.flatMap Entry.ovfl) ++ s.rest) ++ R)

/-- The tree with the entries `es` that stands at `root`, next to the pages `R`. -/
def Grown (g : Geometry) (d : Db) (root : Nat) (es : List Entry) (R : List Nat) (T : Tree) : Prop :=
  T.root = root ∧ T.es = es ∧ T.Ok g d.page ∧ Owns g d (T.pages ++ R)

section Leaves

variable {g : Geometry} {d d' : Db} {T : Tree} {root cur dep : Nat} {anc : List (Nat × Nat)} {s : Spot}
  {p p' : MemPage} {R R' : List Nat} {A B : List Entry} {e o : Entry}

/-- A page and what is around it make up a tree whose depth shows in the length of the path. -/
theorem Above.fillNode : ∀ {anc : List (Nat × Nat)} {dep cur : Nat} {lo hi : Bound}
    {es esl esr : List Entry} {ps ps' : List Nat}, Above g d.page root anc dep cur lo hi esl esr ps →
    Node g d.page (OkBelow g anc dep) dep lo cur hi es ps' →
    ∃ qs, qs.Perm (ps' ++ ps) ∧ Node g d.page (RootOk g (dep + anc.length)) (dep + anc.length) ⊥ root ⊤
      (esl ++ (es ++ esr)) qs
  | [], dep, _, _, _, _, _, _, _, ps', h, hc => by
    obtain ⟨rfl, rfl, rfl, rfl, rfl, rfl⟩ := h
    exact ⟨ps', by simp, by simpa using hc.imp fun _ h => h.1⟩
  | (parent, idx) :: anc, dep, _, _, _, _, _, _, _, ps', h, hc => by
    obtain ⟨plo, phi, esl1, esl2, esr1, esr2, ps1, ps2, h1, rfl, rfl, rfl, h2⟩ := h
    obtain ⟨qs, hqs, hnode⟩ := h1.fill (hc.imp fun _ h => okBelow_cons.1 h)
    obtain ⟨qs', hqs', htree⟩ := h2.fillNode (hnode.imp fun _ h => h.okBelow)
    have hdep : dep + 1 + anc.length = dep + ((parent, idx) :: anc).length := by
      simp only [List.length_cons]
      omega
    refine ⟨qs', ?_, hdep ▸ by simpa using htree⟩
    refine List.perm_iff_count.2 fun x => ?_
    have h3 := hqs.count_eq x
    have h4 := hqs'.count_eq x
    simp only [List.count_append, List.count_cons, List.cons_append] at h3 h4 ⊢
    omega

theorem Leaf.own_cur (h : Leaf g d root cur anc s p R) : cur ∉ s.mid.flatMap Entry.ovfl ++ s.rest ++ R := by
  have := h.own.nodup
  rw [List.cons_append, List.cons_append, List.nodup_cons] at this
  exact this.1

/-- A leaf of a tree. -/
theorem Reach.toLeaf (h : Reach g d.page T dep s cur anc) (hd : s.dep = 0) (hown : Owns g d (T.pages ++ R)) :
    ∃ p, Leaf g d T.root cur anc s p R ∧ p.ovfl = [] ∧ (anc ≠ [] → s.mid ≠ []) := by
  obtain ⟨p, qs, hp, hok, hps, hbody⟩ := h.place.node
  have habove := h.place.above
  rw [hd] at hbody habove
  obtain ⟨hl, hc, hon, hrun, rfl⟩ := hbody
  refine ⟨p, ⟨habove, hp, hl, hc, hok.1.2.1, hon, hrun, ?_⟩, hok.1.1, fun ha h0 => ?_⟩
  · rw [← hps]
    exact hown.perm (h.place.pages.symm.append_right R)
  · rw [MemPage.allCells_of_ovfl_nil hok.1.1, h0] at hc
    exact hok.2 ha hc

/-- Changes of other pages are no changes of the leaf. -/
theorem Leaf.frame (h : Leaf g d root cur anc s p R)
    (hkeep : ∀ q ∈ (cur :: s.mid.flatMap Entry.ovfl) ++ s.rest, d'.page q = d.page q)
    (hown : Owns g d' (((cur :: s.mid.flatMap Entry.ovfl) ++ s.rest) ++ R')) :
    Leaf g d' root cur anc s p R' where
  above := h.above.congr fun q hq => hkeep q (List.mem_append_right _ hq)
  page := (hkeep cur (by simp)).trans h.page
  leaf := h.leaf
  cells := h.cells
  nFree := h.nFree
  stored e he := (h.stored e he).congr fun q hq =>
    hkeep q (List.mem_append_left _ (List.mem_cons_of_mem _ (List.mem_flatMap.2 ⟨e, he, hq⟩)))
  run := h.run
  own := hown

/-- The leaf with another content, once the pages of its entries are right. -/
theorem Leaf.set (h : Leaf g d root cur anc s p R) {mid : List Entry}
    (hkeep : ∀ q ∈ s.rest, d'.page q = d.page q) (hl : p'.leaf = true)
    (hc : p'.allCells = mid.map Entry.cell) (hf : 0 ≤ p'.nFree g) (hon : ∀ e ∈ mid, e.On g d'.page)
    (hrun : Run s.lo (mid.map fun e => e.key.bound) s.hi)
    (hown : Owns g d' (((cur :: mid.flatMap Entry.ovfl) ++ s.rest) ++ R')) :
    Leaf g (d'.set cur (.node p')) root cur anc { s with mid } p' R' := by
  have hnd := hown.nodup
  rw [List.cons_append, List.cons_append, List.nodup_cons] at hnd
  have hother : ∀ q, q ∈ mid.flatMap Entry.ovfl ++ s.rest →
      (d'.set cur (.node p')).page q = d'.page q := fun q hq =>
    Db.set_page_of_ne _ _ _ fun h => hnd.1 (h ▸ List.mem_append_left _ hq)
  refine ⟨?_, Db.set_page_self .., hl, hc, hf, fun e he => ?_, hrun, hown.set (by simp) _⟩
  · exact h.above.congr fun q hq => (hother q (List.mem_append_right _ hq)).trans (hkeep q hq)
  · exact (hon e he).congr fun q hq => hother q (List.mem_append_left _ (List.mem_flatMap.2 ⟨e, he, hq⟩))

/-- A leaf that needs no balancing is part of a tree, in which it has the same place. -/
theorem Leaf.grown (h : Leaf g d root cur anc s p R) (ho : p.ovfl = []) (hne : anc ≠ [] → s.mid ≠ []) :
    ∃ T, Grown g d root (s.left ++ (s.mid ++ s.right)) R T ∧ Standing g d T anc.length
      ∧ ∃ s' : Spot, Reach g d.page T anc.length s' cur anc ∧ s'.dep = 0 ∧ s'.left = s.left
        ∧ s'.mid = s.mid := by
  have hcells : p.cells = s.mid.map Entry.cell := (MemPage.allCells_of_ovfl_nil ho).symm.trans h.cells
  have hok : OkBelow g anc 0 p := by
    refine ⟨⟨ho, h.nFree, fun h => absurd rfl h⟩, fun ha h0 => hne ha ?_⟩
    rw [hcells] at h0
    exact List.map_eq_nil_iff.1 h0
  have hnode : Node g d.page (OkBelow g anc 0) 0 s.lo cur s.hi s.mid (cur :: s.mid.flatMap Entry.ovfl) :=
    ⟨p, _, h.page, hok, rfl, h.leaf, h.cells, h.stored, h.run, rfl⟩
  obtain ⟨qs, hqs, htree⟩ := h.above.fillNode hnode
  rw [Nat.zero_add] at htree
  have hown : Owns g d (qs ++ R) := h.own.perm (hqs.symm.append_right R)
  refine ⟨⟨root, s.left ++ (s.mid ++ s.right), qs⟩, ⟨rfl, rfl, ⟨_, htree⟩, hown⟩, ⟨htree, fun q hq =>
    hown.inRange (List.mem_append_left _ hq)⟩, { s with dep := 0, ps := cur :: s.mid.flatMap Entry.ovfl },
    ⟨⟨h.above, hnode, rfl, hqs.symm⟩, Nat.zero_add _⟩, rfl, rfl, rfl⟩

/-- Whatever cells a leaf has, `balance` makes it part of a tree. -/
theorem Leaf.balance_returns (h : Leaf g d root cur anc s p R) (another : Bool) :
    Returns BtShared.db (balance g another cur anc) d fun r d' => (∀ q ∈ R, d'.page q = d.page q)
      ∧ r.2.length ≤ anc.length ∧ ∃ T, Grown g d' root (s.left ++ (s.mid ++ s.right)) R T := by
  have hnode : Node g d.page (fun p => 0 ≤ p.nFree g ∧ (anc = [] → 0 ≠ 0 → p.cells ≠ [])) 0 s.lo cur s.hi
      s.mid (cur :: s.mid.flatMap Entry.ovfl) :=
    ⟨p, _, h.page, ⟨h.nFree, fun _ h => absurd rfl h⟩, rfl, h.leaf, h.cells, h.stored, h.run, rfl⟩
  refine (balanceFrom_returns another _ h.above hnode h.own).post ?_
  rintro r d' ⟨hkeep, hlen, qs, hown, htree⟩
  exact ⟨hkeep, hlen, ⟨root, _, qs⟩, rfl, rfl, htree, hown⟩

end Leaves

/-! ## Where the loop of `balance` ends -/

section Ends

variable {g : Geometry} {d : Db}

/-- `balance` ends at a page without overflow cells, still below the root it started from. -/
theorem balanceFrom_ends (another : Bool) : ∀ (fuel : Nat) (cur : Nat) (anc : List (Nat × Nat)) {d : Db},
    Returns BtShared.db (balanceFrom g another fuel cur anc) d fun r d' =>
      (∀ p, d'.page r.1 = .node p → p.ovfl = [])
        ∧ ∀ i j, ((r.1, i) :: r.2).getLast?.map Prod.fst = ((cur, j) :: anc).getLast?.map Prod.fst
  | 0, _, _, _ => Ensures.throw trivial
  | fuel + 1, cur, anc, d => by
    have hnode : Returns BtShared.db (nodeAt cur) d fun p d' =>
        d = d' ∧ ∀ q, d.page cur = .node q → p = q := by
      refine (pageData_does cur).bind ?_
      rintro x _ ⟨rfl, rfl⟩
      split
      · rename_i p hp
        exact Ensures.pure ⟨rfl, fun q hq => PageData.node.inj (hp.symm.trans hq)⟩
      · rename_i hp
        exact Ensures.pure ⟨rfl, fun q hq => absurd hq (hp q)⟩
    refine hnode.bind ?_
    rintro p _ ⟨rfl, hp⟩
    refine Ensures.ite (fun h => Ensures.pure ⟨fun q hq => hp q hq ▸ h.1, fun i j => ?_⟩) fun _ => ?_
    · cases anc <;> simp
    cases anc with
    | nil =>
      refine Ensures.ite (fun h => Ensures.pure ⟨fun q hq => hp q hq ▸ h, fun i j => rfl⟩) fun _ =>
        Ensures.ite (fun _ => Ensures.throw trivial) fun _ => ?_
      refine Ensures.bind (R := fun _ _ => True) (fun _ _ => wp.true) fun child d1 _ => ?_
      refine (balanceFrom_ends another fuel child [(cur, 0)]).post ?_
      rintro r d2 ⟨h1, h2⟩
      exact ⟨h1, fun i j => (h2 i 0).trans rfl⟩
    | cons a anc =>
      refine Ensures.bind (R := fun _ _ => True) (fun _ _ => wp.true) fun _ d1 _ => ?_
      refine (balanceFrom_ends another fuel a.1 anc).post ?_
      rintro r d2 ⟨h1, h2⟩
      refine ⟨h1, fun i j => (h2 i a.2).trans ?_⟩
      rw [List.getLast?_cons_cons]

/-- Clearing the overflow cells of a page that has none. -/
theorem clearOvfl_does {pgno : Nat} (h : ∀ p, d.page pgno = .node p → p.ovfl = []) {E : Rc → Db → Prop} :
    Does (clearOvfl pgno) d (fun _ d' => d' = d) E := by
  refine (pageData_does pgno).bind ?_
  rintro x _ ⟨rfl, rfl⟩
  split
  · rename_i p hp
    refine (setPage_does _ _).post ?_
    rintro _ _ rfl
    refine Db.set_eq_self ?_
    rw [hp, ← h p hp]
  · exact Ensures.pure rfl

end Ends

end Btreelite
