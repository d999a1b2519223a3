import Btreelite.Page
import Btreelite.Overflow

/-!
# Trees on pages

What it means that a page is the root of a subtree: all leaves at one depth, the keys of every
child between the dividers beside it, no page but a root leaf without cells, and every cell on its
page. The predicates carry the entries of the subtree in key order and the pages it uses.
-/

namespace Btreelite

open Segment

/-- An entry of a tree: its leaf cell, its key and value, and its overflow pages. -/
structure Entry where
  cell : Cell
  key : Key
  value : List UInt8
  ovfl : List Nat

def Entry.On (g : Geometry) (page : Nat → PageData) (e : Entry) : Prop :=
  LeafEntry g page e.cell e.key e.value e.ovfl

/-- The children of an interior page with their upper bounds, `hi` being that of the page. -/
def MemPage.kids (p : MemPage) (hi : Bound) : List (Nat × Bound) :=
  p.allCells.map (fun c => (get4byte c, (divKey c).bound)) ++ [(p.right, hi)]

/-- A page that needs no balancing: it has a cell, and room for all of them. -/
structure Settled (g : Geometry) (p : MemPage) : Prop where
  ovfl : p.ovfl = []
  cells : p.cells ≠ []
  nFree : 0 ≤ p.nFree g

/-- The page content `p` is the top of a subtree of depth `dep` with the keys of `es` between `lo`
and `hi`, using the pages `qs` besides its own. -/
def Body (g : Geometry) (page : Nat → PageData) :
    Nat → Bound → MemPage → Bound → List Entry → List Nat → Prop
  | 0, lo, p, hi, es, qs => p.leaf = true ∧ p.allCells = es.map Entry.cell
      ∧ (∀ e ∈ es, e.On g page) ∧ Run lo (es.map fun e => e.key.bound) hi
      ∧ qs = es.flatMap Entry.ovfl
  | dep + 1, lo, p, hi, es, qs => p.leaf = false ∧ (∀ c ∈ p.allCells, IsDivider c)
      ∧ Seg (fun lo c hi es ps => ∃ p qs, page c = .node p ∧ Settled g p ∧ ps = c :: qs
          ∧ Body g page dep lo p hi es qs) lo (p.kids hi) hi es qs

/-- Page `c` is the top of a subtree, and its content has `ok`. -/
def Node (g : Geometry) (page : Nat → PageData) (ok : MemPage → Prop) (dep : Nat) (lo : Bound)
    (c : Nat) (hi : Bound) (es : List Entry) (ps : List Nat) : Prop :=
  ∃ p qs, page c = .node p ∧ ok p ∧ ps = c :: qs ∧ Body g page dep lo p hi es qs

/-- A subtree below a parent. -/
abbrev Sub (g : Geometry) (page : Nat → PageData) : Nat → Bound → Nat → Bound → List Entry →
    List Nat → Prop :=
  Node g page (Settled g)

theorem body_succ {g : Geometry} {page : Nat → PageData} {dep : Nat} {lo hi : Bound} {p : MemPage}
    {es : List Entry} {qs : List Nat} : Body g page (dep + 1) lo p hi es qs ↔ p.leaf = false
      ∧ (∀ c ∈ p.allCells, IsDivider c) ∧ Seg (Sub g page dep) lo (p.kids hi) hi es qs := Iff.rfl

/-- A root may be a leaf without cells. -/
def RootOk (g : Geometry) (dep : Nat) (p : MemPage) : Prop :=
  p.ovfl = [] ∧ 0 ≤ p.nFree g ∧ (dep ≠ 0 → p.cells ≠ [])

/-- Page `root` is the root of a tree with the entries `es` on the pages `ps`. -/
def IsTree (g : Geometry) (page : Nat → PageData) (root : Nat) (es : List Entry) (ps : List Nat) :
    Prop :=
  ∃ dep, Node g page (RootOk g dep) dep ⊥ root ⊤ es ps

/-! ## Frames -/

section Frame

variable {g : Geometry} {page page' : Nat → PageData} {ok ok' : MemPage → Prop} {dep : Nat}
  {lo hi : Bound} {es : List Entry} {ps : List Nat} {c : Nat} {ks : List (Nat × Bound)}

theorem Body.congr : ∀ {dep : Nat} {lo hi : Bound} {p : MemPage} {es : List Entry} {qs : List Nat},
    (∀ q ∈ qs, page' q = page q) → Body g page dep lo p hi es qs → Body g page' dep lo p hi es qs
  | 0, _, _, _, es, _, hq, h => by
    obtain ⟨h1, h2, h3, h4, rfl⟩ := h
    refine ⟨h1, h2, fun e he => (h3 e he).congr fun q hqe => hq q ?_, h4, rfl⟩
    exact List.mem_flatMap.2 ⟨e, he, hqe⟩
  | dep + 1, _, _, p, _, qs, hq, h => by
    obtain ⟨h1, h2, h3⟩ := body_succ.1 h
    refine body_succ.2 ⟨h1, h2, h3.mono fun lo c u es ps _ hps hc => ?_⟩
    obtain ⟨p', qs', hp, hok, rfl, hb⟩ := hc
    refine ⟨p', qs', ?_, hok, rfl, hb.congr fun q hqs => hq q (hps q (List.mem_cons_of_mem _ hqs))⟩
    rw [hq c (hps c List.mem_cons_self), hp]

theorem Node.congr (h : Node g page ok dep lo c hi es ps) (hp : ∀ q ∈ ps, page' q = page q) :
    Node g page' ok dep lo c hi es ps := by
  obtain ⟨p, qs, h1, h2, rfl, h3⟩ := h
  exact ⟨p, qs, (hp c List.mem_cons_self).trans h1, h2, rfl,
    h3.congr fun q hq => hp q (List.mem_cons_of_mem _ hq)⟩

theorem Node.imp (h : Node g page ok dep lo c hi es ps) (hok : ∀ p, ok p → ok' p) :
    Node g page ok' dep lo c hi es ps := by
  obtain ⟨p, qs, h1, h2, h3, h4⟩ := h
  exact ⟨p, qs, h1, hok p h2, h3, h4⟩

theorem seg_node_congr (h : Seg (Node g page ok dep) lo ks hi es ps)
    (hp : ∀ q ∈ ps, page' q = page q) : Seg (Node g page' ok dep) lo ks hi es ps :=
  h.mono fun _ _ _ _ _ _ hps hc => hc.congr fun q hq => hp q (hps q hq)

theorem IsTree.congr {root : Nat} (h : IsTree g page root es ps) (hp : ∀ q ∈ ps, page' q = page q) :
    IsTree g page' root es ps := by
  obtain ⟨dep, h⟩ := h
  exact ⟨dep, h.congr hp⟩

end Frame

/-! ## The contents of neighbouring pages -/

section Contents

variable {g : Geometry} {page : Nat → PageData} {ok : MemPage → Prop} {dep : Nat}

/-- The pages of `W` hold the contents beside them. -/
def Holds (page : Nat → PageData) (W : List (Nat × MemPage)) : Prop := ∀ w ∈ W, page w.1 = .node w.2

theorem holds_cons {page : Nat → PageData} {w : Nat × MemPage} {W : List (Nat × MemPage)} :
    Holds page (w :: W) ↔ page w.1 = .node w.2 ∧ Holds page W := List.forall_mem_cons

/-- A row of subtrees, given by the contents of their top pages. -/
theorem seg_nodes : ∀ {lo hi : Bound} {ks : List (Nat × Bound)} {es : List Entry} {ps : List Nat},
    Seg (Node g page ok dep) lo ks hi es ps →
    ∃ W qs, W.map Prod.fst = ks.map Prod.fst ∧ Holds page W ∧ (∀ w ∈ W, ok w.2)
      ∧ ps.Perm (ks.map Prod.fst ++ qs)
      ∧ Seg (Body g page dep) lo ((W.map Prod.snd).zip (ks.map Prod.snd)) hi es qs
  | _, _, [], _, _, h => by
    obtain ⟨rfl, rfl, rfl⟩ := h
    exact ⟨[], [], rfl, by simp [Holds], by simp, .refl _, rfl, rfl, rfl⟩
  | _, _, (c, u) :: ks, _, _, h => by
    obtain ⟨es1, es2, ps1, ps2, rfl, rfl, ⟨P, qs1, h1, h2, rfl, h3⟩, h4⟩ := h
    obtain ⟨W, qs2, h5, h6, h7, h8, h9⟩ := seg_nodes h4
    refine ⟨(c, P) :: W, qs1 ++ qs2, by simp [h5], holds_cons.2 ⟨h1, h6⟩,
      List.forall_mem_cons.2 ⟨h2, h7⟩, ?_, es1, es2, qs1, qs2, rfl, rfl, h3, h9⟩
    simp only [List.map_cons, List.cons_append]
    refine List.Perm.cons c ((h8.append_left qs1).trans ?_)
    rw [← List.append_assoc, ← List.append_assoc]
    exact List.perm_append_comm.append_right _

theorem seg_of_nodes : ∀ {lo hi : Bound} {W : List (Nat × MemPage)} {us : List Bound}
    {es : List Entry} {qs : List Nat}, W.length = us.length → Holds page W → (∀ w ∈ W, ok w.2) →
    Seg (Body g page dep) lo ((W.map Prod.snd).zip us) hi es qs →
    ∃ ps, ps.Perm (W.map Prod.fst ++ qs)
      ∧ Seg (Node g page ok dep) lo ((W.map Prod.fst).zip us) hi es ps
  | _, _, [], [], _, _, _, _, _, h => by
    obtain ⟨rfl, rfl, rfl⟩ := h
    exact ⟨[], .refl _, rfl, rfl, rfl⟩
  | _, _, [], _ :: _, _, _, h, _, _, _ => by simp at h
  | _, _, _ :: _, [], _, _, h, _, _, _ => by simp at h
  | _, _, (c, P) :: W, u :: us, _, _, hlen, hW, hok, h => by
    obtain ⟨es1, es2, qs1, qs2, rfl, rfl, h3, h4⟩ := h
    obtain ⟨h1, h5⟩ := holds_cons.1 hW
    obtain ⟨hokP, hok'⟩ := List.forall_mem_cons.1 hok
    obtain ⟨ps, h6, h7⟩ := seg_of_nodes (by simpa using hlen) h5 hok' h4
    refine ⟨(c :: qs1) ++ ps, ?_, es1, es2, c :: qs1, ps, rfl, rfl, ⟨P, qs1, h1, hokP, rfl, h3⟩, h7⟩
    simp only [List.map_cons, List.cons_append]
    refine List.Perm.cons c ((h6.append_left qs1).trans ?_)
    rw [← List.append_assoc, ← List.append_assoc]
    exact List.perm_append_comm.append_right _

/-- The tops of a row of subtrees are among its pages. -/
theorem seg_mem_pages : ∀ {lo hi : Bound} {ks : List (Nat × Bound)} {es : List Entry} {ps : List Nat},
    Seg (Node g page ok dep) lo ks hi es ps → ∀ k ∈ ks, k.1 ∈ ps
  | _, _, [], _, _, _, k, hk => by simp at hk
  | _, _, (c, u) :: ks, _, _, h, k, hk => by
    obtain ⟨es1, es2, ps1, ps2, rfl, rfl, ⟨P, qs, -, -, rfl, -⟩, h2⟩ := h
    rcases List.mem_cons.1 hk with rfl | hk
    · simp
    · exact List.mem_append_right _ (seg_mem_pages h2 k hk)

/-- A subtree below a parent has entries. -/
theorem Sub.ne_nil : ∀ {dep : Nat} {lo hi : Bound} {c : Nat} {es : List Entry} {ps : List Nat},
    Sub g page dep lo c hi es ps → es ≠ []
  | 0, _, _, _, es, _, h => by
    obtain ⟨p, qs, -, hs, -, -, h1, -⟩ := h
    intro h0
    rw [MemPage.allCells_of_ovfl_nil hs.ovfl, h0] at h1
    exact hs.cells h1
  | dep + 1, _, _, _, _, _, h => by
    obtain ⟨p, qs, -, hs, -, hb⟩ := h
    obtain ⟨-, -, hseg⟩ := body_succ.1 hb
    rcases hk : p.kids _ with - | ⟨k, ks⟩
    · simp [MemPage.kids] at hk
    · rw [hk] at hseg
      obtain ⟨es1, es2, ps1, ps2, rfl, -, h1, -⟩ := hseg
      have := Sub.ne_nil h1
      simp [this]

end Contents

/-! ## The order of the keys -/

section Order

variable {g : Geometry} {page : Nat → PageData}

theorem Run.lt_of_ne_nil {lo hi : Bound} {xs : List Bound} (h : Run lo xs hi) (hx : xs ≠ []) : lo < hi := by
  obtain ⟨x, xs, rfl⟩ := List.exists_cons_of_ne_nil hx
  exact h.1.trans_le h.2.le

theorem seg_run {S : Bound → Nat → Bound → List Entry → List Nat → Prop}
    (hS : ∀ lo c hi es ps, S lo c hi es ps → Run lo (es.map fun e => e.key.bound) hi) :
    ∀ {lo hi : Bound} {ks : List (Nat × Bound)} {es : List Entry} {ps : List Nat},
      Seg S lo ks hi es ps → Run lo (es.map fun e => e.key.bound) hi
  | _, _, [], _, _, h => by
    obtain ⟨rfl, rfl, -⟩ := h
    exact le_rfl
  | _, _, _ :: _, _, _, h => by
    obtain ⟨es1, es2, ps1, ps2, rfl, rfl, h1, h2⟩ := h
    rw [List.map_append]
    exact (hS _ _ _ _ _ h1).append (seg_run hS h2)

/-- The keys of a subtree ascend between its bounds. -/
theorem Body.run : ∀ {dep : Nat} {lo hi : Bound} {p : MemPage} {es : List Entry} {qs : List Nat},
    Body g page dep lo p hi es qs → Run lo (es.map fun e => e.key.bound) hi
  | 0, _, _, _, _, _, h => h.2.2.2.1
  | dep + 1, _, _, _, _, _, h => seg_run (fun _ _ _ _ _ h => by
      obtain ⟨p, qs, -, -, -, hb⟩ := h
      exact hb.run) (body_succ.1 h).2.2

theorem seg_sub_run {dep : Nat} {lo hi : Bound} {ks : List (Nat × Bound)} {es : List Entry}
    {ps : List Nat} (h : Seg (Sub g page dep) lo ks hi es ps) :
    Run lo (es.map fun e => e.key.bound) hi :=
  seg_run (fun _ _ _ _ _ h => by
    obtain ⟨p, qs, -, -, -, hb⟩ := h
    exact hb.run) h

/-- The dividers between subtrees that have entries ascend strictly. -/
theorem seg_sub_bounds {dep : Nat} : ∀ {lo hi : Bound} {ks : List (Nat × Bound)} {es : List Entry}
    {ps : List Nat}, Seg (Sub g page dep) lo ks hi es ps → Run lo (ks.map Prod.snd) hi
  | _, _, [], _, _, h => by
    obtain ⟨rfl, -, -⟩ := h
    exact le_rfl
  | _, _, (c, u) :: ks, _, _, h => by
    obtain ⟨es1, es2, ps1, ps2, rfl, rfl, h1, h2⟩ := h
    refine ⟨?_, seg_sub_bounds h2⟩
    have hne := Sub.ne_nil h1
    obtain ⟨p, qs, -, -, -, hb⟩ := h1
    exact Run.lt_of_ne_nil hb.run (by simpa using hne)

end Order

end Btreelite
