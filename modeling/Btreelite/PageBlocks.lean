import Btreelite.PageRules

/-!
# Finding and freeing blocks on a page

`pageFindSlot` takes a block off the list of free blocks or a part of one, and `freeSpace` puts one back and
joins it with its neighbours. The bytes of the page outside of these blocks stay.
-/

namespace Btreelite

namespace RawPage

open Prog ByteBuffer Tiling

/-- The bytes between blocks that are too short for the list. -/
def frag (p : RawPage) : Nat := (p.aData (p.hdrOffset + 7)).toNat

/-- The free blocks of the page are `fs`, and its cell content area begins at `top`. -/
structure FreeList (g : Geometry) (p : RawPage) (fs : List Block) (top : Nat) : Prop where
  top_eq : get2 p.aData (p.hdrOffset + 5) = top % 65536
  links : Links p.aData (p.hdrOffset + 1) fs 0
  spaced : Spaced (top + 1) fs (g.usableSize + 4)
  first_le : p.iCellFirst ≤ top
  top_le : top ≤ g.usableSize

/-- `p'` is `p` but for its free space: outside of the blocks `bs` its cell content area is the same. -/
structure Keeps (p p' : RawPage) (top : Nat) (bs : List Block) : Prop where
  hdrOffset : p'.hdrOffset = p.hdrOffset
  leaf : p'.leaf = p.leaf
  nCell : p'.nCell = p.nCell
  ovfl : p'.ovfl = p.ovfl
  aTemp : p'.aTemp = p.aTemp
  head : ∀ j, j < p.iCellFirst → j ≤ p.hdrOffset ∨ j = p.hdrOffset + 3 ∨ j = p.hdrOffset + 4 ∨ p.hdrOffset + 8 ≤ j →
    p'.aData j = p.aData j
  body : ∀ j, top ≤ j → (∀ b ∈ bs, j < b.1 ∨ b.1 + b.2 ≤ j) → p'.aData j = p.aData j

section Basic

variable {g : Geometry} {p p' q : RawPage} {fs : List Block} {top : Nat} {bs cs : List Block}

theorem hdr_le_first (p : RawPage) : p.hdrOffset + 8 ≤ p.iCellFirst := by
  unfold iCellFirst cellOffset
  omega

theorem Keeps.refl : Keeps p p top bs := ⟨rfl, rfl, rfl, rfl, rfl, fun _ _ _ => rfl, fun _ _ _ => rfl⟩

theorem Keeps.iCellFirst (h : Keeps p p' top bs) : p'.iCellFirst = p.iCellFirst := by
  rw [RawPage.iCellFirst, RawPage.iCellFirst, cellOffset, cellOffset, childPtrSize, childPtrSize, h.hdrOffset,
    h.leaf, h.nCell]

theorem Keeps.trans (h : Keeps p p' top bs) (h' : Keeps p' q top bs) : Keeps p q top bs where
  hdrOffset := h'.hdrOffset.trans h.hdrOffset
  leaf := h'.leaf.trans h.leaf
  nCell := h'.nCell.trans h.nCell
  ovfl := h'.ovfl.trans h.ovfl
  aTemp := h'.aTemp.trans h.aTemp
  head j hj hh := by
    rw [h'.head j (by rwa [h.iCellFirst]) (by rwa [h.hdrOffset]), h.head j hj hh]
  body j hj hb := by rw [h'.body j hj hb, h.body j hj hb]

theorem Keeps.withFree {x : Int} (h : Keeps p p' top bs) : Keeps p { p' with nFree := x } top bs :=
  ⟨h.hdrOffset, h.leaf, h.nCell, h.ovfl, h.aTemp, h.head, h.body⟩

theorem FreeList.withFree {x : Int} (h : FreeList g p fs top) : FreeList g { p with nFree := x } fs top :=
  ⟨h.top_eq, h.links, h.spaced, h.first_le, h.top_le⟩

/-- A store into the header of the free space, or into a block. -/
theorem Keeps.store {i : Nat} {s : List UInt8} (h : Keeps p p' top bs) (hfirst : p.iCellFirst ≤ top)
    (hi : (p.hdrOffset + 1 ≤ i ∧ i + s.length ≤ p.hdrOffset + 3)
      ∨ (p.hdrOffset + 5 ≤ i ∧ i + s.length ≤ p.hdrOffset + 8)
      ∨ ∃ b ∈ bs, top ≤ b.1 ∧ b.1 ≤ i ∧ i + s.length ≤ b.1 + b.2) :
    Keeps p { p' with aData := store p'.aData i s } top bs where
  hdrOffset := h.hdrOffset
  leaf := h.leaf
  nCell := h.nCell
  ovfl := h.ovfl
  aTemp := h.aTemp
  head j hj hh := by
    refine (store_out ?_).trans (h.head j hj hh)
    rcases hi with hi | hi | ⟨b, -, hi⟩ <;> omega
  body j hj hb := by
    have := hdr_le_first p
    refine (store_out ?_).trans (h.body j hj hb)
    rcases hi with hi | hi | ⟨b, hbs, hi⟩
    · omega
    · omega
    · have := hb b hbs
      omega

theorem Keeps.put2 {i v : Nat} (h : Keeps p p' top bs) (hfirst : p.iCellFirst ≤ top)
    (hi : (p.hdrOffset + 1 ≤ i ∧ i + 2 ≤ p.hdrOffset + 3) ∨ (p.hdrOffset + 5 ≤ i ∧ i + 2 ≤ p.hdrOffset + 8)
      ∨ ∃ b ∈ bs, top ≤ b.1 ∧ b.1 ≤ i ∧ i + 2 ≤ b.1 + b.2) :
    Keeps p { p' with aData := ByteBuffer.put2 p'.aData i v } top bs := h.store hfirst hi

theorem FreeList.hdr_lt (h : FreeList g p fs top) : p.hdrOffset + 8 ≤ top := (hdr_le_first p).trans h.first_le

theorem FreeList.hdr_lt_usable (h : FreeList g p fs top) : p.hdrOffset + 8 ≤ g.usableSize :=
  h.hdr_lt.trans h.top_le

theorem FreeList.mem (h : FreeList g p fs top) {f : Block} (hf : f ∈ fs) :
    top < f.1 ∧ 4 ≤ f.2 ∧ f.1 + f.2 ≤ g.usableSize := by
  have := h.spaced.mem f hf
  omega

theorem Spaced.of_append {lo hi : Nat} {fs1 fs2 : List Block} (h : Spaced lo (fs1 ++ fs2) hi) : Spaced lo fs1 hi := by
  cases fs2 with
  | nil => simpa using h
  | cons f fs2 =>
    obtain ⟨h1, -, h2⟩ := Spaced.append_cons.1 h
    have := h2.le
    exact h1.mono_hi (by omega)

theorem Spaced.length_le : ∀ {lo hi : Nat} {fs : List Block}, Spaced lo fs hi → lo + 8 * fs.length ≤ hi
  | _, _, [], h => h
  | lo, hi, f :: fs, h => by
    have h1 := h.2.2.length_le
    have h2 := h.1
    have h3 := h.2.1
    rw [List.length_cons]
    omega

/-- Storing a pointer of the list. -/
theorem FreeList.keeps_pointer {fs1 : List Block} {s : List UInt8} (h : FreeList g p fs top)
    (hs : s.length = 2) (hsub : ∀ f ∈ fs1, f ∈ bs ∧ f ∈ fs) :
    Keeps p { p with aData := ByteBuffer.store p.aData (lastPtr (p.hdrOffset + 1) fs1) s } top bs := by
  refine Keeps.refl.store h.first_le ?_
  rcases lastPtr_mem (p.hdrOffset + 1) fs1 with ⟨-, heq⟩ | ⟨f, hf, heq⟩
  · exact Or.inl (by omega)
  · have := h.mem (hsub f hf).2
    exact Or.inr (Or.inr ⟨f, (hsub f hf).1, by omega⟩)

theorem Keeps.setFrag {x : UInt8} (h : Keeps p p' top bs) (hfirst : p.iCellFirst ≤ top) :
    Keeps p { p' with aData := ByteBuffer.store p'.aData (p.hdrOffset + 7) [x] } top bs :=
  h.store hfirst (Or.inr (Or.inl (by simp)))

theorem frag_congr {d : Nat → UInt8} (h : d (p.hdrOffset + 7) = p.aData (p.hdrOffset + 7)) :
    frag { p with aData := d } = frag p := by
  rw [frag, frag, ← h]

/-- Another count of fragments leaves the list as it is. -/
theorem FreeList.setFrag {x : UInt8} (h : FreeList g p fs top) :
    FreeList g { p with aData := store p.aData (p.hdrOffset + 7) [x] } fs top where
  top_eq := by
    rw [← h.top_eq]
    exact get2_store_out (by simp)
  links := by
    have hh := h.hdr_lt
    refine h.links.congr (get2_store_out (by simp)) fun f hf => ?_
    have := h.mem hf
    exact ⟨get2_store_out (by simp; omega), get2_store_out (by simp; omega)⟩
  spaced := h.spaced
  first_le := h.first_le
  top_le := h.top_le

theorem frag_setFrag {x : UInt8} :
    frag { p with aData := store p.aData (p.hdrOffset + 7) [x] } = x.toNat := by
  have h : store p.aData (p.hdrOffset + 7) [x] (p.hdrOffset + 7) = x := store_in (j := 0) (by simp)
  simp [frag, h]

end Basic

/-! ## Finding a slot -/

/-- What `pageFindSlot` does to the list of free blocks: the block it takes, or the end of one, is at
`idx`. -/
inductive Slot (nByte : Nat) : List Block → Nat → Nat → List Block → Nat → Prop
  | whole {fs1 fs2 : List Block} {f : Block} {nFrag : Nat} : nByte ≤ f.2 → f.2 < nByte + 4 →
      Slot nByte (fs1 ++ f :: fs2) nFrag f.1 (fs1 ++ fs2) (nFrag + (f.2 - nByte))
  | part {fs1 fs2 : List Block} {f : Block} {nFrag : Nat} : nByte + 4 ≤ f.2 →
      Slot nByte (fs1 ++ f :: fs2) nFrag (f.1 + (f.2 - nByte)) (fs1 ++ (f.1, f.2 - nByte) :: fs2) nFrag

section FindSlot

variable {g : Geometry} {p : RawPage} {fs : List Block} {top nByte : Nat}

/-- A block taken off the list. -/
theorem FreeList.unlink {fs1 fs2 : List Block} {f : Block} (h : FreeList g p (fs1 ++ f :: fs2) top) :
    FreeList g
      { p with aData := store p.aData (lastPtr (p.hdrOffset + 1) fs1) (bytes p.aData f.1 2) }
      (fs1 ++ fs2) top := by
  have hh := h.hdr_lt
  obtain ⟨hs1, hsize, hs2⟩ := Spaced.append_cons.1 h.spaced
  obtain ⟨hl1, hl2, hl3⟩ := Links.append_cons.1 h.links
  have hcut := hs1.lastPtr_le (a := p.hdrOffset + 1) (by have := hs1.le; omega)
  have hle := hs1.le
  have hptr : get2 (store p.aData (lastPtr (p.hdrOffset + 1) fs1) (bytes p.aData f.1 2))
      (lastPtr (p.hdrOffset + 1) fs1) = headPtr fs2 :=
    (get2_store_bytes (n := 0) le_rfl).trans hl3.head
  refine ⟨?_, ?_, ?_, h.first_le, h.top_le⟩
  · rw [← h.top_eq]
    exact get2_store_out (by simp only [bytes_length]; omega)
  · refine Links.append.2 ⟨hl1.relink hs1 (by omega) hptr (fun j _ hj => ?_) fun hne => ?_, ?_⟩
    · exact get2_store_out (by simp only [bytes_length]; omega)
    · exact get2_store_out (by simp only [bytes_length]; omega)
    · refine Nodes.congr (links_iff.1 hl3).2 fun e he => ?_
      have := hs2.mem e he
      exact ⟨get2_store_out (by simp only [bytes_length]; omega),
        get2_store_out (by simp only [bytes_length]; omega)⟩
  · cases fs2 with
    | nil =>
      rw [List.append_nil]
      have := hs2.le
      exact hs1.mono_hi (by omega)
    | cons e fs2 => 
      refine Spaced.append_cons.2 ⟨hs1.mono_hi ?_, hs2.2⟩
      have := hs2.1
      omega

/-- The end of a block taken. -/
theorem FreeList.shorten {fs1 fs2 : List Block} {f : Block} {x : Nat} (h : FreeList g p (fs1 ++ f :: fs2) top)
    (hx : 4 ≤ x) (hle : x ≤ f.2) :
    FreeList g { p with aData := put2 p.aData (f.1 + 2) x } (fs1 ++ (f.1, x) :: fs2) top := by
  have hh := h.hdr_lt
  have htop := h.top_le
  have hu := g.usableSize_le
  obtain ⟨hs1, hsize, hs2⟩ := Spaced.append_cons.1 h.spaced
  obtain ⟨hl1, hl2, hl3⟩ := Links.append_cons.1 h.links
  have hle1 := hs1.le
  have hle2 := hs2.le
  refine ⟨?_, Links.append_cons.2 ⟨?_, ?_, ?_⟩, Spaced.append_cons.2 ⟨hs1, hx, hs2.mono_lo (by simp only; omega)⟩,
    h.first_le, h.top_le⟩
  · rw [← h.top_eq]
    exact get2_put2_out (by simp only; omega)
  · refine hl1.congr (get2_put2_out (by omega)) fun e he => ?_
    have := hs1.mem e he
    exact ⟨get2_put2_out (by omega), get2_put2_out (by omega)⟩
  · simp only [get2_put2]
    omega
  · refine hl3.congr (get2_put2_out (by omega)) fun e he => ?_
    have := hs2.mem e he
    exact ⟨get2_put2_out (by omega), get2_put2_out (by omega)⟩

/-- The loop, from the pointer behind `fs1` on. -/
theorem findSlot_wp (f : Block) (fs1 fs2 : List Block) {fuel : Nat}
    (h : FreeList g p (fs1 ++ f :: fs2) top) (hn : 4 ≤ nByte) (hfuel : fs2.length < fuel) :
    wp (findSlot g p.hdrOffset nByte fuel (lastPtr (p.hdrOffset + 1) fs1) f.1) (fun r p' =>
      match r with
      | none => p' = p
      | some idx => ∃ fs', Slot nByte (fs1 ++ f :: fs2) (frag p) idx fs' (frag p') ∧ FreeList g p' fs' top
        ∧ Keeps p p' top (fs1 ++ f :: fs2) ∧ p'.nFree = p.nFree) (fun _ _ => False) p := by
  induction fuel generalizing fs1 f fs2 with
  | zero => omega
  | succ fuel ih =>
    have hu := g.usable_ge
    have hh := h.hdr_lt
    have hh' := h.hdr_lt_usable
    have hf := h.mem (f := f) (by simp)
    have hfmem : f ∈ fs1 ++ f :: fs2 := by simp
    obtain ⟨hs1, -, hs2⟩ := Spaced.append_cons.1 h.spaced
    obtain ⟨-, hsize, hrest⟩ := Links.append_cons.1 h.links
    have hcut := hs1.lastPtr_le (a := p.hdrOffset + 1) (by have := hs1.le; omega)
    rw [findSlot]
    by_cases hfit : f.1 + nByte ≤ g.usableSize
    · rw [if_pos hfit, wp_bind, wp_get2byte (by omega), hsize]
      by_cases hbig : nByte ≤ f.2
      · rw [if_pos hbig]
        dsimp only
        by_cases hx : f.2 - nByte < 4
        · rw [if_pos hx, wp_bind, wp_pageByte (by omega)]
          by_cases hfull : 57 < (p.aData (p.hdrOffset + 7)).toNat
          · rw [if_pos hfull]
            exact rfl
          · rw [if_neg hfull, wp_bind, wp_memmove (by omega) (by omega), wp_bind, wp_putBytes (by simp; omega),
              wp_pure]
            have hcopy := h.unlink
            refine ⟨fs1 ++ fs2, ?_, hcopy.setFrag, ?_, rfl⟩
            · have hwhole : Slot nByte (fs1 ++ f :: fs2) (frag p) f.1 (fs1 ++ fs2) (frag p + (f.2 - nByte)) :=
                .whole hbig (by omega)
              rw [frag_setFrag, UInt8.toNat_ofNat', Nat.mod_eq_of_lt]
              · exact hwhole
              · omega
            · exact (h.keeps_pointer bytes_length fun e he => by simp [he]).setFrag h.first_le
        · rw [if_neg hx, if_neg (by omega), wp_bind, wp_put2byte (by omega), wp_pure]
          have hpart := h.shorten (x := f.2 - nByte) (by omega) (by omega)
          refine ⟨_, ?_, hpart, ?_, rfl⟩
          · rw [frag_congr (put2_out (by omega))]
            exact Slot.part (by omega)
          · exact Keeps.refl.put2 h.first_le (Or.inr (Or.inr ⟨f, hfmem, by omega⟩))
      · rw [if_neg hbig, wp_bind, wp_get2byte (by omega), hrest.head]
        cases fs2 with
        | nil =>
          rw [headPtr, if_pos (Nat.zero_le _), if_neg (by simp)]
          exact rfl
        | cons e fs2 =>
          have he := hs2.1
          rw [headPtr, if_neg (by omega)]
          have hrec := ih e (fs1 ++ [f]) fs2 (by simpa using h) (by simpa using hfuel)
          rw [lastPtr_append] at hrec
          simpa using hrec
    · rw [if_neg hfit, if_neg (by omega)]
      exact rfl

theorem pageFindSlot_wp (h : FreeList g p fs top) (hne : fs ≠ []) (hn : 4 ≤ nByte) :
    wp (pageFindSlot g nByte) (fun r p' =>
      match r with
      | none => p' = p
      | some idx => ∃ fs', Slot nByte fs (frag p) idx fs' (frag p') ∧ FreeList g p' fs' top
        ∧ Keeps p p' top fs ∧ p'.nFree = p.nFree) (fun _ _ => False) p := by
  have hu := g.usable_ge
  have hh := h.hdr_lt_usable
  have hlen := h.spaced.length_le
  rw [pageFindSlot, wp_bind, wp_get, wp_bind, wp_get2byte (by omega), h.links.head]
  cases fs with
  | nil => exact absurd rfl hne
  | cons f fs =>
    rw [List.length_cons] at hlen
    exact findSlot_wp f [] fs h hn (by omega)

/-- The slot is a block apart from the others. -/
theorem Slot.tiles {nFrag nFrag' idx hi : Nat} {cs fs' : List Block} (h : Slot nByte fs nFrag idx fs' nFrag')
    (hT : Tiles top hi (cs ++ fs) nFrag) : Tiles top hi ((idx, nByte) :: (cs ++ fs')) nFrag' := by
  cases h with
  | whole h1 h2 =>
    rename_i fs1 fs2 f
    have hperm : (cs ++ (fs1 ++ f :: fs2)).Perm (f :: (cs ++ (fs1 ++ fs2))) := by
      rw [← List.append_assoc, ← List.append_assoc]
      exact List.perm_middle
    exact (hT.perm hperm).replace (f.1, nByte) le_rfl (by simp only; omega)
  | part h1 =>
    rename_i fs1 fs2 f
    have hperm : (cs ++ (fs1 ++ f :: fs2)).Perm (f :: (cs ++ (fs1 ++ fs2))) := by
      rw [← List.append_assoc, ← List.append_assoc]
      exact List.perm_middle
    have hsplit := (hT.perm hperm).split (x := f.2 - nByte) (by omega)
    rw [show f.2 - (f.2 - nByte) = nByte by omega] at hsplit
    refine hsplit.perm ((List.Perm.swap _ _ _).trans (List.Perm.cons _ ?_))
    rw [← List.append_assoc, ← List.append_assoc]
    exact List.perm_middle.symm

end FindSlot

/-! ## Freeing a block -/

section Free

variable {g : Geometry} {p : RawPage} {fs fs1 fs2 : List Block} {top iStart iEnd : Nat}

/-- The loop, from the pointer behind `fs0` on. -/
theorem findFreeBlk_wp (fs0 fs1 : List Block) {fuel : Nat} (h : FreeList g p (fs0 ++ (fs1 ++ fs2)) top)
    (h0 : 0 < iStart) (h1 : ∀ f ∈ fs1, f.1 < iStart) (h2 : ∀ f ∈ fs2, iStart ≤ f.1) (hfuel : fs1.length < fuel) :
    wp (findFreeBlk g iStart fuel (lastPtr (p.hdrOffset + 1) fs0))
      (fun r p' => p' = p ∧ r = (lastPtr (p.hdrOffset + 1) (fs0 ++ fs1), headPtr fs2)) (fun _ _ => False) p := by
  induction fuel generalizing fs0 fs1 with
  | zero => omega
  | succ fuel ih =>
    have hu := g.usable_ge
    have hh := h.hdr_lt_usable
    have htop := h.top_le
    have hin : lastPtr (p.hdrOffset + 1) fs0 + 2 ≤ g.usableSize := by
      rcases lastPtr_mem (p.hdrOffset + 1) fs0 with ⟨-, heq⟩ | ⟨f, hf, heq⟩
      · omega
      · have := h.mem (f := f) (by simp [hf])
        omega
    have hptr : get2 p.aData (lastPtr (p.hdrOffset + 1) fs0) = headPtr (fs1 ++ fs2) :=
      (Links.append.1 h.links).1.last
    rw [findFreeBlk, wp_bind, wp_get2byte hin, hptr]
    cases fs1 with
    | nil =>
      rw [List.nil_append, List.append_nil]
      cases fs2 with
      | nil =>
        rw [headPtr, if_pos h0, if_pos (Nat.zero_le _), if_pos rfl]
        exact ⟨rfl, rfl⟩
      | cons f fs2 =>
        have := h2 f List.mem_cons_self
        rw [headPtr, if_neg (by omega)]
        exact ⟨rfl, rfl⟩
    | cons f fs1 =>
      have hf := h1 f List.mem_cons_self
      have hlt : lastPtr (p.hdrOffset + 1) fs0 < f.1 := by
        have hs := (Spaced.append_cons.1 (by simpa using h.spaced) : Spaced _ fs0 f.1 ∧ _).1
        have hlo := h.hdr_lt
        have hle := hs.le
        have := hs.lastPtr_le (a := p.hdrOffset + 1) (by omega)
        omega
      rw [List.cons_append, headPtr, if_pos hf, if_neg (by omega)]
      have hrec := ih (fs0 ++ [f]) fs1 (by simpa using h)
        (fun e he => h1 e (List.mem_cons_of_mem _ he)) (by simpa using hfuel)
      rw [lastPtr_append] at hrec
      simpa using hrec

variable {cs bs : List Block} {iPtr nFrag x : Nat}

/-- Blocks of the list are free blocks before and behind the block to be freed. -/
theorem tiles_next {f : Block} {n hi : Nat} (hT : Tiles top hi ((iStart, n) :: (cs ++ (fs1 ++ f :: fs2))) nFrag) :
    Tiles top hi ((iStart, n) :: f :: (cs ++ (fs1 ++ fs2))) nFrag := by
  refine hT.perm (List.Perm.cons _ ?_)
  rw [← List.append_assoc, ← List.append_assoc]
  exact List.perm_middle

theorem joinNext_wp {n : Nat} (h : FreeList g p (fs1 ++ fs2) top)
    (hT : Tiles top g.usableSize ((iStart, n) :: (cs ++ (fs1 ++ fs2))) nFrag) (hcs : ∀ b ∈ cs, 4 ≤ b.2)
    (hn : 4 ≤ n) (h2 : ∀ f ∈ fs2, iStart ≤ f.1) :
    wp (joinNext g (iStart + n) (headPtr fs2)) (fun r p' => p' = p ∧ ∃ fs2', r.2.2 = headPtr fs2'
      ∧ r.1 ≤ nFrag ∧ iStart + 4 ≤ r.2.1
      ∧ Tiles top g.usableSize ((iStart, r.2.1 - iStart) :: (cs ++ (fs1 ++ fs2'))) (nFrag - r.1)
      ∧ Spaced (r.2.1 + 4) fs2' (g.usableSize + 4) ∧ Nodes p.aData fs2' ∧ ∀ f ∈ fs2', f ∈ fs2)
      (fun _ _ => False) p := by
  have hnodes := (Links.append.1 h.links).2
  have hblock := hT.inside (iStart, n) List.mem_cons_self
  simp only at hblock
  cases fs2 with
  | nil =>
    rw [joinNext, headPtr, if_neg (by simp)]
    refine ⟨rfl, [], rfl, Nat.zero_le _, by simp only; omega, ?_, ?_, trivial, by simp⟩
    · rw [Nat.add_sub_cancel_left]
      exact hT
    · simp only [Spaced]
      omega
  | cons f fs2 =>
    have hf := h.mem (f := f) (by simp)
    have hle := h2 f List.mem_cons_self
    have happ := (tiles_next hT).head_apart f List.mem_cons_self
    obtain ⟨-, -, hs2⟩ := Spaced.append_cons.1 h.spaced
    unfold Apart at happ
    simp only at happ
    rw [joinNext, headPtr]
    by_cases hj : f.1 ≤ iStart + n + 3
    · have hlong : ∀ b ∈ cs ++ (fs1 ++ fs2), f.1 - (iStart + n) < b.2 := by
        intro b hb
        have h4 : 4 ≤ b.2 := by
          rcases List.mem_append.1 hb with hb | hb
          · exact hcs b hb
          · exact (h.mem (f := b) (by
              rcases List.mem_append.1 hb with hb | hb
              · simp [hb]
              · simp [hb])).2.1
        omega
      have hjoin := (tiles_next hT).join (by omega) hlong
      have hgap := ((tiles_next hT).gap_le (by omega) hlong).2
      rw [if_pos ⟨by omega, hj⟩, if_neg (by omega), wp_bind, wp_get2byte (by omega), hnodes.1, if_neg (by omega),
        wp_bind, wp_get2byte (by omega), hnodes.2.head, wp_pure]
      exact ⟨rfl, fs2, rfl, hgap, by simp only; omega, hjoin, hs2, (links_iff.1 hnodes.2).2,
        fun e he => List.mem_cons_of_mem _ he⟩
    · rw [if_neg (by omega), wp_pure]
      refine ⟨rfl, f :: fs2, rfl, Nat.zero_le _, by simp only; omega, ?_, ⟨by simp only; omega, hf.2.1, hs2⟩,
        hnodes, fun e he => he⟩
      rw [Nat.add_sub_cancel_left]
      exact hT

/-- The block and the free block before it, when it reaches from `iStart` to `iEnd` and `fs2` lies behind. -/
theorem joinPrior_wp (h : FreeList g p fs top) (hsub : ∀ f ∈ fs1, f ∈ fs) (hs : Spaced (top + 1) fs1 (g.usableSize + 4))
    (hl : ∃ y, Links p.aData (p.hdrOffset + 1) fs1 y) (h1 : ∀ f ∈ fs1, f.1 < iStart) (hlen : iStart + 4 ≤ iEnd)
    (hT : Tiles top g.usableSize ((iStart, iEnd - iStart) :: (cs ++ (fs1 ++ fs2))) nFrag)
    (hcs : ∀ b ∈ cs, 4 ≤ b.2) (hfs2 : ∀ f ∈ fs2, 4 ≤ f.2) :
    wp (joinPrior g p.hdrOffset (lastPtr (p.hdrOffset + 1) fs1) iStart) (fun r p' => p' = p ∧ r.1 ≤ nFrag
      ∧ ∃ fs1', Tiles top g.usableSize ((r.2, iEnd - r.2) :: (cs ++ (fs1' ++ fs2))) (nFrag - r.1)
      ∧ (r.2 = iStart ∧ fs1' = fs1 ∧ (fs1 = [] ∨ Spaced (top + 1) fs1 iStart)
        ∨ ∃ f, fs1 = fs1' ++ [f] ∧ r.2 = f.1)) (fun _ _ => False) p := by
  have hh := h.hdr_lt
  have hblock := hT.inside (iStart, iEnd - iStart) List.mem_cons_self
  simp only at hblock
  rcases List.eq_nil_or_concat fs1 with rfl | ⟨fs0, f, rfl⟩
  · rw [joinPrior, lastPtr, if_neg (by omega)]
    exact ⟨rfl, Nat.zero_le _, [], hT, Or.inl ⟨rfl, rfl, Or.inl rfl⟩⟩
  · rw [List.concat_eq_append] at *
    have hf := h.mem (hsub f (by simp))
    have hlt := h1 f (by simp)
    obtain ⟨y, hy⟩ := hl
    have hsize := (Links.append_cons.1 hy).2.1
    obtain ⟨hs1, h4, -⟩ := Spaced.append_cons.1 hs
    have hperm : (cs ++ (fs0 ++ [f] ++ fs2)).Perm (f :: (cs ++ (fs0 ++ fs2))) := by
      rw [← List.append_assoc, ← List.append_assoc, ← List.append_assoc, List.append_assoc _ [f]]
      exact List.perm_middle
    have hT' := hT.perm ((List.Perm.cons _ hperm).trans (List.Perm.swap _ _ _))
    have happ := hT'.head_apart (iStart, iEnd - iStart) List.mem_cons_self
    unfold Apart at happ
    simp only at happ
    rw [lastPtr_append, joinPrior, if_pos (by omega), wp_bind, wp_get2byte (by omega), hsize]
    by_cases hj : iStart ≤ f.1 + f.2 + 3
    · have hlong : ∀ b ∈ cs ++ (fs0 ++ fs2), iStart - (f.1 + f.2) < b.2 := by
        intro b hb
        have h4 : 4 ≤ b.2 := by
          rcases List.mem_append.1 hb with hb | hb
          · exact hcs b hb
          · rcases List.mem_append.1 hb with hb | hb
            · exact (h.mem (hsub b (by simp [hb]))).2.1
            · exact hfs2 b hb
        omega
      have hjoin := hT'.join (by omega) hlong
      have hgap := (hT'.gap_le (by omega) hlong).2
      rw [if_pos hj, if_neg (by omega), wp_pure]
      refine ⟨rfl, hgap, fs0, ?_, Or.inr ⟨f, rfl, rfl⟩⟩
      rwa [show iStart + (iEnd - iStart) - f.1 = iEnd - f.1 by omega] at hjoin
    · rw [if_neg hj, wp_pure]
      refine ⟨rfl, Nat.zero_le _, fs0 ++ [f], hT, Or.inl ⟨rfl, rfl, Or.inr ?_⟩⟩
      exact Spaced.append_cons.2 ⟨hs1, h4, by simp only [Spaced]; omega⟩

theorem headPtr_lt {lo : Nat} (hs : Spaced lo fs (g.usableSize + 4)) : headPtr fs < 65536 := by
  have hu := g.usableSize_le
  cases fs with
  | nil => exact Nat.two_pow_pos 16
  | cons f fs =>
    have := hs.mem f List.mem_cons_self
    rw [headPtr]
    omega

/-- The cell content area begins behind the block. -/
theorem FreeList.raise (h : FreeList g p fs top) (hlen : top + 4 ≤ iEnd) (hend : iEnd ≤ g.usableSize)
    (hs2 : Spaced (iEnd + 4) fs2 (g.usableSize + 4)) (hn2 : Nodes p.aData fs2) :
    FreeList g
      { p with aData := put2 (put2 p.aData (p.hdrOffset + 1) (headPtr fs2)) (p.hdrOffset + 5) iEnd } fs2 iEnd := by
  have hh := h.hdr_lt
  have hptr : get2 (put2 (put2 p.aData (p.hdrOffset + 1) (headPtr fs2)) (p.hdrOffset + 5) iEnd)
      (p.hdrOffset + 1) = headPtr fs2 := by
    rw [get2_put2_out (by omega), get2_put2, Nat.mod_eq_of_lt (headPtr_lt hs2)]
  refine ⟨get2_put2, links_iff.2 ⟨hptr, hn2.congr fun f hf => ?_⟩, hs2.mono_lo (by omega),
    h.first_le.trans (by omega), hend⟩
  have := hs2.mem f hf
  exact ⟨(get2_put2_out (by omega)).trans (get2_put2_out (by omega)),
    (get2_put2_out (by omega)).trans (get2_put2_out (by omega))⟩

/-- The block is on the list, between `fs1` and `fs2`; `iPtr` is the pointer behind `fs1` or the block itself,
when the pointer leads there already. -/
theorem FreeList.link {y : Nat} (h : FreeList g p fs top) (hlen : iStart + 4 ≤ iEnd) (htop : top < iStart)
    (hs1 : Spaced (top + 1) fs1 iStart) (hs2 : Spaced (iEnd + 4) fs2 (g.usableSize + 4))
    (hl : Links p.aData (p.hdrOffset + 1) fs1 y)
    (hptr : iPtr = lastPtr (p.hdrOffset + 1) fs1 ∨ iPtr = iStart ∧ y = iStart) (hn2 : Nodes p.aData fs2) :
    FreeList g
      { p with aData := put2 (put2 (put2 p.aData iPtr iStart) iStart (headPtr fs2)) (iStart + 2) (iEnd - iStart) }
      (fs1 ++ (iStart, iEnd - iStart) :: fs2) top := by
  have hh := h.hdr_lt
  have hu := g.usableSize_le
  have hle := hs1.le
  have hend := hs2.le
  have hcut := hs1.lastPtr_le (a := p.hdrOffset + 1) (by omega)
  have hiPtr : p.hdrOffset + 1 ≤ iPtr ∧ (iPtr + 8 ≤ iStart ∨ iPtr = iStart)
      ∧ (iPtr = p.hdrOffset + 1 ∨ top < iPtr) := by
    rcases hptr with rfl | ⟨rfl, -⟩ <;> omega
  have hlow : ∀ j, j + 2 ≤ iPtr ∨ iPtr + 2 ≤ j → j + 2 ≤ iStart ∨ iStart + 4 ≤ j →
      get2 (put2 (put2 (put2 p.aData iPtr iStart) iStart (headPtr fs2)) (iStart + 2) (iEnd - iStart)) j
        = get2 p.aData j := fun j h1 h2 =>
    (get2_put2_out (by omega)).trans ((get2_put2_out (by omega)).trans (get2_put2_out h1))
  refine ⟨(hlow (p.hdrOffset + 5) (by omega) (by omega)).trans h.top_eq, Links.append_cons.2 ⟨?_, ?_, links_iff.2 ⟨?_, ?_⟩⟩,
    Spaced.append_cons.2 ⟨hs1, by simp only; omega, hs2.mono_lo (by simp only; omega)⟩, h.first_le, h.top_le⟩
  · rcases hptr with rfl | ⟨rfl, rfl⟩
    · refine hl.relink hs1 (by omega) ?_ (fun j _ hj => hlow j (by omega) (by omega)) fun hne => ?_
      · have hlt : iStart < 65536 := by omega
        exact (get2_put2_out (by omega)).trans ((get2_put2_out (by omega)).trans
          (get2_put2.trans (Nat.mod_eq_of_lt hlt)))
      · have : fs1 ≠ [] := hne
        exact hlow _ (by omega) (by omega)
    · refine hl.congr (hlow _ (by omega) (by omega)) fun e he => ?_
      have := hs1.mem e he
      exact ⟨hlow _ (by omega) (by omega), hlow _ (by omega) (by omega)⟩
  · exact get2_put2.trans (Nat.mod_eq_of_lt (by omega))
  · exact (get2_put2_out (by omega)).trans (get2_put2.trans (Nat.mod_eq_of_lt (headPtr_lt hs2)))
  · refine hn2.congr fun e he => ?_
    have := hs2.mem e he
    exact ⟨hlow _ (by omega) (by omega), hlow _ (by omega) (by omega)⟩

/-- The block is on the list, or the cell content area begins behind it. -/
theorem linkBlock_wp {y : Nat} (h : FreeList g p fs top) (hlen : iStart + 4 ≤ iEnd)
    (hT : Tiles top g.usableSize ((iStart, iEnd - iStart) :: (cs ++ (fs1 ++ fs2))) nFrag)
    (hlong : ∀ b ∈ cs ++ (fs1 ++ fs2), 0 < b.2)
    (hs1 : fs1 = [] ∨ Spaced (top + 1) fs1 iStart) (hs2 : Spaced (iEnd + 4) fs2 (g.usableSize + 4))
    (hl : Links p.aData (p.hdrOffset + 1) fs1 y)
    (hptr : iPtr = lastPtr (p.hdrOffset + 1) fs1 ∨ iPtr = iStart ∧ y = iStart ∧ top < iStart)
    (hn2 : Nodes p.aData fs2) (hblk : ∃ b ∈ bs, top ≤ b.1 ∧ b.1 ≤ iStart ∧ iStart + 4 ≤ b.1 + b.2)
    (hfs1 : ∀ f ∈ fs1, f ∈ bs ∧ f ∈ fs) :
    wp (linkBlock g p.hdrOffset iPtr iStart iEnd (headPtr fs2)) (fun _ p' => ∃ fs' top', FreeList g p' fs' top'
      ∧ Tiles top' g.usableSize (cs ++ fs') nFrag ∧ frag p' = frag p ∧ Keeps p p' top bs ∧ p'.nFree = p.nFree
      ∧ top ≤ top') (fun _ _ => False) p := by
  have hh := h.hdr_lt
  have hu := g.usableSize_le
  have hblock := hT.inside (iStart, iEnd - iStart) List.mem_cons_self
  simp only at hblock
  have htop : top % 65536 = top := Nat.mod_eq_of_lt (by omega)
  rw [linkBlock, wp_bind, wp_get2byte (by omega), h.top_eq, htop]
  by_cases hx : iStart ≤ top
  · have hfs1 : fs1 = [] := by
      rcases hs1 with h0 | hs1
      · exact h0
      · have := hs1.le
        omega
    subst hfs1
    obtain rfl : iPtr = p.hdrOffset + 1 := by
      rcases hptr with hptr | hptr
      · exact hptr
      · omega
    obtain rfl : iStart = top := by omega
    rw [if_pos hx, if_neg (by omega), if_neg (by simp), wp_bind, wp_put2byte (by omega), wp_put2byte (by omega)]
    have habove := hT.above (fun b hb => hlong b (by simpa using hb))
    rw [show iStart + (iEnd - iStart) = iEnd by omega, List.nil_append] at habove
    have hfrag : put2 (put2 p.aData (p.hdrOffset + 1) (headPtr fs2)) (p.hdrOffset + 5) iEnd (p.hdrOffset + 7)
        = p.aData (p.hdrOffset + 7) := (put2_out (by omega)).trans (put2_out (by omega))
    exact ⟨fs2, iEnd, h.raise hlen (by omega) hs2 hn2, habove, frag_congr hfrag,
      (Keeps.refl.put2 h.first_le (Or.inl (by omega))).put2 h.first_le (Or.inr (Or.inl (by omega))), rfl, by omega⟩
  · have hlt : top < iStart := by omega
    have hs1 : Spaced (top + 1) fs1 iStart := by
      rcases hs1 with rfl | hs1
      · exact hlt
      · exact hs1
    have hcut := hs1.lastPtr_le (a := p.hdrOffset + 1) (by omega)
    have hiPtr : iPtr = p.hdrOffset + 1 ∨ top < iPtr ∧ iPtr ≤ iStart := by
      rcases hptr with rfl | ⟨rfl, -⟩ <;> omega
    have hlink := h.link hlen hlt hs1 hs2 hl (hptr.imp_right fun h => ⟨h.1, h.2.1⟩) hn2
    rw [if_neg hx, wp_bind, wp_put2byte (by omega), wp_bind, wp_put2byte (by omega), wp_put2byte (by omega)]
    have hperm : ((iStart, iEnd - iStart) :: (cs ++ (fs1 ++ fs2))).Perm
        (cs ++ (fs1 ++ (iStart, iEnd - iStart) :: fs2)) := by
      rw [← List.append_assoc, ← List.append_assoc]
      exact List.perm_middle.symm
    have hfrag : put2 (put2 (put2 p.aData iPtr iStart) iStart (headPtr fs2)) (iStart + 2) (iEnd - iStart)
        (p.hdrOffset + 7) = p.aData (p.hdrOffset + 7) :=
      (put2_out (by omega)).trans ((put2_out (by omega)).trans (put2_out (by omega)))
    obtain ⟨b, hb, hb1⟩ := hblk
    have hkeep : Keeps p { p with aData := put2 p.aData iPtr iStart } top bs := by
      rcases hptr with rfl | ⟨rfl, -⟩
      · exact h.keeps_pointer rfl hfs1
      · exact Keeps.refl.put2 h.first_le (Or.inr (Or.inr ⟨b, hb, by omega⟩))
    exact ⟨_, top, hlink, hT.perm hperm, frag_congr hfrag,
      (hkeep.put2 h.first_le (Or.inr (Or.inr ⟨b, hb, by omega⟩))).put2 h.first_le
        (Or.inr (Or.inr ⟨b, hb, by omega⟩)), rfl, le_rfl⟩

/-- `freeSpace` on a block in none of the others. -/
theorem freeSpace_wp {n : Nat} (h : FreeList g p fs top)
    (hT : Tiles top g.usableSize ((iStart, n) :: (cs ++ fs)) (frag p)) (hcs : ∀ b ∈ cs, 4 ≤ b.2) (hn : 4 ≤ n) :
    wp (freeSpace g iStart n) (fun _ p' => ∃ fs' top', FreeList g p' fs' top'
      ∧ Tiles top' g.usableSize (cs ++ fs') (frag p') ∧ Keeps p p' top ((iStart, n) :: fs)
      ∧ p'.nFree = p.nFree + n ∧ top ≤ top') (fun _ _ => False) p := by
  have hh := h.hdr_lt_usable
  have hu := g.usable_ge
  have hlo := h.hdr_lt
  have hblock := hT.inside (iStart, n) List.mem_cons_self
  simp only at hblock
  have hpos : ∀ b ∈ cs ++ fs, 0 < b.2 := by
    intro b hb
    rcases List.mem_append.1 hb with hb | hb
    · have := hcs b hb
      omega
    · have := h.mem hb
      omega
  have hblk : ∀ f ∈ fs, top ≤ f.1 ∧ f.1 ≤ f.1 ∧ f.1 + 4 ≤ f.1 + f.2 := fun f hf => by
    have := h.mem hf
    omega
  have hhole : ∃ b ∈ (iStart, n) :: fs, top ≤ b.1 ∧ b.1 ≤ iStart ∧ iStart + 4 ≤ b.1 + b.2 :=
    ⟨(iStart, n), List.mem_cons_self, by simp only; omega⟩
  rw [freeSpace, wp_bind, wp_get, wp_bind, wp_get2byte (by omega), h.links.head]
  dsimp only
  by_cases hempty : fs = []
  · subst hempty
    rw [headPtr, if_pos rfl, wp_bind]
    have hend : Spaced (iStart + n + 4) [] (g.usableSize + 4) := by
      simp only [Spaced]
      omega
    have hnone : ([] : List Block) = [] ∨ Spaced (top + 1) [] iStart := Or.inl rfl
    refine (linkBlock_wp h (by omega) (by rwa [Nat.add_sub_cancel_left]) hpos hnone hend h.links (Or.inl rfl)
      trivial hhole (by simp)).post ?_
    intro _ p1 h1
    obtain ⟨fs', top', hfs', hT', hfrag, hkeep, hfree, hle⟩ := h1
    rw [wp_modify]
    exact ⟨fs', top', hfs'.withFree, by rwa [← hfrag] at hT',
      hkeep.withFree, by rw [← hfree], hle⟩
  · have htop := h.top_le
    obtain ⟨fs1, fs2, rfl, h1, h2⟩ := h.spaced.cut (x := iStart)
    obtain ⟨hl1, hn2⟩ := Links.append.1 h.links
    have hlen := h.spaced.length_le
    rw [List.length_append] at hlen
    have hfirst : headPtr (fs1 ++ fs2) ≠ 0 := by
      obtain ⟨f, fs, heq⟩ := List.exists_cons_of_ne_nil hempty
      have := h.mem (f := f) (by rw [heq]; exact List.mem_cons_self)
      rw [heq, headPtr]
      omega
    rw [if_neg hfirst, wp_bind]
    refine (findFreeBlk_wp [] fs1 h (by omega) h1 h2 (by omega)).post ?_
    rintro _ p ⟨rfl, rfl⟩
    have hlast : headPtr fs2 ≤ g.usableSize - 4 := by
      cases fs2 with
      | nil => exact Nat.zero_le _
      | cons f fs2 =>
        have := h.mem (f := f) (by simp)
        rw [headPtr]
        omega
    rw [if_neg (by omega), wp_bind]
    refine (joinNext_wp h hT hcs hn h2).post ?_
    rintro ⟨nFrag, iEnd, iFreeBlk⟩ p ⟨rfl, fs2', rfl, hfrag, hend, hT', hs2', hn2', hsub2⟩
    have hin2 : ∀ f ∈ fs2', f ∈ fs1 ++ fs2 := fun f hf => List.mem_append_right _ (hsub2 f hf)
    dsimp only at hfrag hend hT' hs2' ⊢
    rw [wp_bind]
    refine (joinPrior_wp h (fun f hf => List.mem_append_left _ hf) h.spaced.of_append ⟨_, hl1⟩ h1 hend hT' hcs
      fun f hf => (h.mem (hin2 f hf)).2.1).post ?_
    rintro ⟨nFrag2, iStart'⟩ p ⟨rfl, hfrag2, fs1', hT'', hcase⟩
    dsimp only at hfrag2 hT'' hcase ⊢
    have hx : frag p = (p.aData (p.hdrOffset + 7)).toNat := rfl
    rw [wp_bind, wp_pageByte (by omega), if_neg (by omega), wp_bind, wp_putBytes (by simp; omega)]
    have hset := h.setFrag (x := UInt8.ofNat ((p.aData (p.hdrOffset + 7)).toNat - (nFrag + nFrag2)))
    have hcount := frag_setFrag (p := p) (x := UInt8.ofNat ((p.aData (p.hdrOffset + 7)).toNat - (nFrag + nFrag2)))
    rw [UInt8.toNat_ofNat', Nat.mod_eq_of_lt (by have := (p.aData (p.hdrOffset + 7)).toNat_lt; omega)] at hcount
    have hlink : ∃ iPtr y, iPtr = lastPtr (p.hdrOffset + 1) fs1 ∧ (∀ f ∈ fs1', f ∈ fs1)
        ∧ (fs1' = [] ∨ Spaced (top + 1) fs1' iStart') ∧ iStart' + 4 ≤ iEnd
        ∧ Links p.aData (p.hdrOffset + 1) fs1' y
        ∧ (iPtr = lastPtr (p.hdrOffset + 1) fs1' ∨ iPtr = iStart' ∧ y = iStart' ∧ top < iStart')
        ∧ ∃ b ∈ (iStart, n) :: (fs1 ++ fs2), top ≤ b.1 ∧ b.1 ≤ iStart' ∧ iStart' + 4 ≤ b.1 + b.2 := by
      rcases hcase with ⟨rfl, rfl, hs⟩ | ⟨f, rfl, rfl⟩
      · exact ⟨_, _, rfl, fun f hf => hf, hs, hend, hl1, Or.inl rfl, hhole⟩
      · have hf := h.mem (f := f) (by simp)
        have hlt := h1 f (by simp)
        exact ⟨_, _, rfl, fun e he => by simp [he], Or.inr (Spaced.append_cons.1 h.spaced.of_append).1, by omega,
          (Links.append_cons.1 hl1).1, Or.inr ⟨lastPtr_append, rfl, hf.1⟩, f, by simp, hblk f (by simp)⟩
    obtain ⟨iPtr, y, hiPtr, hsub1, hs1', hend', hl1', hptr, hblk'⟩ := hlink
    have hout : ∀ f ∈ fs1 ++ fs2, ∀ j, f.1 ≤ j →
        get2 (store p.aData (p.hdrOffset + 7) [UInt8.ofNat ((p.aData (p.hdrOffset + 7)).toNat - (nFrag + nFrag2))]) j
          = get2 p.aData j := fun f hf j hj => by
      have := h.mem hf
      exact get2_store_out (by simp; omega)
    have hin1 : ∀ f ∈ fs1', f ∈ fs1 ++ fs2 := fun f hf => List.mem_append_left _ (hsub1 f hf)
    rw [List.nil_append, ← hiPtr, wp_bind]
    refine (linkBlock_wp hset hend' hT'' (fun b hb => ?_) hs1' hs2'
      (hl1'.congr (get2_store_out (by simp)) fun f hf => ⟨hout f (hin1 f hf) _ le_rfl, hout f (hin1 f hf) _ (by omega)⟩)
      hptr (hn2'.congr fun f hf => ⟨hout f (hin2 f hf) _ le_rfl, hout f (hin2 f hf) _ (by omega)⟩) hblk'
      fun f hf => ⟨List.mem_cons_of_mem _ (hin1 f hf), hin1 f hf⟩).post ?_
    · rcases List.mem_append.1 hb with hb | hb
      · have := hcs b hb
        omega
      · have := h.mem (f := b) ((List.mem_append.1 hb).elim (hin1 b) (hin2 b))
        omega
    · intro _ p1 hp1
      obtain ⟨fs', top', hfs', hT', hfrag', hkeep, hfree, hle⟩ := hp1
      rw [wp_modify]
      refine ⟨fs', top', hfs'.withFree, ?_, ((Keeps.refl.setFrag h.first_le).trans hkeep).withFree, ?_, hle⟩
      · change Tiles top' g.usableSize (cs ++ fs') (frag p1)
        rwa [hfrag', hcount, ← hx, ← Nat.sub_sub]
      · change p1.nFree + (n : Int) = _
        rw [hfree]

end Free

end RawPage

end Btreelite
