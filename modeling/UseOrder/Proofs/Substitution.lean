import UseOrder.Proofs.Edits

/-!
# Edits in any order

A list of edits says what is to be written over which ranges. If the ranges are not empty and have
no position in common, that has a meaning without any order: at each position of the old tokens, look
whether a range covers it, and write the new tokens of the edit where its range starts, nothing in
the rest of the range, and the old token everywhere else (`substitute`). Carrying out the edits one
after the other gives just that (`applyEdits_substitutes`).

Sorted by position, such edits are those of patches that follow each other (`exists_patches`), and
for patches it is known what applying them does.
-/

namespace UseOrder

/-- The position lies in the range of the edit. -/
def Edit.covers (e : Edit) (i : Nat) : Bool :=
  decide (e.start ≤ i) && decide ((i : Int) < e.stop)

theorem Edit.covers_iff {e : Edit} {i : Nat} :
    e.covers i = true ↔ e.start ≤ i ∧ (i : Int) < e.stop := by
  simp [covers]

theorem Edit.not_covers_iff {e : Edit} {i : Nat} :
    e.covers i = false ↔ (i : Int) < e.start ∨ e.stop ≤ i := by
  rw [Bool.eq_false_iff, ne_eq, covers_iff]
  omega

/-- The edit that covers the position. -/
def editAt? (edits : List Edit) (i : Nat) : Option Edit :=
  edits.find? fun e => e.covers i

/-- What is written for the token at a position. -/
def writtenFor (edits : List Edit) (i : Nat) (t : Token) : List Token :=
  match editAt? edits i with
  | none => [t]
  | some e => if e.start = i then e.tokens else []

/-- All ranges replaced at once in tokens whose first position is `i`. -/
def substituteFrom (edits : List Edit) (i : Nat) : List Token → List Token
  | [] => []
  | t :: ts => writtenFor edits i t ++ substituteFrom edits (i + 1) ts

/-- All ranges replaced at once. -/
def substitute (edits : List Edit) (ts : List Token) : List Token :=
  substituteFrom edits 0 ts

/-- The ranges of the edits are not empty and lie in a list of `size` tokens, and no position lies in
two of them. -/
structure DisjointEdits (size : Nat) (edits : List Edit) : Prop where
  within : ∀ e ∈ edits, 0 ≤ e.start ∧ e.start < e.stop ∧ e.stop ≤ size
  disjoint : edits.Pairwise fun a b => ∀ i, ¬ (a.covers i = true ∧ b.covers i = true)

theorem editAt?_cons_of_covers {e : Edit} {edits : List Edit} {i : Nat} (h : e.covers i = true) :
    editAt? (e :: edits) i = some e := by
  simp [editAt?, h]

theorem editAt?_cons_of_not_covers {e : Edit} {edits : List Edit} {i : Nat}
    (h : e.covers i = false) : editAt? (e :: edits) i = editAt? edits i := by
  simp [editAt?, h]

/-! ## Substitution piece by piece -/

theorem substituteFrom_append (edits : List Edit) (i : Nat) (a b : List Token) :
    substituteFrom edits i (a ++ b) =
      substituteFrom edits i a ++ substituteFrom edits (i + a.length) b := by
  induction a generalizing i with
  | nil => rfl
  | cons t a ih =>
    have hNext : i + 1 + a.length = i + (t :: a).length := by
      rw [List.length_cons]
      omega
    rw [List.cons_append, substituteFrom, substituteFrom, ih, hNext, List.append_assoc]

/-- Substitution looks only at the positions of the tokens. -/
theorem substituteFrom_congr {edits edits' : List Edit} {i : Nat} {ts : List Token}
    (h : ∀ k, i ≤ k → k < i + ts.length → editAt? edits k = editAt? edits' k) :
    substituteFrom edits i ts = substituteFrom edits' i ts := by
  induction ts generalizing i with
  | nil => rfl
  | cons t ts ih =>
    simp only [List.length_cons] at h
    have hHere := h i (Nat.le_refl i) (by omega)
    rw [substituteFrom, substituteFrom, writtenFor, writtenFor, hHere,
      ih fun k hLow hHigh => h k (by omega) (by omega)]

/-- Tokens that no range covers are kept. -/
theorem substituteFrom_outside {edits : List Edit} {i : Nat} {ts : List Token}
    (h : ∀ k, i ≤ k → k < i + ts.length → ∀ e ∈ edits, e.covers k = false) :
    substituteFrom edits i ts = ts := by
  induction ts generalizing i with
  | nil => rfl
  | cons t ts ih =>
    simp only [List.length_cons] at h
    have hNone : editAt? edits i = none := by
      rw [editAt?, List.find?_eq_none]
      intro e he
      simp [h i (Nat.le_refl i) (by omega) e he]
    rw [substituteFrom, writtenFor, hNone, ih fun k hLow hHigh => h k (by omega) (by omega)]
    rfl

/-- In a range, behind its start, nothing is written. -/
theorem substituteFrom_inside {e : Edit} {edits : List Edit} {i : Nat} {ts : List Token}
    (hStart : e.start < i) (hStop : (i : Int) + ts.length ≤ e.stop) :
    substituteFrom (e :: edits) i ts = [] := by
  induction ts generalizing i with
  | nil => rfl
  | cons t ts ih =>
    rw [List.length_cons] at hStop
    have hCovers : e.covers i = true := Edit.covers_iff.mpr (by omega)
    rw [substituteFrom, writtenFor, editAt?_cons_of_covers hCovers, ih (by omega) (by omega)]
    simp [show e.start ≠ i by omega]

/-- For a whole range the new tokens are written. -/
theorem substituteFrom_range {e : Edit} {edits : List Edit} {i : Nat} {ts : List Token}
    (hStart : e.start = i) (hStop : e.stop = i + ts.length) (hSome : ts ≠ []) :
    substituteFrom (e :: edits) i ts = e.tokens := by
  obtain ⟨t, ts, rfl⟩ := List.exists_cons_of_ne_nil hSome
  rw [List.length_cons] at hStop
  have hCovers : e.covers i = true := Edit.covers_iff.mpr (by omega)
  rw [substituteFrom, writtenFor, editAt?_cons_of_covers hCovers,
    substituteFrom_inside (by omega) (by omega)]
  simp [hStart]

/-! ## Patches -/

theorem Patch.not_covers_iff {p : Patch} {offset k : Nat} :
    (p.edit offset).covers k = false ↔
      k < offset + p.front.length ∨ offset + p.front.length + p.old.length ≤ k := by
  rw [Edit.not_covers_iff]
  simp only [Patch.edit]
  omega

/-- Patches lay out the tokens with all their old ones replaced. -/
theorem substituteFrom_patches {ps : List Patch} (hOld : ∀ p ∈ ps, p.old ≠ []) (offset : Nat)
    (after : List Token) :
    substituteFrom (Patch.edits offset ps) offset (ps.flatMap Patch.source ++ after) =
      ps.flatMap Patch.result ++ after := by
  induction ps generalizing offset with
  | nil => exact substituteFrom_outside (by simp [Patch.edits])
  | cons p ps ih =>
    obtain ⟨hHere, hMore⟩ := List.forall_mem_cons.mp hOld
    have hLength : p.source.length = p.front.length + p.old.length + p.back.length := by
      simp [Patch.source, Nat.add_assoc]
    -- the edits of later patches start behind this one
    have hLater : ∀ e ∈ Patch.edits (offset + p.source.length) ps, ∀ k : Nat,
        k < offset + p.source.length → e.covers k = false := by
      intro e he k hk
      have hStart := Patch.offset_le_start he
      rw [Edit.not_covers_iff]
      omega
    have hFront : substituteFrom (Patch.edits offset (p :: ps)) offset p.front = p.front := by
      refine substituteFrom_outside fun k hLow hHigh => List.forall_mem_cons.mpr ⟨?_, ?_⟩
      · exact Patch.not_covers_iff.mpr (.inl hHigh)
      · exact fun e he => hLater e he k (by omega)
    have hRange : substituteFrom (Patch.edits offset (p :: ps)) (offset + p.front.length) p.old =
        p.new :=
      substituteFrom_range rfl (by simp [Patch.edit]) hHere
    have hBack : substituteFrom (Patch.edits offset (p :: ps))
        (offset + p.front.length + p.old.length) p.back = p.back := by
      refine substituteFrom_outside fun k hLow hHigh => List.forall_mem_cons.mpr ⟨?_, ?_⟩
      · exact Patch.not_covers_iff.mpr (.inr hLow)
      · exact fun e he => hLater e he k (by omega)
    -- behind this patch its edit is no longer met
    have hRest : substituteFrom (Patch.edits offset (p :: ps)) (offset + p.source.length)
        (ps.flatMap Patch.source ++ after) = ps.flatMap Patch.result ++ after := by
      rw [← ih hMore (offset + p.source.length)]
      refine substituteFrom_congr fun k hLow _ => ?_
      exact editAt?_cons_of_not_covers (Patch.not_covers_iff.mpr (.inr (by omega)))
    rw [List.flatMap_cons, List.flatMap_cons, List.append_assoc, List.append_assoc,
      substituteFrom_append, hRest, Patch.source, substituteFrom_append, substituteFrom_append,
      hFront, hRange, List.length_append, ← Nat.add_assoc, hBack, Patch.result]

/-- The edits that change something are those of patches with new tokens. -/
theorem countP_patches (ps : List Patch) (before after : List Token) :
    ((Patch.edits before.length ps).countP fun e =>
        slice (before ++ ps.flatMap Patch.source ++ after) e.start e.stop ≠ e.tokens) =
      ps.countP fun p => p.old ≠ p.new := by
  induction ps generalizing before with
  | nil => rfl
  | cons p ps ih =>
    have hTokens : before ++ (p :: ps).flatMap Patch.source ++ after =
        (before ++ p.source) ++ ps.flatMap Patch.source ++ after := by
      simp
    have hSlice : slice (before ++ (p :: ps).flatMap Patch.source ++ after)
        (p.edit before.length).start (p.edit before.length).stop = p.old := by
      have hPlace : before ++ (p :: ps).flatMap Patch.source ++ after =
          (before ++ p.front) ++ p.old ++ (p.back ++ ps.flatMap Patch.source ++ after) := by
        simp [Patch.source]
      rw [hPlace, Patch.edit, ← List.length_append]
      exact slice_append _ _ _
    rw [Patch.edits, List.countP_cons, List.countP_cons, hSlice, hTokens, ← List.length_append,
      ih (before ++ p.source), Patch.edit]

/-- Edits whose ranges are not empty and lie one behind the other are those of patches. -/
theorem exists_patches {edits : List Edit} {offset : Nat} {ts : List Token}
    (hRange : ∀ e ∈ edits,
      (offset : Int) ≤ e.start ∧ e.start < e.stop ∧ e.stop ≤ offset + ts.length)
    (hSorted : edits.Pairwise fun a b => a.stop ≤ b.start) :
    ∃ ps after, ts = ps.flatMap Patch.source ++ after ∧ Patch.edits offset ps = edits ∧
      ∀ p ∈ ps, p.old ≠ [] := by
  induction edits generalizing offset ts with
  | nil => exact ⟨[], ts, rfl, rfl, by simp⟩
  | cons e edits ih =>
    obtain ⟨⟨hLow, hOrder, hHigh⟩, hRest⟩ := List.forall_mem_cons.mp hRange
    obtain ⟨hBehind, hSorted⟩ := List.pairwise_cons.mp hSorted
    -- the tokens in front of the range, those in it and those behind it
    obtain ⟨front, old, rest, rfl, hFront, hOld⟩ : ∃ front old rest, ts = front ++ old ++ rest ∧
        offset + front.length = e.start ∧ e.start + old.length = e.stop := by
      refine ⟨ts.take (e.start - offset).toNat, (ts.drop (e.start - offset).toNat).take
        (e.stop - e.start).toNat, (ts.drop (e.start - offset).toNat).drop (e.stop - e.start).toNat,
        ?_, ?_, ?_⟩
      · rw [List.append_assoc, List.take_append_drop, List.take_append_drop]
      · rw [List.length_take]
        omega
      · rw [List.length_take, List.length_drop]
        omega
    have hNext : ((offset + (front ++ old ++ []).length : Nat) : Int) = e.stop := by
      simp only [List.append_nil, List.length_append]
      omega
    obtain ⟨ps, after, hTokens, hEdits, hSome⟩ := @ih (offset + (front ++ old ++ []).length) rest
      (by
        intro d hd
        have hStart := hBehind d hd
        have hInside := hRest d hd
        simp only [List.length_append, List.append_nil] at hInside hNext ⊢
        omega) hSorted
    -- nothing is kept behind the range: what follows is the front of the next patch
    refine ⟨⟨front, old, e.tokens, []⟩ :: ps, after, ?_, ?_, List.forall_mem_cons.mpr ⟨?_, hSome⟩⟩
    · rw [List.flatMap_cons, Patch.source, List.append_nil, List.append_assoc _ _ after, ← hTokens]
    · rw [Patch.edits, Patch.source, hEdits, Patch.edit]
      congr 1
      obtain ⟨start, stop, tokens⟩ := e
      simp only [Edit.mk.injEq, and_true]
      simp only at hFront hOld
      omega
    · rintro rfl
      rw [List.length_nil] at hOld
      omega

/-! ## Any order -/

section DisjointEdits

variable {size : Nat} {edits other : List Edit}

theorem DisjointEdits.perm (h : DisjointEdits size edits) (hPerm : other.Perm edits) :
    DisjointEdits size other := by
  refine ⟨fun e he => h.within e (hPerm.mem_iff.mp he), ?_⟩
  refine (hPerm.pairwise_iff ?_).mpr h.disjoint
  exact fun hab i hi => hab i hi.symm

/-- No position lies in two ranges. -/
theorem DisjointEdits.eq_of_covers (h : DisjointEdits size edits) {a b : Edit} {i : Nat}
    (ha : a ∈ edits) (hb : b ∈ edits) (hCovers : a.covers i = true ∧ b.covers i = true) : a = b := by
  have hTold : ∀ x ∈ edits, ∀ y ∈ edits, x.covers i = true ∧ y.covers i = true → x = y := by
    apply List.Pairwise.forall_of_forall_of_flip
    · exact fun x _ _ => rfl
    · exact h.disjoint.imp fun hNot hBoth => absurd hBoth (hNot i)
    · exact h.disjoint.imp fun hNot hBoth => absurd hBoth.symm (hNot i)
  exact hTold a ha b hb hCovers

/-- The edit found at a position is the one whose range the position lies in, wherever it stands in
the list. -/
theorem DisjointEdits.editAt?_eq_some_iff (h : DisjointEdits size edits) {e : Edit} {i : Nat} :
    editAt? edits i = some e ↔ e ∈ edits ∧ e.covers i = true := by
  constructor
  · intro hFind
    exact ⟨List.mem_of_find?_eq_some hFind, by simpa using List.find?_some hFind⟩
  · rintro ⟨hMem, hCovers⟩
    cases hFind : editAt? edits i with
    | none => exact absurd hCovers (List.find?_eq_none.mp hFind e hMem)
    | some d =>
      have hOther : d.covers i = true := by simpa using List.find?_some hFind
      rw [h.eq_of_covers (List.mem_of_find?_eq_some hFind) hMem ⟨hOther, hCovers⟩]

/-- The order of the edits does not matter to what is substituted. -/
theorem DisjointEdits.substitute_perm (h : DisjointEdits size edits) (hPerm : other.Perm edits)
    (ts : List Token) : substitute other ts = substitute edits ts := by
  refine substituteFrom_congr fun k _ _ => ?_
  apply Option.ext
  intro e
  rw [(h.perm hPerm).editAt?_eq_some_iff, h.editAt?_eq_some_iff, hPerm.mem_iff]

/-- Edits can be put into an order in which each range ends before the next begins. -/
theorem DisjointEdits.exists_sorted (h : DisjointEdits size edits) :
    ∃ sorted, edits.Perm sorted ∧ sorted.Pairwise fun a b => a.stop ≤ b.start := by
  have hSorted := List.pairwise_reverse.mpr (pairwise_mergeSort_start edits)
  have hPerm := (List.reverse_perm _).trans
    (List.mergeSort_perm edits fun a b => decide (b.start ≤ a.start))
  refine ⟨_, hPerm.symm, (hSorted.and (h.perm hPerm).disjoint).imp_of_mem fun {a b} _ hb hab => ?_⟩
  obtain ⟨hStart, hNone⟩ := hab
  rw [decide_eq_true_eq] at hStart
  have hWithin := h.within b (hPerm.mem_iff.mp hb)
  -- otherwise both ranges cover the start of the second
  by_contra hLess
  refine hNone b.start.toNat ⟨Edit.covers_iff.mpr ?_, Edit.covers_iff.mpr ?_⟩ <;> omega

end DisjointEdits

/-- Applying edits with ranges that are not empty, lie in the tokens and have no position in common
raises no fault and replaces all ranges at once. What is counted are the edits whose tokens differ
from those in their range. The order of the edits does not matter. -/
theorem applyEdits_substitutes {ts : List Token} {edits : List Edit}
    (h : DisjointEdits ts.length edits) :
    applyEdits ts edits = ⟨substitute edits ts,
        .ok (edits.countP fun e => slice ts e.start e.stop ≠ e.tokens)⟩ ∧
      ∀ other : List Edit, other.Perm edits → applyEdits ts other = applyEdits ts edits := by
  obtain ⟨sorted, hPerm, hSorted⟩ := h.exists_sorted
  obtain ⟨ps, after, hTokens, hEdits, hOld⟩ := @exists_patches sorted 0 ts
    (fun e he => by simpa using h.within e (hPerm.mem_iff.mpr he)) hSorted
  subst hEdits hTokens
  have hApplied : ∀ other : List Edit, other.Perm (Patch.edits 0 ps) →
      applyEdits (ps.flatMap Patch.source ++ after) other =
        ⟨ps.flatMap Patch.result ++ after, .ok (ps.countP fun p => p.old ≠ p.new)⟩ :=
    fun other hOther => applyEdits_patches hOld [] after hOther
  refine ⟨?_, fun other hOther => ?_⟩
  · rw [hApplied edits hPerm, ← h.substitute_perm hPerm.symm, substitute,
      substituteFrom_patches hOld 0 after, hPerm.countP_eq]
    exact congrArg _ (congrArg _ (countP_patches ps [] after).symm)
  · rw [hApplied other (hOther.trans hPerm), hApplied edits hPerm]

/-- A longer, an empty and an unchanged replacement, given out of order. -/
theorem applyEdits_substitutes_of_three :
    let word (c : Char) : Token := ⟨.name, [c]⟩
    let ts := [word 'a', word 'b', word 'c', word 'd', word 'e']
    let edits : List Edit :=
      [⟨2, 3, [word 'c']⟩, ⟨0, 1, [word 'x', word 'y', word 'z']⟩, ⟨3, 5, []⟩]
    DisjointEdits ts.length edits ∧
      applyEdits ts edits =
        ⟨[word 'x', word 'y', word 'z', word 'b', word 'c'], .ok 2⟩ ∧
      applyEdits ts edits.reverse = applyEdits ts edits := by
  intro word ts edits
  have hDisjoint : DisjointEdits ts.length edits := by
    refine ⟨by decide, ?_⟩
    -- ranges that follow each other in either order cover no position twice
    have hFollow : edits.Pairwise fun a b => b.stop ≤ a.start ∨ a.stop ≤ b.start := by decide
    refine hFollow.imp fun {a b} hab i hBoth => ?_
    rw [Edit.covers_iff, Edit.covers_iff] at hBoth
    omega
  obtain ⟨hApplied, hOrder⟩ := applyEdits_substitutes hDisjoint
  exact ⟨hDisjoint, hApplied.trans rfl, hOrder edits.reverse (List.reverse_perm edits)⟩

end UseOrder
