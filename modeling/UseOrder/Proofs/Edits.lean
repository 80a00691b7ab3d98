import Mathlib.Data.List.Induction
import UseOrder.Import.Plan
import UseOrder.Proofs.Position

/-!
# Edits as substitution

The edits of a sub-group are planned against one list of tokens and carried out one after the
other, from the last to the first. A *patch* is the view of such an edit from the text: the
tokens that are kept in front of it, those that are replaced, those that come in their place, and
those that are kept behind it. A list of patches lays out the tokens before the work and after it,
and `applyEdits_patches` says that carrying out the edits leads from the one to the other: edits
with ranges that are not empty and lie one behind the other amount to one simultaneous
substitution.
-/

namespace UseOrder

/-- An edit together with the tokens around it. -/
structure Patch where
  front : List Token
  old : List Token
  new : List Token
  back : List Token

namespace Patch

/-- The tokens before the work. -/
def source (p : Patch) : List Token :=
  p.front ++ p.old ++ p.back

/-- The tokens after the work. -/
def result (p : Patch) : List Token :=
  p.front ++ p.new ++ p.back

/-- The edit of a patch whose tokens start at `offset`. -/
def edit (offset : Nat) (p : Patch) : Edit :=
  ⟨(offset + p.front.length : Nat), (offset + p.front.length + p.old.length : Nat), p.new⟩

/-- The edits of patches that follow each other from `offset` on. -/
def edits (offset : Nat) : List Patch → List Edit
  | [] => []
  | p :: ps => p.edit offset :: edits (offset + p.source.length) ps

theorem edits_append (offset : Nat) (ps qs : List Patch) :
    edits offset (ps ++ qs) =
      edits offset ps ++ edits (offset + (ps.flatMap source).length) qs := by
  induction ps generalizing offset with
  | nil => simp [edits]
  | cons p ps ih =>
    rw [List.cons_append, edits, ih, edits, List.flatMap_cons, List.length_append, Nat.add_assoc,
      List.cons_append]

/-- Every edit starts at or behind the place where the patches start. -/
theorem offset_le_start {offset : Nat} {ps : List Patch} {e : Edit} (h : e ∈ edits offset ps) :
    (offset : Int) ≤ e.start := by
  induction ps generalizing offset with
  | nil => simp [edits] at h
  | cons p ps ih =>
    rw [edits, List.mem_cons] at h
    rcases h with rfl | h
    · simp only [edit]
      omega
    · have := ih h
      omega

/-- The edits come in the order of their start positions, and no two of them share one. -/
theorem edits_pairwise {ps : List Patch} (hOld : ∀ p ∈ ps, p.old ≠ []) (offset : Nat) :
    (edits offset ps).Pairwise fun a b => a.start < b.start := by
  induction ps generalizing offset with
  | nil => simp [edits]
  | cons p ps ih =>
    rw [edits, List.pairwise_cons]
    refine ⟨?_, ih (fun q hq => hOld q (List.mem_cons_of_mem _ hq)) _⟩
    intro b hb
    have hLater := offset_le_start hb
    have hPos : 0 < p.old.length := List.length_pos_iff.mpr (hOld p List.mem_cons_self)
    simp only [source, List.length_append] at hLater
    simp only [edit]
    omega

end Patch

/-- Edits are sorted from the last start position to the first. -/
theorem pairwise_mergeSort_start (edits : List Edit) :
    (edits.mergeSort fun a b => decide (b.start ≤ a.start)).Pairwise
      fun a b => decide (b.start ≤ a.start) = true := by
  apply List.pairwise_mergeSort
  · intro a b c hab hbc
    simp only [decide_eq_true_eq] at *
    omega
  · intro a b
    simp only [Bool.or_eq_true, decide_eq_true_eq]
    omega

/-- Sorting edits from the last start position to the first gives one order, whatever order they come
in. -/
theorem mergeSort_edits {edits sorted : List Edit} (hEdits : edits.Perm sorted)
    (h : sorted.Pairwise fun a b => a.start < b.start) :
    edits.mergeSort (fun a b => decide (b.start ≤ a.start)) = sorted.reverse := by
  have hReversed : sorted.reverse.Pairwise fun a b => decide (b.start ≤ a.start) = true := by
    rw [List.pairwise_reverse]
    refine h.imp ?_
    intro a b hab
    simp only [decide_eq_true_eq]
    omega
  have hMerged : (edits.mergeSort fun a b => decide (b.start ≤ a.start)).Perm sorted :=
    (List.mergeSort_perm _ _).trans hEdits
  refine (hMerged.trans (List.reverse_perm _).symm).eq_of_pairwise ?_
    (pairwise_mergeSort_start edits) hReversed
  intro a b ha hb hab hba
  simp only [decide_eq_true_eq] at hab hba
  have ha' : a ∈ sorted := hMerged.mem_iff.mp ha
  have hb' : b ∈ sorted := List.mem_reverse.mp hb
  -- an edit of the list is told by where it starts
  have hTold : ∀ x ∈ sorted, ∀ y ∈ sorted, x.start = y.start → x = y := by
    apply List.Pairwise.forall_of_forall_of_flip
    · exact fun x _ _ => rfl
    · exact h.imp fun hlt heq => by omega
    · exact h.imp fun hlt heq => by omega
  exact hTold a ha' b hb' (by omega)

/-- Edits of patches, carried out from the last patch to the first. -/
theorem applyInOrder_patches {ps : List Patch} (before after : List Token) (changed : Nat) :
    applyInOrder (before ++ ps.flatMap Patch.source ++ after) changed
        (Patch.edits before.length ps).reverse =
      ⟨before ++ ps.flatMap Patch.result ++ after,
        .ok (changed + ps.countP fun p => p.old ≠ p.new)⟩ := by
  induction ps using List.reverseRecOn generalizing after changed with
  | nil => simp [Patch.edits, applyInOrder]
  | append_singleton ps p ih =>
    -- the last patch comes first; what lies behind it is no longer looked at
    have hTokens : before ++ (ps ++ [p]).flatMap Patch.source ++ after =
        (before ++ ps.flatMap Patch.source ++ p.front) ++ p.old ++ (p.back ++ after) := by
      simp [Patch.source]
    have hStart : before.length + (ps.flatMap Patch.source).length + p.front.length =
        (before ++ ps.flatMap Patch.source ++ p.front).length := by
      simp
      omega
    rw [Patch.edits_append, List.reverse_append]
    simp only [Patch.edits, List.reverse_cons, List.reverse_nil, List.nil_append,
      List.singleton_append]
    rw [applyInOrder, hTokens, Patch.edit, hStart]
    simp only [slice_append, splice_append]
    by_cases hSame : p.old = p.new
    · have hBack : (before ++ ps.flatMap Patch.source ++ p.front) ++ p.old ++ (p.back ++ after) =
          before ++ ps.flatMap Patch.source ++ (p.result ++ after) := by
        simp [Patch.result, hSame]
      rw [if_pos hSame, hBack, ih]
      simp [List.countP_append, hSame]
    · have hBack : (before ++ ps.flatMap Patch.source ++ p.front) ++ p.new ++ (p.back ++ after) =
          before ++ ps.flatMap Patch.source ++ (p.result ++ after) := by
        simp [Patch.result]
      rw [if_neg hSame, hBack, ih]
      simp [List.countP_append, hSame]
      omega

/-- Applying the edits of patches, in any order, replaces the old tokens of all of them by the new
ones. -/
theorem applyEdits_patches {ps : List Patch} {edits : List Edit} (hOld : ∀ p ∈ ps, p.old ≠ [])
    (before after : List Token) (hEdits : edits.Perm (Patch.edits before.length ps)) :
    applyEdits (before ++ ps.flatMap Patch.source ++ after) edits =
      ⟨before ++ ps.flatMap Patch.result ++ after,
        .ok (ps.countP fun p => p.old ≠ p.new)⟩ := by
  rw [applyEdits, mergeSort_edits hEdits (Patch.edits_pairwise hOld _), applyInOrder_patches,
    Nat.zero_add]

end UseOrder
