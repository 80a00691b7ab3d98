import UseOrder.Proofs.Fixpoint
import UseOrder.Proofs.Frame

/-!
# Blank lines between different segments

The imports of a token list are to be told apart by their first segments: where two neighbours
differ in it, a blank line stands between them (`Separated`). Adding blank lines reaches this and
does no more than it takes (`Separates`): every token stays, white space in front of a `use`
apart, and that is replaced only where the segments differ and the blank line is missing. The number
that is returned counts these places. As the imports themselves stay, so do their segments, and
adding blank lines once more finds nothing to do.
-/

namespace UseOrder

/-! ## Imports that end apart -/

/-- Every import has a terminator, with no further `use` in front of it. -/
def endsApart : List Token → Bool
  | [] => true
  | t :: rest =>
    (t.kind != .useWord || rest.any Token.isTerminator &&
      (rest.takeWhile (!·.isTerminator)).all (·.kind != .useWord)) && endsApart rest

/-- What `endsApart` tells about one import. -/
theorem endsApart_use {before rest : List Token} {word : Token}
    (h : endsApart (before ++ word :: rest) = true) (hWord : word.kind = .useWord) :
    (∃ t ∈ rest, t.isTerminator = true) ∧
      ∀ t ∈ rest.takeWhile (!·.isTerminator), t.kind ≠ .useWord := by
  induction before with
  | nil => simpa [hWord] using (Bool.and_eq_true_iff.mp h).1
  | cons t before ih => exact ih (Bool.and_eq_true_iff.mp h).2

theorem exists_stretched_of_endsApart {ts : List Token} (h : endsApart ts = true) :
    ∃ front stretches, Stretched ts front stretches := by
  obtain ⟨front, stretches, rfl, hFront, hEach⟩ := exists_stretches ts
  refine ⟨front, stretches, rfl, hFront, hEach, fun s hs => ?_⟩
  obtain ⟨before, after, rfl⟩ := List.append_of_mem hs
  have hTokens : front ++ (before ++ s :: after).flatMap Stretch.tokens =
      front ++ before.flatMap Stretch.tokens ++ s.word ::
        (s.rest ++ after.flatMap Stretch.tokens) := by
    simp [Stretch.tokens]
  rw [hTokens] at h
  obtain ⟨hEnds, hNone⟩ := endsApart_use h (hEach s hs).word
  -- without a terminator of its own, the import would reach the next `use`
  by_contra hOpen
  have hRest : ∀ t ∈ s.rest, (!t.isTerminator) = true := fun t ht => by
    simpa using fun hTerm => hOpen ⟨t, ht, hTerm⟩
  rw [List.takeWhile_append_of_pos hRest] at hNone
  cases after with
  | nil =>
    rw [List.flatMap_nil, List.append_nil] at hEnds
    exact hOpen hEnds
  | cons next after =>
    have hWord := (hEach next (by simp)).word
    refine hNone next.word (List.mem_append_right _ ?_) hWord
    simp [Stretch.tokens, Token.isTerminator, Token.isPunct, hWord]

/-! ## What is changed -/

/-- The second stretches are the first with the blank lines that they lack where the first segment
changes, and the number counts these. White space at the end of a stretch is replaced by line
endings, with what was there behind them or not, and nothing else changes. -/
inductive Separates (lineEnding : Text) : List Stretch → List Stretch → Nat → Prop
  | nil : Separates lineEnding [] [] 0
  | last (s : Stretch) : Separates lineEnding [s] [s] 0
  | kept {s t : Stretch} {rest new : List Stretch} {added : Nat} :
      t.segment = s.segment ∨ 2 ≤ lineBreaks s.rest → Separates lineEnding (t :: rest) new added →
      Separates lineEnding (s :: t :: rest) (s :: new) added
  | opened {s t : Stretch} {rest new : List Stretch} {added : Nat} (space : Token) :
      t.segment ≠ s.segment → lineBreaks s.rest < 2 →
      Opening lineEnding (textOf (trailingSpace s.rest)) space →
      lineBreaks (trimEnd s.rest ++ [space]) = 2 → Separates lineEnding (t :: rest) new added →
      Separates lineEnding (s :: t :: rest) (⟨s.word, trimEnd s.rest ++ [space]⟩ :: new) (added + 1)

theorem separates_openChanges (e : LineEnding) (stretches : List Stretch) :
    Separates e.text stretches (openChanges e.text stretches) (missingLines stretches) := by
  -- a stretch is decided by the segment of the next one, so the last of them is left alone
  induction stretches with
  | nil => exact .nil
  | cons s rest ih =>
    cases rest with
    | nil => exact .last s
    | cons t rest =>
      rw [openChanges_cons, missingLines_cons]
      by_cases hSame : t.segment = s.segment
      · rw [if_pos hSame, if_neg fun h => h.1 hSame]
        exact .kept (.inl hSame) ih
      · rw [if_neg hSame]
        rcases openUp_cases e.text s.rest with ⟨hTwo, hKept⟩ | ⟨hLess, space, hOpened, hSpace⟩
        · rw [Stretch.opened, hKept, if_neg fun h => by omega]
          exact .kept (.inr hTwo) ih
        · have hBreaks := lineBreaks_openUp e.count_text s.rest
          rw [hOpened] at hBreaks
          rw [Stretch.opened, hOpened, if_pos ⟨hSame, hLess⟩]
          exact .opened space hSame hLess hSpace (by omega) ih

/-! ## Neighbours -/

/-- A blank line stands in front of each import whose first segment differs from that of the import
before. -/
def Separated (ts : List Token) : Prop :=
  ∀ (i : Nat) (u v : Int), (importRuns ts).flatten[i]? = some u →
    (importRuns ts).flatten[i + 1]? = some v → leadingSegment ts v ≠ leadingSegment ts u →
    2 ≤ lineBreaks (ts.take v.toNat)

theorem usesOf_append (offset : Nat) (before after : List Stretch) :
    usesOf offset (before ++ after) =
      usesOf offset before ++ usesOf (offset + (before.flatMap Stretch.tokens).length) after := by
  induction before generalizing offset with
  | nil => rfl
  | cons s before ih =>
    rw [List.cons_append, usesOf, ih, usesOf, List.flatMap_cons, List.length_append, Nat.add_assoc]
    rfl

section Neighbours

variable {ts front : List Token} {stretches : List Stretch}

theorem Stretched.uses (h : Stretched ts front stretches) :
    (importRuns ts).flatten = usesOf front.length stretches := by
  rw [h.tokens, flatten_importRuns h.front h.each]

theorem Stretched.segments (h : Stretched ts front stretches) :
    (importRuns ts).flatten.mapM (leadingSegment ts) = .ok (stretches.map Stretch.segment) := by
  rw [h.uses, h.tokens, segments_stretches h.stops]

/-- Two imports in a row are the first tokens of two stretches in a row. -/
theorem Stretched.neighbours (h : Stretched ts front stretches) {i : Nat} {u v : Int}
    (hu : (importRuns ts).flatten[i]? = some u) (hv : (importRuns ts).flatten[i + 1]? = some v) :
    ∃ before s t after, stretches = before ++ s :: t :: after ∧
      leadingSegment ts u = .ok s.segment ∧ leadingSegment ts v = .ok t.segment ∧
      lineBreaks (ts.take v.toNat) = lineBreaks s.rest := by
  rw [h.uses] at hu hv
  have hLength : i + 1 < stretches.length := by
    obtain ⟨hi, -⟩ := List.getElem?_eq_some_iff.mp hv
    rwa [length_usesOf] at hi
  obtain ⟨before, s, t, after, rfl, rfl⟩ : ∃ before s t after,
      stretches = before ++ s :: t :: after ∧ i = before.length :=
    ⟨stretches.take i, stretches[i], stretches[i + 1], stretches.drop (i + 2), by simp,
      by simp; omega⟩
  have hTokens : ts = front ++ before.flatMap Stretch.tokens ++ s.tokens ++
      (t.tokens ++ after.flatMap Stretch.tokens) := by
    simp [h.tokens]
  -- both positions are lengths of what stands in front of the stretches
  have hUses := usesOf_append front.length before (s :: t :: after)
  rw [usesOf, usesOf, ← List.length_append, ← List.length_append] at hUses
  obtain rfl : u = (front ++ before.flatMap Stretch.tokens).length := by
    simpa [hUses, length_usesOf] using hu.symm
  obtain rfl : v = (front ++ before.flatMap Stretch.tokens ++ s.tokens).length := by
    simpa [hUses, length_usesOf, List.getElem?_append_right] using hv.symm
  refine ⟨before, s, t, after, rfl, ?_, ?_, ?_⟩
  · rw [hTokens]
    exact leadingSegment_stretch _ _ (h.stops s (by simp))
  · rw [hTokens, ← List.append_assoc]
    exact leadingSegment_stretch _ _ (h.stops t (by simp))
  · -- the first `use` is no white space, so what stands in front of it does not matter
    rw [hTokens, Int.toNat_natCast, List.take_left, Stretch.tokens]
    exact lineBreaks_use _ (h.each s (by simp)).word s.rest

theorem Stretched.separated (h : Stretched ts front stretches) (hSpread : Spread stretches) :
    Separated ts := by
  intro i u v hu hv hOther
  obtain ⟨before, s, t, after, rfl, hs, ht, hBreaks⟩ := h.neighbours hu hv
  have hPair := (List.isChain_cons_cons.mp (List.isChain_append.mp hSpread).2.1).1
  rw [hBreaks]
  refine hPair.resolve_left fun hSame => hOther ?_
  rw [hs, ht, hSame]

end Neighbours

/-- Adding blank lines puts one between neighbours with different first segments, keeps these
segments, replaces only white space where a blank line is missing, counts these places, and then has
nothing more to do. -/
theorem insertBlankLines_separates (layout : Layout) (ts : List Token) (h : endsApart ts = true) :
    ∃ front stretches stretches' added out,
      insertBlankLines layout ts = .ok (added, out) ∧
      Stretched ts front stretches ∧ Stretched out front stretches' ∧
      Separates layout.lineEnding.text stretches stretches' added ∧
      (importRuns ts).flatten.mapM (leadingSegment ts) = .ok (stretches.map Stretch.segment) ∧
      (importRuns out).flatten.mapM (leadingSegment out) = .ok (stretches.map Stretch.segment) ∧
      Separated out ∧ insertBlankLines layout out = .ok (0, out) := by
  obtain ⟨front, stretches, hOld⟩ := exists_stretched_of_endsApart h
  -- what comes out is cut at the same words, and its stretches are spread
  have hNew := hOld.opened layout.lineEnding.text
  have hSpread := spread_openChanges layout.lineEnding hOld.stops
  have hSegments := hNew.segments
  rw [segments_openChanges _ hOld.stops] at hSegments
  exact ⟨front, stretches, _, _, _, hOld.insertBlankLines layout, hOld, hNew,
    separates_openChanges layout.lineEnding stretches, hOld.segments, hSegments,
    hNew.separated hSpread, hNew.insertBlankLines_of_spread hSpread layout⟩

/-- Imports of three namespaces in two runs. A blank line is missing between two of them that share
a line, one more behind an opening tag with its own line break, and one is there already. -/
theorem insertBlankLines_separates_of_runs :
    let layout : Layout := { lineEnding := .crlf }
    let tokens := classify (lex
      "<?php use A\\X; use B\\Y ?>\n<?php\n  use C\\Z;\nnamespace N;\n\nuse A\\W;".toList)
    endsApart tokens = true ∧ ∃ front stretches stretches' added out,
      insertBlankLines layout tokens = .ok (added, out) ∧
      Stretched tokens front stretches ∧ Stretched out front stretches' ∧
      Separates layout.lineEnding.text stretches stretches' added ∧
      (importRuns tokens).flatten.mapM (leadingSegment tokens) =
        .ok (stretches.map Stretch.segment) ∧
      (importRuns out).flatten.mapM (leadingSegment out) = .ok (stretches.map Stretch.segment) ∧
      Separated out ∧ insertBlankLines layout out = .ok (0, out) :=
  ⟨by decide +kernel, insertBlankLines_separates _ _ (by decide +kernel)⟩

end UseOrder
