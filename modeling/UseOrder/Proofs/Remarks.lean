import UseOrder.Proofs.Adjoining
import UseOrder.Proofs.Reflow

/-!
# Comments in a group

A group that is laid out anew takes the comments of a name along to the end of that name. Two things
follow from this. Comments between two commas, or behind the last comma, have no name to go with and
are dropped (`strayRemarks`); everything else is kept. And two names with nothing but comments
between them are written as one word, since no blank takes the place of the comments: names stay
apart just if they are apart without the comments (`NamesApart`).
-/

namespace UseOrder

/-- The comments of the pieces that hold no name. -/
def strayRemarks (inside : List Token) : List Token :=
  ((inside.splitOnP Token.isComma).filter isBare).flatMap fun piece => piece.filter Token.isComment

/-- No two names stand side by side. -/
def NamesApart (ts : List Token) : Prop :=
  ts.IsChain fun t next => t.kind = .name → next.kind ≠ .name

instance (ts : List Token) : Decidable (NamesApart ts) :=
  inferInstanceAs (Decidable (ts.IsChain fun t next => t.kind = .name → next.kind ≠ .name))

/-! ## Tokens that are kept -/

theorem not_gap_of_comment {t : Token} (h : t.isComment = true) : t.isGap = false := by
  rw [Token.isGap, not_comma_of_comment h, not_space_of_comment h]
  rfl

/-- Of what does not look at commas, a list holds as much as its pieces. -/
theorem flatMap_filter_pieces {p : Token → Bool} (hComma : p commaToken = false) (ts : List Token) :
    (splitAtCommas ts).flatMap (fun piece => piece.filter p) = ts.filter p := by
  induction ts with
  | nil => rfl
  | cons t ts ih =>
    rw [splitAtCommas]
    split
    · next h =>
      obtain rfl := eq_commaToken h
      simp [hComma, ih]
    · split
      · next hNil => simp [splitAtCommas_eq_splitOnP] at hNil
      · next piece pieces hPieces =>
        rw [hPieces, List.flatMap_cons] at ih
        rw [List.flatMap_cons, List.filter_cons, List.filter_cons, ← ih]
        split <;> simp

theorem filter_not_gap_of_space {space : List Token} (h : AllSpace space) :
    (space.filter fun t => !t.isGap) = [] :=
  List.filter_eq_nil_iff.mpr fun t ht => by simp [Token.isGap, h t ht]

theorem filter_trim (ts : List Token) :
    ((trim ts).filter fun t => !t.isGap) = ts.filter fun t => !t.isGap := by
  obtain ⟨before, after, hts, hBefore, hAfter⟩ := exists_trim ts
  conv_rhs => rw [hts]
  rw [List.filter_append, List.filter_append, filter_not_gap_of_space hBefore,
    filter_not_gap_of_space hAfter, List.nil_append, List.append_nil]

/-- A piece is written with all of its tokens, white space apart. -/
theorem filter_writePiece_perm (piece : List Token) :
    ((writePiece piece).filter fun t => !t.isGap).Perm (piece.filter fun t => !t.isGap) := by
  have hRemarks : (piece.filter Token.isComment).filter (fun t => !t.isGap) =
      piece.filter Token.isComment := by
    refine List.filter_eq_self.mpr fun t ht => ?_
    simp [not_gap_of_comment (List.mem_filter.mp ht).2]
  have hTail : (if (piece.filter Token.isComment).isEmpty then []
      else oneSpace :: piece.filter Token.isComment).filter (fun t => !t.isGap) =
        piece.filter Token.isComment := by
    split
    · next hEmpty => simpa using hEmpty
    · rw [List.filter_cons_of_neg (by decide), hRemarks]
  rw [writePiece, List.filter_append, filter_trim, hTail, ← hRemarks, List.filter_filter,
    List.filter_filter]
  -- both sides hold the same tokens, with the comments at the end or where they were
  have hSplit := List.filter_append_perm (fun t => !t.isComment) (piece.filter fun t => !t.isGap)
  simpa only [List.filter_filter, Bool.not_not, Bool.and_comm] using hSplit

theorem filter_bare {piece : List Token} (hBare : isBare piece = true) :
    (piece.filter fun t => !t.isGap) = piece.filter Token.isComment := by
  refine List.filter_congr fun t ht => ?_
  have hQuiet := List.all_eq_true.mp hBare t ht
  rw [Token.isMeaningful, Bool.not_not, Bool.or_eq_true] at hQuiet
  rcases hQuiet with hSpace | hComment
  · have hNot : t.isComment = false := by
      cases hComment : t.isComment
      · rfl
      · rw [not_space_of_comment hComment] at hSpace
        exact hSpace.symm
    simp [Token.isGap, hSpace, hNot]
  · simp [not_gap_of_comment hComment, hComment]

/-- The parts and the comments without a name hold what is between the braces. -/
theorem writtenParts_perm (inside : List Token) :
    ((writtenParts inside).flatMap (fun part => part.filter fun t => !t.isGap) ++
      strayRemarks inside).Perm (inside.filter fun t => !t.isGap) := by
  rw [writtenParts, strayRemarks, ← splitAtCommas_eq_splitOnP,
    ← flatMap_filter_pieces (p := fun t => !t.isGap) rfl inside, List.flatMap_map]
  have hNamed : (((splitAtCommas inside).filter fun piece => !isBare piece).flatMap fun piece =>
      (writePiece piece).filter fun t => !t.isGap).Perm
        (((splitAtCommas inside).filter fun piece => !isBare piece).flatMap fun piece =>
          piece.filter fun t => !t.isGap) :=
    List.Perm.flatMap_left _ fun piece _ => filter_writePiece_perm piece
  have hBare : ((splitAtCommas inside).filter isBare).flatMap (fun piece =>
      piece.filter Token.isComment) = ((splitAtCommas inside).filter isBare).flatMap fun piece =>
        piece.filter fun t => !t.isGap := by
    refine List.flatMap_congr fun piece hPiece => ?_
    exact (filter_bare (List.mem_filter.mp hPiece).2).symm
  rw [hBare]
  refine (hNamed.append_right _).trans ?_
  -- every piece holds a name or is bare, so the two lists of pieces make up the whole
  rw [← List.flatMap_append]
  have hSplit := List.filter_append_perm (fun piece => !isBare piece) (splitAtCommas inside)
  simp only [Bool.not_not] at hSplit
  exact hSplit.flatMap_right _

/-- A new layout keeps all tokens but white space, commas and comments without a name. -/
theorem Reflowed.keeps {inside fresh : List Token} (h : Reflowed inside fresh) :
    ((fresh.filter fun t => !t.isGap) ++ strayRemarks inside).Perm
      (inside.filter fun t => !t.isGap) := by
  obtain ⟨pieces, last, hPieces, hSorted, hLast⟩ := h.parts
  have hFresh : (fresh.filter fun t => !t.isGap) =
      (pieces.map trim).flatMap fun part => part.filter fun t => !t.isGap := by
    rw [← flatMap_filter_pieces (p := fun t => !t.isGap) rfl fresh, splitAtCommas_eq_splitOnP,
      hPieces, List.flatMap_append, List.flatMap_map]
    have hNone : last.toList.flatMap (fun piece => piece.filter fun t => !t.isGap) = [] := by
      refine List.flatMap_eq_nil_iff.mpr fun space hMem => ?_
      exact filter_not_gap_of_space (hLast space (by simpa using hMem))
    rw [hNone, List.append_nil]
    exact List.flatMap_congr fun piece _ => (filter_trim piece).symm
  rw [hFresh]
  exact ((hSorted.perm.flatMap_right _).append_right _).trans (writtenParts_perm inside)

/-! ## Names that are apart -/

theorem namesApart_of_no_name {ts : List Token} (h : ∀ t ∈ ts, t.kind ≠ .name) : NamesApart ts := by
  induction ts with
  | nil => exact .nil
  | cons t ts ih =>
    refine List.isChain_cons.mpr ⟨fun _ _ hName => absurd hName (h t List.mem_cons_self), ?_⟩
    exact ih fun u hu => h u (List.mem_cons_of_mem _ hu)

/-- Names on different sides of another token are apart. -/
theorem namesApart_append_cons {a b : List Token} {t : Token} (ht : t.kind ≠ .name) :
    NamesApart (a ++ t :: b) ↔ NamesApart a ∧ NamesApart b := by
  rw [NamesApart, List.isChain_append, List.isChain_cons]
  refine and_congr_right fun _ => ⟨fun h => h.1.2, fun h => ⟨⟨fun _ _ hName => absurd hName ht, h⟩, ?_⟩⟩
  intro u _ next hNext _
  rw [← Option.some.inj hNext]
  exact ht

theorem namesApart_append {a b : List Token} (hb : ∀ t ∈ b, t.kind ≠ .name) :
    NamesApart (a ++ b) ↔ NamesApart a := by
  cases b with
  | nil => rw [List.append_nil]
  | cons t b =>
    rw [namesApart_append_cons (hb t List.mem_cons_self), and_iff_left_iff_imp]
    intro _
    exact namesApart_of_no_name fun u hu => hb u (List.mem_cons_of_mem _ hu)

theorem namesApart_prepend {a b : List Token} (ha : ∀ t ∈ a, t.kind ≠ .name) :
    NamesApart (a ++ b) ↔ NamesApart b := by
  induction a with
  | nil => rfl
  | cons t a ih =>
    have hFirst := @namesApart_append_cons [] (a ++ b) t (ha t List.mem_cons_self)
    rw [List.nil_append, and_iff_right .nil] at hFirst
    rw [List.cons_append, hFirst, ih fun u hu => ha u (List.mem_cons_of_mem _ hu)]

theorem AllSpace.not_name {ts : List Token} (h : AllSpace ts) : ∀ t ∈ ts, t.kind ≠ .name := by
  intro t ht hName
  have hSpace := h t ht
  simp [Token.isWhitespace, hName] at hSpace

theorem namesApart_trim (ts : List Token) : NamesApart (trim ts) ↔ NamesApart ts := by
  obtain ⟨before, after, hts, hBefore, hAfter⟩ := exists_trim ts
  conv_rhs => rw [hts]
  rw [namesApart_prepend hBefore.not_name, namesApart_append hAfter.not_name]

/-- Names with a comma between them are apart. -/
theorem namesApart_pieces (ts : List Token) :
    NamesApart ts ↔ ∀ piece ∈ splitAtCommas ts, NamesApart piece := by
  -- by length, since a step leaves out the whole piece up to the next comma
  induction hLength : ts.length using Nat.strong_induction_on generalizing ts with
  | _ n ih =>
    rcases comma_cases ts with hNone | ⟨part, rest, rfl, hPart⟩
    · simp [splitAtCommas_of_no_comma hNone]
    · rw [splitAtCommas_append_comma hPart, namesApart_append_cons (by decide),
        List.forall_mem_cons, ih rest.length (by simp at hLength; omega) rest rfl]

theorem splitAtCommas_filter {p : Token → Bool} (hComma : p commaToken = true) (ts : List Token) :
    splitAtCommas (ts.filter p) = (splitAtCommas ts).map fun piece => piece.filter p := by
  induction ts with
  | nil => rfl
  | cons t ts ih =>
    by_cases ht : t.isComma = true
    · obtain rfl := eq_commaToken ht
      rw [List.filter_cons_of_pos hComma, splitAtCommas, splitAtCommas, if_pos ht, if_pos ht, ih]
      rfl
    · obtain ⟨piece, pieces, hPieces⟩ := List.exists_cons_of_ne_nil
        (show splitAtCommas ts ≠ [] by simp [splitAtCommas_eq_splitOnP])
      rw [hPieces] at ih
      rw [splitAtCommas, if_neg ht, hPieces, List.filter_cons]
      split
      · next hp =>
        rw [splitAtCommas, if_neg ht, ih]
        simp [hp]
      · next hp =>
        rw [ih]
        simp [hp]

/-- The names of a piece are written as they are without its comments. -/
theorem namesApart_writePiece (piece : List Token) :
    NamesApart (writePiece piece) ↔ NamesApart (piece.filter fun t => !t.isComment) := by
  rw [writePiece, namesApart_append, namesApart_trim]
  intro t ht hName
  split at ht
  · simp at ht
  · rcases List.mem_cons.mp ht with rfl | ht
    · simp [oneSpace] at hName
    · have hComment := (List.mem_filter.mp ht).2
      simp [Token.isComment, hName] at hComment

/-- In a new layout, names are apart if they are so without the comments. -/
theorem Reflowed.namesApart_iff {inside fresh : List Token} (h : Reflowed inside fresh) :
    NamesApart fresh ↔ NamesApart (inside.filter fun t => !t.isComment) := by
  obtain ⟨pieces, last, hPieces, hSorted, hLast⟩ := h.parts
  have hBare : ∀ piece, isBare piece = true →
      NamesApart (piece.filter fun t => !t.isComment) := by
    intro piece hBare
    exact namesApart_of_no_name (allSpace_filter_iff.mpr hBare).not_name
  calc NamesApart fresh
      ↔ ∀ piece ∈ pieces, NamesApart piece := by
        rw [namesApart_pieces, splitAtCommas_eq_splitOnP, hPieces]
        refine ⟨fun hAll piece hp => hAll piece (by simp [hp]), fun hAll piece hp => ?_⟩
        rcases List.mem_append.mp hp with hp | hp
        · exact hAll piece hp
        · exact namesApart_of_no_name (hLast piece (by simpa using hp)).not_name
    _ ↔ ∀ part ∈ pieces.map trim, NamesApart part := by
        simp only [List.forall_mem_map, namesApart_trim]
    _ ↔ ∀ part ∈ writtenParts inside, NamesApart part := by
        simp only [hSorted.perm.mem_iff]
    _ ↔ ∀ piece ∈ splitAtCommas inside, NamesApart (piece.filter fun t => !t.isComment) := by
        simp only [writtenParts, List.forall_mem_map, namesApart_writePiece,
          ← splitAtCommas_eq_splitOnP, List.mem_filter]
        refine ⟨fun hAll piece hp => ?_, fun hAll piece hp => hAll piece hp.1⟩
        by_cases hp' : isBare piece = true
        · exact hBare piece hp'
        · exact hAll piece ⟨hp, by simpa using hp'⟩
    _ ↔ NamesApart (inside.filter fun t => !t.isComment) := by
        rw [namesApart_pieces (inside.filter _), splitAtCommas_filter rfl, List.forall_mem_map]

/-- In the tokens of a text, names are apart. -/
theorem namesApart_source (source : Text) : NamesApart (classify (lex source)) := by
  have hChain := words_lexFrom false source
  rw [← lex, ← map_raw_classify] at hChain
  refine ((List.isChain_map _).mp hChain).imp fun t next h hName hNext => ?_
  exact h (by rw [Token.raw, hName]; rfl) (by rw [Token.raw, hNext]; rfl)

/-! ## The group as a whole -/

/-- A rebuilt group holds the tokens it had, white space and commas apart, and apart from comments
between commas; so nothing is lost just if there are no such comments. No names are joined just if
no two of them have only comments between them. -/
theorem sortGroup?_keeps_tokens (layout : Layout) {source : Text} {ts out : List Token}
    {openAt closeAt : Nat} (hSource : ts <:+: classify (lex source)) (hOrder : openAt < closeAt)
    (hOpen : (ts[openAt]?).any (·.kind == .groupOpen) = true)
    (hClose : (ts[closeAt]?).any (·.kind == .groupClose) = true)
    (hOut : sortGroup? layout ts openAt closeAt = some out) :
    let inside := (ts.take closeAt).drop (openAt + 1)
    ((out.filter fun t => !t.isGap) ++ strayRemarks inside).Perm (ts.filter fun t => !t.isGap) ∧
      ((out.filter fun t => !t.isGap).Perm (ts.filter fun t => !t.isGap) ↔
        strayRemarks inside = []) ∧
      (NamesApart out ↔ NamesApart (inside.filter fun t => !t.isComment)) := by
  intro inside
  have hLength : closeAt < ts.length := by
    by_contra hLong
    rw [List.getElem?_eq_none (by omega)] at hClose
    simp at hClose
  obtain ⟨front, opening, body, closing, back, hBraces⟩ := exists_bracesAt hOrder hLength
  have hBody : ∀ t ∈ body, t.content ≠ [] := fun t ht =>
    content_ne_nil_of_mem_source (hSource.subset (by rw [hBraces.tokens]; simp [ht]))
  obtain ⟨fresh, rfl, hReflowed, -⟩ := hBraces.rebuilt hBody hOut
  simp only [inside, hBraces.inside_eq]
  have hKept : (((front ++ opening :: (fresh ++ closing :: back)).filter fun t => !t.isGap) ++
      strayRemarks body).Perm (ts.filter fun t => !t.isGap) := by
    rw [hBraces.tokens, List.append_cons front opening (fresh ++ closing :: back),
      List.append_cons front opening (body ++ closing :: back)]
    simp only [List.filter_append, List.append_assoc]
    refine List.Perm.append_left _ (List.Perm.append_left _ ?_)
    -- the comments that are left over go next to the layout they were in
    refine (List.perm_append_comm.append_left _).trans ?_
    rw [← List.append_assoc]
    exact hReflowed.keeps.append_right _
  refine ⟨hKept, ⟨fun hPerm => ?_, fun hNone => by simpa [hNone] using hKept⟩, ?_⟩
  · -- what is left over has no room in a list of the same length
    have hLong := hKept.length_eq
    rw [List.length_append, hPerm.length_eq] at hLong
    exact List.length_eq_zero_iff.mp (by omega)
  · have hApart : NamesApart ts := List.IsChain.infix (namesApart_source source) hSource
    have hOpening : opening.kind = .groupOpen := by simpa [hBraces.opening_at] using hOpen
    have hClosing : closing.kind = .groupClose := by simpa [hBraces.closing_at] using hClose
    rw [hBraces.tokens, namesApart_append_cons (by simp [hOpening]),
      namesApart_append_cons (by simp [hClosing])] at hApart
    rw [namesApart_append_cons (by simp [hOpening]), namesApart_append_cons (by simp [hClosing]),
      ← hReflowed.namesApart_iff]
    exact ⟨fun h => h.2.1, fun h => ⟨hApart.1, h, hApart.2.2⟩⟩

/-- Comments in front of a name, inside an alias and behind a name go with their names. -/
theorem sortGroup?_keeps_tokens_of_aliases :
    let source := "<?php\nuse Foo\\\x7b/* b */ B /** c */ as C,\n A\\B /* a */, A\x7d;\n".toList
    let ts := classify (lex source)
    ts <:+: classify (lex source) ∧ 5 < 25 ∧ (ts[5]?).any (·.kind == .groupOpen) = true ∧
      (ts[25]?).any (·.kind == .groupClose) = true ∧
      ∃ out, sortGroup? ({} : Settings).layout ts (5 : Nat) (25 : Nat) = some out ∧
        (out.filter fun t => !t.isGap).Perm (ts.filter fun t => !t.isGap) ∧ NamesApart out := by
  intro source ts
  have hOpen : (ts[5]?).any (·.kind == .groupOpen) = true := by decide +kernel
  have hClose : (ts[25]?).any (·.kind == .groupClose) = true := by decide +kernel
  have hSome : (sortGroup? ({} : Settings).layout ts (5 : Nat) (25 : Nat)).isSome = true := by
    decide +kernel
  obtain ⟨out, hOut⟩ := Option.isSome_iff_exists.mp hSome
  obtain ⟨-, hKept, hApart⟩ := sortGroup?_keeps_tokens ({} : Settings).layout
    (@List.infix_rfl _ ts) (by decide) hOpen hClose hOut
  exact ⟨List.infix_rfl, by decide, hOpen, hClose, out, hOut, hKept.mpr (by decide +kernel),
    hApart.mpr (by decide +kernel)⟩

/-- A comment behind the last comma is lost, and a comment between two names leaves them joined. -/
theorem comments_lost_and_names_joined :
    let lost := classify (lex "<?php\nuse Foo\\\x7bB, A, /* c */\x7d;\n".toList)
    let joined := classify (lex "<?php\nuse Foo\\\x7bB as/**/X, A\x7d;\n".toList)
    (∃ out, sortGroup? ({} : Settings).layout lost 5 13 = some out ∧
      textOf out = "<?php\nuse Foo\\\x7bA, B,\x7d;\n".toList ∧
      ¬ (out.filter fun t => !t.isGap).Perm (lost.filter fun t => !t.isGap)) ∧
    ∃ out, sortGroup? ({} : Settings).layout joined 5 14 = some out ∧
      textOf out = "<?php\nuse Foo\\\x7bA, B asX /**/\x7d;\n".toList ∧
      NamesApart joined ∧ ¬ NamesApart out := by
  intro lost joined
  let a : GroupPart := ⟨['A'], [⟨.name, ['A']⟩]⟩
  let b : GroupPart := ⟨['B'], [⟨.name, ['B']⟩]⟩
  let renamed : GroupPart := ⟨"B asX /**/".toList, [⟨.name, ['B']⟩, oneSpace, ⟨.name, ['a', 's']⟩,
    ⟨.name, ['X']⟩, oneSpace, ⟨.comment, "/**/".toList⟩]⟩
  have hLost : (splitAtCommas (slice lost (5 + 1) 13)).filterMap GroupPart.ofPiece? = [b, a] := by
    decide +kernel
  have hJoined : (splitAtCommas (slice joined (5 + 1) 14)).filterMap GroupPart.ofPiece? =
      [renamed, a] := by
    decide +kernel
  refine ⟨⟨lost.take 6 ++ a.tokens ++ [commaToken, oneSpace] ++ b.tokens ++ [commaToken] ++
    lost.drop 13, ?_, by decide +kernel, by decide +kernel⟩, joined.take 6 ++ a.tokens ++
    [commaToken, oneSpace] ++ renamed.tokens ++ joined.drop 14, ?_, by decide +kernel,
    by decide +kernel, by decide +kernel⟩
  · simp only [sortGroup?, hLost, groupBody, @mergeSort_pair _ GroupPart.le b a (by decide)]
    decide +kernel
  · simp only [sortGroup?, hJoined, groupBody, @mergeSort_pair _ GroupPart.le renamed a (by decide)]
    decide +kernel

end UseOrder
