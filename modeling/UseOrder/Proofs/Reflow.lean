import UseOrder.Proofs.Covering
import UseOrder.Proofs.Keys
import UseOrder.Token.Context
import UseOrder.Token.Lexer

/-!
# What becomes of the parts of a group

A group that is laid out anew holds its old parts, sorted. Here this is said of the tokens alone,
with no word about how the parts are read: the tokens between the braces are cut at the commas, a
piece without a name is `isBare`, and of every other piece `writePiece` tells how it is written.
The layout then stands for a stable sort of these lists by their texts (`SortedByText`), with a
comma at its end just if some piece was bare, and there is nothing left to lay out anew.
-/

namespace UseOrder

/-! ## Pieces between commas -/

/-- A piece that holds no name: white space and comments only. -/
def isBare (piece : List Token) : Bool :=
  piece.all fun t => !t.isMeaningful

/-- A piece as it is written: what is no comment, without the white space around it, and then a
blank and the comments if there are any. -/
def writePiece (piece : List Token) : List Token :=
  let remarks := piece.filter Token.isComment
  trim (piece.filter fun t => !t.isComment) ++ if remarks.isEmpty then [] else oneSpace :: remarks

/-- The pieces with a name between the braces of a group, as they are written. -/
def writtenParts (inside : List Token) : List (List Token) :=
  ((inside.splitOnP Token.isComma).filter fun piece => !isBare piece).map writePiece

/-- One list of parts is the other one in ascending order of the texts; parts with the same text
keep their order. -/
structure SortedByText (parts sorted : List (List Token)) : Prop where
  perm : sorted.Perm parts
  ordered : sorted.Pairwise fun a b => textOf a ≤ textOf b
  stable : ∀ text, sorted.filter (textOf · == text) = parts.filter (textOf · == text)

theorem allSpace_filter_iff {piece : List Token} :
    AllSpace (piece.filter fun t => !t.isComment) ↔ isBare piece = true := by
  simp only [AllSpace, isBare, List.mem_filter, List.all_eq_true, Token.isMeaningful, Bool.not_not,
    Bool.or_eq_true]
  refine forall_congr' fun t => ⟨fun h ht => ?_, fun h ht => ?_⟩
  · by_cases hComment : t.isComment = true
    · exact .inr hComment
    · exact .inl (h ⟨ht, by simpa using hComment⟩)
  · exact (h ht.1).resolve_right (by simpa using ht.2)

/-- Of a piece without empty tokens, a part is read just if it holds a name. -/
theorem ofPiece?_eq_bare {piece : List Token} (h : ∀ t ∈ piece, t.content ≠ []) :
    GroupPart.ofPiece? piece =
      if isBare piece then none
      else some ⟨textOf (writePiece piece), writePiece piece⟩ := by
  have hContents : ∀ t ∈ trim (piece.filter fun t => !t.isComment), t.content ≠ [] :=
    fun t ht => h t (List.mem_filter.mp (mem_of_mem_trim ht)).1
  have hEmpty : (trim (piece.filter fun t => !t.isComment)).isEmpty = isBare piece := by
    rw [Bool.eq_iff_iff, List.isEmpty_iff, trim_eq_nil_iff, allSpace_filter_iff]
  rw [GroupPart.ofPiece?_eq, textOf_isEmpty hContents, hEmpty, GroupPart.make, writePiece]
  split
  · rfl
  · split <;> simp_all [oneSpace]

theorem groupParts_eq {inside : List Token} (h : ∀ t ∈ inside, t.content ≠ []) :
    groupParts inside = (writtenParts inside).map fun tokens => ⟨textOf tokens, tokens⟩ := by
  have hRead : ∀ piece ∈ splitAtCommas inside, GroupPart.ofPiece? piece =
      if isBare piece then none else some ⟨textOf (writePiece piece), writePiece piece⟩ :=
    fun piece hPiece => ofPiece?_eq_bare fun t ht => h t (mem_piece hPiece t ht).1
  rw [groupParts, writtenParts, List.map_map, ← splitAtCommas_eq_splitOnP,
    List.filterMap_congr hRead]
  induction splitAtCommas inside with
  | nil => rfl
  | cons piece pieces ih =>
    cases hBare : isBare piece <;> simp [hBare, ih]

theorem any_isNone_eq {inside : List Token} (h : ∀ t ∈ inside, t.content ≠ []) :
    ((splitAtCommas inside).any fun piece => (GroupPart.ofPiece? piece).isNone) =
      (inside.splitOnP Token.isComma).any isBare := by
  rw [← splitAtCommas_eq_splitOnP, Bool.eq_iff_iff, List.any_eq_true, List.any_eq_true]
  refine exists_congr fun piece => and_congr_right fun hPiece => ?_
  rw [ofPiece?_eq_bare fun t ht => h t (mem_piece hPiece t ht).1]
  split <;> simp_all

/-! ## Sorting the parts -/

theorem Text.le_iff {s t : Text} : Text.le s t = true ↔ s ≤ t := by
  have hCompares := Text.compare_compares s t
  rw [Text.le]
  cases hOrder : Text.compare s t with
  | lt =>
    rw [hOrder] at hCompares
    exact iff_of_true rfl (le_of_lt hCompares)
  | eq =>
    rw [hOrder] at hCompares
    exact iff_of_true rfl (le_of_eq hCompares)
  | gt =>
    rw [hOrder] at hCompares
    exact iff_of_false (by simp) (not_le_of_gt hCompares)

/-- Parts that are read from token lists are sorted as these lists are by their texts. -/
theorem sortedByText_mergeSort (tss : List (List Token)) :
    SortedByText tss (((tss.map fun tokens => (⟨textOf tokens, tokens⟩ : GroupPart)).mergeSort
      GroupPart.le).map GroupPart.tokens) := by
  generalize hParts : (tss.map fun tokens => (⟨textOf tokens, tokens⟩ : GroupPart)) = ps
  have hTokens : ps.map GroupPart.tokens = tss := by
    rw [← hParts, List.map_map]
    exact List.map_id' tss
  have hText : ∀ p ∈ ps, p.text = textOf p.tokens := by
    rw [← hParts]
    simp
  have hSorted : ∀ p ∈ ps.mergeSort GroupPart.le, p.text = textOf p.tokens :=
    fun p hp => hText p (List.mem_mergeSort.mp hp)
  -- a part knows its text, so what holds of the sorted parts holds of their tokens
  refine ⟨?_, ?_, fun text => ?_⟩
  · rw [← hTokens]
    exact (List.mergeSort_perm ps GroupPart.le).map GroupPart.tokens
  · rw [List.pairwise_map]
    refine (List.pairwise_mergeSort GroupPart.le_trans GroupPart.le_total ps).imp_of_mem ?_
    intro a b ha hb hab
    rw [← hSorted a ha, ← hSorted b hb]
    exact Text.le_iff.mp hab
  · have hTexts : ∀ qs : List GroupPart, (∀ q ∈ qs, q.text = textOf q.tokens) →
        (qs.map GroupPart.tokens).filter (textOf · == text) =
          (qs.filter (·.text == text)).map GroupPart.tokens := by
      intro qs hqs
      rw [List.filter_map, List.filter_congr fun q hq => ?_]
      rw [Function.comp, hqs q hq]
    have hSame : ∀ a b : GroupPart, (a.text == text) = true → (b.text == text) = true →
        a.le b = true := by
      intro a b ha hb
      rw [GroupPart.le, Text.le_iff, beq_iff_eq.mp ha, beq_iff_eq.mp hb]
    rw [hTexts _ hSorted, filter_mergeSort GroupPart.le_trans GroupPart.le_total hSame, ← hTokens,
      hTexts _ hText]

/-! ## The new layout -/

/-- Tokens between braces are laid out anew. -/
structure Reflowed (inside fresh : List Token) : Prop where
  /-- Cut at the commas, the layout holds the sorted parts with white space around each, and behind
  a comma at the end one more piece of white space. -/
  parts : ∃ pieces last, fresh.splitOnP Token.isComma = pieces ++ Option.toList last ∧
    SortedByText (writtenParts inside) (pieces.map trim) ∧ ∀ space ∈ last, AllSpace space
  /-- There is a comma at the end just if a piece held no name. -/
  comma : (trimEnd fresh).getLast?.any Token.isComma = (inside.splitOnP Token.isComma).any isBare

theorem not_space_of_comment {t : Token} (h : t.isComment = true) : t.isWhitespace = false := by
  simp only [Token.isComment, Bool.or_eq_true, beq_iff_eq] at h
  rcases h with h | h <;> simp [Token.isWhitespace, h]

/-- A part has a name at its front, and a name or a comment at its end. -/
theorem IsPart.trimmed_tokens {p : GroupPart} {content comments : List Token}
    (h : IsPart p content comments) : Trimmed p.tokens := by
  rw [h.made, GroupPart.make]
  split
  · exact h.trimmed
  · next hRemarks =>
    obtain ⟨t, rest, hFirst, ht⟩ := h.trimmed.first
    refine ⟨⟨t, rest ++ [oneSpace] ++ comments, by simp [hFirst], ht⟩, ?_⟩
    rcases List.eq_nil_or_concat comments with rfl | ⟨remarks, last, rfl⟩
    · simp at hRemarks
    · refine ⟨content ++ [oneSpace] ++ remarks, last, by simp, ?_⟩
      exact not_space_of_comment (h.remarks last (by simp))

theorem map_trim_of_surrounds {pieces tss : List (List Token)}
    (h : List.Forall₂ Surrounds pieces tss) (hTrimmed : ∀ ts ∈ tss, Trimmed ts) :
    pieces.map trim = tss := by
  induction h with
  | nil => rfl
  | cons hPiece _ ih =>
    obtain ⟨before, after, rfl, hBefore, hAfter⟩ := hPiece
    rw [List.map_cons, (hTrimmed _ List.mem_cons_self).trim_spaced hBefore hAfter,
      ih fun ts hts => hTrimmed ts (List.mem_cons_of_mem _ hts)]

theorem joinTokens_ends (separator : List Token) {tss : List (List Token)} (hNe : tss ≠ []) :
    ∃ front, ∃ ts ∈ tss, joinTokens separator tss = front ++ ts := by
  induction tss with
  | nil => exact absurd rfl hNe
  | cons ts tss ih =>
    cases tss with
    | nil => exact ⟨[], ts, List.mem_cons_self, rfl⟩
    | cons us tss =>
      obtain ⟨front, vs, hvs, hJoin⟩ := ih (by simp)
      refine ⟨ts ++ separator ++ front, vs, List.mem_cons_of_mem _ hvs, ?_⟩
      simp [joinTokens, hJoin]

theorem comma_groupBody (layout : Layout) (multiline trailingComma : Bool) {ps : List GroupPart}
    (hParts : ∀ p ∈ ps, ∃ content comments, IsPart p content comments) (hNe : ps ≠ []) :
    (trimEnd (groupBody layout multiline trailingComma ps)).getLast?.any Token.isComma =
      trailingComma := by
  have hSpace : AllSpace
      (if multiline then [(⟨.whitespace, layout.lineEnding.text⟩ : Token)] else []) := by
    cases multiline
    · exact AllSpace.nil
    · exact AllSpace.singleton _
  simp only [groupBody]
  rw [trimEnd_append_space hSpace]
  cases trailingComma with
  | true =>
    rw [if_pos rfl, trimEnd_concat rfl, List.getLast?_concat]
    rfl
  | false =>
    -- the last token is that of the last part, which is no comma
    have hSortedNe : (ps.mergeSort GroupPart.le).map GroupPart.tokens ≠ [] := by
      rw [← List.length_pos_iff, List.length_map, List.length_mergeSort]
      exact List.length_pos_iff.mpr hNe
    obtain ⟨front, ts, hts, hJoin⟩ := joinTokens_ends [commaToken,
      ⟨.whitespace, if multiline then layout.lineEnding.text ++ layout.indent.text else [' ']⟩]
      hSortedNe
    obtain ⟨p, hp, rfl⟩ := List.mem_map.mp hts
    obtain ⟨content, comments, hPart⟩ := hParts p (List.mem_mergeSort.mp hp)
    obtain ⟨rest, t, hLast, ht⟩ := hPart.trimmed_tokens.last
    have hComma : t.isComma = false := hPart.no_comma t (by simp [hLast])
    rw [hJoin, hLast, if_neg Bool.false_ne_true, List.append_nil, ← List.append_assoc, ← List.append_assoc,
      trimEnd_concat ht, List.getLast?_concat]
    exact hComma

theorem reflowed_groupBody (layout : Layout) (multiline : Bool) {inside : List Token}
    (hContents : ∀ t ∈ inside, t.content ≠ []) (hNe : groupParts inside ≠ []) :
    Reflowed inside (groupBody layout multiline
      ((splitAtCommas inside).any fun piece => (GroupPart.ofPiece? piece).isNone)
      (groupParts inside)) := by
  have hParts : ∀ p ∈ groupParts inside, ∃ content comments, IsPart p content comments :=
    fun p hp => isPart_of_mem_groupParts hp
  rw [any_isNone_eq hContents]
  generalize hBare : (inside.splitOnP Token.isComma).any isBare = trailingComma
  refine ⟨?_, by rw [comma_groupBody layout multiline trailingComma hParts hNe, hBare]⟩
  obtain ⟨pieces, space, hPieces, hSurrounds, hSpace⟩ :=
    splitAtCommas_groupBody layout multiline trailingComma hParts hNe
  have hTrimmed : ∀ ts ∈ ((groupParts inside).mergeSort GroupPart.le).map GroupPart.tokens,
      Trimmed ts := by
    intro ts hts
    obtain ⟨p, hp, rfl⟩ := List.mem_map.mp hts
    obtain ⟨content, comments, hPart⟩ := hParts p (List.mem_mergeSort.mp hp)
    exact hPart.trimmed_tokens
  refine ⟨pieces, if trailingComma then some space else none, ?_, ?_, ?_⟩
  · rw [← splitAtCommas_eq_splitOnP, hPieces]
    cases trailingComma <;> rfl
  · rw [map_trim_of_surrounds hSurrounds hTrimmed, groupParts_eq hContents]
    exact sortedByText_mergeSort _
  · cases trailingComma with
    | true => simpa using hSpace
    | false => simp

/-- A group is left as it is just if there is nothing to sort or a line comment is in the way. -/
theorem keeps_iff {inside : List Token} (hContents : ∀ t ∈ inside, t.content ≠ []) :
    (inside.any Token.isLineComment || partsInOrder (groupParts inside)) = true ↔
      (∃ t ∈ inside, t.isLineComment = true) ∨
        (writtenParts inside).Pairwise fun a b => textOf a ≤ textOf b := by
  rw [Bool.or_eq_true, List.any_eq_true, partsInOrder_iff, groupParts_eq hContents, List.pairwise_map]
  simp only [GroupPart.le, Text.le_iff]

/-- The tokens of a group by the positions of its braces. -/
structure BracesAt (ts : List Token) (openAt closeAt : Nat) (front : List Token) (opening : Token)
    (inside : List Token) (closing : Token) (back : List Token) : Prop where
  tokens : ts = front ++ opening :: (inside ++ closing :: back)
  open_eq : openAt = front.length
  close_eq : closeAt = (front ++ opening :: inside).length

theorem exists_bracesAt {ts : List Token} {openAt closeAt : Nat} (hOrder : openAt < closeAt)
    (hClose : closeAt < ts.length) :
    ∃ front opening inside closing back,
      BracesAt ts openAt closeAt front opening inside closing back := by
  have hOpening := List.getElem?_eq_getElem (hOrder.trans hClose)
  have hClosing := List.getElem?_eq_getElem hClose
  generalize ts[openAt] = opening, ts[closeAt] = closing at hOpening hClosing
  obtain ⟨front, rest, rfl, rfl⟩ := exists_split hOpening
  obtain ⟨n, rfl⟩ : ∃ n, closeAt = front.length + (n + 1) := ⟨closeAt - front.length - 1, by omega⟩
  rw [List.getElem?_append_right (by omega), Nat.add_sub_cancel_left,
    List.getElem?_cons_succ] at hClosing
  obtain ⟨inside, back, rfl, rfl⟩ := exists_split hClosing
  exact ⟨front, opening, inside, closing, back, rfl, rfl, by simp⟩

namespace BracesAt

variable {ts front inside back : List Token} {opening closing : Token} {openAt closeAt : Nat}

theorem opening_at (h : BracesAt ts openAt closeAt front opening inside closing back) :
    ts[openAt]? = some opening := by
  rw [h.tokens, h.open_eq]
  simp

theorem closing_at (h : BracesAt ts openAt closeAt front opening inside closing back) :
    ts[closeAt]? = some closing := by
  rw [h.tokens, h.close_eq, ← List.cons_append, ← List.append_assoc,
    List.getElem?_append_right (le_refl _), Nat.sub_self, List.getElem?_cons_zero]

theorem take_close (h : BracesAt ts openAt closeAt front opening inside closing back) :
    ts.take closeAt = front ++ opening :: inside := by
  obtain ⟨rfl, rfl, rfl⟩ := h
  rw [← List.cons_append, ← List.append_assoc, List.take_left]

theorem drop_close (h : BracesAt ts openAt closeAt front opening inside closing back) :
    ts.drop closeAt = closing :: back := by
  obtain ⟨rfl, rfl, rfl⟩ := h
  rw [← List.cons_append, ← List.append_assoc, List.drop_left]

theorem inside_eq (h : BracesAt ts openAt closeAt front opening inside closing back) :
    (ts.take closeAt).drop (openAt + 1) = inside := by
  rw [h.take_close, h.open_eq]
  simp

theorem take_open (h : BracesAt ts openAt closeAt front opening inside closing back) :
    ts.take (openAt + 1) = front ++ [opening] := by
  rw [h.tokens, h.open_eq, List.append_cons]
  exact List.take_left' (by simp)

/-- A group that is rebuilt keeps what is outside of its braces, and is read as its sorted parts. -/
theorem rebuilt (h : BracesAt ts openAt closeAt front opening inside closing back)
    {layout : Layout} (hContents : ∀ t ∈ inside, t.content ≠ []) {out : List Token}
    (hOut : sortGroup? layout ts openAt closeAt = some out) :
    ∃ fresh, out = front ++ opening :: (fresh ++ closing :: back) ∧ Reflowed inside fresh ∧
      groupParts fresh = (groupParts inside).mergeSort GroupPart.le := by
  rw [h.tokens, h.open_eq, h.close_eq, sortGroup?_eq] at hOut
  split at hOut
  · simp at hOut
  · next hRebuilt =>
    have hNe : groupParts inside ≠ [] := by
      intro hNil
      exact hRebuilt (by simp [hNil, partsInOrder])
    exact ⟨_, (Option.some.inj hOut).symm, reflowed_groupBody layout _ hContents hNe,
      groupParts_groupBody (fun p hp => isPart_of_mem_groupParts hp) hNe⟩

end BracesAt

/-- A group is laid out anew unless its parts are in order or it holds a line comment. Outside of
the braces nothing changes, between them the parts are sorted, and doing so again changes nothing. -/
theorem sortGroup?_reflows (layout : Layout) {ts : List Token} {openAt closeAt : Nat}
    (hContents : ∀ t ∈ ts, t.content ≠ []) (hOrder : openAt < closeAt)
    (hClose : closeAt < ts.length) :
    let inside := (ts.take closeAt).drop (openAt + 1)
    (sortGroup? layout ts openAt closeAt = none ↔
      (∃ t ∈ inside, t.isLineComment = true) ∨
        (writtenParts inside).Pairwise fun a b => textOf a ≤ textOf b) ∧
    ∀ out, sortGroup? layout ts openAt closeAt = some out →
      ∃ fresh, out = ts.take (openAt + 1) ++ fresh ++ ts.drop closeAt ∧ Reflowed inside fresh ∧
        sortGroup? layout out openAt (openAt + 1 + fresh.length : Nat) = none := by
  intro inside
  obtain ⟨front, opening, body, closing, back, hBraces⟩ := exists_bracesAt hOrder hClose
  have hBody : ∀ t ∈ body, t.content ≠ [] :=
    fun t ht => hContents t (by rw [hBraces.tokens]; simp [ht])
  simp only [inside, hBraces.inside_eq, hBraces.take_open, hBraces.drop_close]
  refine ⟨?_, fun out hOut => ?_⟩
  · rw [hBraces.tokens, hBraces.open_eq, hBraces.close_eq, sortGroup?_eq, ← keeps_iff hBody]
    split <;> simp_all
  · obtain ⟨fresh, rfl, hReflowed, hSorted⟩ := hBraces.rebuilt hBody hOut
    refine ⟨fresh, by simp, hReflowed, ?_⟩
    -- the closing brace has moved along with the length of the layout
    have hLength : openAt + 1 + fresh.length = (front ++ opening :: fresh).length := by
      rw [hBraces.open_eq, List.length_append, List.length_cons]
      omega
    rw [hLength, hBraces.open_eq, sortGroup?_eq, hSorted, partsInOrder_mergeSort, Bool.or_true,
      if_pos rfl]

/-- A group over two lines, with a name that stands twice, an alias, comments on both sides of names
and a comma at the end. -/
theorem sortGroup?_reflows_of_lines :
    let ts := classify (lex
      "<?php\nuse Foo\\\x7bB, /* b */ B\n as C, A /* a */ , B,\x7d;\n".toList)
    (∀ t ∈ ts, t.content ≠ []) ∧ 5 < 26 ∧ 26 < ts.length ∧
      (writtenParts ((ts.take 26).drop 6)).map textOf =
        ["B".toList, "B\n as C /* b */".toList, "A /* a */".toList, "B".toList] ∧
      ∃ fresh, sortGroup? ({} : Settings).layout ts (5 : Nat) (26 : Nat) =
          some (ts.take 6 ++ fresh ++ ts.drop 26) ∧
        Reflowed ((ts.take 26).drop 6) fresh ∧
        sortGroup? ({} : Settings).layout (ts.take 6 ++ fresh ++ ts.drop 26) (5 : Nat)
          (6 + fresh.length : Nat) = none := by
  intro ts
  have hContents : ∀ t ∈ ts, t.content ≠ [] := by decide +kernel
  have hClose : 26 < ts.length := by decide +kernel
  have hParts : (writtenParts ((ts.take 26).drop 6)).map textOf =
      ["B".toList, "B\n as C /* b */".toList, "A /* a */".toList, "B".toList] := by decide +kernel
  have hSome : (sortGroup? ({} : Settings).layout ts (5 : Nat) (26 : Nat)).isSome = true := by
    decide +kernel
  obtain ⟨out, hOut⟩ := Option.isSome_iff_exists.mp hSome
  obtain ⟨fresh, rfl, hReflowed, hDone⟩ :=
    (sortGroup?_reflows ({} : Settings).layout hContents (by decide) hClose).2 out hOut
  exact ⟨hContents, by decide, hClose, hParts, fresh, hOut, hReflowed, hDone⟩

end UseOrder
