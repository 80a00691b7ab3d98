import Mathlib.Data.List.Forall2
import UseOrder.Proofs.Cell
import UseOrder.Proofs.Ordering
import UseOrder.Proofs.Position
import UseOrder.Proofs.Space

/-!
# Laying out a brace group

Between its braces a group is a list of parts. Laying it out anew sorts the parts and writes them
back with fresh commas and white space; reading the result gives the sorted parts again, so a
second layout changes nothing (`arrangeInside_idem`). What stands in front of the opening brace and
behind the closing one is not touched (`arrangeGroup_eq`).
-/

namespace UseOrder

/-! ## Cutting at commas -/

theorem splitAtCommas_eq_splitOnP (ts : List Token) :
    splitAtCommas ts = ts.splitOnP Token.isComma := by
  induction ts with
  | nil => rfl
  | cons t ts ih =>
    rw [splitAtCommas, List.splitOnP_cons_eq_if_modifyHead, ih]
    split
    · rfl
    · cases h : ts.splitOnP Token.isComma with
      | nil => exact absurd h (List.splitOnP_ne_nil _ _)
      | cons piece pieces => rfl

theorem eq_commaToken {t : Token} (h : t.isComma = true) : t = commaToken := by
  simp only [Token.isComma, Token.isPunct, Bool.and_eq_true, beq_iff_eq] at h
  cases t
  simp_all [commaToken]

theorem splitAtCommas_of_no_comma {ts : List Token} (h : ∀ t ∈ ts, t.isComma = false) :
    splitAtCommas ts = [ts] := by
  rw [splitAtCommas_eq_splitOnP]
  exact List.splitOnP_eq_singleton h

theorem splitAtCommas_append_comma {ts : List Token} (h : ∀ t ∈ ts, t.isComma = false)
    (rest : List Token) :
    splitAtCommas (ts ++ commaToken :: rest) = ts :: splitAtCommas rest := by
  rw [splitAtCommas_eq_splitOnP, splitAtCommas_eq_splitOnP]
  exact List.splitOnP_append_cons_of_forall_mem h commaToken rfl rest

/-- No piece holds a comma, and what it holds comes from the list. -/
theorem mem_piece {ts piece : List Token} (h : piece ∈ splitAtCommas ts) :
    ∀ t ∈ piece, t ∈ ts ∧ t.isComma = false := by
  induction ts generalizing piece with
  | nil =>
    rw [splitAtCommas, List.mem_singleton] at h
    simp [h]
  | cons u ts ih =>
    rw [splitAtCommas] at h
    split at h
    · next hComma =>
      rcases List.mem_cons.mp h with rfl | h
      · simp
      · intro t ht
        exact ⟨List.mem_cons_of_mem _ (ih h t ht).1, (ih h t ht).2⟩
    · next hComma =>
      have hu : u.isComma = false := by simpa using hComma
      split at h
      · next hNil => simp [splitAtCommas_eq_splitOnP] at hNil
      · next first pieces hPieces =>
        rcases List.mem_cons.mp h with rfl | h
        · intro t ht
          rcases List.mem_cons.mp ht with rfl | ht
          · exact ⟨List.mem_cons_self, hu⟩
          · have hFirst : first ∈ splitAtCommas ts := by simp [hPieces]
            exact ⟨List.mem_cons_of_mem _ (ih hFirst t ht).1, (ih hFirst t ht).2⟩
        · intro t ht
          have hLater : piece ∈ splitAtCommas ts := by simp [hPieces, h]
          exact ⟨List.mem_cons_of_mem _ (ih hLater t ht).1, (ih hLater t ht).2⟩

/-! ## Parts -/

/-- The parts between the braces of a group. -/
def groupParts (inside : List Token) : List GroupPart :=
  (splitAtCommas inside).filterMap GroupPart.ofPiece?

/-- The part that is made of a name and comments. -/
def GroupPart.make (content comments : List Token) : GroupPart :=
  if comments.isEmpty then ⟨textOf content, content⟩
  else ⟨textOf content ++ [' '] ++ textOf comments, content ++ [oneSpace] ++ comments⟩

/-- A part as it is read from a group: a name without comments or commas, and comments. -/
structure IsPart (p : GroupPart) (content comments : List Token) : Prop where
  trimmed : Trimmed content
  written : (textOf content).isEmpty = false
  plain : ∀ t ∈ content, t.isComment = false ∧ t.isComma = false
  remarks : ∀ t ∈ comments, t.isComment = true
  made : p = GroupPart.make content comments

theorem GroupPart.ofPiece?_eq (piece : List Token) :
    GroupPart.ofPiece? piece =
      if (textOf (trim (piece.filter fun t => !t.isComment))).isEmpty then none
      else some (GroupPart.make (trim (piece.filter fun t => !t.isComment))
        (piece.filter Token.isComment)) := by
  simp only [GroupPart.ofPiece?, GroupPart.make]
  split
  · rfl
  · split <;> rfl

theorem GroupPart.isPart_of_ofPiece? {piece : List Token} {p : GroupPart}
    (hComma : ∀ t ∈ piece, t.isComma = false) (h : GroupPart.ofPiece? piece = some p) :
    ∃ content comments, IsPart p content comments := by
  rw [GroupPart.ofPiece?_eq] at h
  split at h
  · simp at h
  · next hText =>
    have hNe : trim (piece.filter fun t => !t.isComment) ≠ [] := by
      intro hNil
      exact hText (by rw [hNil]; rfl)
    refine ⟨_, _, trimmed_trim hNe, by simpa using hText, ?_, ?_, (Option.some.inj h).symm⟩
    · intro t ht
      obtain ⟨hMem, hPlain⟩ := List.mem_filter.mp (mem_of_mem_trim ht)
      exact ⟨by simpa using hPlain, hComma t hMem⟩
    · intro t ht
      exact (List.mem_filter.mp ht).2

theorem not_comma_of_comment {t : Token} (h : t.isComment = true) : t.isComma = false := by
  simp only [Token.isComment, Bool.or_eq_true, beq_iff_eq] at h
  rcases h with h | h <;> simp [Token.isComma, Token.isPunct, h]

namespace IsPart

theorem no_comma {p : GroupPart} {content comments : List Token}
    (h : IsPart p content comments) : ∀ t ∈ p.tokens, t.isComma = false := by
  intro t ht
  rw [h.made, GroupPart.make] at ht
  split at ht
  · exact (h.plain t ht).2
  · simp only [List.mem_append, List.mem_singleton] at ht
    rcases ht with (ht | rfl) | ht
    · exact (h.plain t ht).2
    · rfl
    · exact not_comma_of_comment (h.remarks t ht)

/-- A part with white space around it is read as that part. -/
theorem ofPiece?_spaced {p : GroupPart} {content comments before after : List Token}
    (h : IsPart p content comments) (hBefore : AllSpace before) (hAfter : AllSpace after) :
    GroupPart.ofPiece? (before ++ p.tokens ++ after) = some p := by
  have hNone : ∀ ts : List Token, (∀ t ∈ ts, t.isComment = false) →
      ts.filter Token.isComment = [] := by
    intro ts hts
    simpa [List.filter_eq_nil_iff] using hts
  have hSelf : ∀ ts : List Token, (∀ t ∈ ts, t.isComment = false) →
      ts.filter (fun t => !t.isComment) = ts := by
    intro ts hts
    simpa [List.filter_eq_self] using hts
  have hPlain : ∀ t ∈ content, t.isComment = false := fun t ht => (h.plain t ht).1
  -- the white space behind the name, whether it was there or comes with the comments
  obtain ⟨gap, hGap, hTokens⟩ : ∃ gap, AllSpace gap ∧ p.tokens = content ++ gap ++ comments := by
    rw [h.made, GroupPart.make]
    split
    · next hEmpty =>
      have hNil : comments = [] := by simpa using hEmpty
      exact ⟨[], AllSpace.nil, by simp [hNil]⟩
    · exact ⟨[oneSpace], AllSpace.singleton _, rfl⟩
  have hComments : (before ++ p.tokens ++ after).filter Token.isComment = comments := by
    rw [hTokens]
    simp only [List.filter_append, hNone _ hBefore.not_comment, hNone _ hPlain,
      hNone _ hGap.not_comment, hNone _ hAfter.not_comment, List.nil_append, List.append_nil]
    simpa [List.filter_eq_self] using h.remarks
  have hName : (before ++ p.tokens ++ after).filter (fun t => !t.isComment) =
      before ++ content ++ (gap ++ after) := by
    have hDropped : comments.filter (fun t => !t.isComment) = [] := by
      simpa [List.filter_eq_nil_iff] using h.remarks
    rw [hTokens]
    simp only [List.filter_append, hSelf _ hBefore.not_comment, hSelf _ hPlain,
      hSelf _ hGap.not_comment, hSelf _ hAfter.not_comment, hDropped, List.nil_append,
      List.append_assoc]
  rw [GroupPart.ofPiece?_eq, hComments, hName, h.trimmed.trim_spaced hBefore (hGap.append hAfter),
    if_neg (by simp [h.written]), ← h.made]

end IsPart

theorem GroupPart.ofPiece?_space {ts : List Token} (h : AllSpace ts) :
    GroupPart.ofPiece? ts = none := by
  have hSelf : ts.filter (fun t => !t.isComment) = ts := by
    simpa [List.filter_eq_self] using h.not_comment
  rw [GroupPart.ofPiece?_eq, hSelf, trim_eq_nil_iff.mpr h]
  rfl

/-! ## Reading a layout -/

/-- A piece holds tokens with white space around them. -/
def Surrounds (piece ts : List Token) : Prop :=
  ∃ before after, piece = before ++ ts ++ after ∧ AllSpace before ∧ AllSpace after

/-- Lists that are joined by commas are cut apart again, each with white space around it. Behind a
comma at the end there is one more piece. -/
theorem splitAtCommas_joined (separator : Token) (hSeparator : separator.isWhitespace = true)
    {after : List Token} (hAfter : AllSpace after) (trailingComma : Bool)
    {tss : List (List Token)} (hPlain : ∀ ts ∈ tss, ∀ t ∈ ts, t.isComma = false) (hNe : tss ≠ [])
    {lead : List Token} (hLead : AllSpace lead) :
    ∃ pieces, splitAtCommas (lead ++ joinTokens [commaToken, separator] tss ++
        ((if trailingComma then [commaToken] else []) ++ after)) =
          pieces ++ (if trailingComma then [after] else []) ∧
      List.Forall₂ Surrounds pieces tss := by
  induction tss generalizing lead with
  | nil => exact absurd rfl hNe
  | cons ts tss ih =>
    have hFirst : ∀ t ∈ lead ++ ts, t.isComma = false := by
      intro t ht
      rcases List.mem_append.mp ht with ht | ht
      · exact hLead.not_comma t ht
      · exact hPlain ts List.mem_cons_self t ht
    cases tss with
    | nil =>
      -- the last list takes the white space at the end along, unless a comma cuts it off
      rw [joinTokens]
      cases trailingComma with
      | true =>
        refine ⟨[lead ++ ts], ?_, .cons ⟨lead, [], by simp, hLead, AllSpace.nil⟩ .nil⟩
        rw [if_pos rfl, if_pos rfl, List.singleton_append, splitAtCommas_append_comma hFirst,
          splitAtCommas_of_no_comma hAfter.not_comma]
        rfl
      | false =>
        refine ⟨[lead ++ ts ++ after], ?_, .cons ⟨lead, after, rfl, hLead, hAfter⟩ .nil⟩
        have hAll : ∀ t ∈ lead ++ ts ++ after, t.isComma = false := by
          intro t ht
          rcases List.mem_append.mp ht with ht | ht
          · exact hFirst t ht
          · exact hAfter.not_comma t ht
        simpa using splitAtCommas_of_no_comma hAll
    | cons us tss =>
      -- behind the comma, the separator is the white space that leads the next list
      have hSpace : AllSpace [separator] := by
        intro t ht
        rwa [List.mem_singleton.mp ht]
      obtain ⟨pieces, hPieces, hSurrounds⟩ :=
        ih (fun vs hvs => hPlain vs (List.mem_cons_of_mem _ hvs)) (by simp) hSpace
      have hShape : lead ++ joinTokens [commaToken, separator] (ts :: us :: tss) ++
            ((if trailingComma then [commaToken] else []) ++ after) =
          (lead ++ ts) ++ commaToken :: ([separator] ++
            joinTokens [commaToken, separator] (us :: tss) ++
              ((if trailingComma then [commaToken] else []) ++ after)) := by
        simp [joinTokens]
      refine ⟨(lead ++ ts) :: pieces, ?_, .cons ⟨lead, [], by simp, hLead, AllSpace.nil⟩ hSurrounds⟩
      rw [hShape, splitAtCommas_append_comma hFirst, hPieces, List.cons_append]

/-- A fresh layout is cut into the parts in order, and into one more piece of white space if it has
a comma at its end. -/
theorem splitAtCommas_groupBody (layout : Layout) (multiline trailingComma : Bool)
    {ps : List GroupPart} (hParts : ∀ p ∈ ps, ∃ content comments, IsPart p content comments)
    (hNe : ps ≠ []) :
    ∃ pieces space, splitAtCommas (groupBody layout multiline trailingComma ps) =
        pieces ++ (if trailingComma then [space] else []) ∧
      List.Forall₂ Surrounds pieces ((ps.mergeSort GroupPart.le).map GroupPart.tokens) ∧
      AllSpace space := by
  have hSpace : ∀ content : Text,
      AllSpace (if multiline then [⟨.whitespace, content⟩] else []) := by
    intro content
    cases multiline
    · exact AllSpace.nil
    · exact AllSpace.singleton content
  have hPlain : ∀ ts ∈ (ps.mergeSort GroupPart.le).map GroupPart.tokens,
      ∀ t ∈ ts, t.isComma = false := by
    intro ts hts
    obtain ⟨p, hp, rfl⟩ := List.mem_map.mp hts
    obtain ⟨content, comments, hPart⟩ := hParts p (List.mem_mergeSort.mp hp)
    exact hPart.no_comma
  have hSortedNe : (ps.mergeSort GroupPart.le).map GroupPart.tokens ≠ [] := by
    rw [← List.length_pos_iff, List.length_map, List.length_mergeSort]
    exact List.length_pos_iff.mpr hNe
  simp only [groupBody, List.append_assoc _ (if trailingComma then [commaToken] else []) _]
  obtain ⟨pieces, hPieces, hSurrounds⟩ := splitAtCommas_joined
    ⟨.whitespace, if multiline then layout.lineEnding.text ++ layout.indent.text else [' ']⟩ rfl
    (hSpace layout.lineEnding.text) trailingComma hPlain hSortedNe (hSpace _)
  exact ⟨pieces, _, hPieces, hSurrounds, hSpace _⟩

theorem filterMap_ofPiece?_of_surrounds {pieces : List (List Token)} {ps : List GroupPart}
    (h : List.Forall₂ Surrounds pieces (ps.map GroupPart.tokens))
    (hParts : ∀ p ∈ ps, ∃ content comments, IsPart p content comments) :
    pieces.filterMap GroupPart.ofPiece? = ps := by
  induction ps generalizing pieces with
  | nil =>
    obtain rfl := List.forall₂_nil_right_iff.mp h
    rfl
  | cons p ps ih =>
    obtain ⟨piece, rest, ⟨before, after, rfl, hBefore, hAfter⟩, hRest, rfl⟩ :=
      List.forall₂_cons_right_iff.mp h
    obtain ⟨content, comments, hp⟩ := hParts p List.mem_cons_self
    rw [List.filterMap_cons, hp.ofPiece?_spaced hBefore hAfter,
      ih hRest fun q hq => hParts q (List.mem_cons_of_mem _ hq)]

/-- A fresh layout is read as the parts in order. -/
theorem groupParts_groupBody {layout : Layout} {multiline trailingComma : Bool}
    {ps : List GroupPart} (hParts : ∀ p ∈ ps, ∃ content comments, IsPart p content comments)
    (hNe : ps ≠ []) :
    groupParts (groupBody layout multiline trailingComma ps) = ps.mergeSort GroupPart.le := by
  obtain ⟨pieces, space, hPieces, hSurrounds, hSpace⟩ :=
    splitAtCommas_groupBody layout multiline trailingComma hParts hNe
  rw [groupParts, hPieces, List.filterMap_append, filterMap_ofPiece?_of_surrounds hSurrounds
    fun p hp => hParts p (List.mem_mergeSort.mp hp)]
  cases trailingComma <;> simp [GroupPart.ofPiece?_space hSpace]

/-! ## The tokens between the braces -/

/-- What stands between the braces of a group is kept: it is not to be sorted, a line comment is in
the way, or the names are in order. -/
def keepsInside (settings : Settings) (inside : List Token) : Bool :=
  settings.algorithm == .unsorted || inside.any Token.isLineComment ||
    partsInOrder (groupParts inside)

/-- The tokens between the braces of a group as they are written. -/
def arrangeInside (settings : Settings) (inside : List Token) : List Token :=
  if keepsInside settings inside then inside
  else groupBody settings.layout (inside.any (breaksLine settings.layout))
    ((splitAtCommas inside).any fun piece => (GroupPart.ofPiece? piece).isNone) (groupParts inside)

theorem isPart_of_mem_groupParts {inside : List Token} {p : GroupPart}
    (h : p ∈ groupParts inside) : ∃ content comments, IsPart p content comments := by
  obtain ⟨piece, hPiece, hp⟩ := List.mem_filterMap.mp h
  exact GroupPart.isPart_of_ofPiece? (fun t ht => (mem_piece hPiece t ht).2) hp

theorem GroupPart.le_trans (a b c : GroupPart) (hab : a.le b = true) (hbc : b.le c = true) :
    a.le c = true :=
  @Std.TransCmp.isLE_trans _ Text.compare _ _ _ _ hab hbc

theorem GroupPart.le_total (a b : GroupPart) : (a.le b || b.le a) = true := by
  rw [GroupPart.le, GroupPart.le, Text.le, Text.le,
    @Std.OrientedCmp.eq_swap _ Text.compare _ b.text a.text]
  cases Text.compare a.text b.text <;> rfl

/-- Parts of which each is in order with the next are all in order. -/
theorem partsInOrder_iff {ps : List GroupPart} :
    partsInOrder ps = true ↔ ps.Pairwise fun a b => a.le b = true := by
  induction ps with
  | nil => simp [partsInOrder]
  | cons a ps ih =>
    cases ps with
    | nil => simp [partsInOrder]
    | cons b ps =>
      rw [partsInOrder, Bool.and_eq_true, ih, @List.pairwise_cons _ _ a]
      refine and_congr_left fun hTail => ⟨fun hab c hc => ?_, fun hHead => hHead b List.mem_cons_self⟩
      rcases List.mem_cons.mp hc with rfl | hc
      · exact hab
      · exact GroupPart.le_trans _ _ _ hab (List.rel_of_pairwise_cons hTail hc)

theorem partsInOrder_mergeSort (ps : List GroupPart) :
    partsInOrder (ps.mergeSort GroupPart.le) = true :=
  partsInOrder_iff.mpr (List.pairwise_mergeSort GroupPart.le_trans GroupPart.le_total ps)

theorem mem_joinTokens {separator : List Token} {tss : List (List Token)} {t : Token}
    (h : t ∈ joinTokens separator tss) : t ∈ separator ∨ ∃ ts ∈ tss, t ∈ ts := by
  induction tss with
  | nil => simp [joinTokens] at h
  | cons ts tss ih =>
    cases tss with
    | nil =>
      rw [joinTokens] at h
      exact Or.inr ⟨ts, List.mem_cons_self, h⟩
    | cons us tss =>
      simp only [joinTokens, List.mem_append] at h
      rcases h with (h | h) | h
      · exact Or.inr ⟨ts, List.mem_cons_self, h⟩
      · exact Or.inl h
      · rcases ih h with h | ⟨vs, hvs, h⟩
        · exact Or.inl h
        · exact Or.inr ⟨vs, List.mem_cons_of_mem _ hvs, h⟩

/-- Every token of a part comes from the group, the blank in front of comments apart. -/
theorem mem_of_mem_groupParts {inside : List Token} {p : GroupPart} {t : Token}
    (hp : p ∈ groupParts inside) (ht : t ∈ p.tokens) : t ∈ inside ∨ t = oneSpace := by
  obtain ⟨piece, hPiece, hSome⟩ := List.mem_filterMap.mp hp
  have hInside : ∀ u ∈ piece, u ∈ inside := fun u hu => (mem_piece hPiece u hu).1
  rw [GroupPart.ofPiece?_eq] at hSome
  split at hSome
  · simp at hSome
  · rw [← Option.some.inj hSome, GroupPart.make] at ht
    have hName : ∀ u ∈ trim (piece.filter fun t => !t.isComment), u ∈ inside := by
      intro u hu
      exact hInside u (List.mem_filter.mp (mem_of_mem_trim hu)).1
    split at ht
    · exact Or.inl (hName t ht)
    · simp only [List.mem_append, List.mem_singleton] at ht
      rcases ht with (ht | ht) | ht
      · exact Or.inl (hName t ht)
      · exact Or.inr ht
      · exact Or.inl (hInside t (List.mem_filter.mp ht).1)

/-- White space that is written anew is never empty. -/
def IsFreshSpace (t : Token) : Prop :=
  t.kind = .whitespace ∧ t.content ≠ []

theorem lineEnding_ne_nil (e : LineEnding) : e.text ≠ [] := by
  cases e <;> decide

/-- What is written between the braces was there before, or it is a comma or white space. -/
theorem mem_arrangeInside {settings : Settings} {inside : List Token} {t : Token}
    (h : t ∈ arrangeInside settings inside) :
    t ∈ inside ∨ t = commaToken ∨ IsFreshSpace t := by
  have hEnding := lineEnding_ne_nil settings.layout.lineEnding
  rw [arrangeInside] at h
  split at h
  · exact Or.inl h
  · -- a line break, the parts with their separators, a comma, and a line break
    simp only [groupBody, List.mem_append] at h
    rcases h with ((h | h) | h) | h
    · split at h
      · rw [List.mem_singleton.mp h]
        exact Or.inr (Or.inr ⟨rfl, by simp [hEnding]⟩)
      · simp at h
    · rcases mem_joinTokens h with h | ⟨ts, hts, h⟩
      · simp only [List.mem_cons, List.not_mem_nil, or_false] at h
        rcases h with rfl | rfl
        · exact Or.inr (Or.inl rfl)
        · refine Or.inr (Or.inr ⟨rfl, ?_⟩)
          split <;> simp [hEnding]
      · obtain ⟨p, hp, rfl⟩ := List.mem_map.mp hts
        have hp' := (List.mergeSort_perm _ _).mem_iff.mp hp
        rcases mem_of_mem_groupParts hp' h with h | rfl
        · exact Or.inl h
        · exact Or.inr (Or.inr ⟨rfl, by simp [oneSpace]⟩)
    · split at h
      · exact Or.inr (Or.inl (List.mem_singleton.mp h))
      · simp at h
    · split at h
      · rw [List.mem_singleton.mp h]
        exact Or.inr (Or.inr ⟨rfl, hEnding⟩)
      · simp at h

/-- Laying out a group a second time changes nothing. -/
theorem arrangeInside_idem (settings : Settings) (inside : List Token) :
    arrangeInside settings (arrangeInside settings inside) = arrangeInside settings inside := by
  by_cases hKeep : keepsInside settings inside = true
  · have hSame : arrangeInside settings inside = inside := by rw [arrangeInside, if_pos hKeep]
    rw [hSame, hSame]
  · have hNe : groupParts inside ≠ [] := by
      intro hNil
      exact hKeep (by simp [keepsInside, hNil, partsInOrder])
    have hParts : groupParts (arrangeInside settings inside) =
        (groupParts inside).mergeSort GroupPart.le := by
      rw [arrangeInside, if_neg hKeep]
      exact groupParts_groupBody (fun p hp => isPart_of_mem_groupParts hp) hNe
    have hOrder : partsInOrder (groupParts (arrangeInside settings inside)) = true := by
      rw [hParts]
      exact partsInOrder_mergeSort _
    generalize hNew : arrangeInside settings inside = new at hOrder
    rw [arrangeInside, if_pos (by simp [keepsInside, hOrder])]

/-! ## The group as a whole -/

theorem bound_natCast {size n : Nat} (h : n ≤ size) : bound size (n : Int) = n := by
  rw [bound, if_neg (by omega), Int.toNat_natCast, Nat.min_eq_left h]

theorem findIdx?_groupOpen {front rest : List Token} {opening : Token}
    (hOpening : opening.kind = .groupOpen) (hFront : ∀ t ∈ front, t.isGroupBrace = false) :
    (front ++ opening :: rest).findIdx? (·.kind == .groupOpen) = some front.length := by
  have hNone : front.findIdx? (·.kind == .groupOpen) = none := by
    rw [List.findIdx?_eq_none_iff]
    intro t ht
    have hBrace := hFront t ht
    simp only [Token.isGroupBrace, Bool.or_eq_false_iff] at hBrace
    exact hBrace.1
  rw [List.findIdx?_append, hNone]
  simp [List.findIdx?_cons, hOpening]

/-- The layout of a group, told by what stands between its braces. -/
theorem sortGroup?_eq (layout : Layout) (front inside back : List Token)
    (opening closing : Token) :
    sortGroup? layout (front ++ opening :: (inside ++ closing :: back)) (front.length : Nat)
        ((front ++ opening :: inside).length : Nat) =
      if inside.any Token.isLineComment || partsInOrder (groupParts inside) then none
      else some (front ++ opening :: (groupBody layout (inside.any (breaksLine layout))
        ((splitAtCommas inside).any fun piece => (GroupPart.ofPiece? piece).isNone)
        (groupParts inside) ++ closing :: back)) := by
  have hShape : front ++ opening :: (inside ++ closing :: back) =
      (front ++ [opening]) ++ inside ++ closing :: back := by simp
  have hStart : (front.length : Int) + 1 = ((front ++ [opening]).length : Nat) := by simp
  have hStop : (front ++ opening :: inside).length =
      (front ++ [opening]).length + inside.length := by
    simp
    omega
  have hSlice : slice ((front ++ [opening]) ++ inside ++ closing :: back)
      ((front ++ [opening]).length : Nat)
      ((front ++ [opening]).length + inside.length : Nat) = inside :=
    slice_append _ _ _
  have hLow : bound ((front ++ [opening]) ++ inside ++ closing :: back).length
      ((front ++ [opening]).length : Nat) = (front ++ [opening]).length :=
    bound_natCast (by simp)
  have hHigh : bound ((front ++ [opening]) ++ inside ++ closing :: back).length
      ((front ++ [opening]).length + inside.length : Nat) =
        ((front ++ [opening]) ++ inside).length := by
    rw [bound_natCast (by simp; omega), ← List.length_append]
  simp only [sortGroup?, hShape, hStart, hStop, hSlice, hLow, hHigh, List.drop_left]
  rw [List.append_assoc (front ++ [opening]) inside, List.take_left]
  simp [groupParts]

/-- Laying out a group only touches what stands between the braces. -/
theorem arrangeGroup_eq (settings : Settings) {front inside back : List Token}
    {opening closing : Token} (hOpening : opening.kind = .groupOpen)
    (hClosing : closing.kind = .groupClose)
    (hBraces : ∀ t ∈ front ++ inside ++ back, t.isGroupBrace = false) :
    arrangeGroup settings (front ++ opening :: (inside ++ closing :: back)) =
      front ++ opening :: (arrangeInside settings inside ++ closing :: back) := by
  have hFront : ∀ t ∈ front, t.isGroupBrace = false := fun t ht => hBraces t (by simp [ht])
  have hBack : ∀ t ∈ back, (t.kind == .groupClose) = false := by
    intro t ht
    have hBrace := hBraces t (by simp [ht])
    simp only [Token.isGroupBrace, Bool.or_eq_false_iff] at hBrace
    exact hBrace.2
  have hClose : lastIndex? (·.kind == .groupClose)
      (front ++ opening :: (inside ++ closing :: back)) =
        some (front ++ opening :: inside).length := by
    have hShape : front ++ opening :: (inside ++ closing :: back) =
        (front ++ opening :: inside) ++ closing :: back := by simp
    rw [hShape]
    exact lastIndex?_append (by simp [hClosing]) hBack
  rw [arrangeGroup, findIdx?_groupOpen hOpening hFront, hClose, arrangeInside, keepsInside]
  simp only [Option.getD_some, sortGroup?_eq, Bool.or_assoc]
  by_cases hUnsorted : (settings.algorithm == .unsorted) = true
  · rw [if_pos hUnsorted, if_pos (by rw [hUnsorted]; rfl)]
  · rw [if_neg hUnsorted]
    simp only [Bool.not_eq_true] at hUnsorted
    rw [hUnsorted, Bool.false_or]
    split <;> rfl

theorem takeWhile_groupOpen {front rest : List Token} {opening : Token}
    (hOpening : opening.kind = .groupOpen) (hFront : ∀ t ∈ front, t.isGroupBrace = false) :
    (front ++ opening :: rest).takeWhile (·.kind != .groupOpen) = front := by
  have hAll : ∀ t ∈ front, (t.kind != .groupOpen) = true := by
    intro t ht
    have hBrace := hFront t ht
    simp only [Token.isGroupBrace, Bool.or_eq_false_iff] at hBrace
    simpa using hBrace.1
  rw [List.takeWhile_append_of_pos hAll, List.takeWhile_cons_of_neg (by simp [hOpening]),
    List.append_nil]

theorem Token.isInner_commaToken : commaToken.isInner = true := by decide

theorem IsFreshSpace.isInner {t : Token} (h : IsFreshSpace t) : t.isInner = true := by
  simp [Token.isInner, Token.isTerminator, Token.isPunct, h.1, h.2]

theorem IsFreshSpace.not_groupBrace {t : Token} (h : IsFreshSpace t) :
    t.isGroupBrace = false := by
  simp [Token.isGroupBrace, h.1]

theorem not_groupBrace_arrangeInside {settings : Settings} {inside : List Token}
    (h : ∀ t ∈ inside, t.isGroupBrace = false) :
    ∀ t ∈ arrangeInside settings inside, t.isGroupBrace = false := by
  intro t ht
  rcases mem_arrangeInside ht with ht | rfl | ht
  · exact h t ht
  · rfl
  · exact ht.not_groupBrace

/-- The layout of a group adds no brace. -/
theorem not_groupBrace_arranged {settings : Settings} {front inside back : List Token}
    (h : ∀ t ∈ front ++ inside ++ back, t.isGroupBrace = false) :
    ∀ t ∈ front ++ arrangeInside settings inside ++ back, t.isGroupBrace = false := by
  simp only [List.forall_mem_append] at h ⊢
  exact ⟨⟨h.1.1, not_groupBrace_arrangeInside h.1.2⟩, h.2⟩

namespace IsGroup

/-- The layout of a group is a group. -/
theorem arranged {ts : List Token} (h : IsGroup ts) (settings : Settings) :
    IsGroup (arrangeGroup settings ts) := by
  obtain ⟨front, opening, inside, closing, back, rfl, hOpening, hClosing, hBraces, hBack⟩ := h
  exact ⟨front, opening, arrangeInside settings inside, closing, back,
    arrangeGroup_eq settings hOpening hClosing hBraces, hOpening, hClosing,
    not_groupBrace_arranged hBraces, hBack⟩

theorem arrangeGroup_idem {ts : List Token} (h : IsGroup ts) (settings : Settings) :
    arrangeGroup settings (arrangeGroup settings ts) = arrangeGroup settings ts := by
  obtain ⟨front, opening, inside, closing, back, rfl, hOpening, hClosing, hBraces, -⟩ := h
  rw [arrangeGroup_eq settings hOpening hClosing hBraces,
    arrangeGroup_eq settings hOpening hClosing (not_groupBrace_arranged hBraces), arrangeInside_idem]

/-- The layout of a group leaves both ends of it alone. -/
theorem isCore_arranged {ts : List Token} (h : IsGroup ts) (hCore : IsCore ts)
    (settings : Settings) : IsCore (arrangeGroup settings ts) := by
  obtain ⟨front, opening, inside, closing, back, rfl, hOpening, hClosing, hBraces, -⟩ := h
  rw [arrangeGroup_eq settings hOpening hClosing hBraces]
  refine ⟨?_, ?_, ?_⟩
  · intro t ht
    simp only [List.mem_append, List.mem_cons] at ht
    rcases ht with ht | rfl | ht | rfl | ht
    · exact hCore.inner t (by simp [ht])
    · exact hCore.inner t (by simp)
    · rcases mem_arrangeInside ht with ht | rfl | ht
      · exact hCore.inner t (by simp [ht])
      · exact Token.isInner_commaToken
      · exact ht.isInner
    · exact hCore.inner t (by simp)
    · exact hCore.inner t (by simp [ht])
  · -- the first token is in front of the braces, or the opening one
    obtain ⟨t, rest, hts, hSpace, hWord⟩ := hCore.first
    cases front with
    | nil =>
      rw [List.nil_append, List.cons.injEq] at hts
      exact ⟨opening, _, rfl, hts.1 ▸ hSpace, hts.1 ▸ hWord⟩
    | cons u front =>
      rw [List.cons_append, List.cons.injEq] at hts
      exact ⟨u, _, rfl, hts.1 ▸ hSpace, hts.1 ▸ hWord⟩
  · -- the last token is behind the braces, or the closing one
    obtain ⟨rest, t, hts, hSpace⟩ := hCore.last
    rcases List.eq_nil_or_concat back with rfl | ⟨back, u, rfl⟩
    · have hShape : front ++ opening :: (inside ++ [closing]) =
          (front ++ opening :: inside) ++ [closing] := by simp
      have hLast : closing = t := by
        rw [hShape] at hts
        simpa using (List.append_inj' hts rfl).2
      exact ⟨front ++ opening :: arrangeInside settings inside, closing, by simp, hLast ▸ hSpace⟩
    · have hShape : front ++ opening :: (inside ++ closing :: back.concat u) =
          (front ++ opening :: (inside ++ closing :: back)) ++ [u] := by simp
      have hLast : u = t := by
        rw [hShape] at hts
        simpa using (List.append_inj' hts rfl).2
      exact ⟨front ++ opening :: (arrangeInside settings inside ++ closing :: back), u, by simp,
        hLast ▸ hSpace⟩

end IsGroup

end UseOrder
