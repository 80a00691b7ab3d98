import Mathlib.Data.List.DropRight
import UseOrder.Proofs.CellReading

/-!
# Segments and qualifiers in a text

The first segment of an import is read off a text: white space is stripped from its ends, a qualifier
word at its front is dropped, and what stands in front of the first separator is the segment. The
text goes on behind the first name of the import, with a comma or a brace (`Behind`). Here it is said
what such a tail does to the result. It is no part of a qualifier, and it leaves the segment as it is
just if the first name has a separator of its own or the tail has none (`segment_append_eq_iff`).
-/

namespace UseOrder

/-! ## White space around a text -/

/-- White space, or nothing at all. -/
def AllWhite (text : Text) : Prop :=
  ∀ c ∈ text, isWhite c = true

theorem AllWhite.not_separator {text : Text} (h : AllWhite text) : '\\' ∉ text := by
  intro hMem
  exact absurd (h _ hMem) (by decide)

theorem dropWhile_white {text : Text} (h : AllWhite text) : text.dropWhile isWhite = [] :=
  List.dropWhile_eq_nil_iff.mpr h

theorem stripEnd_append_stop {c : Char} (hc : isWhite c = false) (a b : Text) :
    Text.stripEnd (a ++ c :: b) = a ++ c :: Text.stripEnd b := by
  simp only [Text.stripEnd, Text.trimEndBy, List.reverse_append, List.reverse_cons, List.append_assoc,
    List.singleton_append, dropWhile_append_stop hc]
  simp

theorem exists_stripEnd (text : Text) : ∃ white, text = Text.stripEnd text ++ white ∧ AllWhite white :=
  ⟨text.rtakeWhile isWhite, List.rdropWhile_append_rtakeWhile.symm, fun _ hc =>
    List.mem_rtakeWhile_imp hc⟩

theorem stripEnd_append_white {white : Text} (h : AllWhite white) (text : Text) :
    Text.stripEnd (text ++ white) = Text.stripEnd text := by
  rw [Text.stripEnd, Text.trimEndBy, List.reverse_append, List.dropWhile_append_of_pos, Text.stripEnd,
    Text.trimEndBy]
  exact fun c hc => h c (List.mem_reverse.mp hc)

theorem strip_white_append {white : Text} (h : AllWhite white) (text : Text) :
    Text.strip (white ++ text) = Text.strip text := by
  rw [Text.strip, Text.trimBy, List.dropWhile_append_of_pos h, Text.strip, Text.trimBy]

theorem strip_append_white {white : Text} (h : AllWhite white) (text : Text) :
    Text.strip (text ++ white) = Text.strip text := by
  rw [Text.strip, Text.trimBy, List.dropWhile_append, Text.strip, Text.trimBy]
  split
  · next hEmpty => rw [dropWhile_white h, List.isEmpty_iff.mp hEmpty]
  · exact stripEnd_append_white h _

/-- Both ends may be stripped in either order. -/
theorem dropWhile_stripEnd (text : Text) :
    (Text.stripEnd text).dropWhile isWhite = Text.strip text := by
  obtain ⟨white, hText, hWhite⟩ := exists_stripEnd text
  conv_rhs => rw [hText, strip_append_white hWhite, Text.strip, Text.trimBy]
  -- nothing is left to strip from the end
  refine (List.rdropWhile_eq_self_iff.mpr fun hNe => ?_).symm
  have hSuffix := List.dropWhile_suffix (l := Text.stripEnd text) isWhite
  have hWhole : Text.stripEnd text ≠ [] := fun hNil => hNe (by rw [hNil]; rfl)
  rw [hSuffix.getLast hNe]
  exact List.rdropWhile_last_not isWhite text hWhole

theorem separator_mem_strip {text : Text} : '\\' ∈ Text.strip text ↔ '\\' ∈ text := by
  obtain ⟨white, hText, hWhite⟩ := exists_stripEnd text
  have hSplit := @List.takeWhile_append_dropWhile _ isWhite (Text.stripEnd text)
  have hFront : AllWhite ((Text.stripEnd text).takeWhile isWhite) := fun c hc => List.mem_takeWhile_imp hc
  rw [dropWhile_stripEnd] at hSplit
  conv_rhs => rw [hText, ← hSplit]
  simp [hWhite.not_separator, hFront.not_separator]

theorem strip_word {word : Text} (hNe : word ≠ []) (hWord : ∀ c ∈ word, isWhite c = false)
    (text : Text) : Text.strip (word ++ text) = word ++ Text.stripEnd text := by
  obtain ⟨c, cs, rfl⟩ := List.exists_cons_of_ne_nil hNe
  obtain ⟨front, last, hLast⟩ := List.eq_nil_or_concat (c :: cs) |>.resolve_left hNe
  rw [List.concat_eq_append] at hLast
  have hSolid : isWhite last = false := hWord last (by rw [hLast]; simp)
  rw [← dropWhile_stripEnd]
  rw [hLast, List.append_assoc, List.singleton_append, stripEnd_append_stop hSolid, List.append_cons,
    ← hLast, List.cons_append, List.dropWhile_cons_of_neg (by simp [hWord c])]

/-! ## Segments of a path -/

/-- The path has a separator besides those it starts with. -/
def hasSeparator (path : Text) : Bool :=
  (path.dropWhile (· == '\\')).contains '\\'

theorem firstSegment_of_not_hasSeparator {path : Text} (h : hasSeparator path = false) :
    firstSegment path = [] := by
  rw [firstSegment]
  exact if_neg (by simpa [hasSeparator] using h)

theorem hasSeparator_of_not_mem {path : Text} (h : '\\' ∉ path) : hasSeparator path = false := by
  rw [hasSeparator, List.contains_eq_mem, decide_eq_false_iff_not]
  exact fun hMem => h ((List.dropWhile_sublist _).subset hMem)

/-- A separator decides on the segment whatever follows. -/
theorem firstSegment_append {path : Text} (h : hasSeparator path = true) (tail : Text) :
    firstSegment (path ++ tail) = firstSegment path := by
  rw [hasSeparator, List.contains_eq_mem, decide_eq_true_eq] at h
  have hNe : path.dropWhile (· == '\\') ≠ [] := List.ne_nil_of_mem h
  have hDrop : (path ++ tail).dropWhile (· == '\\') = path.dropWhile (· == '\\') ++ tail := by
    rw [List.dropWhile_append, if_neg (by simpa using hNe)]
  have hStop : ((path.dropWhile (· == '\\')).takeWhile (· != '\\')).length ≠
      (path.dropWhile (· == '\\')).length := by
    intro hLength
    have hAll := (List.takeWhile_prefix _).eq_of_length hLength
    exact absurd (List.takeWhile_eq_self_iff.mp hAll _ h) (by simp)
  simp only [firstSegment, hDrop, List.takeWhile_append, if_neg hStop]
  rw [if_pos (by simp [h]), if_pos (by simpa using h)]

/-- What may stand behind the first name: nothing, or a comma or a brace behind white space. -/
inductive Behind : Text → Prop
  | nothing : Behind []
  | mark {white rest : Text} {c : Char} (hWhite : AllWhite white) (hMark : c = ',' ∨ c = '{') :
    Behind (white ++ c :: rest)

/-- Stripping a text leaves what stands behind its first name, apart from white space. -/
theorem exists_behind {text later : Text}
    (h : later = [] ∨ ∃ c rest, later = c :: rest ∧ (c = ',' ∨ c = '{')) :
    ∃ tail, Text.strip (text ++ later) = Text.strip text ++ tail ∧ Behind tail ∧
      ('\\' ∈ tail ↔ '\\' ∈ later) := by
  rcases h with rfl | ⟨c, rest, rfl, hMark⟩
  · exact ⟨[], by simp, .nothing, Iff.rfl⟩
  · have hc : isWhite c = false := by rcases hMark with rfl | rfl <;> decide
    obtain ⟨white, hText, hWhite⟩ := exists_stripEnd (text.dropWhile isWhite)
    obtain ⟨white', hRest, hWhite'⟩ := exists_stripEnd rest
    refine ⟨white ++ c :: Text.stripEnd rest, ?_, .mark hWhite hMark, ?_⟩
    · calc Text.strip (text ++ c :: rest)
          = Text.stripEnd (text.dropWhile isWhite ++ c :: rest) := by
            rw [Text.strip, Text.trimBy, dropWhile_append_stop hc, Text.stripEnd]
        _ = text.dropWhile isWhite ++ c :: Text.stripEnd rest := stripEnd_append_stop hc _ _
        _ = Text.strip text ++ (white ++ c :: Text.stripEnd rest) := by
            conv_lhs => rw [hText]
            rw [List.append_assoc]
            rfl
    · conv_rhs => rw [hRest]
      simp [hWhite.not_separator, hWhite'.not_separator]

/-- Behind a path without a separator, the next separator ends the segment, and the mark in front of
it is part of the segment. -/
theorem firstSegment_behind {path tail : Text} (h : hasSeparator path = false) (hTail : Behind tail) :
    firstSegment (path ++ tail) = [] ↔ '\\' ∉ tail := by
  cases hTail with
  | nothing => simp [firstSegment_of_not_hasSeparator h]
  | @mark white rest c hWhite hMark =>
    have hOther : c ≠ '\\' ∧ isWhite c = false := by rcases hMark with rfl | rfl <;> decide
    rw [hasSeparator, List.contains_eq_mem, decide_eq_false_iff_not] at h
    -- what is left of the path holds no separator, so neither does anything up to the mark
    have hFront : ∀ d ∈ path.dropWhile (· == '\\') ++ (white ++ [c]), (d != '\\') = true := by
      intro d hd
      rw [bne_iff_ne]
      rintro rfl
      simp only [List.mem_append, List.mem_singleton] at hd
      rcases hd with hd | hd | hd
      · exact h hd
      · exact hWhite.not_separator hd
      · exact hOther.1 hd.symm
    have hDrop : (path ++ (white ++ c :: rest)).dropWhile (· == '\\') =
        path.dropWhile (· == '\\') ++ (white ++ [c]) ++ rest := by
      cases white with
      | nil => rw [List.nil_append, dropWhile_append_stop (by simpa using hOther.1)]; simp
      | cons d white =>
        have hd : d ≠ '\\' := fun hd => hWhite.not_separator (by simp [hd])
        rw [List.cons_append, dropWhile_append_stop (by simpa using hd)]
        simp
    have hRest : ('\\' ∈ path.dropWhile (· == '\\') ++ (white ++ [c]) ++ rest) ↔ '\\' ∈ rest := by
      rw [List.mem_append, or_iff_right fun hMem => absurd (hFront _ hMem) (by simp)]
    have hTail : '\\' ∈ white ++ c :: rest ↔ '\\' ∈ rest := by
      simp [hWhite.not_separator, Ne.symm hOther.1]
    rw [hTail, firstSegment]
    simp only [hDrop, List.contains_eq_mem, hRest]
    by_cases hMem : '\\' ∈ rest
    · have hSome : Text.strip ((path.dropWhile (· == '\\') ++ (white ++ [c]) ++ rest).takeWhile
          (· != '\\')) ≠ [] := by
        rw [List.takeWhile_append_of_pos hFront, ← dropWhile_stripEnd, ← List.append_assoc,
          List.append_assoc, List.singleton_append, stripEnd_append_stop hOther.2]
        intro hNil
        exact absurd (List.dropWhile_eq_nil_iff.mp hNil c (by simp)) (by simp [hOther.2])
      simpa only [hMem, decide_true, if_true, not_true, iff_false] using hSome
    · simp [hMem]

/-- A path keeps its segment just if it has a separator, or none follows. -/
theorem firstSegment_append_eq_iff {tail : Text} (hTail : Behind tail) (path : Text) :
    firstSegment (path ++ tail) = firstSegment path ↔ hasSeparator path = true ∨ '\\' ∉ tail := by
  cases hPath : hasSeparator path with
  | true => simp [firstSegment_append hPath]
  | false =>
    rw [firstSegment_of_not_hasSeparator hPath, firstSegment_behind hPath hTail]
    simp

/-! ## Qualifiers in a text -/

/-- What follows a qualifier word that the text begins with. -/
def afterQualifier? (text : Text) : Option Text :=
  (afterWord? "const".toList text).orElse fun _ => afterWord? "function".toList text

/-- The text begins with a qualifier word and white space. -/
def namesQualifier (text : Text) : Bool :=
  (afterQualifier? text).any fun rest => rest.head?.any isWhite

theorem dropQualifier_eq (text : Text) : dropQualifier text =
    match afterQualifier? text with
    | some rest => if rest.head?.any isWhite then rest.dropWhile isWhite else text
    | none => text :=
  rfl

/-- No letter of a qualifier is white space or a mark. -/
theorem not_letter_of_behind {c letter : Char} (hc : isWhite c = true ∨ c = ',' ∨ c = '{')
    (hLetter : letter ∈ "const".toList ++ "function".toList) : isLetterOf letter c = false := by
  have hCodes : ∀ n ∈ 44 :: 123 :: whiteCodes, ("const".toList ++ "function".toList).all
      (fun l => !isLetterOf l (Char.ofNat n)) = true := by decide +kernel
  have hCode : c.toNat ∈ 44 :: 123 :: whiteCodes := by
    rcases hc with hWhite | rfl | rfl
    · simp [mem_whiteCodes hWhite]
    · decide
    · decide
  have hNot := List.all_eq_true.mp (hCodes c.toNat hCode) letter hLetter
  rw [Char.ofNat_toNat] at hNot
  simpa using hNot

theorem Behind.head {tail : Text} (h : Behind tail) :
    ∀ c ∈ tail.head?, isWhite c = true ∨ c = ',' ∨ c = '{' := by
  intro d hd
  cases h with
  | nothing => simp at hd
  | @mark white rest c hWhite hMark =>
    cases white with
    | nil =>
      obtain rfl : c = d := by simpa using hd
      exact .inr hMark
    | cons e white =>
      obtain rfl : e = d := by simpa using hd
      exact .inl (hWhite e List.mem_cons_self)

theorem afterWord?_append {word tail : Text}
    (hTail : ∀ c ∈ tail.head?, ∀ letter ∈ word, isLetterOf letter c = false) (text : Text) :
    afterWord? word (text ++ tail) = (afterWord? word text).map (· ++ tail) := by
  induction word generalizing text with
  | nil => simp [afterWord?]
  | cons w word ih =>
    cases text with
    | nil =>
      cases tail with
      | nil => simp [afterWord?]
      | cons c tail => simp [afterWord?, hTail c rfl w List.mem_cons_self]
    | cons c text =>
      have hRest := ih (fun d hd letter hLetter => hTail d hd letter (List.mem_cons_of_mem _ hLetter))
      simp only [List.cons_append, afterWord?, hRest]
      split <;> rfl

/-- What stands behind the first name does not make a qualifier of it. -/
theorem Behind.afterQualifier? {tail : Text} (h : Behind tail) (text : Text) :
    afterQualifier? (text ++ tail) = (afterQualifier? text).map (· ++ tail) := by
  have hConst := @afterWord?_append "const".toList tail (fun c hc letter hLetter =>
    not_letter_of_behind (h.head c hc) (List.mem_append_left _ hLetter)) text
  have hFunction := @afterWord?_append "function".toList tail (fun c hc letter hLetter =>
    not_letter_of_behind (h.head c hc) (List.mem_append_right _ hLetter)) text
  rw [UseOrder.afterQualifier?, UseOrder.afterQualifier?, hConst, hFunction]
  cases afterWord? "const".toList text <;> rfl

theorem dropQualifier_of_not_names {text : Text} (h : namesQualifier text = false) :
    dropQualifier text = text := by
  rw [dropQualifier_eq]
  rw [namesQualifier] at h
  cases hRest : afterQualifier? text with
  | none => rfl
  | some rest =>
    rw [hRest, Option.any_some] at h
    simp [h]

theorem Behind.dropWhile {tail : Text} (h : Behind tail) :
    Behind (tail.dropWhile isWhite) ∧ ('\\' ∈ tail.dropWhile isWhite ↔ '\\' ∈ tail) := by
  cases h with
  | nothing => exact ⟨.nothing, Iff.rfl⟩
  | @mark white rest c hWhite hMark =>
    have hc : isWhite c = false := by rcases hMark with rfl | rfl <;> decide
    have hDrop : (white ++ c :: rest).dropWhile isWhite = c :: rest := by
      rw [List.dropWhile_append_of_pos hWhite, List.dropWhile_cons_of_neg (by simp [hc])]
    rw [hDrop]
    exact ⟨@Behind.mark [] rest c (by simp [AllWhite]) hMark, by simp [hWhite.not_separator]⟩

theorem exists_of_afterWord? {word text rest : Text} (h : afterWord? word text = some rest) :
    ∃ front, text = front ++ rest ∧ ∀ c ∈ front, ∃ letter ∈ word, isLetterOf letter c = true := by
  induction word generalizing text with
  | nil => exact ⟨[], by simpa [afterWord?] using h, by simp⟩
  | cons w word ih =>
    cases text with
    | nil => simp [afterWord?] at h
    | cons c text =>
      rw [afterWord?] at h
      split at h
      · next hLetter =>
        obtain ⟨front, rfl, hFront⟩ := ih h
        refine ⟨c :: front, rfl, List.forall_mem_cons.mpr ⟨⟨w, by simp, hLetter⟩, fun d hd => ?_⟩⟩
        obtain ⟨letter, hMem, hd⟩ := hFront d hd
        exact ⟨letter, List.mem_cons_of_mem _ hMem, hd⟩
      · cases h

/-- A qualifier word holds no separator. -/
theorem exists_of_afterQualifier? {text rest : Text} (h : afterQualifier? text = some rest) :
    ∃ word, text = word ++ rest ∧ '\\' ∉ word := by
  obtain ⟨word, hWord, hText⟩ : ∃ word, (word = "const".toList ∨ word = "function".toList) ∧
      afterWord? word text = some rest := by
    rw [afterQualifier?] at h
    cases hConst : afterWord? "const".toList text with
    | none =>
      rw [hConst] at h
      exact ⟨_, .inr rfl, h⟩
    | some other =>
      rw [hConst] at h
      exact ⟨_, .inl rfl, hConst.trans h⟩
  obtain ⟨front, hSplit, hFront⟩ := exists_of_afterWord? hText
  refine ⟨front, hSplit, fun hMem => ?_⟩
  obtain ⟨letter, hLetter, hMatch⟩ := hFront _ hMem
  have hNone : ("const".toList ++ "function".toList).all (fun l => !isLetterOf l '\\') = true := by
    decide +kernel
  have hBoth : letter ∈ "const".toList ++ "function".toList := by
    rcases hWord with rfl | rfl
    · exact List.mem_append_left _ hLetter
    · exact List.mem_append_right _ hLetter
  have hNot := List.all_eq_true.mp hNone letter hBoth
  rw [hMatch] at hNot
  cases hNot

theorem mem_of_mem_dropQualifier {c : Char} {text : Text} (h : c ∈ dropQualifier text) : c ∈ text := by
  rw [dropQualifier_eq] at h
  cases hRest : afterQualifier? text with
  | none => rwa [hRest] at h
  | some rest =>
    obtain ⟨word, hText, -⟩ := exists_of_afterQualifier? hRest
    simp only [hRest] at h
    split at h
    · rw [hText]
      exact List.mem_append_right _ ((List.dropWhile_sublist _).subset h)
    · exact h

/-- The qualifier is dropped with what stands behind the first name as without it, unless the first
name is nothing but a qualifier word. -/
theorem dropQualifier_append {text tail : Text} (hEnd : Text.stripEnd text = text)
    (hTail : Behind tail) :
    dropQualifier (text ++ tail) = dropQualifier text ++ tail ∨
      '\\' ∉ text ∧ dropQualifier text = text ∧
        dropQualifier (text ++ tail) = tail.dropWhile isWhite := by
  rw [dropQualifier_eq, dropQualifier_eq, hTail.afterQualifier?]
  cases hRest : afterQualifier? text with
  | none => exact .inl rfl
  | some rest =>
    obtain ⟨word, hText, hWord⟩ := exists_of_afterQualifier? hRest
    cases rest with
    | nil =>
      rw [List.append_nil] at hText
      simp only [Option.map_some, List.nil_append, List.head?_nil, Option.any_none]
      split
      · exact .inr ⟨hText ▸ hWord, rfl, rfl⟩
      · exact .inl rfl
    | cons c rest =>
      left
      simp only [Option.map_some]
      by_cases hc : isWhite c = true
      · -- the text does not end with white space, so not all of the rest is dropped
        have hSome : (c :: rest).dropWhile isWhite ≠ [] := by
          intro hNil
          rw [hText, stripEnd_append_white (List.dropWhile_eq_nil_iff.mp hNil)] at hEnd
          have hShort : (Text.stripEnd word).length ≤ word.length :=
            (List.rdropWhile_prefix isWhite word).length_le
          rw [hEnd, List.length_append, List.length_cons] at hShort
          omega
        rw [if_pos (by simpa using hc), if_pos (by simpa using hc), List.dropWhile_append,
          if_neg (by simpa using hSome)]
      · rw [if_neg (by simpa using hc), if_neg (by simpa using hc)]

/-- The segment of a text is that of its beginning just if this has a separator behind the qualifier,
or no separator follows. -/
theorem segment_append_eq_iff {text tail : Text} (hEnd : Text.stripEnd text = text)
    (hTail : Behind tail) :
    firstSegment (dropQualifier (text ++ tail)) = firstSegment (dropQualifier text) ↔
      hasSeparator (dropQualifier text) = true ∨ '\\' ∉ tail := by
  rcases dropQualifier_append hEnd hTail with hDrop | ⟨hText, hSame, hDrop⟩
  · rw [hDrop]
    exact firstSegment_append_eq_iff hTail _
  · have hNone := hasSeparator_of_not_mem hText
    obtain ⟨hBehind, hSeparator⟩ := hTail.dropWhile
    have hSegment := @firstSegment_behind [] _ rfl hBehind
    rw [List.nil_append, hSeparator] at hSegment
    rw [hDrop, hSame, firstSegment_of_not_hasSeparator hNone, hSegment, hNone]
    simp

/-- A word of small letters is matched by every text that has it in lower case. -/
theorem afterWord?_of_lowerAfter {word content before : Text} (h : lowerAfter before content = word)
    (hPlain : 'σ' ∉ word ∧ 'ς' ∉ word ∧ Char.ofNat 0x307 ∉ word) (rest : Text) :
    afterWord? word (content ++ rest) = some rest := by
  induction content generalizing word before with
  | nil =>
    subst h
    rfl
  | cons c content ih =>
    subst h
    rw [lowerAfter] at hPlain ⊢
    -- the two letters whose small form depends on more than themselves are ruled out
    have hSigma : (c == 'Σ') = false := by
      by_contra hc
      rw [if_pos (by simpa using hc)] at hPlain
      split at hPlain
      · exact hPlain.2.1 (by simp)
      · exact hPlain.1 (by simp)
    rw [hSigma, if_neg (by simp)] at hPlain ⊢
    have hDotted : (c == 'İ') = false := by
      by_contra hc
      rw [if_pos (by simpa using hc)] at hPlain
      exact hPlain.2.2 (by simp)
    rw [hDotted, if_neg (by simp)] at hPlain ⊢
    have hLetter : isLetterOf (lowerChar c) c = true := by
      simp [isLetterOf, lower, lowerAfter, hSigma, hDotted]
    rw [List.singleton_append, List.cons_append, afterWord?, if_pos hLetter]
    simp only [List.singleton_append, List.mem_cons, not_or] at hPlain
    exact ih rfl ⟨hPlain.1.2, hPlain.2.1.2, hPlain.2.2.2⟩

theorem afterQualifier?_of_lower {content : Text}
    (h : lower content = "const".toList ∨ lower content = "function".toList) (rest : Text) :
    afterQualifier? (content ++ rest) = some rest := by
  rw [afterQualifier?]
  rcases h with h | h
  · rw [afterWord?_of_lowerAfter h (by decide)]
    rfl
  · have hWord := afterWord?_of_lowerAfter h (by decide) rest
    have hOther : afterWord? "const".toList (content ++ rest) = none := by
      cases content with
      | nil => simp [lower, lowerAfter] at h
      | cons c content =>
        have hFirst : isLetterOf 'f' c = true := by
          by_contra hNot
          have hNone : afterWord? ('f' :: "unction".toList) (c :: (content ++ rest)) = none := by
            rw [afterWord?, if_neg hNot]
          exact absurd (hNone.symm.trans hWord) (by simp)
        have hLower : lower [c] = ['f'] := by simpa [isLetterOf] using hFirst
        have hNot : isLetterOf 'c' c = false := by simp [isLetterOf, hLower]
        show afterWord? ('c' :: "onst".toList) (c :: (content ++ rest)) = none
        rw [afterWord?, hNot]
        rfl
    rw [hOther, hWord]
    rfl

end UseOrder
