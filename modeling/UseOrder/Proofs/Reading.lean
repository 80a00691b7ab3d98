import Mathlib.Data.List.TakeWhile
import UseOrder.Import.Group
import UseOrder.Token.Lexer

/-!
# What a token needs behind it

Which characters belong to a token is decided by those behind it as well: a word goes on as long as
word characters follow, a line comment runs up to the end of the line. `Lexical t` says that the
content of `t` is that of one token, and `stops t after` what has to follow it. Together they are
what the lexer asks for: `reads_of_stops` reads such a token back whatever else comes, and
`lexical_of_reads` gives both for every token that was read. Left out are quotes and heredocs that
are opened and never closed, since these look at the whole text behind them.
-/

namespace UseOrder

/-! ## Counting up to the end of a content -/

theorem length_takeWhile_append {p : Char → Bool} {cs after : Text}
    (h : ((cs ++ after).takeWhile p).length = cs.length) :
    (∀ c ∈ cs, p c = true) ∧ after.head?.any p = false := by
  induction cs with
  | nil =>
    refine ⟨by simp, ?_⟩
    cases after with
    | nil => rfl
    | cons c after =>
      cases hc : p c with
      | false => simp [hc]
      | true => simp [hc] at h
  | cons c cs ih =>
    cases hc : p c with
    | false => simp [hc] at h
    | true =>
      obtain ⟨hAll, hAfter⟩ := ih (by simpa [hc] using h)
      exact ⟨by simpa [hc] using hAll, hAfter⟩

theorem takeWhile_append_of_stop {p : Char → Bool} {cs after : Text} (hAll : ∀ c ∈ cs, p c = true)
    (hAfter : after.head?.any p = false) : (cs ++ after).takeWhile p = cs := by
  rw [List.takeWhile_append_of_pos hAll]
  cases after with
  | nil => simp
  | cons c after => simp [show p c = false by simpa using hAfter]

theorem dropWhile_append_of_stop {p : Char → Bool} {cs after : Text} (hAll : ∀ c ∈ cs, p c = true)
    (hAfter : after.head?.any p = false) : (cs ++ after).dropWhile p = after := by
  have hSplit := List.takeWhile_append_dropWhile (p := p) (l := cs ++ after)
  rw [takeWhile_append_of_stop hAll hAfter] at hSplit
  exact List.append_cancel_left hSplit

theorem lineCommentLength_cons (c : Char) (rest : Text) :
    lineCommentLength (c :: rest) =
      if (c == '?' && rest.head? == some '>') || c == '\r' || c == '\n' then 0
      else lineCommentLength rest + 1 := by
  by_cases hClose : c = '?' ∧ rest.head? = some '>'
  · obtain ⟨rfl, hHead⟩ := hClose
    obtain ⟨tail, rfl⟩ := List.head?_eq_some_iff.mp hHead
    simp [lineCommentLength]
  · rw [lineCommentLength.eq_3 c rest fun tail hc hRest => hClose ⟨hc, by simp [hRest]⟩]
    have hTest : (c == '?' && rest.head? == some '>') = false := by
      simpa using hClose
    rw [hTest, Bool.false_or]

theorem blockCommentLength_cons (c : Char) (rest : Text) :
    blockCommentLength (c :: rest) =
      if c == '*' && rest.head? == some '/' then 2 else blockCommentLength rest + 1 := by
  by_cases hEnd : c = '*' ∧ rest.head? = some '/'
  · obtain ⟨rfl, hHead⟩ := hEnd
    obtain ⟨tail, rfl⟩ := List.head?_eq_some_iff.mp hHead
    simp [blockCommentLength]
  · rw [blockCommentLength.eq_3 c rest fun tail hc hRest => hEnd ⟨hc, by simp [hRest]⟩, if_neg]
    simpa using hEnd

/-- A line comment goes on to its end whatever ends the line. -/
theorem lineCommentLength_append {cs after : Text}
    (h : lineCommentLength (cs ++ after) = cs.length) :
    lineCommentLength after = 0 ∧
      ∀ later, lineCommentLength later = 0 → lineCommentLength (cs ++ later) = cs.length := by
  induction cs with
  | nil => exact ⟨h, fun later hLater => hLater⟩
  | cons c cs ih =>
    rw [List.cons_append, lineCommentLength_cons, List.length_cons] at h
    split at h
    · exact absurd h (by omega)
    · next hGo =>
      obtain ⟨hAfter, hAny⟩ := ih (by omega)
      refine ⟨hAfter, fun later hLater => ?_⟩
      rw [List.cons_append, lineCommentLength_cons, if_neg, hAny later hLater, List.length_cons]
      cases cs with
      | cons d cs => simpa using hGo
      | nil =>
        -- what ends a line does not begin with the second character of a close tag
        have hNot : later.head? ≠ some '>' := by
          intro hHead
          obtain ⟨rest, rfl⟩ := List.head?_eq_some_iff.mp hHead
          simp [lineCommentLength_cons] at hLater
        simp only [List.nil_append, Bool.or_eq_true, Bool.and_eq_true, beq_iff_eq, not_or] at hGo ⊢
        exact ⟨⟨fun hBoth => hNot hBoth.2, hGo.1.2⟩, hGo.2⟩

/-- A block comment with something behind it is closed, and ends there whatever follows. -/
theorem blockCommentLength_append {cs after : Text} (hAfter : after ≠ [])
    (h : blockCommentLength (cs ++ after) = cs.length) :
    2 ≤ cs.length ∧ ∀ later, blockCommentLength (cs ++ later) = cs.length := by
  induction cs with
  | nil =>
    obtain ⟨c, rest, rfl⟩ := List.exists_cons_of_ne_nil hAfter
    rw [List.nil_append, blockCommentLength_cons, List.length_nil] at h
    split at h <;> omega
  | cons c cs ih =>
    rw [List.cons_append, blockCommentLength_cons, List.length_cons] at h
    split at h
    · next hEnd =>
      obtain ⟨d, rfl⟩ := List.length_eq_one_iff.mp (show cs.length = 1 by omega)
      refine ⟨by simp, fun later => ?_⟩
      rw [List.cons_append, blockCommentLength_cons, if_pos (by simpa using hEnd)]
      rfl
    · next hGo =>
      obtain ⟨hTwo, hAny⟩ := ih (by omega)
      refine ⟨by rw [List.length_cons]; omega, fun later => ?_⟩
      obtain ⟨d, cs, rfl⟩ := List.exists_cons_of_length_pos (show 0 < cs.length by omega)
      rw [List.cons_append, blockCommentLength_cons, if_neg (by simpa using hGo), hAny later]
      rfl

theorem quotedLength?_escape (quote d : Char) (rest : Text) :
    quotedLength? quote ('\\' :: d :: rest) = (quotedLength? quote rest).map (· + 2) :=
  quotedLength?.eq_2 quote d rest

theorem quotedLength?_plain {quote c : Char} (hc : c ≠ '\\') (rest : Text) :
    quotedLength? quote (c :: rest) =
      if c == quote then some 1 else (quotedLength? quote rest).map (· + 1) :=
  quotedLength?.eq_3 quote c rest fun _ _ h _ => hc h

theorem quotedLength?_pos {quote : Char} {text : Text} {n : Nat}
    (h : quotedLength? quote text = some n) : 0 < n := by
  unfold quotedLength? at h
  split at h
  · cases h
  · obtain ⟨m, -, rfl⟩ := Option.map_eq_some_iff.mp h
    omega
  · split at h
    · obtain rfl := Option.some.inj h
      omega
    · obtain ⟨m, -, rfl⟩ := Option.map_eq_some_iff.mp h
      omega

/-- A string ends at its closing quote whatever follows. -/
theorem quotedLength?_append {quote : Char} (hQuote : quote ≠ '\\') :
    ∀ {cs after : Text}, quotedLength? quote (cs ++ after) = some cs.length →
      ∀ later, quotedLength? quote (cs ++ later) = some cs.length
  | [], after, h, later => absurd (quotedLength?_pos h) (by simp)
  | c :: cs, after, h, later => by
    by_cases hc : c = '\\'
    · -- an escaped character is in `cs` as well: it does not end the string
      subst hc
      cases cs with
      | nil =>
        cases after with
        | nil =>
          have hNone : quotedLength? quote ['\\'] = none := by
            simp [quotedLength?, hQuote.symm]
          rw [List.append_nil, hNone] at h
          cases h
        | cons d after =>
          obtain ⟨m, -, hm⟩ := Option.map_eq_some_iff.mp ((quotedLength?_escape _ _ _).symm.trans h)
          simp at hm
      | cons d cs =>
        rw [List.cons_append, List.cons_append, quotedLength?_escape] at h ⊢
        obtain ⟨m, hm, hLength⟩ := Option.map_eq_some_iff.mp h
        obtain rfl : m = cs.length := by simpa using hLength
        rw [quotedLength?_append hQuote hm later]
        rfl
    · rw [List.cons_append, quotedLength?_plain hc] at h ⊢
      split at h
      · next hEnd => rw [if_pos hEnd, h]
      · next hEnd =>
        obtain ⟨m, hm, hLength⟩ := Option.map_eq_some_iff.mp h
        obtain rfl : m = cs.length := by simpa using hLength
        rw [if_neg hEnd, quotedLength?_append hQuote hm later]
        rfl

/-! ## Heredocs -/

theorem takeWhile_append_stop {p : Char → Bool} {d : Char} (hd : p d = false) (line after : Text) :
    (line ++ d :: after).takeWhile p = line.takeWhile p := by
  induction line with
  | nil => simp [hd]
  | cons c line ih => cases hc : p c <;> simp [hc, ih]

theorem dropWhile_append_stop {p : Char → Bool} {d : Char} (hd : p d = false) (line after : Text) :
    (line ++ d :: after).dropWhile p = line.dropWhile p ++ d :: after := by
  induction line with
  | nil => simp [hd]
  | cons c line ih => cases hc : p c <;> simp [hc, ih]

theorem isPrefixOf_append_stop {label : Text} {d : Char} (hd : d ∉ label) (line after : Text) :
    label.isPrefixOf (line ++ d :: after) = label.isPrefixOf line := by
  induction label generalizing line with
  | nil => simp
  | cons c label ih =>
    have hc : (c == d) = false := by
      have hNe : c ≠ d := fun h => hd (by simp [h])
      simpa using hNe
    cases line with
    | nil => simp [List.isPrefixOf, hc]
    | cons e line => simp [List.isPrefixOf, ih fun h => hd (List.mem_cons_of_mem _ h)]

/-- Whether a line ends a heredoc is told by that line alone. -/
theorem heredocEnd?_line {label : Text} (hLabel : ∀ c ∈ label, isWord c = true) (line after : Text) :
    heredocEnd? label (line ++ '\n' :: after) = heredocEnd? label line := by
  have hBreak : '\n' ∉ label := fun h => absurd (hLabel _ h) (by decide)
  have hIndent : isIndent '\n' = false := by decide
  simp only [heredocEnd?, takeWhile_append_stop hIndent, dropWhile_append_stop hIndent,
    isPrefixOf_append_stop hBreak]
  cases hPrefix : label.isPrefixOf (line.dropWhile isIndent) with
  | false => simp
  | true =>
    obtain ⟨rest, hRest⟩ := List.isPrefixOf_iff_prefix.mp hPrefix
    rw [← hRest]
    cases rest with
    | nil =>
      have hWord : isWord '\n' = false := by decide
      simp [hWord]
    | cons d rest => simp

/-- A closing label with its indentation. -/
theorem heredocEnd?_append {label : Text} (hStart : label.head?.any isNameStart = true)
    {cs after : Text} (h : heredocEnd? label (cs ++ after) = some cs.length) :
    after.head?.any isWord = false ∧ ∀ later, later.head?.any isWord = false →
      heredocEnd? label (cs ++ later) = some cs.length := by
  have hSplit := List.takeWhile_append_dropWhile (p := isIndent) (l := cs ++ after)
  simp only [heredocEnd?] at h
  split at h
  · next hTest =>
    simp only [Bool.and_eq_true, Bool.not_eq_true', List.isPrefixOf_iff_prefix] at hTest
    obtain ⟨⟨rest, hRest⟩, hNext⟩ := hTest
    have hIndent : ∀ c ∈ (cs ++ after).takeWhile isIndent, isIndent c = true :=
      fun c hc => List.mem_takeWhile_imp hc
    generalize (cs ++ after).takeWhile isIndent = indent at h hSplit hIndent
    rw [← hRest, List.drop_left] at hNext
    rw [← hRest, ← List.append_assoc] at hSplit
    obtain ⟨rfl, rfl⟩ := List.append_inj hSplit (by rw [List.length_append]; exact Option.some.inj h)
    refine ⟨hNext, fun later hLater => ?_⟩
    -- the label begins with no blank, so the indentation ends where it did
    have hFirst : (label ++ later).head?.any isIndent = false := by
      cases label with
      | nil => simp at hStart
      | cons c label =>
        have hc : isNameStart c = true := by simpa using hStart
        have hSpace : c ≠ ' ' := fun hEq => by
          rw [hEq] at hc
          exact absurd hc (by decide)
        have hTab : c ≠ '\t' := fun hEq => by
          rw [hEq] at hc
          exact absurd hc (by decide)
        simp [isIndent, hSpace, hTab]
    have hTake := takeWhile_append_of_stop hIndent hFirst
    have hDrop := dropWhile_append_of_stop hIndent hFirst
    have hPrefix : label.isPrefixOf (label ++ later) = true :=
      List.isPrefixOf_iff_prefix.mpr (List.prefix_append _ _)
    simp only [heredocEnd?, List.append_assoc, hTake, hDrop, hPrefix, List.drop_left, hLater,
      Bool.not_false, Bool.and_true, if_true, List.length_append]
  · cases h

theorem heredocBodyLength?_cons {label : Text} {atStart : Bool} {c : Char} {rest : Text}
    (h : (if atStart then heredocEnd? label (c :: rest) else none) = none) :
    heredocBodyLength? label atStart (c :: rest) =
      (heredocBodyLength? label (c == '\n') rest).map (· + 1) := by
  rw [heredocBodyLength?.eq_def, h]

theorem heredocBodyLength?_of_end {label : Text} {atStart : Bool} {text : Text} {n : Nat}
    (h : (if atStart then heredocEnd? label text else none) = some n) :
    heredocBodyLength? label atStart text = some n := by
  rw [heredocBodyLength?.eq_def, h]

/-- The closing label begins a line. -/
theorem lineBreak_mem_of_heredocBodyLength? {label : Text} {cs after : Text}
    (h : heredocBodyLength? label false (cs ++ after) = some cs.length) : '\n' ∈ cs := by
  induction cs with
  | nil =>
    cases after with
    | nil =>
      rw [heredocBodyLength?.eq_def] at h
      simp at h
    | cons c after =>
      rw [List.nil_append, heredocBodyLength?_cons (by simp)] at h
      simp at h
  | cons c cs ih =>
    by_cases hc : c = '\n'
    · simp [hc]
    · rw [List.cons_append, heredocBodyLength?_cons (by simp), beq_false_of_ne hc] at h
      exact List.mem_cons_of_mem _ (ih (by simpa using h))

/-- A body that is ended right where the search begins. -/
theorem heredocBodyLength?_append_of_end {label : Text}
    (hStart : label.head?.any isNameStart = true) {atStart : Bool} {cs after : Text} {n : Nat}
    (hEnd : (if atStart then heredocEnd? label (cs ++ after) else none) = some n)
    (h : heredocBodyLength? label atStart (cs ++ after) = some cs.length) :
    after.head?.any isWord = false ∧ ∀ later, later.head?.any isWord = false →
      heredocBodyLength? label atStart (cs ++ later) = some cs.length := by
  rw [heredocBodyLength?_of_end hEnd] at h
  obtain rfl := Option.some.inj h
  cases atStart with
  | false => simp at hEnd
  | true =>
    rw [if_pos rfl] at hEnd
    obtain ⟨hAfter, hAny⟩ := heredocEnd?_append hStart hEnd
    exact ⟨hAfter, fun later hLater =>
      heredocBodyLength?_of_end (by rw [if_pos rfl]; exact hAny later hLater)⟩

/-- The body of a heredoc ends with its label whatever follows that is no word character. -/
theorem heredocBodyLength?_append {label : Text} (hLabel : ∀ c ∈ label, isWord c = true)
    (hStart : label.head?.any isNameStart = true) {atStart : Bool} {cs after : Text}
    (h : heredocBodyLength? label atStart (cs ++ after) = some cs.length) :
    after.head?.any isWord = false ∧ ∀ later, later.head?.any isWord = false →
      heredocBodyLength? label atStart (cs ++ later) = some cs.length := by
  induction cs generalizing atStart with
  | nil =>
    cases hEnd : if atStart then heredocEnd? label ([] ++ after) else none with
    | some n => exact heredocBodyLength?_append_of_end hStart hEnd h
    | none =>
      cases after with
      | nil =>
        rw [heredocBodyLength?.eq_def, hEnd] at h
        cases h
      | cons c after =>
        rw [List.nil_append] at h hEnd
        rw [heredocBodyLength?_cons hEnd] at h
        simp at h
  | cons c cs ih =>
    cases hEnd : if atStart then heredocEnd? label (c :: cs ++ after) else none with
    | some n => exact heredocBodyLength?_append_of_end hStart hEnd h
    | none =>
      rw [List.cons_append] at h hEnd
      rw [heredocBodyLength?_cons hEnd] at h
      have hRest : heredocBodyLength? label (c == '\n') (cs ++ after) = some cs.length := by
        simpa using h
      obtain ⟨hAfter, hAny⟩ := ih hRest
      refine ⟨hAfter, fun later hLater => ?_⟩
      -- the label comes in a later line, so this line is looked at in the same way
      have hBreak : '\n' ∈ c :: cs := by
        by_cases hc : c = '\n'
        · simp [hc]
        · rw [beq_false_of_ne hc] at hRest
          exact List.mem_cons_of_mem _ (lineBreak_mem_of_heredocBodyLength? hRest)
      obtain ⟨line, more, hSplit⟩ := List.append_of_mem hBreak
      have hStill : (if atStart then heredocEnd? label (c :: (cs ++ later)) else none) = none := by
        have hShape : ∀ text : Text, c :: (cs ++ text) = line ++ '\n' :: (more ++ text) := by
          intro text
          rw [← List.cons_append, hSplit]
          simp
        rw [hShape, heredocEnd?_line hLabel] at hEnd
        rw [hShape, heredocEnd?_line hLabel]
        exact hEnd
      rw [List.cons_append, heredocBodyLength?_cons hStill, hAny later hLater]
      rfl

/-- The parts of a heredoc before its body: indentation, the quote if there is one, the label, and
the line break. -/
structure HeredocHead (indent quote label lineBreak : Text) : Prop where
  blank : ∀ c ∈ indent, isIndent c = true
  quoted : quote = [] ∨ quote = ['"'] ∨ quote = ['\'']
  words : ∀ c ∈ label, isWord c = true
  start : label.head?.any isNameStart = true
  ends : lineBreak = ['\n'] ∨ lineBreak = ['\r', '\n']

theorem HeredocHead.not_nameStart {indent quote label lineBreak : Text}
    (h : HeredocHead indent quote label lineBreak) {p : Char → Bool}
    (hp : ∀ c, isNameStart c = true → p c = false) (rest : Text) :
    (label ++ rest).head?.any p = false := by
  have hStart := h.start
  cases label with
  | nil => simp at hStart
  | cons c label => simpa using hp c (by simpa using hStart)

theorem isIndent_of_nameStart {c : Char} (h : isNameStart c = true) : isIndent c = false := by
  have hSpace : c ≠ ' ' := fun hEq => absurd (hEq ▸ h) (by decide)
  have hTab : c ≠ '\t' := fun hEq => absurd (hEq ▸ h) (by decide)
  simp [isIndent, hSpace, hTab]

theorem not_quote_of_nameStart {c : Char} (h : isNameStart c = true) :
    (c == '"' || c == '\'') = false := by
  have hDouble : c ≠ '"' := fun hEq => absurd (hEq ▸ h) (by decide)
  have hSingle : c ≠ '\'' := fun hEq => absurd (hEq ▸ h) (by decide)
  simp [hDouble, hSingle]

theorem HeredocHead.heredocLength? {indent quote label lineBreak : Text}
    (h : HeredocHead indent quote label lineBreak) (rest : Text) :
    heredocLength? (indent ++ (quote ++ (label ++ (quote ++ (lineBreak ++ rest))))) =
      (heredocBodyLength? label true rest).map fun body =>
        indent.length + 2 * quote.length + label.length + lineBreak.length + body := by
  have hLabelIndent := h.not_nameStart (fun _ => isIndent_of_nameStart) (quote ++ (lineBreak ++ rest))
  have hLabelQuote := h.not_nameStart (fun _ => not_quote_of_nameStart) (quote ++ (lineBreak ++ rest))
  -- each part ends where it did, since the next one begins with a character of another class
  have hIndent : (quote ++ (label ++ (quote ++ (lineBreak ++ rest)))).head?.any isIndent = false := by
    rcases h.quoted with rfl | rfl | rfl
    · exact hLabelIndent
    · rfl
    · rfl
  have hQuote : ((quote ++ (label ++ (quote ++ (lineBreak ++ rest)))).takeWhile fun c =>
      c == '"' || c == '\'').take 1 = quote := by
    rcases h.quoted with rfl | rfl | rfl
    · rw [List.nil_append, ← List.nil_append (label ++ _), takeWhile_append_of_stop (by simp) hLabelQuote]
      rfl
    · rw [takeWhile_append_of_stop (by simp) hLabelQuote]
      rfl
    · rw [takeWhile_append_of_stop (by simp) hLabelQuote]
      rfl
  have hWord : (quote ++ (lineBreak ++ rest)).head?.any isWord = false := by
    rcases h.quoted with rfl | rfl | rfl <;> rcases h.ends with rfl | rfl <;>
      simp only [List.nil_append, List.cons_append, List.head?_cons, Option.any_some] <;> decide
  have hBreak : heredocBreak? (lineBreak ++ rest) = some lineBreak.length := by
    rcases h.ends with rfl | rfl <;> rfl
  have hPrefix : quote.isPrefixOf (quote ++ (lineBreak ++ rest)) = true :=
    List.isPrefixOf_iff_prefix.mpr (List.prefix_append _ _)
  simp only [UseOrder.heredocLength?, takeWhile_append_of_stop h.blank hIndent,
    dropWhile_append_of_stop h.blank hIndent, hQuote, List.drop_left,
    takeWhile_append_of_stop h.words hWord, dropWhile_append_of_stop h.words hWord, h.start, hPrefix,
    Bool.and_true, if_true, hBreak, Option.bind_some]

/-- A quotation mark in front of a label is one mark, or there is none. -/
theorem exists_openingQuote (opening : Text) :
    ∃ quote labelled, (opening.takeWhile fun c => c == '"' || c == '\'').take 1 = quote ∧
      opening = quote ++ labelled ∧ (quote = [] ∨ quote = ['"'] ∨ quote = ['\'']) := by
  have hPrefix : (opening.takeWhile fun c => c == '"' || c == '\'').take 1 <+: opening :=
    (List.take_prefix _ _).trans (List.takeWhile_prefix _)
  obtain ⟨labelled, hLabelled⟩ := hPrefix
  refine ⟨_, labelled, rfl, hLabelled.symm, ?_⟩
  cases hMarks : opening.takeWhile fun c => c == '"' || c == '\'' with
  | nil => exact .inl rfl
  | cons c marks =>
    have hc := List.mem_takeWhile_imp (show c ∈ opening.takeWhile _ from hMarks ▸ List.mem_cons_self)
    simpa using hc

theorem exists_heredocHead {text : Text} {n : Nat} (h : heredocLength? text = some n) :
    ∃ indent quote label lineBreak rest, HeredocHead indent quote label lineBreak ∧
      text = indent ++ (quote ++ (label ++ (quote ++ (lineBreak ++ rest)))) := by
  have hIndent : ∀ c ∈ text.takeWhile isIndent, isIndent c = true := fun c => List.mem_takeWhile_imp
  have hText := List.takeWhile_append_dropWhile (p := isIndent) (l := text)
  simp only [heredocLength?] at h
  generalize text.takeWhile isIndent = indent at h hIndent hText
  generalize text.dropWhile isIndent = opening at h hText
  obtain ⟨quote, labelled, hQuote, rfl, hQuoted⟩ := exists_openingQuote opening
  rw [hQuote] at h
  have hLabel : ∀ c ∈ labelled.takeWhile isWord, isWord c = true := fun c => List.mem_takeWhile_imp
  have hLabelled := List.takeWhile_append_dropWhile (p := isWord) (l := labelled)
  rw [List.drop_left] at h
  generalize labelled.takeWhile isWord = label at h hLabel hLabelled
  generalize labelled.dropWhile isWord = closing at h hLabelled
  split at h
  · next hTest =>
    simp only [Bool.and_eq_true, List.isPrefixOf_iff_prefix] at hTest
    obtain ⟨hStart, after, rfl⟩ := hTest
    rw [List.drop_left] at h
    obtain ⟨lineBreak, hBreak, -⟩ := Option.bind_eq_some_iff.mp h
    unfold heredocBreak? at hBreak
    split at hBreak
    · next rest =>
      exact ⟨indent, quote, label, ['\n'], rest, ⟨hIndent, hQuoted, hLabel, hStart, .inl rfl⟩,
        by rw [← hText, ← hLabelled]; rfl⟩
    · next rest =>
      exact ⟨indent, quote, label, ['\r', '\n'], rest, ⟨hIndent, hQuoted, hLabel, hStart, .inr rfl⟩,
        by rw [← hText, ← hLabelled]; rfl⟩
    · cases hBreak
  · cases h

/-- A heredoc ends with its closing label whatever follows that is no word character. -/
theorem heredocLength?_append {cs after : Text}
    (h : heredocLength? (cs ++ after) = some cs.length) :
    after.head?.any isWord = false ∧ ∀ later, later.head?.any isWord = false →
      heredocLength? (cs ++ later) = some cs.length := by
  obtain ⟨indent, quote, label, lineBreak, rest, hHead, hText⟩ := exists_heredocHead h
  rw [hText, hHead.heredocLength?] at h
  obtain ⟨body, hBody, hLength⟩ := Option.map_eq_some_iff.mp h
  -- the content is the head and as much of the rest as the body counts
  obtain ⟨head, hEq⟩ : ∃ head, head = indent ++ (quote ++ (label ++ (quote ++ lineBreak))) := ⟨_, rfl⟩
  have hSize : head.length = indent.length + 2 * quote.length + label.length + lineBreak.length := by
    simp only [hEq, List.length_append]
    omega
  have hShape : ∀ more : Text,
      indent ++ (quote ++ (label ++ (quote ++ (lineBreak ++ more)))) = head ++ more := by
    intro more
    simp [hEq]
  rw [hShape] at hText
  obtain ⟨inner, rfl⟩ : ∃ inner, cs = head ++ inner :=
    ⟨cs.drop head.length, by
      have hTake := congrArg (List.take head.length) hText
      rw [List.take_left, List.take_append_of_le_length (by omega)] at hTake
      have hDrop := List.take_append_drop head.length cs
      rw [hTake] at hDrop
      exact hDrop.symm⟩
  rw [List.append_assoc, List.append_cancel_left_eq] at hText
  rw [List.length_append] at hLength
  obtain rfl : body = inner.length := by omega
  rw [← hText] at hBody
  obtain ⟨hAfter, hAny⟩ := heredocBodyLength?_append hHead.words hHead.start hBody
  refine ⟨hAfter, fun later hLater => ?_⟩
  rw [List.append_assoc, ← hShape, hHead.heredocLength?, hAny later hLater, Option.map_some,
    List.length_append, hSize]

/-! ## Tokens of code -/

/-- The next token of code is `t`, if `after` follows its content. -/
def Reads (t : Token) (after : Text) : Prop :=
  ∃ c cs, t.content = c :: cs ∧ lexeme c (cs ++ after) = (t.kind, cs.length)

/-- Behind a punctuation mark, what would make it part of something longer must not follow. Of a
mark that is no token of its own without what follows, that has to follow. -/
def punctStops : Text → Text → Bool
  | ['?'], after => after.head? != some '>' && !"->".toList.isPrefixOf after
  | ['/'], after => after.head? != some '*' && after.head? != some '/'
  | ['#'], after => after.head? == some '['
  | ['-'], after => after.head? != some '>'
  | [':'], after => after.head? != some ':'
  | ['$'], after => !after.head?.any isNameStart
  | ['<'], after => !"<<".toList.isPrefixOf after
  | _, _ => true

/-- What has to follow a token of code for it to end there. -/
def stops (t : Token) (after : Text) : Bool :=
  match t.kind with
  | .whitespace => !after.head?.any isBlank
  | .comment => !t.isLineComment || lineCommentLength after == 0
  | .stringLiteral => t.content.head?.any isQuote || !after.head?.any isWord
  | .variableName | .name | .useWord | .namespaceWord => !after.head?.any isWord
  | .number => !after.head?.any fun c => isWord c || c == '.'
  | .closeTag => t.content.length != 2 || lineBreakLength after == 0
  | .punct => punctStops t.content after
  | _ => true

/-- A block comment that starts with two asterisks and a blank. -/
def isDocumentation (cs : Text) : Bool :=
  cs.head? == some '*' && (cs.drop 1).head?.any isBlank

/-- The content is that of one token of code. -/
inductive Lexical : Token → Prop
  | closeTag (lineBreak : Text) (h : lineBreak = [] ∨ lineBreak = ['\n'] ∨ lineBreak = ['\r', '\n']) :
    Lexical ⟨.closeTag, '?' :: '>' :: lineBreak⟩
  | space (c : Char) (cs : Text) (h : ∀ d ∈ c :: cs, isBlank d = true) :
    Lexical ⟨.whitespace, c :: cs⟩
  | blockComment (cs : Text) (two : 2 ≤ cs.length)
      (closed : ∀ after, blockCommentLength (cs ++ after) = cs.length) :
    Lexical ⟨if isDocumentation cs then .docComment else .comment, '/' :: '*' :: cs⟩
  | lineComment (cs : Text)
      (line : ∀ after, lineCommentLength after = 0 → lineCommentLength (cs ++ after) = cs.length) :
    Lexical ⟨.comment, '/' :: '/' :: cs⟩
  | hashComment (cs : Text) (first : cs.head? ≠ some '[')
      (line : ∀ after, lineCommentLength after = 0 → lineCommentLength (cs ++ after) = cs.length) :
    Lexical ⟨.comment, '#' :: cs⟩
  | heredoc (cs : Text)
      (closed : ∀ after, after.head?.any isWord = false →
        heredocLength? (cs ++ after) = some cs.length) :
    Lexical ⟨.stringLiteral, '<' :: '<' :: '<' :: cs⟩
  | quoted (quote : Char) (cs : Text) (mark : isQuote quote = true)
      (closed : ∀ after, quotedLength? quote (cs ++ after) = some cs.length) :
    Lexical ⟨.stringLiteral, quote :: cs⟩
  | variableName (c : Char) (cs : Text) (start : isNameStart c = true)
      (words : ∀ d ∈ cs, isWord d = true) : Lexical ⟨.variableName, '$' :: c :: cs⟩
  | word (c : Char) (cs : Text) (start : isNameStart c = true) (words : ∀ d ∈ cs, isWord d = true) :
    Lexical ⟨.ofWord (c :: cs), c :: cs⟩
  | number (c : Char) (cs : Text) (start : isDigit c = true)
      (digits : ∀ d ∈ cs, (isWord d || d == '.') = true) : Lexical ⟨.number, c :: cs⟩
  | separator : Lexical ⟨.separator, ['\\']⟩
  | operator (cs : Text) (h : cs = "?->".toList ∨ cs = "->".toList ∨ cs = "::".toList) :
    Lexical ⟨.punct, cs⟩
  | mark (c : Char) (blank : isBlank c = false) (quote : isQuote c = false)
      (name : isNameStart c = false) (digit : isDigit c = false) (separator : c ≠ '\\') :
    Lexical ⟨.punct, [c]⟩

/-! ## The rule for each first character -/

theorem beq_false_of_class {p : Char → Bool} {c d : Char} (hc : p c = true) (hd : p d = false) :
    (c == d) = false := by
  rw [beq_eq_false_iff_ne]
  rintro rfl
  rw [hc] at hd
  exact absurd hd (by simp)

theorem isBlank_of_class {p : Char → Bool} {c : Char} (hc : p c = true) (h1 : p ' ' = false)
    (h2 : p '\t' = false) (h3 : p '\r' = false) (h4 : p '\n' = false) : isBlank c = false := by
  simp only [isBlank, beq_false_of_class hc h1, beq_false_of_class hc h2, beq_false_of_class hc h3,
    beq_false_of_class hc h4, Bool.or_self]

theorem isQuote_of_class {p : Char → Bool} {c : Char} (hc : p c = true) (h1 : p '\'' = false)
    (h2 : p '"' = false) (h3 : p (Char.ofNat 0x60) = false) : isQuote c = false := by
  have hTick : (c.toNat == 0x60) = false := by
    rw [beq_eq_false_iff_ne]
    intro hNat
    have hChar : c = Char.ofNat 0x60 := by rw [← hNat, Char.ofNat_toNat]
    rw [hChar, h3] at hc
    exact absurd hc (by simp)
  simp only [isQuote, beq_false_of_class hc h1, beq_false_of_class hc h2, hTick, Bool.or_self]

theorem lexeme_blank {c : Char} (h : isBlank c = true) (rest : Text) :
    lexeme c rest = (.whitespace, (rest.takeWhile isBlank).length) := by
  have hClose := @beq_false_of_class isBlank c '?' h (by decide)
  simp only [lexeme, hClose, h, Bool.false_and, Bool.false_eq_true, if_false, if_true]

theorem lexeme_quote {c : Char} (h : isQuote c = true) (rest : Text) :
    lexeme c rest =
      match quotedLength? c rest with
      | some n => (.stringLiteral, n)
      | none => (.punct, 0) := by
  have hBlank := @isBlank_of_class isQuote c h (by decide) (by decide) (by decide) (by decide)
  cases hLength : quotedLength? c rest <;>
    simp only [lexeme, @beq_false_of_class isQuote c '?' h (by decide),
      @beq_false_of_class isQuote c '/' h (by decide),
      @beq_false_of_class isQuote c '#' h (by decide),
      @beq_false_of_class isQuote c '<' h (by decide), hBlank, h, hLength, Bool.false_and,
      Bool.false_or, Bool.false_eq_true, if_false, if_true]

theorem lexeme_word {c : Char} (h : isNameStart c = true) (rest : Text) :
    lexeme c rest = (.ofWord (c :: rest.take (rest.takeWhile isWord).length),
      (rest.takeWhile isWord).length) := by
  have hBlank := @isBlank_of_class isNameStart c h (by decide) (by decide) (by decide) (by decide)
  have hQuote := @isQuote_of_class isNameStart c h (by decide) (by decide) (by decide)
  simp only [lexeme, @beq_false_of_class isNameStart c '?' h (by decide),
    @beq_false_of_class isNameStart c '/' h (by decide),
    @beq_false_of_class isNameStart c '#' h (by decide),
    @beq_false_of_class isNameStart c '<' h (by decide),
    @beq_false_of_class isNameStart c '$' h (by decide), hBlank, hQuote, h, Bool.false_and,
    Bool.false_or, Bool.false_eq_true, if_false, if_true]

theorem lexeme_digit {c : Char} (h : isDigit c = true) (rest : Text) :
    lexeme c rest = (.number, (rest.takeWhile fun d => isWord d || d == '.').length) := by
  have hBlank := @isBlank_of_class isDigit c h (by decide) (by decide) (by decide) (by decide)
  have hQuote := @isQuote_of_class isDigit c h (by decide) (by decide) (by decide)
  have hName : isNameStart c = false := by simp [isNameStart, h]
  simp only [lexeme, @beq_false_of_class isDigit c '?' h (by decide),
    @beq_false_of_class isDigit c '/' h (by decide), @beq_false_of_class isDigit c '#' h (by decide),
    @beq_false_of_class isDigit c '<' h (by decide), @beq_false_of_class isDigit c '$' h (by decide),
    hBlank, hQuote, hName, h, Bool.false_and, Bool.false_or, Bool.false_eq_true, if_false, if_true]

theorem lexeme_question (rest : Text) :
    lexeme '?' rest =
      if rest.head? = some '>' then (.closeTag, 1 + lineBreakLength (rest.drop 1))
      else (.punct, if ['-', '>'] <+: rest then 2 else 0) := by
  have hName : isNameStart '?' = false := by decide
  have hDigit : isDigit '?' = false := by decide
  have hMark : isQuote '?' = false := by decide
  simp [lexeme, isBlank, punctLength, hName, hDigit, hMark]

theorem lexeme_slash (rest : Text) :
    lexeme '/' rest =
      if rest.head? = some '*' then
        (if isDocumentation (rest.drop 1) then .docComment else .comment,
          1 + blockCommentLength (rest.drop 1))
      else if rest.head? = some '/' then (.comment, lineCommentLength rest)
      else (.punct, 0) := by
  have hName : isNameStart '/' = false := by decide
  have hDigit : isDigit '/' = false := by decide
  have hMark : isQuote '/' = false := by decide
  simp [lexeme, isBlank, isDocumentation, punctLength, hName, hDigit, hMark]

theorem lexeme_hash (rest : Text) :
    lexeme '#' rest =
      if rest.head? = some '[' then (.punct, 0) else (.comment, lineCommentLength rest) := by
  have hName : isNameStart '#' = false := by decide
  have hDigit : isDigit '#' = false := by decide
  have hMark : isQuote '#' = false := by decide
  simp [lexeme, isBlank, punctLength, hName, hDigit, hMark]

theorem lexeme_less (rest : Text) :
    lexeme '<' rest =
      if ['<', '<'] <+: rest then
        match heredocLength? (rest.drop 2) with
        | some n => (.stringLiteral, 2 + n)
        | none => (.punct, 0)
      else (.punct, 0) := by
  have hName : isNameStart '<' = false := by decide
  have hDigit : isDigit '<' = false := by decide
  have hMark : isQuote '<' = false := by decide
  cases hLength : heredocLength? (rest.drop 2) <;>
    simp [lexeme, isBlank, punctLength, hName, hDigit, hMark, hLength]

theorem lexeme_dollar (rest : Text) :
    lexeme '$' rest =
      if rest.head?.any isNameStart then (.variableName, (rest.takeWhile isWord).length)
      else (.punct, 0) := by
  have hName : isNameStart '$' = false := by decide
  have hDigit : isDigit '$' = false := by decide
  have hMark : isQuote '$' = false := by decide
  simp [lexeme, isBlank, punctLength, hName, hDigit, hMark]

theorem lexeme_separator (rest : Text) : lexeme '\\' rest = (.separator, 0) := by
  have hName : isNameStart '\\' = false := by decide
  have hDigit : isDigit '\\' = false := by decide
  have hMark : isQuote '\\' = false := by decide
  simp [lexeme, isBlank, hName, hDigit, hMark]

theorem lexeme_other {c : Char} (hBlank : isBlank c = false) (hQuote : isQuote c = false)
    (hName : isNameStart c = false) (hDigit : isDigit c = false) (hSeparator : c ≠ '\\')
    (hQuestion : c ≠ '?') (hSlash : c ≠ '/') (hHash : c ≠ '#') (hLess : c ≠ '<') (hDollar : c ≠ '$')
    (rest : Text) : lexeme c rest = (.punct, punctLength c rest) := by
  simp [lexeme, hBlank, hQuote, hName, hDigit, hSeparator, hQuestion, hSlash, hHash, hLess, hDollar]

theorem punctLength_other {c : Char} (hQuestion : c ≠ '?') (rest : Text) :
    punctLength c rest =
      if (c = '-' ∧ rest.head? = some '>') ∨ (c = ':' ∧ rest.head? = some ':') then 1 else 0 := by
  simp only [punctLength, hQuestion, beq_iff_eq, Bool.and_eq_true, false_and, if_false]
  split <;> split <;> simp_all

/-- A mark of no other class is a token of its own, unless it goes on. -/
theorem lexeme_mark {c : Char} (hBlank : isBlank c = false) (hQuote : isQuote c = false)
    (hName : isNameStart c = false) (hDigit : isDigit c = false) (hSeparator : c ≠ '\\')
    {after : Text} (h : punctStops [c] after = true) : lexeme c after = (.punct, 0) := by
  -- the marks that may begin something longer, each with its own rule
  by_cases hQuestion : c = '?'
  · subst hQuestion
    rw [lexeme_question, if_neg fun hHead => by simp [punctStops, hHead] at h,
      if_neg fun hLong => by simp [punctStops, List.isPrefixOf_iff_prefix.mpr hLong] at h]
  by_cases hSlash : c = '/'
  · subst hSlash
    rw [lexeme_slash, if_neg fun hHead => by simp [punctStops, hHead] at h,
      if_neg fun hHead => by simp [punctStops, hHead] at h]
  by_cases hHash : c = '#'
  · subst hHash
    rw [lexeme_hash, if_pos (by simpa [punctStops] using h)]
  by_cases hLess : c = '<'
  · subst hLess
    rw [lexeme_less,
      if_neg fun hLong => by simp [punctStops, List.isPrefixOf_iff_prefix.mpr hLong] at h]
  by_cases hDollar : c = '$'
  · subst hDollar
    rw [lexeme_dollar, if_neg (by simpa [punctStops] using h)]
  -- of the others, only two can be doubled
  rw [lexeme_other hBlank hQuote hName hDigit hSeparator hQuestion hSlash hHash hLess hDollar,
    punctLength_other hQuestion, if_neg]
  rintro (⟨rfl, hHead⟩ | ⟨rfl, hHead⟩)
  · simp [punctStops, hHead] at h
  · simp [punctStops, hHead] at h

theorem lineBreakLength_append {lineBreak after : Text}
    (h : lineBreak = [] ∨ lineBreak = ['\n'] ∨ lineBreak = ['\r', '\n'])
    (hStops : ((lineBreak.length + 2) != 2 || lineBreakLength after == 0) = true) :
    lineBreakLength (lineBreak ++ after) = lineBreak.length := by
  rcases h with rfl | rfl | rfl
  · simpa using hStops
  · rfl
  · rfl

theorem ofWord_cases (word : Text) :
    TokenKind.ofWord word = .useWord ∨ TokenKind.ofWord word = .namespaceWord ∨
      TokenKind.ofWord word = .name := by
  simp only [TokenKind.ofWord]
  split
  · exact .inl rfl
  · split
    · exact .inr (.inl rfl)
    · exact .inr (.inr rfl)

theorem stops_ofWord (word content after : Text) :
    stops ⟨.ofWord word, content⟩ after = !after.head?.any isWord := by
  rcases ofWord_cases word with h | h | h <;> (rw [h]; rfl)

/-- The marks of an operator are read as one token whatever follows. -/
theorem lexeme_operator {cs : Text} (h : cs = "?->".toList ∨ cs = "->".toList ∨ cs = "::".toList)
    (after : Text) :
    ∃ c more, cs = c :: more ∧ lexeme c (more ++ after) = (.punct, more.length) := by
  rcases h with rfl | rfl | rfl
  · exact ⟨'?', ['-', '>'], rfl, by rw [lexeme_question]; simp⟩
  · refine ⟨'-', ['>'], rfl, ?_⟩
    rw [lexeme_other (by decide) (by decide) (by decide) (by decide) (by decide) (by decide)
      (by decide) (by decide) (by decide) (by decide), punctLength_other (by decide)]
    simp
  · refine ⟨':', [':'], rfl, ?_⟩
    rw [lexeme_other (by decide) (by decide) (by decide) (by decide) (by decide) (by decide)
      (by decide) (by decide) (by decide) (by decide), punctLength_other (by decide)]
    simp

/-- The bracket that keeps a number sign from opening a comment cannot come from behind the comment. -/
theorem head?_append_of_lineComment {cs after : Text} (hFirst : cs.head? ≠ some '[')
    (hLine : lineCommentLength after = 0) : (cs ++ after).head? ≠ some '[' := by
  cases cs with
  | nil =>
    intro hHead
    obtain ⟨rest, rfl⟩ := List.head?_eq_some_iff.mp hHead
    simp [lineCommentLength_cons] at hLine
  | cons c cs => simpa using hFirst

/-- A token is read back in front of everything that ends it. -/
theorem reads_of_stops {t : Token} (h : Lexical t) {after : Text} (hStops : stops t after = true) :
    Reads t after := by
  -- for each sort of token: the rule of its first character, and that the count stops at its end
  cases h with
  | closeTag lineBreak hBreak =>
    refine ⟨_, _, rfl, ?_⟩
    have hLength := lineBreakLength_append hBreak hStops
    rw [lexeme_question, if_pos (by simp), List.cons_append, List.drop_one, List.tail_cons, hLength,
      List.length_cons, Nat.add_comm]
  | space c cs hBlank =>
    refine ⟨_, _, rfl, ?_⟩
    have hNext : after.head?.any isBlank = false := by simpa [stops] using hStops
    rw [lexeme_blank (hBlank c List.mem_cons_self),
      takeWhile_append_of_stop (fun d hd => hBlank d (List.mem_cons_of_mem _ hd)) hNext]
  | blockComment cs two closed =>
    refine ⟨_, _, rfl, ?_⟩
    -- two characters tell a documentation comment, and they belong to the comment
    have hDocuments : isDocumentation (cs ++ after) = isDocumentation cs := by
      match cs, two with
      | a :: b :: more, _ => rfl
    rw [lexeme_slash, if_pos (by simp), List.cons_append, List.drop_one, List.tail_cons, closed after,
      hDocuments, List.length_cons, Nat.add_comm]
  | lineComment cs line =>
    refine ⟨_, _, rfl, ?_⟩
    have hLine : lineCommentLength after = 0 := by
      simpa [stops, Token.isLineComment] using hStops
    rw [lexeme_slash, if_neg (by simp), if_pos (by simp), List.cons_append, lineCommentLength_cons,
      if_neg (by simp), line after hLine, List.length_cons]
  | hashComment cs first line =>
    refine ⟨_, _, rfl, ?_⟩
    have hLine : lineCommentLength after = 0 := by
      simpa [stops, Token.isLineComment] using hStops
    rw [lexeme_hash, if_neg (head?_append_of_lineComment first hLine), line after hLine]
  | heredoc cs closed =>
    refine ⟨_, _, rfl, ?_⟩
    have hNext : after.head?.any isWord = false := by
      have hMark : isQuote '<' = false := by decide
      simpa [stops, hMark] using hStops
    rw [lexeme_less, if_pos (by simp)]
    simp only [List.cons_append, List.drop_succ_cons, List.drop_zero, closed after hNext,
      List.length_cons, Prod.mk.injEq, true_and]
    omega
  | quoted quote cs mark closed =>
    refine ⟨_, _, rfl, ?_⟩
    rw [lexeme_quote mark, closed after]
  | variableName c cs start words =>
    refine ⟨_, _, rfl, ?_⟩
    have hNext : after.head?.any isWord = false := by simpa [stops] using hStops
    have hWord : isWord c = true := by
      simp only [isNameStart, Bool.and_eq_true] at start
      exact start.1
    rw [lexeme_dollar, if_pos (by simpa using start),
      takeWhile_append_of_stop (by simpa [hWord] using words) hNext]
  | word c cs start words =>
    refine ⟨_, _, rfl, ?_⟩
    have hNext : after.head?.any isWord = false := by simpa [stops_ofWord] using hStops
    rw [lexeme_word start, takeWhile_append_of_stop words hNext, List.take_left]
  | number c cs start digits =>
    refine ⟨_, _, rfl, ?_⟩
    have hNext : (after.head?.any fun c => isWord c || c == '.') = false := by
      simpa only [stops, Bool.not_eq_true'] using hStops
    rw [lexeme_digit start, takeWhile_append_of_stop digits hNext]
  | separator => exact ⟨_, _, rfl, lexeme_separator _⟩
  | operator cs hOperator =>
    obtain ⟨c, more, rfl, hLexeme⟩ := lexeme_operator hOperator after
    exact ⟨c, more, rfl, hLexeme⟩
  | mark c blank quote name digit separator =>
    exact ⟨_, _, rfl, lexeme_mark blank quote name digit separator hStops⟩

/-! ## Tokens that were read -/

/-- A quote that is not closed, or the opening of a heredoc that is not: punctuation because of the
whole text behind it. -/
def opensText (t : Token) (after : Text) : Bool :=
  t.kind == .punct &&
    (t.content.head?.any isQuote || (t.content == ['<'] && "<<".toList.isPrefixOf after))

theorem isPrefixOf_eq_false {a b : Text} (h : ¬ a <+: b) : a.isPrefixOf b = false := by
  rwa [← Bool.not_eq_true, List.isPrefixOf_iff_prefix]

theorem prefix_eq_of_length {a b c : Text} (h : a <+: b ++ c) (hLength : b.length = a.length) :
    b = a := by
  obtain ⟨rest, hRest⟩ := h
  exact ((List.append_inj hRest hLength.symm).1).symm

theorem lineBreakLength_cases {lineBreak after : Text}
    (h : lineBreakLength (lineBreak ++ after) = lineBreak.length) :
    (lineBreak = [] ∨ lineBreak = ['\n'] ∨ lineBreak = ['\r', '\n']) ∧
      (lineBreak = [] → lineBreakLength after = 0) := by
  match lineBreak with
  | [] => exact ⟨.inl rfl, fun _ => h⟩
  | [a] =>
    unfold lineBreakLength at h
    split at h
    · simp at h
    · next hShape => exact ⟨.inr (.inl (by simp_all)), by simp⟩
    · simp at h
  | a :: b :: more =>
    unfold lineBreakLength at h
    split at h
    · next hShape =>
      obtain rfl : more = [] := by simpa using h.symm
      exact ⟨.inr (.inr (by simp_all)), by simp⟩
    · simp at h
    · simp at h

theorem lexical_question {kind : TokenKind} {cs after : Text}
    (h : lexeme '?' (cs ++ after) = (kind, cs.length)) :
    Lexical ⟨kind, '?' :: cs⟩ ∧ stops ⟨kind, '?' :: cs⟩ after = true := by
  rw [lexeme_question] at h
  split at h
  · next hHead =>
    obtain ⟨rfl, hLength⟩ := Prod.mk.inj h
    obtain ⟨d, lineBreak, rfl⟩ := List.exists_cons_of_length_pos (show 0 < cs.length by omega)
    obtain rfl : d = '>' := by simpa using hHead
    simp only [List.cons_append, List.drop_succ_cons, List.drop_zero, List.length_cons] at hLength
    obtain ⟨hBreak, hNext⟩ :=
      @lineBreakLength_cases lineBreak after (by omega)
    refine ⟨.closeTag lineBreak hBreak, ?_⟩
    rcases hBreak with rfl | rfl | rfl
    · simp [stops, hNext rfl]
    · rfl
    · rfl
  · next hHead =>
    obtain ⟨rfl, hLength⟩ := Prod.mk.inj h
    split at hLength
    · next hLong =>
      obtain rfl : cs = ['-', '>'] :=
        prefix_eq_of_length hLong (by simpa using hLength.symm)
      exact ⟨.operator _ (.inl rfl), rfl⟩
    · next hLong =>
      obtain rfl := List.length_eq_zero_iff.mp hLength.symm
      rw [List.nil_append] at hHead hLong
      have hShort := isPrefixOf_eq_false hLong
      exact ⟨.mark '?' (by decide) (by decide) (by decide) (by decide) (by decide),
        by simp [stops, punctStops, hHead, hShort]⟩

theorem lexical_slash {kind : TokenKind} {cs after : Text}
    (h : lexeme '/' (cs ++ after) = (kind, cs.length)) (hAfter : after ≠ []) :
    Lexical ⟨kind, '/' :: cs⟩ ∧ stops ⟨kind, '/' :: cs⟩ after = true := by
  rw [lexeme_slash] at h
  split at h
  · -- a comment up to `*/`
    next hHead =>
    obtain ⟨hKind, hLength⟩ := Prod.mk.inj h
    obtain ⟨d, cs, rfl⟩ := List.exists_cons_of_length_pos (show 0 < cs.length by omega)
    obtain rfl : d = '*' := by simpa using hHead
    simp only [List.cons_append, List.drop_succ_cons, List.drop_zero, List.length_cons] at hLength hKind
    obtain ⟨hTwo, hClosed⟩ := blockCommentLength_append hAfter (show _ = cs.length by omega)
    have hDocuments : isDocumentation (cs ++ after) = isDocumentation cs := by
      match cs, hTwo with
      | a :: b :: more, _ => rfl
    rw [hDocuments] at hKind
    rw [← hKind]
    refine ⟨.blockComment cs hTwo hClosed, ?_⟩
    cases isDocumentation cs <;> simp [stops, Token.isLineComment, List.isPrefixOf]
  · split at h
    · -- a comment up to the end of the line
      next hNot hHead =>
      obtain ⟨rfl, hLength⟩ := Prod.mk.inj h
      obtain ⟨hNext, hLine⟩ := lineCommentLength_append hLength
      cases cs with
      | nil =>
        rw [List.nil_append] at hHead
        obtain ⟨rest, rfl⟩ := List.head?_eq_some_iff.mp hHead
        simp [lineCommentLength_cons] at hNext
      | cons d cs =>
        obtain rfl : d = '/' := by simpa using hHead
        refine ⟨.lineComment cs fun later hLater => ?_, by simp [stops, hNext]⟩
        have hAll := hLine later hLater
        rw [List.cons_append, lineCommentLength_cons, if_neg (by simp), List.length_cons] at hAll
        omega
    · next hStar hSlash =>
      obtain ⟨rfl, hLength⟩ := Prod.mk.inj h
      obtain rfl := List.length_eq_zero_iff.mp hLength.symm
      rw [List.nil_append] at hStar hSlash
      exact ⟨.mark '/' (by decide) (by decide) (by decide) (by decide) (by decide),
        by simp [stops, punctStops, hStar, hSlash]⟩

theorem lexical_hash {kind : TokenKind} {cs after : Text}
    (h : lexeme '#' (cs ++ after) = (kind, cs.length)) :
    Lexical ⟨kind, '#' :: cs⟩ ∧ stops ⟨kind, '#' :: cs⟩ after = true := by
  rw [lexeme_hash] at h
  split at h
  · next hHead =>
    obtain ⟨rfl, hLength⟩ := Prod.mk.inj h
    obtain rfl := List.length_eq_zero_iff.mp hLength.symm
    rw [List.nil_append] at hHead
    exact ⟨.mark '#' (by decide) (by decide) (by decide) (by decide) (by decide),
      by simp [stops, punctStops, hHead]⟩
  · next hHead =>
    obtain ⟨rfl, hLength⟩ := Prod.mk.inj h
    obtain ⟨hNext, hLine⟩ := lineCommentLength_append hLength
    refine ⟨.hashComment cs ?_ hLine, by simp [stops, hNext]⟩
    cases cs with
    | nil => simp
    | cons d cs => simpa using hHead

theorem lexical_less {kind : TokenKind} {cs after : Text}
    (h : lexeme '<' (cs ++ after) = (kind, cs.length))
    (hOpens : opensText ⟨kind, '<' :: cs⟩ after = false) :
    Lexical ⟨kind, '<' :: cs⟩ ∧ stops ⟨kind, '<' :: cs⟩ after = true := by
  rw [lexeme_less] at h
  split at h
  · next hLong =>
    split at h
    · next n hLength =>
      obtain ⟨rfl, hSize⟩ := Prod.mk.inj h
      obtain ⟨a, b, cs, rfl⟩ : ∃ a b more, cs = a :: b :: more := by
        rcases cs with _ | ⟨a, _ | ⟨b, more⟩⟩
        · simp at hSize
        · simp at hSize; omega
        · exact ⟨a, b, more, rfl⟩
      obtain ⟨rest, hRest⟩ := hLong
      simp only [List.cons_append, List.nil_append, List.cons.injEq] at hRest
      obtain ⟨rfl, rfl, -⟩ := hRest
      simp only [List.cons_append, List.drop_succ_cons, List.drop_zero, List.length_cons] at hLength hSize
      obtain rfl : n = cs.length := by omega
      obtain ⟨hNext, hClosed⟩ := heredocLength?_append hLength
      exact ⟨.heredoc cs hClosed, by simp [stops, hNext]⟩
    · -- a `<` in front of `<<` without a heredoc counts as an open text
      obtain ⟨rfl, hLength⟩ := Prod.mk.inj h
      obtain rfl := List.length_eq_zero_iff.mp hLength.symm
      rw [List.nil_append] at hLong
      have hPrefix : "<<".toList.isPrefixOf after = true := List.isPrefixOf_iff_prefix.mpr hLong
      rw [opensText, hPrefix] at hOpens
      simp at hOpens
  · next hShort =>
    obtain ⟨rfl, hLength⟩ := Prod.mk.inj h
    obtain rfl := List.length_eq_zero_iff.mp hLength.symm
    rw [List.nil_append] at hShort
    have hNot := isPrefixOf_eq_false hShort
    exact ⟨.mark '<' (by decide) (by decide) (by decide) (by decide) (by decide),
      by simp [stops, punctStops, hNot]⟩

theorem lexical_dollar {kind : TokenKind} {cs after : Text}
    (h : lexeme '$' (cs ++ after) = (kind, cs.length)) :
    Lexical ⟨kind, '$' :: cs⟩ ∧ stops ⟨kind, '$' :: cs⟩ after = true := by
  rw [lexeme_dollar] at h
  split at h
  · next hStart =>
    obtain ⟨rfl, hLength⟩ := Prod.mk.inj h
    obtain ⟨hAll, hNext⟩ := length_takeWhile_append hLength
    cases cs with
    | nil =>
      -- a word character would have been taken along
      rw [List.nil_append] at hStart
      cases hHead : after.head? with
      | none => simp [hHead] at hStart
      | some d =>
        simp only [hHead, Option.any_some] at hStart hNext
        simp [isNameStart, hNext] at hStart
    | cons d cs =>
      exact ⟨.variableName d cs (by simpa using hStart) fun e he => hAll e (List.mem_cons_of_mem _ he),
        by simp [stops, hNext]⟩
  · next hStart =>
    obtain ⟨rfl, hLength⟩ := Prod.mk.inj h
    obtain rfl := List.length_eq_zero_iff.mp hLength.symm
    rw [List.nil_append] at hStart
    exact ⟨.mark '$' (by decide) (by decide) (by decide) (by decide) (by decide),
      by simpa [stops, punctStops] using hStart⟩

theorem lexical_other {c : Char} {cs after : Text} (hBlank : isBlank c = false)
    (hQuote : isQuote c = false) (hName : isNameStart c = false) (hDigit : isDigit c = false)
    (hSeparator : c ≠ '\\') (hQuestion : c ≠ '?') (hSlash : c ≠ '/') (hHash : c ≠ '#')
    (hLess : c ≠ '<') (hDollar : c ≠ '$') (h : punctLength c (cs ++ after) = cs.length) :
    Lexical ⟨.punct, c :: cs⟩ ∧ stops ⟨.punct, c :: cs⟩ after = true := by
  rw [punctLength_other hQuestion] at h
  split at h
  · next hLong =>
    obtain ⟨d, rfl⟩ : ∃ d, cs = [d] := by
      match cs, h with
      | [d], _ => exact ⟨d, rfl⟩
    simp only [List.singleton_append, List.head?_cons, Option.some.injEq] at hLong
    rcases hLong with ⟨rfl, rfl⟩ | ⟨rfl, rfl⟩
    · exact ⟨.operator _ (.inr (.inl rfl)), rfl⟩
    · exact ⟨.operator _ (.inr (.inr rfl)), rfl⟩
  · next hShort =>
    obtain rfl := List.length_eq_zero_iff.mp h.symm
    refine ⟨.mark c hBlank hQuote hName hDigit hSeparator, ?_⟩
    rw [List.nil_append] at hShort
    simp only [stops]
    unfold punctStops
    split <;> simp_all

/-- What a token that was read is made of, and what it has behind it. -/
theorem lexical_of_reads {t : Token} {after : Text} (h : Reads t after) (hAfter : after ≠ [])
    (hOpens : opensText t after = false) : Lexical t ∧ stops t after = true := by
  obtain ⟨kind, content⟩ := t
  obtain ⟨c, cs, rfl, hLexeme⟩ := h
  simp only at hLexeme
  -- in the order of the rules: first the classes of characters, then the single marks
  by_cases hBlank : isBlank c = true
  · rw [lexeme_blank hBlank] at hLexeme
    obtain ⟨rfl, hLength⟩ := Prod.mk.inj hLexeme
    obtain ⟨hAll, hNext⟩ := length_takeWhile_append hLength
    exact ⟨.space c cs (by simpa [hBlank] using hAll), by simp [stops, hNext]⟩
  by_cases hQuote : isQuote c = true
  · rw [lexeme_quote hQuote] at hLexeme
    split at hLexeme
    · next n hLength =>
      obtain ⟨rfl, rfl⟩ := Prod.mk.inj hLexeme
      have hNotEscape : c ≠ '\\' := by
        simpa using @beq_false_of_class isQuote c '\\' hQuote (by decide)
      exact ⟨.quoted c cs hQuote (quotedLength?_append hNotEscape hLength), by simp [stops, hQuote]⟩
    · obtain ⟨rfl, -⟩ := Prod.mk.inj hLexeme
      simp [opensText, hQuote] at hOpens
  by_cases hName : isNameStart c = true
  · rw [lexeme_word hName] at hLexeme
    obtain ⟨hKind, hLength⟩ := Prod.mk.inj hLexeme
    obtain ⟨hAll, hNext⟩ := length_takeWhile_append hLength
    rw [hLength, List.take_left] at hKind
    rw [← hKind]
    exact ⟨.word c cs hName hAll, by rw [stops_ofWord, hNext]; rfl⟩
  by_cases hDigit : isDigit c = true
  · rw [lexeme_digit hDigit] at hLexeme
    obtain ⟨rfl, hLength⟩ := Prod.mk.inj hLexeme
    obtain ⟨hAll, hNext⟩ := length_takeWhile_append hLength
    exact ⟨.number c cs hDigit hAll, by simp only [stops, hNext, Bool.not_false]⟩
  by_cases hQuestion : c = '?'
  · subst hQuestion
    exact lexical_question hLexeme
  by_cases hSlash : c = '/'
  · subst hSlash
    exact lexical_slash hLexeme hAfter
  by_cases hHash : c = '#'
  · subst hHash
    exact lexical_hash hLexeme
  by_cases hLess : c = '<'
  · subst hLess
    exact lexical_less hLexeme hOpens
  by_cases hDollar : c = '$'
  · subst hDollar
    exact lexical_dollar hLexeme
  simp only [Bool.not_eq_true] at hBlank hQuote hName hDigit
  by_cases hSeparator : c = '\\'
  · subst hSeparator
    obtain ⟨rfl, hLength⟩ := Prod.mk.inj hLexeme
    obtain rfl := List.length_eq_zero_iff.mp hLength.symm
    exact ⟨.separator, rfl⟩
  rw [lexeme_other hBlank hQuote hName hDigit hSeparator hQuestion hSlash hHash hLess hDollar]
    at hLexeme
  obtain ⟨rfl, hLength⟩ := Prod.mk.inj hLexeme
  exact lexical_other hBlank hQuote hName hDigit hSeparator hQuestion hSlash hHash hLess hDollar
    hLength

end UseOrder
