import UseOrder.Proofs.Group
import UseOrder.Proofs.Rewording
import UseOrder.Proofs.Spacing
import UseOrder.Proofs.WellFormed

/-!
# Pieces that are read wherever they stand

Names, white space and gaps are cut out of a source text and put together in another order. A name
is `Solid` if it is read in front of everything that may end it. White space is one token at most,
read in front of everything that is not blank (`Spaced`). A brace list that is laid out anew is
read if its names are solid (`readOn_groupBody`), and a gap may be opened up (`scans_openUp`).
-/

namespace UseOrder

theorem modeAfter_append (inCode : Bool) (as bs : List Token) :
    modeAfter inCode (as ++ bs) = modeAfter (modeAfter inCode as) bs :=
  List.foldl_append

/-! ## The end of a name -/

/-- What may follow a name: a blank, a comma, the end of a statement or of a group. -/
def endsName : Text → Bool
  | [] => false
  | c :: rest =>
    isBlank c || c == ',' || c == ';' || c == '}' || (c == '?' && rest.head? == some '>')

theorem exists_of_endsName {y : Text} (h : endsName y = true) :
    ∃ c rest, y = c :: rest ∧ c ∈ [' ', '\t', '\r', '\n', ',', ';', '}', '?'] := by
  cases y with
  | nil => simp [endsName] at h
  | cons c rest =>
    refine ⟨c, rest, rfl, ?_⟩
    simp only [endsName, isBlank, Bool.or_eq_true, Bool.and_eq_true, beq_iff_eq] at h
    simp only [List.mem_cons, List.not_mem_nil, or_false]
    tauto

/-- A token that is neither white space nor a close tag ends where a name may end. A line comment
does so only at the end of its line, and a hash mark only in front of a bracket. -/
theorem stops_of_endsName {t : Token} {x y : Text} (hSpace : t.kind ≠ .whitespace)
    (hClose : t.kind ≠ .closeTag) (hLine : t.isLineComment = true → lineCommentLength y = 0)
    (h : stops t x = true) (hx : x.head? ≠ some '[') (hy : endsName y = true) :
    stops t y = true := by
  obtain ⟨c, rest, rfl, hc⟩ := exists_of_endsName hy
  have hClasses : isWord c = false ∧ isNameStart c = false ∧
      c ∉ ['.', '>', '-', '*', '/', ':', '<'] := by
    simp only [List.mem_cons, List.not_mem_nil, or_false] at hc
    rcases hc with rfl | rfl | rfl | rfl | rfl | rfl | rfl | rfl <;> decide
  obtain ⟨hWord, hName, hMarks⟩ := hClasses
  simp only [List.mem_cons, List.not_mem_nil, or_false, not_or] at hMarks
  have hPunct : t.kind = .punct → punctStops t.content (c :: rest) = true := by
    intro hKind
    simp only [stops, hKind] at h
    have hDash : ¬ '-' = c := fun hEq => hMarks.2.2.1 hEq.symm
    have hLess : ¬ '<' = c := fun hEq => hMarks.2.2.2.2.2.2 hEq.symm
    unfold punctStops at h ⊢
    split <;> simp_all [List.isPrefixOf]
  simp only [stops] at h ⊢
  split
  · exact absurd ‹_› hSpace
  · cases hComment : t.isLineComment with
    | true => simp [hLine hComment]
    | false => rfl
  all_goals simp_all

/-! ## White space -/

/-- White space as it stands between two tokens: one token at most. -/
def Spaced (ts : List Token) : Prop :=
  ts = [] ∨ ∃ c cs, ts = [⟨.whitespace, c :: cs⟩] ∧ ∀ d ∈ c :: cs, isBlank d = true

/-- Text in which a name or a punctuation mark comes next. -/
def StartsSolid (y : Text) : Prop :=
  ∃ c rest, y = c :: rest ∧ isBlank c = false

theorem StartsSolid.append {x : Text} (h : StartsSolid x) (y : Text) : StartsSolid (x ++ y) := by
  obtain ⟨c, rest, rfl, hc⟩ := h
  exact ⟨c, rest ++ y, rfl, hc⟩

theorem scans_space {content : Text} (hNe : content ≠ []) (h : ∀ d ∈ content, isBlank d = true)
    {y : Text} (hy : StartsSolid y) : Scans true [⟨.whitespace, content⟩] y := by
  obtain ⟨c, cs, rfl⟩ := List.exists_cons_of_ne_nil hNe
  obtain ⟨d, rest, rfl, hd⟩ := hy
  exact ⟨⟨.space c cs h, by simp [Token.raw, TokenKind.raw, stops, hd]⟩, trivial⟩

theorem Spaced.scans {ts : List Token} (h : Spaced ts) {y : Text} (hy : StartsSolid y) :
    Scans true ts y := by
  rcases h with rfl | ⟨c, cs, rfl, hBlank⟩
  · trivial
  · exact scans_space (by simp) hBlank hy

theorem Spaced.modeAfter {ts : List Token} (h : Spaced ts) : modeAfter true ts = true := by
  rcases h with rfl | ⟨c, cs, rfl, -⟩ <;> rfl

/-- What follows a name may have white space in front of it. -/
theorem Spaced.endsName {ts : List Token} (h : Spaced ts) {y : Text} (hy : endsName y = true) :
    UseOrder.endsName (textOf ts ++ y) = true := by
  rcases h with rfl | ⟨c, cs, rfl, hBlank⟩
  · exact hy
  · simp [UseOrder.endsName, hBlank c (by simp)]

theorem exists_blanks {t : Token} (h : Lexical t.raw) (hSpace : t.isWhitespace = true) :
    ∃ c cs, t = ⟨.whitespace, c :: cs⟩ ∧ ∀ d ∈ c :: cs, isBlank d = true := by
  obtain ⟨kind, content⟩ := t
  obtain rfl : kind = .whitespace := by simpa [Token.isWhitespace] using hSpace
  generalize hRaw : Token.raw ⟨.whitespace, content⟩ = raw at h
  obtain ⟨hKind, hContent⟩ : .whitespace = raw.kind ∧ content = raw.content := by
    rw [← hRaw]
    exact ⟨rfl, rfl⟩
  cases h with
  | space c cs hBlank => exact ⟨c, cs, by rw [hContent], hBlank⟩
  | blockComment cs =>
    simp only at hKind
    split at hKind <;> simp at hKind
  | word c cs =>
    rcases ofWord_cases (c :: cs) with hWord | hWord | hWord <;> simp [hWord] at hKind
  | _ => simp at hKind

/-- White space is read as one token. -/
theorem spaced_of_scans {ts : List Token} (hSpace : AllSpace ts) {x : Text} (h : Scans true ts x) :
    Spaced ts := by
  match ts with
  | [] => exact .inl rfl
  | [t] =>
    obtain ⟨c, cs, rfl, hBlank⟩ := exists_blanks h.1.1 (hSpace t (by simp))
    exact .inr ⟨c, cs, rfl, hBlank⟩
  | t :: u :: more =>
    obtain ⟨c, cs, rfl, -⟩ := exists_blanks h.1.1 (hSpace t (by simp))
    obtain ⟨d, ds, rfl, hBlank⟩ := exists_blanks h.2.1.1 (hSpace u (by simp))
    have hStops := h.1.2
    simp [Token.raw, TokenKind.raw, stops, hBlank d (by simp)] at hStops

/-! ## Names -/

/-- The tokens are read in code, and code goes on behind them. -/
structure ReadOn (ts : List Token) (y : Text) : Prop where
  scans : Scans true ts y
  mode : modeAfter true ts = true

theorem ReadOn.nil (y : Text) : ReadOn [] y :=
  ⟨trivial, rfl⟩

theorem ReadOn.append {as bs : List Token} {y : Text} (ha : ReadOn as (textOf bs ++ y))
    (hb : ReadOn bs y) : ReadOn (as ++ bs) y :=
  ⟨scans_append.mpr ⟨ha.scans, by rw [ha.mode]; exact hb.scans⟩,
    by rw [modeAfter_append, ha.mode, hb.mode]⟩

theorem readOn_comma (y : Text) : ReadOn [commaToken] y :=
  ⟨⟨⟨.mark ',' (by decide) (by decide) (by decide) (by decide) (by decide), rfl⟩, trivial⟩, rfl⟩

theorem readOn_space {content : Text} (hNe : content ≠ []) (h : ∀ d ∈ content, isBlank d = true)
    {y : Text} (hy : StartsSolid y) : ReadOn [⟨.whitespace, content⟩] y :=
  ⟨scans_space hNe h hy, rfl⟩

theorem Spaced.readOn {ts : List Token} (h : Spaced ts) {y : Text} (hy : StartsSolid y) :
    ReadOn ts y :=
  ⟨h.scans hy, h.modeAfter⟩

/-- The tokens are read in front of everything that may end a name. -/
structure Solid (ts : List Token) : Prop where
  starts : StartsSolid (textOf ts)
  readOn : ∀ y, endsName y = true → ReadOn ts y

theorem Solid.raw_congr {ts us : List Token} (h : us.map Token.raw = ts.map Token.raw)
    (hts : Solid ts) : Solid us := by
  refine ⟨?_, fun y hy => ?_⟩
  · rw [← textOf_map_raw, h, textOf_map_raw]
    exact hts.starts
  · have hRead := hts.readOn y hy
    obtain ⟨hScans, hMode⟩ := hRead.scans.raw_congr h
    exact ⟨hScans, hMode.trans hRead.mode⟩

/-- A token of code that is no white space starts with no blank. -/
theorem Lexical.startsSolid {t : Token} (h : Lexical t) (hSpace : t.kind ≠ .whitespace) :
    StartsSolid t.content := by
  cases h with
  | space => exact absurd rfl hSpace
  | quoted quote cs mark =>
    exact ⟨_, _, rfl, isBlank_of_class mark (by decide) (by decide) (by decide) (by decide)⟩
  | word c cs start =>
    exact ⟨_, _, rfl, isBlank_of_class start (by decide) (by decide) (by decide) (by decide)⟩
  | number c cs start =>
    exact ⟨_, _, rfl, isBlank_of_class start (by decide) (by decide) (by decide) (by decide)⟩
  | operator cs h => rcases h with rfl | rfl | rfl <;> exact ⟨_, _, rfl, by decide⟩
  | mark c blank => exact ⟨c, [], rfl, blank⟩
  | _ => exact ⟨_, _, rfl, by decide⟩

theorem modeAfter_of_no_closeTag {ts : List Token} (h : ∀ t ∈ ts, t.kind ≠ .closeTag) :
    modeAfter true ts = true := by
  induction ts with
  | nil => rfl
  | cons t ts ih =>
    have ht : nextMode true t = true := by simpa [nextMode] using h t List.mem_cons_self
    rw [modeAfter_cons, ht]
    exact ih fun u hu => h u (List.mem_cons_of_mem _ hu)

theorem Token.raw_isLineComment (t : Token) : t.raw.isLineComment = t.isLineComment := by
  have hKind : (t.raw.kind == .comment) = (t.kind == .comment) := by
    rw [Bool.eq_iff_iff, beq_iff_eq, beq_iff_eq]
    exact TokenKind.raw_eq_iff rfl t.content
  rw [Token.isLineComment, Token.isLineComment, hKind]
  rfl

theorem Token.raw_ne_whitespace {t : Token} (h : t.isWhitespace = false) :
    t.raw.kind ≠ .whitespace := by
  rw [ne_eq, Token.raw, TokenKind.raw_eq_iff rfl]
  simpa [Token.isWhitespace] using h

/-- Tokens that were read, and that end with neither white space nor a line comment, are solid. -/
theorem solid_of_scans {ts : List Token} {x : Text} (h : Scans true ts x)
    (hInner : ∀ t ∈ ts, t.kind ≠ .closeTag) (hTrimmed : Trimmed ts)
    (hLine : ts.getLast?.any Token.isLineComment = false) (hx : x.head? ≠ some '[') : Solid ts := by
  refine ⟨?_, fun y hy => ⟨?_, modeAfter_of_no_closeTag hInner⟩⟩
  · obtain ⟨t, rest, rfl, ht⟩ := hTrimmed.first
    exact (h.1.1.startsSolid (Token.raw_ne_whitespace ht)).append _
  · -- only the last token meets what follows
    obtain ⟨rest, t, rfl, ht⟩ := hTrimmed.last
    have hMode : modeAfter true rest = true :=
      modeAfter_of_no_closeTag fun u hu => hInner u (List.mem_append_left _ hu)
    have hLast := (scans_append.mp h).2
    rw [hMode] at hLast
    obtain ⟨hLexical, hStops⟩ := hLast.1
    rw [textOf_nil, List.nil_append] at hStops
    obtain ⟨c, later, rfl, hc⟩ := exists_of_endsName hy
    refine h.congr ?_ ?_
    · rw [hMode]
      refine ⟨hLexical, stops_of_endsName (Token.raw_ne_whitespace ht) ?_ ?_ hStops hx hy⟩
      · rw [ne_eq, Token.raw, TokenKind.raw_eq_iff rfl]
        exact hInner t (by simp)
      · rw [t.raw_isLineComment]
        simp [show t.isLineComment = false by simpa using hLine]
    · rintro - hHead
      obtain rfl : c = '<' := by simpa using hHead
      simp at hc

/-! ## Gaps -/

theorem not_word_of_isBlank {c : Char} (h : isBlank c = true) : isWord c = false := by
  simp only [isBlank, Bool.or_eq_true, beq_iff_eq] at h
  rcases h with ((rfl | rfl) | rfl) | rfl <;> decide

/-- A `use` stands in code. -/
theorem ReadsIn.of_use {inCode : Bool} {word : Token} {x : Text} (h : ReadsIn inCode word x)
    (hWord : word.kind = .useWord) : inCode = true ∧ Lexical word.raw := by
  cases inCode with
  | true => exact ⟨rfl, h.1⟩
  | false =>
    obtain ⟨c, cs, -, ⟨hKind, -⟩ | ⟨hKind, -⟩⟩ : ReadsMarkup word x := h <;> simp [hWord] at hKind

theorem ReadsIn.of_space {inCode : Bool} {t : Token} {x : Text} (h : ReadsIn inCode t x)
    (ht : t.isWhitespace = true) : inCode = true := by
  have hKind : t.kind = .whitespace := by simpa [Token.isWhitespace] using ht
  cases inCode with
  | true => rfl
  | false =>
    obtain ⟨c, cs, -, ⟨hOther, -⟩ | ⟨hOther, -⟩⟩ : ReadsMarkup t x := h <;> simp [hKind] at hOther

theorem Lexical.word_start {word : Token} (h : Lexical word.raw) (hWord : word.kind = .useWord) :
    ∃ c cs, word.content = c :: cs ∧ isNameStart c = true := by
  generalize hRaw : word.raw = raw at h
  have hKind : raw.kind = .ofWord word.content := by
    rw [← hRaw, Token.raw, hWord]
    rfl
  have hContent : word.content = raw.content := by rw [← hRaw]; rfl
  have hWords := ofWord_cases word.content
  rw [← hKind] at hWords
  cases h with
  | word c cs start => exact ⟨c, cs, hContent, start⟩
  | blockComment cs =>
    simp only at hWords
    split at hWords <;> simp at hWords
  | _ => simp at hWords

theorem readsIn_use {word : Token} (hWord : word.kind = .useWord) (h : Lexical word.raw) {y : Text}
    (hy : y.head?.any isBlank = true) : ReadsIn true word y := by
  refine ⟨h, ?_⟩
  have hStops : stops word.raw y = !y.head?.any isWord := by
    rw [Token.raw, hWord, TokenKind.raw]
    exact stops_ofWord word.content word.content y
  cases y with
  | nil => simp at hy
  | cons c y => simpa [hStops] using not_word_of_isBlank (by simpa using hy)

/-- A gap and its `use` are read in front of any white space. -/
theorem scans_use {inCode : Bool} {gap : List Token} {word : Token} {x y : Text}
    (h : Scans inCode (gap ++ [word]) x) (hWord : word.kind = .useWord)
    (hy : y.head?.any isBlank = true) : Scans inCode (gap ++ [word]) y := by
  have hLast := (scans_append.mp h).2
  obtain ⟨hMode, hLexical⟩ := hLast.1.of_use hWord
  refine h.congr ?_ ?_
  · rw [hMode]
    exact readsIn_use hWord hLexical hy
  · rintro - hHead
    rw [hHead] at hy
    exact absurd hy (by decide)

/-- The last token in front of white space is read in front of a line break, unless it is an open
tag that takes the line feed along. -/
theorem readsIn_lineBreak {inCode : Bool} {t : Token} {x z : Text} (h : ReadsIn inCode t x)
    (hSpace : t.isWhitespace = false) (hNext : nextMode inCode t = true) (hx : x ≠ [])
    (hBracket : x.head? ≠ some '[')
    (hTag : t.kind = .openTag → t.content.getLast? = some '\r' → z.head? ≠ some '\n')
    (hz : z.head? = some '\r' ∨ z.head? = some '\n') : ReadsIn inCode t z := by
  obtain ⟨c, rest, rfl⟩ : ∃ c rest, z = c :: rest := by
    cases z with
    | nil => simp at hz
    | cons c rest => exact ⟨c, rest, rfl⟩
  have hBreak : c = '\r' ∨ c = '\n' := by simpa using hz
  cases inCode with
  | true =>
    obtain ⟨hLexical, hStops⟩ := h
    refine ⟨hLexical, stops_of_endsName (Token.raw_ne_whitespace hSpace) ?_ ?_ hStops hBracket ?_⟩
    · rw [ne_eq, Token.raw, TokenKind.raw_eq_iff rfl]
      simpa [nextMode] using hNext
    · -- a line comment ends in front of a line break
      intro _
      rw [lineCommentLength_cons, if_pos]
      rcases hBreak with rfl | rfl <;> simp
    · rcases hBreak with rfl | rfl <;> rfl
  | false =>
    -- of markup, only an open tag has code behind it
    have hKind : t.kind = .openTag := by simpa [nextMode] using hNext
    obtain ⟨d, cs, hContent, ⟨-, hLength⟩ | ⟨hHtml, -⟩⟩ : ReadsMarkup t x := h
    · obtain rfl := openTagLength?_first hLength
      rw [openTagLength?_append_iff hx] at hLength
      refine ⟨'<', cs, hContent, .inl ⟨hKind, ?_⟩⟩
      rw [openTagLength?_append_iff (by simp)]
      refine ⟨hLength.1, fun hLast => ?_⟩
      have hCs : cs ≠ [] := by
        rintro rfl
        simp at hLast
      refine hTag hKind ?_
      rw [hContent, List.getLast?_cons_of_ne_nil hCs]
      exact hLast
    · simp [hKind] at hHtml

/-- What is read up to the white space in front of a `use`. -/
theorem scans_before_use {inCode : Bool} {front space : List Token} {t word : Token} {x : Text}
    (h : Scans inCode (front ++ [t] ++ space ++ [word]) x) (hSpace : AllSpace space)
    (hWord : word.kind = .useWord) :
    Lexical word.raw ∧ modeAfter inCode (front ++ [t]) = true ∧
      ∃ z, Scans inCode (front ++ [t]) z ∧ z ≠ [] ∧ z.head? ≠ some '[' := by
  obtain ⟨hBefore, hUse⟩ := scans_append.mp h
  obtain ⟨hFront, hMiddle⟩ := scans_append.mp hBefore
  obtain ⟨hMode, hLexical⟩ := hUse.1.of_use hWord
  obtain ⟨c, cs, hContent, hStart⟩ := hLexical.word_start hWord
  have hCode : modeAfter inCode (front ++ [t]) = true := by
    cases space with
    | nil => simpa using hMode
    | cons s space => exact hMiddle.1.of_space (hSpace s (by simp))
  refine ⟨hLexical, hCode, _, hFront, by simp [hContent], ?_⟩
  rcases spaced_of_scans hSpace (hCode ▸ hMiddle) with rfl | ⟨d, ds, rfl, hBlanks⟩
  · simp only [textOf_nil, textOf_cons, hContent, List.nil_append, List.append_nil,
      List.cons_append, List.head?_cons]
    rintro ⟨⟩
    exact absurd hStart (by decide)
  · simp only [textOf_nil, textOf_cons, List.append_nil, List.cons_append, List.head?_cons]
    rintro ⟨⟩
    exact absurd (hBlanks '[' (by simp)) (by decide)

/-- White space and a `use` are read behind everything that is read in front of them. -/
theorem scans_space_use {inCode : Bool} {ts : List Token} {word : Token} {content y : Text}
    (h : Scans inCode ts (content ++ (word.content ++ y))) (hCode : modeAfter inCode ts = true)
    (hNe : content ≠ []) (hBlank : ∀ d ∈ content, isBlank d = true)
    (hWord : word.kind = .useWord) (hLexical : Lexical word.raw)
    (hy : y.head?.any isBlank = true) :
    Scans inCode (ts ++ [⟨.whitespace, content⟩] ++ [word]) y := by
  obtain ⟨c, cs, hContent, hStart⟩ := hLexical.word_start hWord
  refine scans_append.mpr ⟨scans_append.mpr ⟨by simpa using h, ?_⟩, ?_⟩
  · rw [hCode]
    refine scans_space hNe hBlank ⟨c, cs ++ y, ?_, ?_⟩
    · simp [hContent]
    · exact isBlank_of_class hStart (by decide) (by decide) (by decide) (by decide)
  · rw [modeAfter_append, hCode]
    exact ⟨readsIn_use hWord hLexical (by simpa using hy), trivial⟩

/-- The white space in front of a `use` may be replaced by other white space with a line break at
its beginning. -/
theorem scans_respaced {inCode : Bool} {front space : List Token} {t word : Token} {x : Text}
    (h : Scans inCode (front ++ [t] ++ space ++ [word]) x) (hSpace : AllSpace space)
    (ht : t.isWhitespace = false) (hWord : word.kind = .useWord) {content : Text}
    (hTag : t.kind = .openTag → t.content.getLast? = some '\r' → content.head? ≠ some '\n')
    (hBreak : content.head? = some '\r' ∨ content.head? = some '\n')
    (hBlank : ∀ d ∈ content, isBlank d = true) {y : Text} (hy : y.head?.any isBlank = true) :
    Scans inCode (front ++ [t] ++ [⟨.whitespace, content⟩] ++ [word]) y := by
  have hContent : content ≠ [] := by
    rintro rfl
    simp at hBreak
  have hHead (later : Text) : (content ++ later).head? = content.head? :=
    List.head?_append_of_ne_nil _ hContent
  obtain ⟨hLexical, hCode, z, hFront, hz, hBracket⟩ := scans_before_use h hSpace hWord
  have hNext : nextMode (modeAfter inCode front) t = true := by
    rwa [modeAfter_append] at hCode
  have hRead : ReadsIn (modeAfter inCode front) t (content ++ (word.content ++ y)) := by
    have hLast : ReadsIn (modeAfter inCode front) t z := by simpa using (scans_append.mp hFront).2.1
    refine readsIn_lineBreak hLast ht hNext hz hBracket ?_ ?_
    · rwa [hHead]
    · rwa [hHead]
  refine scans_space_use (hFront.congr hRead ?_) hCode hContent hBlank hWord hLexical hy
  rintro - hAngle
  rw [hHead] at hAngle
  rw [hAngle] at hBreak
  exact absurd hBreak (by decide)

/-- An open tag stands in markup. -/
theorem ReadsIn.of_openTag {inCode : Bool} {t : Token} {x : Text} (h : ReadsIn inCode t x)
    (ht : t.kind = .openTag) : inCode = false := by
  cases inCode with
  | false => rfl
  | true =>
    have hLexical : Lexical t.raw := h.1
    have hKind : t.raw.kind = .openTag := by rw [Token.raw_eq_self (by rw [ht]; rfl), ht]
    generalize t.raw = raw at hLexical hKind
    cases hLexical with
    | blockComment cs =>
      simp only at hKind
      split at hKind <;> simp at hKind
    | word c cs =>
      rcases ofWord_cases (c :: cs) with hWord | hWord | hWord <;> simp [hWord] at hKind
    | _ => simp at hKind

/-- What stands in front of an open tag is read in front of every open tag. -/
theorem ReadsIn.congr_tag {inCode : Bool} {t : Token} {a b : Text}
    (h : ReadsIn inCode t ('<' :: a)) (hMode : nextMode inCode t = false)
    (hb : opensCode ('<' :: b) = true) : ReadsIn inCode t ('<' :: b) := by
  cases inCode with
  | true =>
    obtain ⟨hLexical, hStops⟩ : Lexical t.raw ∧ stops t.raw ('<' :: a) = true := h
    have hClose : t.kind = .closeTag := by simpa [nextMode] using hMode
    have hRaw : t.raw.kind = .closeTag := (TokenKind.raw_eq_iff rfl t.content).mpr hClose
    exact ⟨hLexical, by simp [stops, hRaw, lineBreakLength]⟩
  | false =>
    have hKind : t.kind ≠ .openTag := by simpa [nextMode] using hMode
    obtain ⟨c, cs, hContent, ⟨hTag, -⟩ | ⟨hHtml, hNone, hLength⟩⟩ : ReadsMarkup t ('<' :: a) := h
    · exact absurd hTag hKind
    · refine ⟨c, cs, hContent, .inr ⟨hHtml, ?_, htmlLength_append_tag hLength hb⟩⟩
      rw [opensCode_append_tag c cs b a]
      exact hNone

/-- An open tag that ends in a carriage return takes a line feed along. -/
theorem scans_joined {inCode : Bool} {front : List Token} {content : Text} {x z : Text}
    (h : Scans inCode (front ++ [⟨.openTag, content⟩]) x) (hx : x ≠ []) (hz : z ≠ [])
    (hReturn : content.getLast? = some '\r') :
    Scans inCode (front ++ [⟨.openTag, content ++ ['\n']⟩]) z ∧
      modeAfter inCode (front ++ [⟨.openTag, content ++ ['\n']⟩]) = true := by
  obtain ⟨hFront, hLast⟩ := scans_append.mp h
  have hMode := hLast.1.of_openTag rfl
  rw [hMode] at hLast
  obtain ⟨c, cs, hContent, ⟨-, hLength⟩ | ⟨hHtml, -⟩⟩ : ReadsMarkup ⟨.openTag, content⟩ x := hLast.1
  · obtain rfl := openTagLength?_first hLength
    simp only at hContent
    subst hContent
    rw [openTagLength?_append_iff hx] at hLength
    have hTag : openTagLength? '<' ((cs ++ ['\n']) ++ z) = some (cs ++ ['\n']).length := by
      rw [openTagLength?_append_iff hz]
      refine ⟨?_, by simp⟩
      -- the tag ends in a carriage return, so a line feed may follow in it
      rcases hLength.1 with rfl | ⟨a, b, c, space, rfl, hWord, rfl | ⟨d, rfl, -⟩⟩
      · simp at hReturn
      · simp at hReturn
      · obtain rfl : d = '\r' := by simpa using hReturn
        exact .inr ⟨a, b, c, _, rfl, hWord, .inl rfl⟩
    have hRead : ReadsIn false ⟨.openTag, '<' :: cs ++ ['\n']⟩ z :=
      ⟨'<', cs ++ ['\n'], rfl, .inl ⟨rfl, hTag⟩⟩
    have hOpens : opensCode ('<' :: ((cs ++ ['\n']) ++ z)) = true := by
      rw [opensCode, hTag]
      rfl
    refine ⟨scans_append.mpr ⟨?_, by rw [hMode]; exact ⟨by simpa using hRead, trivial⟩⟩, ?_⟩
    · obtain rfl | ⟨init, t, rfl⟩ := List.eq_nil_or_concat front
      · trivial
      · rw [List.concat_eq_append] at hFront hMode ⊢
        have hBefore := (scans_append.mp hFront).2.1
        rw [modeAfter_append] at hMode
        refine hFront.congr ?_ ?_
        · have hNew := @ReadsIn.congr_tag _ t _ _ (by simpa using hBefore) hMode hOpens
          simpa using hNew
        · simp
    · rw [modeAfter_append, hMode]
      rfl
  · simp at hHtml

theorem blank_of_scans {inCode : Bool} {ts : List Token} (hSpace : AllSpace ts) {x : Text}
    (h : Scans inCode ts x) : ∀ d ∈ textOf ts, isBlank d = true := by
  cases ts with
  | nil => simp
  | cons t ts =>
    obtain rfl := h.1.of_space (hSpace t (by simp))
    rcases spaced_of_scans hSpace h with hNil | ⟨c, cs, hOne, hBlank⟩
    · simp at hNil
    · rw [hOne]
      simpa using hBlank

/-- White space remains where an open tag takes a line feed of an opened gap along: two line breaks
were made, and the tag takes one. -/
theorem ne_nil_of_openUp (e : LineEnding) {gap front : List Token} {tag rest : Text}
    (hReturn : tag.getLast? = some '\r') (hBreaks : lineBreaks gap < 2)
    (hOpened : openUp e.text gap =
      front ++ [⟨.openTag, tag⟩] ++ [⟨.whitespace, '\n' :: rest⟩]) : rest ≠ [] := by
  rintro rfl
  have hCount := lineBreaks_openUp e.count_text gap
  have hNot : (tag.getLast? == some '\n') = false := by simp [hReturn]
  rw [hOpened, List.append_assoc, List.singleton_append, lineBreaks_tag, hNot] at hCount
  simp at hCount
  omega

/-- A gap may be opened up. An open tag at its end may take the line feed along. -/
theorem scans_openUp {inCode : Bool} {pre gap : List Token} {word : Token} {x : Text}
    (h : Scans inCode (pre ++ gap ++ [word]) x) (hWord : word.kind = .useWord)
    (hGap : trimEnd gap ≠ []) (e : LineEnding) {y : Text} (hy : y.head?.any isBlank = true) :
    ∃ gap', Joined (openUp e.text gap) gap' ∧ Scans inCode (pre ++ gap' ++ [word]) y := by
  rcases openUp_cases e.text gap with ⟨-, hSame⟩ | ⟨hBreaks, ⟨kind, content⟩, hOpened, hOpening⟩
  · refine ⟨gap, ?_, scans_use h hWord hy⟩
    rw [hSame]
    exact .same gap
  obtain rfl : kind = .whitespace := by simpa [Token.isWhitespace] using hOpening.kind
  obtain ⟨front, t, hTrim, ht⟩ := trimEnd_last hGap
  have hSpaces := allSpace_trailing gap
  have hSplit : pre ++ gap = pre ++ front ++ [t] ++ trailingSpace gap := by
    conv_lhs => rw [← trimEnd_append_trailingSpace gap, hTrim]
    simp
  rw [hSplit] at h
  rw [hTrim] at hOpened
  have hBreak := hOpening.head
  have hBlank :=
    hOpening.blank (blank_of_scans hSpaces (scans_append.mp (scans_append.mp h).1).2)
  by_cases hTag : t.kind = .openTag ∧ t.content.getLast? = some '\r' ∧ content.head? = some '\n'
  · -- a tag that ends in a carriage return is read again with the line feed behind it
    obtain ⟨hKind, hReturn, hFeed⟩ := hTag
    obtain ⟨rest, rfl⟩ := List.head?_eq_some_iff.mp hFeed
    obtain ⟨kind, tag⟩ := t
    obtain rfl : kind = .openTag := hKind
    have hRest : rest ≠ [] := ne_nil_of_openUp e hReturn hBreaks hOpened
    obtain ⟨hLexical, -, z, hFront, hz, -⟩ := scans_before_use h hSpaces hWord
    refine ⟨front ++ [⟨.openTag, tag ++ ['\n']⟩, ⟨.whitespace, rest⟩], ?_, ?_⟩
    · rw [hOpened, List.append_assoc, List.singleton_append]
      exact .tag hReturn hRest
    · obtain ⟨hScans, hMode⟩ := @scans_joined inCode (pre ++ front) tag z
        (rest ++ (word.content ++ y)) hFront hz (by simp [hRest]) hReturn
      have hNew := scans_space_use hScans hMode hRest
        (fun d hd => hBlank d (List.mem_cons_of_mem _ hd)) hWord hLexical hy
      simpa using hNew
  · refine ⟨openUp e.text gap, .same _, ?_⟩
    rw [hOpened, ← List.append_assoc, ← List.append_assoc]
    exact scans_respaced h hSpaces ht hWord
      (fun hKind hReturn hFeed => hTag ⟨hKind, hReturn, hFeed⟩) hBreak hBlank hy

/-! ## Brace lists -/

theorem lexical_of_mem {ts : List Token} {x : Text} (h : Scans true ts x)
    (hInner : ∀ t ∈ ts, t.kind ≠ .closeTag) : ∀ t ∈ ts, Lexical t.raw := by
  induction ts with
  | nil => simp
  | cons t ts ih =>
    have hMode : nextMode true t = true := by simpa [nextMode] using hInner t List.mem_cons_self
    have hRest := h.2
    rw [hMode] at hRest
    intro u hu
    rcases List.mem_cons.mp hu with rfl | hu
    · exact h.1.1
    · exact ih hRest (fun v hv => hInner v (List.mem_cons_of_mem _ hv)) u hu

/-- A piece between two commas stands in one place of the list, and a comma follows it if it is not
the last. -/
theorem exists_piece {ts piece : List Token} (h : piece ∈ splitAtCommas ts) :
    ∃ before after, ts = before ++ piece ++ after ∧
      (after = [] ∨ after.head? = some commaToken) := by
  induction hLength : ts.length using Nat.strong_induction_on generalizing ts with
  | _ n ih =>
    rcases comma_cases ts with hNone | ⟨part, rest, rfl, hPart⟩
    · rw [splitAtCommas_of_no_comma hNone, List.mem_singleton] at h
      exact ⟨[], [], by simp [h], .inl rfl⟩
    · rw [splitAtCommas_append_comma hPart] at h
      rcases List.mem_cons.mp h with rfl | h
      · exact ⟨[], commaToken :: rest, rfl, .inr rfl⟩
      · obtain ⟨before, after, rfl, hAfter⟩ := ih rest.length (by simp at hLength; omega) h rfl
        exact ⟨part ++ commaToken :: before, after, by simp, hAfter⟩

/-- Comments stand in front of a name or behind it, not inside. -/
def commentsOutside (piece : List Token) : Bool :=
  ((piece.dropWhile fun t => !t.isMeaningful).reverse.dropWhile fun t => !t.isMeaningful).all
    fun t => !t.isComment

/-- A list is cut where white space and comments at its ends begin and end. -/
theorem exists_ends (piece : List Token) :
    ∃ before middle after, piece = before ++ middle ++ after ∧
      (∀ t ∈ before, t.isMeaningful = false) ∧ (∀ t ∈ after, t.isMeaningful = false) ∧
      (middle = [] ∨ Trimmed middle) ∧
      ((piece.dropWhile fun t => !t.isMeaningful).reverse.dropWhile fun t => !t.isMeaningful) =
        middle.reverse := by
  have hQuiet {ts : List Token} {t : Token} (ht : t ∈ ts.takeWhile fun t => !t.isMeaningful) :
      t.isMeaningful = false := by
    simpa using List.mem_takeWhile_imp ht
  generalize hRest : (piece.dropWhile fun t => !t.isMeaningful) = rest
  generalize hMiddle : (rest.reverse.dropWhile fun t => !t.isMeaningful) = middle
  have hSplit : rest =
      middle.reverse ++ (rest.reverse.takeWhile fun t => !t.isMeaningful).reverse := by
    rw [← hMiddle, ← List.reverse_append, List.takeWhile_append_dropWhile, List.reverse_reverse]
  refine ⟨piece.takeWhile fun t => !t.isMeaningful, middle.reverse,
    (rest.reverse.takeWhile fun t => !t.isMeaningful).reverse, ?_, fun t ht => hQuiet ht,
    fun t ht => hQuiet (List.mem_reverse.mp ht), ?_, (List.reverse_reverse middle).symm⟩
  · rw [List.append_assoc, ← hSplit, ← hRest, List.takeWhile_append_dropWhile]
  · by_cases hNil : middle = []
    · exact .inl (by rw [hNil, List.reverse_nil])
    -- what stopped either walk is meaningful
    refine .inr ⟨?_, ?_⟩
    · obtain ⟨t, ts, ht⟩ := List.exists_cons_of_ne_nil (List.reverse_ne_nil_iff.mpr hNil)
      have hHead := List.head?_dropWhile_not (fun t : Token => !t.isMeaningful) piece
      rw [hRest, hSplit, ht] at hHead
      exact ⟨t, ts, ht, Token.not_space_of_meaningful (by simpa using hHead)⟩
    · obtain ⟨t, ts, rfl⟩ := List.exists_cons_of_ne_nil hNil
      have hHead := List.head?_dropWhile_not (fun t : Token => !t.isMeaningful) rest.reverse
      rw [hMiddle] at hHead
      exact ⟨ts.reverse, t, by simp, Token.not_space_of_meaningful (by simpa using hHead)⟩

theorem allSpace_of_quiet {ts : List Token} (h : ∀ t ∈ ts, t.isMeaningful = false) :
    AllSpace (ts.filter fun t => !t.isComment) := by
  intro t ht
  obtain ⟨hMem, hComment⟩ := List.mem_filter.mp ht
  have hMeaning := h t hMem
  simpa [Token.isMeaningful, show t.isComment = false by simpa using hComment] using hMeaning

/-- The name between white space and comments. -/
theorem exists_middle {piece : List Token} (h : commentsOutside piece = true) :
    ∃ before middle after, piece = before ++ middle ++ after ∧
      (∀ t ∈ after, t.isMeaningful = false) ∧
      trim (piece.filter fun t => !t.isComment) = middle := by
  obtain ⟨before, middle, after, hPiece, hBefore, hAfter, hEnds, hReverse⟩ := exists_ends piece
  refine ⟨before, middle, after, hPiece, hAfter, ?_⟩
  have hKept : middle.filter (fun t => !t.isComment) = middle := by
    rw [commentsOutside, hReverse, List.all_reverse] at h
    exact List.filter_eq_self.mpr (List.all_eq_true.mp h)
  have hFront := allSpace_of_quiet hBefore
  have hBack := allSpace_of_quiet hAfter
  rw [hPiece, List.filter_append, List.filter_append, hKept]
  rcases hEnds with rfl | hTrimmed
  · rw [List.append_nil, trim, List.dropWhile_eq_nil_iff.mpr (hFront.append hBack)]
    rfl
  · exact hTrimmed.trim_spaced hFront hBack

/-- White space and comments do not start with a bracket. -/
theorem head_of_quiet {t : Token} (h : Lexical t.raw) (hQuiet : t.isMeaningful = false) :
    t.content.head? ≠ some '[' := by
  rw [← t.raw_isMeaningful] at hQuiet
  rw [← t.raw_content]
  generalize t.raw = raw at h hQuiet
  cases h with
  | space c cs hBlank =>
    rw [List.head?_cons]
    rintro ⟨⟩
    exact absurd (hBlank '[' List.mem_cons_self) (by decide)
  | blockComment cs | lineComment cs | hashComment cs => simp
  | word c cs =>
    rcases ofWord_cases (c :: cs) with hWord | hWord | hWord <;>
      simp [hWord, Token.isMeaningful, Token.isWhitespace, Token.isComment] at hQuiet
  | _ => simp [Token.isMeaningful, Token.isWhitespace, Token.isComment] at hQuiet

theorem scans_comments {ts : List Token} (h : ∀ t ∈ ts, Lexical t.raw)
    (hComment : ∀ t ∈ ts, t.isComment = true) (hLine : ∀ t ∈ ts, t.isLineComment = false)
    (y : Text) : Scans true ts y := by
  induction ts with
  | nil => trivial
  | cons t ts ih =>
    have ht := hComment t List.mem_cons_self
    rw [Token.isComment, Bool.or_eq_true, beq_iff_eq, beq_iff_eq] at ht
    have hRaw : t.raw = t := Token.raw_eq_self (by rcases ht with ht | ht <;> rw [ht] <;> rfl)
    have hMode : nextMode true t = true := by rcases ht with ht | ht <;> simp [nextMode, ht]
    refine ⟨⟨h t List.mem_cons_self, ?_⟩, ?_⟩
    · rw [hRaw]
      rcases ht with ht | ht <;> simp [stops, ht, hLine t List.mem_cons_self]
    · rw [hMode]
      exact ih (fun u hu => h u (List.mem_cons_of_mem _ hu))
        (fun u hu => hComment u (List.mem_cons_of_mem _ hu))
        fun u hu => hLine u (List.mem_cons_of_mem _ hu)

/-- Comments that end behind themselves may follow a solid name. -/
theorem Solid.remark {ts : List Token} (h : Solid ts) {t : Token} {more : List Token}
    (hLexical : ∀ u ∈ t :: more, Lexical u.raw) (hComment : ∀ u ∈ t :: more, u.isComment = true)
    (hLine : ∀ u ∈ t :: more, u.isLineComment = false) :
    Solid (ts ++ [oneSpace] ++ (t :: more)) := by
  have hNot {kind : TokenKind} (hKind : kind ≠ .comment) (hDoc : kind ≠ .docComment) :
      ∀ u ∈ t :: more, u.kind ≠ kind := by
    rintro u hu rfl
    have hu := hComment u hu
    rw [Token.isComment, Bool.or_eq_true, beq_iff_eq, beq_iff_eq] at hu
    exact hu.elim hKind hDoc
  have hStarts : StartsSolid t.content := by
    refine (hLexical t List.mem_cons_self).startsSolid (Token.raw_ne_whitespace ?_)
    rw [Token.isWhitespace, beq_eq_false_iff_ne]
    exact hNot (by simp) (by simp) t List.mem_cons_self
  refine ⟨?_, fun y hy => ?_⟩
  · simp only [textOf_append, List.append_assoc]
    exact h.starts.append _
  · have hRemark : ReadOn (t :: more) y :=
      ⟨scans_comments hLexical hComment hLine y,
        modeAfter_of_no_closeTag (hNot (by simp) (by simp))⟩
    rw [List.append_assoc]
    refine (h.readOn _ rfl).append ((readOn_space (by simp) (by simp [isBlank]) ?_).append hRemark)
    rw [textOf_cons, List.append_assoc]
    exact hStarts.append _

/-- What is left of a piece without the white space and comments at its end is solid. -/
theorem solid_middle {before middle after : List Token} {x : Text}
    (h : Scans true (before ++ middle ++ after) x) (hx : x.head? ≠ some '[')
    (hInner : ∀ t ∈ before ++ middle ++ after, t.kind ≠ .closeTag)
    (hLine : ∀ t ∈ middle, t.isLineComment = false) (hAfter : ∀ t ∈ after, t.isMeaningful = false)
    (hTrimmed : Trimmed middle) : Solid middle := by
  have hLexical := lexical_of_mem h hInner
  have hMode : modeAfter true before = true :=
    modeAfter_of_no_closeTag fun t ht => hInner t (by simp [ht])
  have hMiddle : Scans true middle (textOf after ++ x) := by
    rw [List.append_assoc, scans_append, hMode, scans_append] at h
    exact h.2.1
  refine solid_of_scans hMiddle (fun t ht => hInner t (by simp [ht])) hTrimmed ?_ ?_
  · obtain ⟨front, t, rfl, -⟩ := hTrimmed.last
    simpa using hLine t (by simp)
  · -- behind the name stands a comment, white space, or what follows the piece
    cases after with
    | nil => exact hx
    | cons t after =>
      have ht := hLexical t (by simp)
      have hContent : t.content ≠ [] := ht.content_ne_nil
      rw [textOf_cons, List.append_assoc, List.head?_append_of_ne_nil _ hContent]
      exact head_of_quiet ht (hAfter t (by simp))

/-- A part of a list is solid once it is written without what stood between its name and its
comments. -/
theorem solid_part {piece : List Token} {p : GroupPart} {x : Text} (h : Scans true piece x)
    (hx : x.head? ≠ some '[') (hInner : ∀ t ∈ piece, t.kind ≠ .closeTag)
    (hLine : ∀ t ∈ piece, t.isLineComment = false) (hOutside : commentsOutside piece = true)
    (hPart : GroupPart.ofPiece? piece = some p) : Solid p.tokens := by
  obtain ⟨before, middle, after, rfl, hAfter, hTrim⟩ := exists_middle hOutside
  rw [GroupPart.ofPiece?_eq, hTrim] at hPart
  split at hPart
  · simp at hPart
  · next hText =>
    have hNe : middle ≠ [] := by
      rintro rfl
      simp at hText
    have hTrimmed : Trimmed middle := by
      rw [← hTrim] at hNe ⊢
      exact trimmed_trim hNe
    have hLexical := lexical_of_mem h hInner
    have hSolid := solid_middle h hx hInner (fun t ht => hLine t (by simp [ht])) hAfter hTrimmed
    obtain rfl := Option.some.inj hPart
    unfold GroupPart.make
    split
    · exact hSolid
    · next hComments =>
      have hSome : (before ++ middle ++ after).filter Token.isComment ≠ [] :=
        fun hNone => hComments (by rw [hNone]; rfl)
      obtain ⟨t, more, hRemarks⟩ := List.exists_cons_of_ne_nil hSome
      have hMem {u : Token} (hu : u ∈ t :: more) :
          u ∈ before ++ middle ++ after ∧ u.isComment = true := by
        rw [← hRemarks] at hu
        exact List.mem_filter.mp hu
      rw [hRemarks]
      exact hSolid.remark (fun u hu => hLexical u (hMem hu).1) (fun u hu => (hMem hu).2)
        fun u hu => hLine u (hMem hu).1

/-- Solid lists of tokens with commas between them. -/
theorem readOn_joinTokens {content : Text} (hNe : content ≠ [])
    (hBlank : ∀ d ∈ content, isBlank d = true) {tss : List (List Token)} (h : ∀ ts ∈ tss, Solid ts)
    {y : Text} (hy : endsName y = true) :
    ReadOn (joinTokens [commaToken, ⟨.whitespace, content⟩] tss) y ∧
      (tss ≠ [] → StartsSolid (textOf (joinTokens [commaToken, ⟨.whitespace, content⟩] tss))) := by
  induction tss with
  | nil => exact ⟨.nil y, fun hNot => absurd rfl hNot⟩
  | cons ts tss ih =>
    have hSolid := h ts List.mem_cons_self
    cases tss with
    | nil => exact ⟨hSolid.readOn y hy, fun _ => hSolid.starts⟩
    | cons us tss =>
      obtain ⟨hRest, hStarts⟩ := ih fun vs hvs => h vs (List.mem_cons_of_mem _ hvs)
      have hShape : joinTokens [commaToken, ⟨.whitespace, content⟩] (ts :: us :: tss) =
          ts ++ ([commaToken] ++ ([⟨.whitespace, content⟩] ++
            joinTokens [commaToken, ⟨.whitespace, content⟩] (us :: tss))) := by
        rw [joinTokens]
        · simp
        · simp
      rw [hShape]
      refine ⟨(hSolid.readOn _ rfl).append ((readOn_comma _).append ?_), fun _ => ?_⟩
      · exact (readOn_space hNe hBlank ((hStarts (by simp)).append y)).append hRest
      · rw [textOf_append]
        exact hSolid.starts.append _

theorem Indent.text_blank (i : Indent) : ∀ d ∈ i.text, isBlank d = true := by
  cases i <;> exact List.all_eq_true.mp (by decide)

theorem LineEnding.spaced (e : LineEnding) : Spaced [⟨.whitespace, e.text⟩] := by
  obtain ⟨c, cs, hText⟩ := List.exists_cons_of_ne_nil (lineEnding_ne_nil e)
  have hBlank := e.text_blank
  rw [hText] at hBlank ⊢
  exact .inr ⟨c, cs, rfl, hBlank⟩

/-- What stands between the last name of a brace list and its closing brace. -/
theorem readOn_groupEnd (e : LineEnding) (multiline trailingComma : Bool) (y : Text) :
    ReadOn ((if trailingComma then [commaToken] else []) ++
        if multiline then [⟨.whitespace, e.text⟩] else []) ('}' :: y) ∧
      endsName (textOf ((if trailingComma then [commaToken] else []) ++
        if multiline then [⟨.whitespace, e.text⟩] else []) ++ '}' :: y) = true := by
  have hLast : Spaced (if multiline then [⟨.whitespace, e.text⟩] else []) := by
    cases multiline with
    | false => exact .inl rfl
    | true => exact e.spaced
  have hRead := hLast.readOn (⟨'}', y, rfl, by decide⟩ : StartsSolid ('}' :: y))
  cases trailingComma with
  | false => exact ⟨hRead, hLast.endsName rfl⟩
  | true => exact ⟨(readOn_comma _).append hRead, rfl⟩

/-- A brace list that is laid out anew is read in front of its closing brace. -/
theorem readOn_groupBody (layout : Layout) (multiline trailingComma : Bool)
    {parts : List GroupPart} (h : ∀ p ∈ parts, Solid p.tokens) (hNe : parts ≠ []) (y : Text) :
    ReadOn (groupBody layout multiline trailingComma parts) ('}' :: y) := by
  have hNewLine : layout.lineEnding.text ++ layout.indent.text ≠ [] := by
    simp [lineEnding_ne_nil layout.lineEnding]
  have hNewLineBlank : ∀ d ∈ layout.lineEnding.text ++ layout.indent.text, isBlank d = true := by
    intro d hd
    rcases List.mem_append.mp hd with hd | hd
    · exact layout.lineEnding.text_blank d hd
    · exact layout.indent.text_blank d hd
  have hSorted : ∀ ts ∈ (parts.mergeSort GroupPart.le).map GroupPart.tokens, Solid ts := by
    intro ts hts
    obtain ⟨p, hp, rfl⟩ := List.mem_map.mp hts
    exact h p (List.mem_mergeSort.mp hp)
  have hSome : (parts.mergeSort GroupPart.le).map GroupPart.tokens ≠ [] := by
    intro hNil
    have hLength := (List.mergeSort_perm parts GroupPart.le).length_eq
    rw [List.map_eq_nil_iff.mp hNil] at hLength
    exact hNe (List.length_eq_zero_iff.mp hLength.symm)
  obtain ⟨hEnd, hEnds⟩ := readOn_groupEnd layout.lineEnding multiline trailingComma y
  unfold groupBody
  rw [List.append_assoc, List.append_assoc]
  cases multiline with
  | false => exact (readOn_joinTokens (by simp) (by simp [isBlank]) hSorted hEnds).1.append hEnd
  | true =>
    obtain ⟨hJoined, hStarts⟩ := readOn_joinTokens hNewLine hNewLineBlank hSorted hEnds
    refine (readOn_space hNewLine hNewLineBlank ?_).append (hJoined.append hEnd)
    rw [textOf_append, List.append_assoc]
    exact (hStarts hSome).append _

end UseOrder
