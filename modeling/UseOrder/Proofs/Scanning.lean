import UseOrder.Proofs.Reading
import UseOrder.Proofs.Source

/-!
# Reading tokens one after the other

Splitting a text reads one token after the other, in code or in markup. `Scans` says of a list of
tokens that it is what is read when a given text follows it: each token ends where the next one
begins. Whether a token ends there depends on the next two characters at most, so tokens that were
read in one text are read again in another as long as the last of them ends there too
(`Scans.congr`). This is what lets pieces of a source text be put together in another order.
-/

namespace UseOrder

/-! ## Markup -/

/-- An open tag stands at the beginning of a text. -/
def opensCode : Text → Bool
  | [] => false
  | c :: rest => (openTagLength? c rest).isSome

theorem opensCode_cons (c : Char) (rest : Text) :
    opensCode (c :: rest) = (c == '<' && ("?=".toList.isPrefixOf rest ||
      (rest.head? == some '?' && lower ((rest.drop 1).take 3) == "php".toList &&
        (rest.drop 4).head?.all isBlank))) := by
  simp only [opensCode, openTagLength?]
  cases hFirst : c == '<' with
  | false => simp
  | true =>
    cases hShort : "?=".toList.isPrefixOf rest with
    | true => simp
    | false =>
      cases hWord : rest.head? == some '?' && lower ((rest.drop 1).take 3) == "php".toList with
      | false =>
        simp only [Bool.true_and, hWord, Bool.false_and, Bool.or_self, Bool.false_eq_true, if_false,
          Option.isSome_none]
      | true =>
        simp only [Bool.true_and, hWord, Bool.false_eq_true, if_false, if_true, Bool.false_or]
        split
        · next hNone => simp [hNone]
        · next hBreak => simp [hBreak, isBlank]
        · next d more _ hRest => cases hd : isBlank d <;> simp [hRest, hd]

theorem mem_lowerAfter {text before : Text} (h : '<' ∈ text) : '<' ∈ lowerAfter before text := by
  induction text generalizing before with
  | nil => simp at h
  | cons c rest ih =>
    rw [lowerAfter, List.mem_append]
    rcases List.mem_cons.mp h with rfl | h
    · left
      rw [if_neg (by decide), if_neg (by decide)]
      decide
    · exact .inr (ih h)

/-- No open tag goes on behind the beginning of another one. -/
theorem opensCode_append_tag (c : Char) (cs a b : Text) :
    opensCode (c :: (cs ++ '<' :: a)) = opensCode (c :: (cs ++ '<' :: b)) := by
  have hShort : "?=".toList.isPrefixOf (cs ++ '<' :: a) = "?=".toList.isPrefixOf (cs ++ '<' :: b) := by
    match cs with
    | [] => simp [List.isPrefixOf]
    | [d] => simp [List.isPrefixOf]
    | d :: e :: more => simp [List.isPrefixOf]
  have hHead : (cs ++ '<' :: a).head? = (cs ++ '<' :: b).head? := by cases cs <;> rfl
  rw [opensCode_cons, opensCode_cons, hShort, hHead]
  -- the long tag is in `cs` up to the character behind its word, or its word would hold a `<`
  by_cases hLength : 4 ≤ cs.length
  · have hDrop (later : Text) : (cs ++ later).drop 4 = cs.drop 4 ++ later :=
      List.drop_append_of_le_length hLength
    have hWord (later : Text) : ((cs ++ later).drop 1).take 3 = (cs.drop 1).take 3 := by
      rw [List.drop_append_of_le_length (by omega), List.take_append_of_le_length (by simp; omega)]
    have hNext : (cs.drop 4 ++ '<' :: a).head? = (cs.drop 4 ++ '<' :: b).head? := by
      cases cs.drop 4 <;> rfl
    rw [hDrop, hDrop, hWord, hWord, hNext]
  · have hTag (later : Text) :
        (cs ++ '<' :: later).head? = some '?' →
          (lower (((cs ++ '<' :: later).drop 1).take 3) == "php".toList) = false := by
      intro hFirst
      have hMem : '<' ∈ ((cs ++ '<' :: later).drop 1).take 3 := by
        match cs, hFirst, hLength with
        | [d], _, _ => simp
        | [d, e], _, _ => simp
        | [d, e, f], _, _ => simp
        | d :: e :: f :: g :: more, _, hLength => simp at hLength
      rw [beq_eq_false_iff_ne]
      intro hWord
      have hLower := @mem_lowerAfter _ [] hMem
      rw [← lower, hWord] at hLower
      simp at hLower
    cases hFirst : (cs ++ '<' :: b).head? == some '?' with
    | false => simp
    | true =>
      have hb := hTag b (by simpa using hFirst)
      have ha := hTag a (by rw [hHead]; simpa using hFirst)
      rw [ha, hb]
      rfl

theorem htmlLength_cons (c : Char) (rest : Text) :
    htmlLength (c :: rest) = if opensCode (c :: rest) then 0 else htmlLength rest + 1 := rfl

theorem htmlLength_append_tag {cs a b : Text} (h : htmlLength (cs ++ '<' :: a) = cs.length)
    (hb : opensCode ('<' :: b) = true) : htmlLength (cs ++ '<' :: b) = cs.length := by
  induction cs with
  | nil =>
    rw [List.nil_append, htmlLength_cons, hb]
    rfl
  | cons c cs ih =>
    rw [List.cons_append, htmlLength_cons, opensCode_append_tag c cs b a]
    rw [List.cons_append, htmlLength_cons] at h
    split at h
    · simp at h
    · next hNone =>
      rw [if_neg hNone, ih (by simpa using h)]
      rfl

/-- The next token of markup is `t`, if `after` follows its content. -/
def ReadsMarkup (t : Token) (after : Text) : Prop :=
  ∃ c cs, t.content = c :: cs ∧
    (t.kind = .openTag ∧ openTagLength? c (cs ++ after) = some cs.length ∨
      t.kind = .inlineHtml ∧ opensCode (c :: (cs ++ after)) = false ∧
        htmlLength (cs ++ after) = cs.length)

/-! ## The kind before relabelling -/

/-- The kind that a token with the given content has before its surroundings are looked at. -/
def TokenKind.raw (content : Text) : TokenKind → TokenKind
  | .name | .useWord | .namespaceWord | .constWord | .functionWord | .closureUse | .traitUse =>
    .ofWord content
  | .groupOpen | .groupClose => .punct
  | kind => kind

/-- The token before its surroundings are looked at. -/
def Token.raw (t : Token) : Token :=
  ⟨t.kind.raw t.content, t.content⟩

theorem TokenKind.raw_of_isFixed {kind : TokenKind} (h : kind.isFixed = true) (content : Text) :
    kind.raw content = kind := by
  cases kind <;> first | rfl | simp [TokenKind.isFixed] at h

theorem TokenKind.raw_eq_iff {kind fixed : TokenKind} (h : fixed.isFixed = true) (content : Text) :
    kind.raw content = fixed ↔ kind = fixed := by
  constructor
  · intro hRaw
    cases kind with
    | name | useWord | namespaceWord | constWord | functionWord | closureUse | traitUse =>
      rw [TokenKind.raw] at hRaw
      rcases ofWord_cases content with hWord | hWord | hWord <;>
        (rw [← hRaw, hWord] at h; simp [TokenKind.isFixed] at h)
    | groupOpen | groupClose =>
      rw [← hRaw] at h
      simp [TokenKind.raw, TokenKind.isFixed] at h
    | _ => exact hRaw
  · rintro rfl
    exact TokenKind.raw_of_isFixed h content

theorem Token.raw_eq_self {t : Token} (h : t.kind.isFixed = true) : t.raw = t := by
  rw [Token.raw, TokenKind.raw_of_isFixed h]

theorem Token.raw_isMeaningful (t : Token) : t.raw.isMeaningful = t.isMeaningful := by
  have hKinds : ∀ k : TokenKind, k.isFixed = true → (t.raw.kind == k) = (t.kind == k) := by
    intro k hk
    rw [Bool.eq_iff_iff, beq_iff_eq, beq_iff_eq]
    exact TokenKind.raw_eq_iff hk t.content
  simp only [Token.isMeaningful, Token.isWhitespace, Token.isComment, hKinds .whitespace rfl,
    hKinds .comment rfl, hKinds .docComment rfl]

@[simp] theorem Token.raw_content (t : Token) : t.raw.content = t.content :=
  rfl

@[simp] theorem textOf_map_raw (ts : List Token) : textOf (ts.map Token.raw) = textOf ts := by
  induction ts with
  | nil => rfl
  | cons t ts ih => simp [ih]

/-! ## What follows a token -/

/-- Whether a token ends somewhere depends on two characters. -/
theorem stops_of_take_two {x y : Text} (h : x.take 2 = y.take 2) (t : Token) :
    stops t x = stops t y := by
  match x, y with
  | [], [] => rfl
  | [], [_] | [], _ :: _ :: _ | [_], [] | _ :: _ :: _, [] | [_], _ :: _ :: _ | _ :: _ :: _, [_] =>
    simp at h
  | [a], [b] =>
    obtain rfl : a = b := by simpa using h
    rfl
  | a :: b :: x, c :: d :: y =>
    obtain ⟨rfl, rfl⟩ : a = c ∧ b = d := by simpa using h
    have hLine : (lineCommentLength (a :: b :: x) == 0) = (lineCommentLength (a :: b :: y) == 0) := by
      rw [lineCommentLength_cons a (b :: x), lineCommentLength_cons a (b :: y), List.head?_cons,
        List.head?_cons]
      cases a == '?' && some b == some '>' || a == '\r' || a == '\n' <;> rfl
    have hBreak : (lineBreakLength (a :: b :: x) == 0) = (lineBreakLength (a :: b :: y) == 0) := by
      unfold lineBreakLength
      split <;> split <;> simp_all
    have hPunct (content : Text) :
        punctStops content (a :: b :: x) = punctStops content (a :: b :: y) := by
      unfold punctStops
      split <;> simp [List.isPrefixOf]
    simp only [stops, List.head?_cons, hLine, hBreak, hPunct]

theorem Lexical.content_ne_nil {t : Token} (h : Lexical t) : t.content ≠ [] := by
  cases h with
  | operator cs h => rcases h with rfl | rfl | rfl <;> decide
  | _ => simp

theorem isPrefixOf_singleton (c : Char) (x : Text) : [c].isPrefixOf x = (x.head? == some c) := by
  cases x with
  | nil => rfl
  | cons d x => simp [List.isPrefixOf, Bool.beq_comm]

/-- A single character that starts nothing longer is punctuation. -/
theorem Lexical.kind_eq_punct {t : Token} (h : Lexical t) {c : Char} (hContent : t.content = [c])
    (hBlank : isBlank c = false) (hName : isNameStart c = false) (hDigit : isDigit c = false)
    (hQuote : isQuote c = false) (hSeparator : c ≠ '\\') (hHash : c ≠ '#') : t.kind = .punct := by
  cases h with
  | space d cs h =>
    obtain ⟨rfl, rfl⟩ := List.cons.inj hContent
    simp [hBlank] at h
  | quoted quote cs mark =>
    obtain ⟨rfl, rfl⟩ := List.cons.inj hContent
    simp [hQuote] at mark
  | word d cs start =>
    obtain ⟨rfl, rfl⟩ := List.cons.inj hContent
    simp [hName] at start
  | number d cs start =>
    obtain ⟨rfl, rfl⟩ := List.cons.inj hContent
    simp [hDigit] at start
  | hashComment cs => exact absurd (List.cons.inj hContent).1.symm hHash
  | separator => exact absurd (List.cons.inj hContent).1.symm hSeparator
  | operator cs h => rfl
  | mark d => rfl
  | _ => simp at hContent

/-- A token that ends in front of another one still does if the other one stays, unless what comes
behind makes both of them the opening of a heredoc. -/
theorem stops_congr {t u : Token} {x y : Text} (ht : t.kind ≠ .closeTag) (hu : Lexical u)
    (h : stops t (u.content ++ x) = true) (hx : stops u x = true) (hy : stops u y = true)
    (hHead : u.content = ['<'] → y.head? = some '<' → x.head? = some '<') :
    stops t (u.content ++ y) = true := by
  match hContent : u.content with
  | [] => exact absurd hContent hu.content_ne_nil
  | c :: d :: more =>
    rw [hContent] at h
    rwa [stops_of_take_two (show (c :: d :: more ++ y).take 2 = (c :: d :: more ++ x).take 2 from rfl)]
  | [c] =>
    rw [hContent, List.singleton_append] at h
    rw [List.singleton_append]
    -- of one character, only a comment and three marks look at what comes behind it
    have hMark (hBlank : isBlank c = false) (hName : isNameStart c = false)
        (hDigit : isDigit c = false) (hQuote : isQuote c = false) (hOther : c ≠ '\\' ∧ c ≠ '#') :
        punctStops [c] x = true ∧ punctStops [c] y = true := by
      have hKind := hu.kind_eq_punct hContent hBlank hName hDigit hQuote hOther.1 hOther.2
      simp only [stops, hKind, hContent] at hx hy
      exact ⟨hx, hy⟩
    have hLine (hEnd : lineCommentLength (c :: x) = 0) : lineCommentLength (c :: y) = 0 := by
      rw [lineCommentLength_cons] at hEnd ⊢
      split at hEnd
      · next hStop =>
        rw [Bool.or_assoc, Bool.or_eq_true, Bool.and_eq_true, beq_iff_eq, beq_iff_eq] at hStop
        rcases hStop with ⟨rfl, hClose⟩ | hBreak
        · have hQuestion := (hMark (by decide) (by decide) (by decide) (by decide) (by decide)).1
          simp [punctStops, hClose] at hQuestion
        · simp [Bool.or_assoc, hBreak]
      · simp at hEnd
    have hPunct (hEnd : punctStops t.content (c :: x) = true) :
        punctStops t.content (c :: y) = true := by
      unfold punctStops at hEnd ⊢
      split <;> simp_all [List.isPrefixOf]
      · by_cases hDash : c = '-'
        · subst hDash
          have hClose := (hMark (by decide) (by decide) (by decide) (by decide) (by decide) (by decide)).2
          exact .inr (by simpa [punctStops, isPrefixOf_singleton] using hClose)
        · exact .inl (Ne.symm hDash)
      · rw [isPrefixOf_singleton, beq_eq_false_iff_ne] at hEnd ⊢
        by_cases hLess : c = '<'
        · exact hEnd.imp_right fun hNot hTag => hNot (hHead hLess hTag)
        · exact .inl (Ne.symm hLess)
    simp only [stops] at h ⊢
    split <;> simp_all
    exact h.imp_right hLine

/-! ## Lists of tokens -/

/-- The token `t` is read if `after` follows it, in code or in markup. -/
def ReadsIn (inCode : Bool) (t : Token) (after : Text) : Prop :=
  if inCode then Lexical t.raw ∧ stops t.raw after = true else ReadsMarkup t after

/-- Where the text is read on behind a token. -/
def nextMode (inCode : Bool) (t : Token) : Bool :=
  if inCode then t.kind != .closeTag else t.kind == .openTag

/-- The tokens are read one after the other if `after` follows them. -/
def Scans : Bool → List Token → Text → Prop
  | _, [], _ => True
  | inCode, t :: ts, after => ReadsIn inCode t (textOf ts ++ after) ∧ Scans (nextMode inCode t) ts after

/-- Where the text is read on behind a list of tokens. -/
def modeAfter (inCode : Bool) (ts : List Token) : Bool :=
  ts.foldl nextMode inCode

@[simp] theorem modeAfter_nil (inCode : Bool) : modeAfter inCode [] = inCode :=
  rfl

@[simp] theorem modeAfter_cons (inCode : Bool) (t : Token) (ts : List Token) :
    modeAfter inCode (t :: ts) = modeAfter (nextMode inCode t) ts :=
  rfl

@[simp] theorem scans_nil (inCode : Bool) (after : Text) : Scans inCode [] after :=
  trivial

@[simp] theorem scans_cons {inCode : Bool} {t : Token} {ts : List Token} {after : Text} :
    Scans inCode (t :: ts) after ↔
      ReadsIn inCode t (textOf ts ++ after) ∧ Scans (nextMode inCode t) ts after :=
  Iff.rfl

theorem scans_append {inCode : Bool} {as bs : List Token} {after : Text} :
    Scans inCode (as ++ bs) after ↔
      Scans inCode as (textOf bs ++ after) ∧ Scans (modeAfter inCode as) bs after := by
  induction as generalizing inCode with
  | nil => simp
  | cons t as ih => simp [ih, and_assoc]

theorem ReadsMarkup.raw_eq {t : Token} {after : Text} (h : ReadsMarkup t after) : t.raw = t := by
  obtain ⟨kind, content⟩ := t
  obtain ⟨c, cs, -, ⟨rfl, -⟩ | ⟨rfl, -⟩⟩ := h <;> rfl

theorem Token.raw_closeTag (t : Token) : (t.raw.kind != .closeTag) = (t.kind != .closeTag) := by
  rw [bne, bne, Bool.eq_iff_iff]
  simp [Token.raw, @TokenKind.raw_eq_iff t.kind .closeTag rfl]

theorem ReadsIn.raw_congr {inCode : Bool} {t u : Token} {after : Text} (h : u.raw = t.raw)
    (ht : ReadsIn inCode t after) : ReadsIn inCode u after := by
  cases inCode with
  | true =>
    unfold ReadsIn at ht ⊢
    rwa [h]
  | false =>
    -- markup has the same label before and after relabelling
    have hRaw := ReadsMarkup.raw_eq ht
    have hFixed : t.kind.isFixed = true := by
      obtain ⟨-, -, -, ⟨hKind, -⟩ | ⟨hKind, -⟩⟩ : ReadsMarkup t after := ht <;> rw [hKind] <;> rfl
    have hKind : u.kind = t.kind :=
      (TokenKind.raw_eq_iff hFixed u.content).mp (congrArg Token.kind (h.trans hRaw))
    have hContent : u.content = t.content := by rw [← u.raw_content, h, t.raw_content]
    obtain rfl : u = t := by
      obtain ⟨kind, content⟩ := u
      obtain ⟨kind', content'⟩ := t
      exact congr (congrArg Token.mk hKind) hContent
    exact ht

theorem nextMode_raw {t u : Token} (h : u.raw = t.raw) (inCode : Bool) :
    nextMode inCode u = nextMode inCode t := by
  have hKind (kind : TokenKind) (hFixed : kind.isFixed = true) :
      (u.kind == kind) = (t.kind == kind) := by
    have hSame : u.raw.kind = t.raw.kind := congrArg Token.kind h
    rw [Bool.eq_iff_iff, beq_iff_eq, beq_iff_eq]
    exact (TokenKind.raw_eq_iff hFixed u.content).symm.trans
      ((Eq.congr_left hSame).trans (TokenKind.raw_eq_iff hFixed t.content))
  simp only [nextMode, bne, hKind .closeTag rfl, hKind .openTag rfl]

/-- Whether tokens are read does not depend on their labels. -/
theorem Scans.raw_congr {inCode : Bool} {ts us : List Token} {after : Text}
    (h : us.map Token.raw = ts.map Token.raw) (hts : Scans inCode ts after) :
    Scans inCode us after ∧ modeAfter inCode us = modeAfter inCode ts := by
  induction ts generalizing inCode us with
  | nil =>
    obtain rfl : us = [] := by simpa using h
    exact ⟨trivial, rfl⟩
  | cons t ts ih =>
    cases us with
    | nil => simp at h
    | cons u us =>
      obtain ⟨hFirst, hLater⟩ := List.cons.inj h
      have hText : textOf us = textOf ts := by rw [← textOf_map_raw, hLater, textOf_map_raw]
      obtain ⟨hScans, hMode⟩ := ih hLater hts.2
      rw [modeAfter_cons, modeAfter_cons, scans_cons, nextMode_raw hFirst, hText]
      exact ⟨⟨hts.1.raw_congr hFirst, hScans⟩, hMode⟩

/-- One token is split off. -/
theorem lexFrom_of_readsIn {inCode : Bool} {t : Token} {after : Text} (h : ReadsIn inCode t after) :
    lexFrom inCode (t.content ++ after) = t.raw :: lexFrom (nextMode inCode t) after := by
  cases inCode with
  | true =>
    obtain ⟨hLexical, hStops⟩ : Lexical t.raw ∧ stops t.raw after = true := h
    obtain ⟨c, cs, hContent, hLexeme⟩ := reads_of_stops hLexical hStops
    rw [Token.raw_content] at hContent
    have hRaw : t.raw = ⟨t.raw.kind, c :: cs⟩ := by rw [← hContent, ← t.raw_content]
    rw [hContent, List.cons_append, lexFrom_code hLexeme, List.take_left, List.drop_left, ← hRaw,
      Token.raw_closeTag]
    rfl
  | false =>
    rw [ReadsMarkup.raw_eq h]
    obtain ⟨kind, content⟩ := t
    obtain ⟨c, cs, rfl, ⟨rfl, hTag⟩ | ⟨rfl, hNone, hLength⟩⟩ : ReadsMarkup ⟨kind, content⟩ after := h
    · rw [List.cons_append, lexFrom_openTag hTag, List.take_left, List.drop_left]
      rfl
    · have hTag : openTagLength? c (cs ++ after) = none := by simpa [opensCode] using hNone
      rw [List.cons_append, lexFrom_html hTag, hLength, List.take_left, List.drop_left]
      rfl

/-- Tokens that are read one after the other are what the text is split into. -/
theorem lexFrom_of_scans {inCode : Bool} {ts : List Token} {after : Text}
    (h : Scans inCode ts after) :
    lexFrom inCode (textOf ts ++ after) = ts.map Token.raw ++ lexFrom (modeAfter inCode ts) after := by
  induction ts generalizing inCode with
  | nil => rfl
  | cons t ts ih =>
    rw [textOf_cons, List.append_assoc, lexFrom_of_readsIn h.1, ih h.2]
    rfl

theorem openTag_head {c : Char} {rest : Text} (h : opensCode (c :: rest) = true) : c = '<' := by
  rw [opensCode_cons, Bool.and_eq_true, beq_iff_eq] at h
  exact h.1

theorem openTagLength?_first {c : Char} {rest : Text} {n : Nat}
    (h : openTagLength? c rest = some n) : c = '<' :=
  @openTag_head c rest (by simp [opensCode, h])

theorem opensCode_of_htmlLength {cs a : Text} (h : htmlLength (cs ++ a) = cs.length) (ha : a ≠ []) :
    opensCode a = true := by
  induction cs with
  | nil =>
    obtain ⟨c, rest, rfl⟩ := List.exists_cons_of_ne_nil ha
    rw [List.nil_append, htmlLength_cons] at h
    by_contra hNone
    simp [hNone] at h
  | cons c cs ih =>
    rw [List.cons_append, htmlLength_cons] at h
    split at h
    · simp at h
    · exact ih (by simpa using h)

/-- The text of an open tag that something follows. -/
def IsOpenTag (cs : Text) : Prop :=
  cs = "?=".toList ∨ ∃ a b c space, cs = '?' :: a :: b :: c :: space ∧
    lower [a, b, c] = "php".toList ∧ (space = ['\r', '\n'] ∨ ∃ d, space = [d] ∧ isBlank d = true)

/-- How much the long tag takes along behind its word. -/
def tagSpaceLength? : Text → Option Nat
  | [] => some 0
  | d :: rest =>
    if d == '\r' && rest.head? == some '\n' then some 2 else if isBlank d then some 1 else none

theorem tagSpaceLength?_append_iff {space after : Text} (hAfter : after ≠ []) :
    tagSpaceLength? (space ++ after) = some space.length ↔
      space = ['\r', '\n'] ∨
        ∃ d, space = [d] ∧ isBlank d = true ∧ (d = '\r' → after.head? ≠ some '\n') := by
  obtain ⟨next, later, rfl⟩ := List.exists_cons_of_ne_nil hAfter
  -- at most two characters are taken, so three lengths of `space` count
  rcases space with _ | ⟨p, _ | ⟨q, _ | ⟨r, more⟩⟩⟩ <;>
    simp only [List.nil_append, List.cons_append, tagSpaceLength?] <;> grind

theorem openTagLength?_long {a b c : Char} (hWord : lower [a, b, c] = "php".toList) (rest : Text) :
    openTagLength? '<' ('?' :: a :: b :: c :: rest) = (tagSpaceLength? rest).map (· + 4) := by
  have hShort : ¬ ('<' == '<' && "?=".toList.isPrefixOf ('?' :: a :: b :: c :: rest)) = true := by
    intro hTag
    obtain rfl : '=' = a := by simpa [List.isPrefixOf] using hTag
    rw [lower, lowerAfter, if_neg (by decide), if_neg (by decide)] at hWord
    exact absurd (List.cons.inj hWord).1 (by decide)
  have hLong : ('<' == '<' && ('?' :: a :: b :: c :: rest).head? == some '?' &&
      lower ((('?' :: a :: b :: c :: rest).drop 1).take 3) == "php".toList) = true := by
    simpa using hWord
  rw [openTagLength?, if_neg hShort, if_pos hLong]
  simp only [List.drop_succ_cons, List.drop_zero]
  split
  · rfl
  · rfl
  · next d tail hNot =>
    have hBreak : (d == '\r' && tail.head? == some '\n') = false := by
      rw [Bool.and_eq_false_iff, beq_eq_false_iff_ne, beq_eq_false_iff_ne, ← not_and_or]
      rintro ⟨hReturn, hLine⟩
      obtain ⟨more, rfl⟩ := List.head?_eq_some_iff.mp hLine
      exact hNot more hReturn rfl
    rw [tagSpaceLength?, hBreak]
    split <;> rfl

theorem four_le_of_openTagLength? {rest : Text} {n : Nat} (h : openTagLength? '<' rest = some n)
    (hShort : "?=".toList.isPrefixOf rest = false) : 4 ≤ n := by
  rw [openTagLength?, hShort, Bool.and_false, if_neg Bool.false_ne_true] at h
  split at h
  · split at h
    · exact (Option.some.inj h).le
    · exact (Option.some.inj h) ▸ by decide
    · split at h
      · exact (Option.some.inj h) ▸ by decide
      · cases h
  · cases h

theorem isOpenTag_of_length {cs after : Text} (hAfter : after ≠ [])
    (h : openTagLength? '<' (cs ++ after) = some cs.length) :
    IsOpenTag cs ∧ (cs.getLast? = some '\r' → after.head? ≠ some '\n') := by
  cases hShort : "?=".toList.isPrefixOf (cs ++ after) with
  | true =>
    rw [openTagLength?, hShort, if_pos (by decide)] at h
    match cs, Option.some.inj h with
    | [d, e], _ =>
      obtain ⟨rfl, rfl⟩ : '?' = d ∧ '=' = e := by simpa [List.isPrefixOf] using hShort
      exact ⟨.inl rfl, by simp⟩
  | false =>
    match cs, four_le_of_openTagLength? h hShort with
    | d :: e :: f :: g :: space, _ =>
      obtain ⟨rfl, hWord⟩ : d = '?' ∧ lower [e, f, g] = "php".toList := by
        by_contra hNone
        rw [openTagLength?, hShort, Bool.and_false, if_neg Bool.false_ne_true,
          if_neg (by simpa using hNone)] at h
        cases h
      simp only [List.cons_append, openTagLength?_long hWord] at h
      rcases (tagSpaceLength?_append_iff hAfter).mp (by simpa using h) with
        rfl | ⟨p, rfl, hBlank, hBreak⟩
      · exact ⟨.inr ⟨e, f, g, _, rfl, hWord, .inl rfl⟩, by simp⟩
      · exact ⟨.inr ⟨e, f, g, _, rfl, hWord, .inr ⟨p, rfl, hBlank⟩⟩, by simpa using hBreak⟩

theorem IsOpenTag.length {cs after : Text} (h : IsOpenTag cs) (hAfter : after ≠ [])
    (hBreak : cs.getLast? = some '\r' → after.head? ≠ some '\n') :
    openTagLength? '<' (cs ++ after) = some cs.length := by
  rcases h with rfl | ⟨a, b, c, space, rfl, hWord, hSpace⟩
  · simp [openTagLength?, List.isPrefixOf]
  · have hTaken : tagSpaceLength? (space ++ after) = some space.length := by
      rw [tagSpaceLength?_append_iff hAfter]
      refine hSpace.imp_right fun ⟨d, hSingle, hBlank⟩ => ⟨d, hSingle, hBlank, fun hReturn => ?_⟩
      subst hSingle
      exact hBreak (by simp [hReturn])
    simp only [List.cons_append, openTagLength?_long hWord, hTaken, Option.map_some,
      List.length_cons]

theorem openTagLength?_append_iff {cs after : Text} (hAfter : after ≠ []) :
    openTagLength? '<' (cs ++ after) = some cs.length ↔
      IsOpenTag cs ∧ (cs.getLast? = some '\r' → after.head? ≠ some '\n') :=
  ⟨isOpenTag_of_length hAfter, fun ⟨hTag, hBreak⟩ => hTag.length hAfter hBreak⟩

/-- A close tag ends in front of markup whatever comes behind that. -/
theorem stops_closeTag_congr {t u : Token} {x y : Text} (ht : t.kind = .closeTag)
    (h : stops t (u.content ++ x) = true) (hy : ReadsMarkup u y) :
    stops t (u.content ++ y) = true := by
  simp only [stops, ht, Bool.or_eq_true, beq_iff_eq] at h ⊢
  refine h.imp_right fun hBreak => ?_
  obtain ⟨c, cs, hContent, hRead⟩ := hy
  rw [hContent] at hBreak ⊢
  cases cs with
  | cons d cs =>
    unfold lineBreakLength at hBreak ⊢
    split at hBreak <;> simp_all
  | nil =>
    rw [List.singleton_append] at hBreak ⊢
    have hNotBreak : y.head? ≠ some '\n' := by
      rcases hRead with ⟨-, hTag⟩ | ⟨-, -, hLength⟩
      · intro hNext
        obtain rfl := openTagLength?_first hTag
        have hy : y ≠ [] := by
          rintro rfl
          simp at hNext
        rw [openTagLength?_append_iff hy] at hTag
        obtain hShort | ⟨_, _, _, _, hLong, -⟩ := hTag.1
        · simp at hShort
        · simp at hLong
      · rw [List.nil_append] at hLength
        cases y with
        | nil => simp
        | cons d y =>
          rw [openTag_head (@opensCode_of_htmlLength [] (d :: y) hLength (by simp))]
          simp
    unfold lineBreakLength at hBreak ⊢
    split <;> simp_all

/-- An open tag is read in front of any text with the same first character. -/
theorem ReadsMarkup.congr_openTag {t : Token} {next x y : Text} (hKind : t.kind = .openTag)
    (h : ReadsMarkup t (next ++ x)) (hNext : next ≠ []) : ReadsMarkup t (next ++ y) := by
  obtain ⟨c, cs, hContent, ⟨-, hTag⟩ | ⟨hHtml, -⟩⟩ := h
  · refine ⟨c, cs, hContent, .inl ⟨hKind, ?_⟩⟩
    have hHead (later : Text) : (next ++ later).head? = next.head? :=
      List.head?_append_of_ne_nil _ hNext
    obtain rfl := openTagLength?_first hTag
    rw [openTagLength?_append_iff (by simp [hNext]), hHead] at hTag ⊢
    exact hTag
  · simp [hKind] at hHtml

/-- Inline HTML is followed by an open tag, and ends in front of it whatever comes behind that. -/
theorem ReadsMarkup.congr_inlineHtml {t u : Token} {x y : Text} (hKind : t.kind = .inlineHtml)
    (h : ReadsMarkup t (u.content ++ x)) (hx : ReadsMarkup u x) (hy : ReadsMarkup u y) :
    ReadsMarkup t (u.content ++ y) := by
  obtain ⟨c, cs, hContent, ⟨hTag, -⟩ | ⟨-, hNone, hLength⟩⟩ := h
  · simp [hKind] at hTag
  · obtain ⟨d, ds, hTag, hx⟩ := hx
    obtain ⟨e, es, hTag', hy⟩ := hy
    obtain ⟨rfl, rfl⟩ := List.cons.inj (hTag.symm.trans hTag')
    rw [hTag, List.cons_append] at hNone hLength
    have hOpens := opensCode_of_htmlLength hLength (by simp)
    obtain rfl := openTag_head hOpens
    refine ⟨c, cs, hContent, .inr ⟨hKind, ?_, ?_⟩⟩
    · rw [hTag, List.cons_append, opensCode_append_tag c cs _ (ds ++ x)]
      exact hNone
    · rw [hTag, List.cons_append]
      refine htmlLength_append_tag hLength ?_
      rcases hy with ⟨-, hy⟩ | ⟨hHtml, -⟩
      · simp [opensCode, hy]
      · -- HTML does not follow HTML: the next token opens code in front of `x`
        rcases hx with ⟨hOpen, -⟩ | ⟨-, hNot, -⟩
        · simp [hOpen] at hHtml
        · simp [hNot] at hOpens

/-- A token that is read in front of another one still is if what comes behind that changes. -/
theorem ReadsIn.congr {inCode : Bool} {t u : Token} {x y : Text}
    (h : ReadsIn inCode t (u.content ++ x)) (hx : ReadsIn (nextMode inCode t) u x)
    (hy : ReadsIn (nextMode inCode t) u y)
    (hHead : u.content = ['<'] → y.head? = some '<' → x.head? = some '<') :
    ReadsIn inCode t (u.content ++ y) := by
  cases inCode with
  | true =>
    obtain ⟨hLexical, hStops⟩ : Lexical t.raw ∧ stops t.raw (u.content ++ x) = true := h
    refine ⟨hLexical, ?_⟩
    -- behind a close tag the next token is markup, otherwise it is code
    have hRaw := t.raw_closeTag
    cases hClose : t.kind != .closeTag with
    | true =>
      simp only [nextMode, if_true, hClose] at hx hy
      rw [hClose] at hRaw
      exact @stops_congr t.raw u.raw x y (by simpa using hRaw) hx.1 hStops hx.2 hy.2 hHead
    | false =>
      simp only [nextMode, if_true, hClose] at hx hy
      rw [hClose] at hRaw
      exact stops_closeTag_congr (by simpa using hRaw) hStops hy
  | false =>
    have hMarkup : ReadsMarkup t (u.content ++ x) := h
    have hKinds : t.kind = .openTag ∨ t.kind = .inlineHtml := by
      obtain ⟨_, _, _, hRead⟩ := hMarkup
      exact hRead.imp And.left And.left
    rcases hKinds with hKind | hKind
    · simp only [nextMode, Bool.false_eq_true, if_false, hKind, beq_self_eq_true] at hx
      exact hMarkup.congr_openTag hKind hx.1.content_ne_nil
    · have hNext : ReadsMarkup u x ∧ ReadsMarkup u y := by
        simp only [nextMode, Bool.false_eq_true, if_false, hKind] at hx hy
        exact ⟨hx, hy⟩
      exact hMarkup.congr_inlineHtml hKind hNext.1 hNext.2

theorem ReadsIn.content_ne_nil {inCode : Bool} {t : Token} {x : Text} (h : ReadsIn inCode t x) :
    t.content ≠ [] := by
  cases inCode with
  | true =>
    obtain ⟨hLexical, -⟩ : Lexical t.raw ∧ stops t.raw x = true := h
    exact hLexical.content_ne_nil
  | false =>
    obtain ⟨c, cs, hContent, -⟩ : ReadsMarkup t x := h
    simp [hContent]

/-- Tokens that are read in front of one text are read in front of another one if the last of them
is. -/
theorem Scans.congr {inCode : Bool} {ts : List Token} {t : Token} {x y : Text}
    (h : Scans inCode (ts ++ [t]) x) (hLast : ReadsIn (modeAfter inCode ts) t y)
    (hHead : t.content = ['<'] → y.head? = some '<' → x.head? = some '<') :
    Scans inCode (ts ++ [t]) y := by
  induction ts generalizing inCode with
  | nil => simpa using hLast
  | cons s ts ih =>
    rw [List.cons_append, scans_cons] at h ⊢
    have hRest := ih h.2 hLast
    refine ⟨?_, hRest⟩
    cases ts with
    | nil =>
      simp only [List.nil_append, textOf_cons, textOf_nil, List.append_nil, scans_cons,
        List.nil_append, scans_nil, and_true] at h hRest ⊢
      exact h.1.congr h.2 hRest hHead
    | cons u ts =>
      simp only [List.cons_append, textOf_cons, List.append_assoc, scans_cons] at h hRest ⊢
      refine h.1.congr h.2.1 hRest.1 ?_
      -- the tokens in between are not empty
      have hLater : textOf (ts ++ [t]) ≠ [] := by
        simp [hLast.content_ne_nil]
      rw [List.head?_append_of_ne_nil _ hLater, List.head?_append_of_ne_nil _ hLater]
      exact fun _ => id

/-! ## Tokens that were read -/

/-- Every string and every heredoc is closed. -/
def stringsClosed : List Token → Bool
  | [] => true
  | t :: rest => !opensText t (textOf rest) && stringsClosed rest

theorem readsIn_of_lexFrom {inCode : Bool} {text : Text} {t : Token} {later : List Token}
    (h : lexFrom inCode text = t.raw :: later) (hLater : later ≠ [])
    (hClosed : opensText t.raw (textOf later) = false) :
    ReadsIn inCode t (textOf later) ∧ lexFrom (nextMode inCode t) (textOf later) = later := by
  cases text with
  | nil => simp at h
  | cons c rest =>
    -- in each case something is left of the text behind the token
    have hCut {mode : Bool} {n : Nat} (hn : lexFrom mode (rest.drop n) ≠ []) :
        rest.drop n ≠ [] ∧ (rest.take n).length = n := by
      have hRest : rest.drop n ≠ [] := by
        intro hNil
        simp [hNil] at hn
      refine ⟨hRest, List.length_take_of_le ?_⟩
      rw [ne_eq, List.drop_eq_nil_iff] at hRest
      omega
    cases inCode with
    | true =>
      obtain ⟨kind, n, hLexeme⟩ : ∃ kind n, lexeme c rest = (kind, n) := ⟨_, _, rfl⟩
      rw [lexFrom_code hLexeme, List.cons.injEq] at h
      obtain ⟨ht, rfl⟩ := h
      obtain ⟨hRest, hLength⟩ := hCut hLater
      rw [textOf_lexFrom] at hClosed ⊢
      have hReads : Reads t.raw (rest.drop n) := by
        refine ⟨c, rest.take n, by rw [← ht], ?_⟩
        rw [List.take_append_drop, hLexeme, ← ht, hLength]
      refine ⟨lexical_of_reads hReads hRest hClosed, ?_⟩
      rw [nextMode, if_pos rfl, ← Token.raw_closeTag, ← ht]
    | false =>
      cases hTag : openTagLength? c rest with
      | some n =>
        rw [lexFrom_openTag hTag, List.cons.injEq] at h
        obtain ⟨ht, rfl⟩ := h
        obtain ⟨hRest, hLength⟩ := hCut hLater
        have hKind : t.kind = .openTag :=
          (TokenKind.raw_eq_iff rfl t.content).mp (congrArg Token.kind ht).symm
        rw [textOf_lexFrom, nextMode, if_neg (by simp), hKind]
        refine ⟨⟨c, rest.take n, (congrArg Token.content ht).symm, .inl ⟨hKind, ?_⟩⟩, rfl⟩
        rw [List.take_append_drop, hTag, hLength]
      | none =>
        rw [lexFrom_html hTag, List.cons.injEq] at h
        obtain ⟨ht, rfl⟩ := h
        obtain ⟨hRest, hLength⟩ := hCut hLater
        have hKind : t.kind = .inlineHtml :=
          (TokenKind.raw_eq_iff rfl t.content).mp (congrArg Token.kind ht).symm
        rw [textOf_lexFrom, nextMode, if_neg (by simp), hKind]
        refine ⟨⟨c, rest.take _, (congrArg Token.content ht).symm, .inr ⟨hKind, ?_, ?_⟩⟩, rfl⟩
        · rw [List.take_append_drop, opensCode, hTag]
          rfl
        · rw [List.take_append_drop, hLength]

/-- The tokens of a text are read one after the other. -/
theorem scans_of_lexFrom {inCode : Bool} {text : Text} {ts later : List Token}
    (h : lexFrom inCode text = ts.map Token.raw ++ later) (hLater : later ≠ [])
    (hClosed : stringsClosed (lexFrom inCode text) = true) :
    Scans inCode ts (textOf later) ∧ lexFrom (modeAfter inCode ts) (textOf later) = later := by
  induction ts generalizing inCode text with
  | nil =>
    rw [List.map_nil, List.nil_append] at h
    subst h
    rw [textOf_lexFrom]
    exact ⟨trivial, rfl⟩
  | cons t ts ih =>
    rw [List.map_cons, List.cons_append] at h
    rw [h, stringsClosed, Bool.and_eq_true, Bool.not_eq_true'] at hClosed
    obtain ⟨hFirst, hRest⟩ := readsIn_of_lexFrom h (by simp [hLater]) hClosed.1
    have hScans := ih hRest (by rw [hRest]; exact hClosed.2)
    rw [textOf_append, textOf_map_raw] at hFirst
    exact ⟨⟨hFirst, hScans.1⟩, hScans.2⟩

theorem TokenKind.raw_ofWord (word : Text) : (TokenKind.ofWord word).raw word = .ofWord word := by
  rcases ofWord_cases word with hWord | hWord | hWord <;> rw [hWord, TokenKind.raw, hWord]

theorem raw_lexeme (c : Char) (rest : Text) :
    (lexeme c rest).1.raw (c :: rest.take (lexeme c rest).2) = (lexeme c rest).1 := by
  simp only [lexeme]
  repeat' split
  all_goals first | rfl | exact TokenKind.raw_ofWord _

theorem raw_of_mem_lexFrom (inCode : Bool) (text : Text) : ∀ t ∈ lexFrom inCode text, t.raw = t := by
  refine forall_mem_lexFrom (fun {c rest kind n} h => ?_) (fun _ _ => rfl) (fun _ _ => rfl) inCode text
  have hKind := raw_lexeme c rest
  rw [h] at hKind
  rw [Token.raw, hKind]

theorem Relabels.raw_eq {t : Token} {kind : TokenKind} (h : Relabels t kind) (ht : t.raw = t) :
    (⟨kind, t.content⟩ : Token).raw = t := by
  cases h with
  | same => exact ht
  | constWord hKind _ | functionWord hKind _ | memberUse hKind | closureUse hKind | traitUse hKind
  | relativeName hKind =>
    rw [Token.raw, hKind] at ht
    exact ht
  | groupOpen hBrace | groupClose hBrace =>
    rw [Token.isPunct, Bool.and_eq_true, beq_iff_eq] at hBrace
    rw [Token.raw, hBrace.1] at ht
    exact ht

/-- Relabelling is undone. -/
theorem map_raw_classifyFrom (c : Context) {ts : List Token} (h : ∀ t ∈ ts, t.raw = t) :
    (classifyFrom c ts).map Token.raw = ts := by
  induction ts generalizing c with
  | nil => rfl
  | cons t ts ih =>
    rw [classifyFrom_cons, List.map_cons, ih _ fun u hu => h u (List.mem_cons_of_mem _ hu),
      (Relabels.step c t ts).raw_eq (h t List.mem_cons_self)]

theorem map_raw_classify (source : Text) : (classify (lex source)).map Token.raw = lex source :=
  map_raw_classifyFrom {} (raw_of_mem_lexFrom false source)

end UseOrder
