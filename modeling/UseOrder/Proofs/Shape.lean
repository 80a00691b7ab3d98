import UseOrder.Proofs.Cell
import UseOrder.Token.Context
import UseOrder.Token.Lexer

/-!
# The shape of the tokens of a source text

What every list of tokens that comes from a source text has in common, whatever the text. Code and
markup alternate (`Alternates`), so no open tag stands inside a statement and code starts again
between a close tag and the next `use`. No token is empty. And relabelling gives a qualifier its
kind only as the first meaningful token of an import (`qualifier_first`).
-/

namespace UseOrder

/-! ## Splitting -/

/-- Markup and open tags stand outside code, everything else inside. -/
def Alternates : Bool → List Token → Prop
  | _, [] => True
  | true, t :: rest =>
    t.kind ≠ .openTag ∧ t.kind ≠ .inlineHtml ∧ Alternates (t.kind != .closeTag) rest
  | false, t :: rest =>
    (t.kind = .openTag ∧ Alternates true rest) ∨ (t.kind = .inlineHtml ∧ Alternates false rest)

/-- The kinds that tokens of code can have before relabelling. -/
def TokenKind.isCode : TokenKind → Bool
  | closeTag | whitespace | comment | docComment | variableName | stringLiteral | number | name
  | separator | useWord | namespaceWord | punct => true
  | _ => false

theorem isCode_ofWord (word : Text) : (TokenKind.ofWord word).isCode = true := by
  simp only [TokenKind.ofWord]
  split
  · rfl
  · split <;> rfl

theorem isCode_lexeme (c : Char) (rest : Text) : (lexeme c rest).1.isCode = true := by
  simp only [lexeme]
  repeat' split
  all_goals first | rfl | exact isCode_ofWord _

@[simp] theorem lexFrom_nil (inCode : Bool) : lexFrom inCode [] = [] := by
  rw [lexFrom]

theorem lexFrom_code {c : Char} {rest : Text} {kind : TokenKind} {n : Nat}
    (h : lexeme c rest = (kind, n)) :
    lexFrom true (c :: rest) =
      ⟨kind, c :: rest.take n⟩ :: lexFrom (kind != .closeTag) (rest.drop n) := by
  rw [lexFrom, if_pos rfl, h]

theorem lexFrom_openTag {c : Char} {rest : Text} {n : Nat} (h : openTagLength? c rest = some n) :
    lexFrom false (c :: rest) = ⟨.openTag, c :: rest.take n⟩ :: lexFrom true (rest.drop n) := by
  rw [lexFrom, if_neg (by simp), h]

theorem lexFrom_html {c : Char} {rest : Text} (h : openTagLength? c rest = none) :
    lexFrom false (c :: rest) =
      ⟨.inlineHtml, c :: rest.take (htmlLength rest)⟩ ::
        lexFrom false (rest.drop (htmlLength rest)) := by
  rw [lexFrom, if_neg (by simp), h]

/-- Induction over a text as it is split: behind a token of code, behind an open tag, or behind the
HTML in front of one, the text is split on. -/
theorem lexFrom_induction {motive : Bool → Text → Prop} (nil : ∀ inCode, motive inCode [])
    (code : ∀ (c : Char) (rest : Text) (kind : TokenKind) (n : Nat), lexeme c rest = (kind, n) →
      motive (kind != .closeTag) (rest.drop n) → motive true (c :: rest))
    (openTag : ∀ (c : Char) (rest : Text) (n : Nat), openTagLength? c rest = some n →
      motive true (rest.drop n) → motive false (c :: rest))
    (html : ∀ (c : Char) (rest : Text), openTagLength? c rest = none →
      motive false (rest.drop (htmlLength rest)) → motive false (c :: rest))
    (inCode : Bool) (text : Text) : motive inCode text := by
  induction inCode, text using lexFrom.induct with
  | case1 inCode => exact nil inCode
  | case2 c rest kind n h ih => exact code c rest kind n h ih
  | case3 inCode c rest hMode n h ih =>
    obtain rfl : inCode = false := by simpa using hMode
    exact openTag c rest n h ih
  | case4 inCode c rest hMode h n ih =>
    obtain rfl : inCode = false := by simpa using hMode
    exact html c rest h ih

/-- What holds of every token of code and of all markup holds of every token of a text. -/
theorem forall_mem_lexFrom {P : Token → Prop}
    (code : ∀ {c : Char} {rest : Text} {kind : TokenKind} {n : Nat}, lexeme c rest = (kind, n) →
      P ⟨kind, c :: rest.take n⟩)
    (openTag : ∀ c cs, P ⟨.openTag, c :: cs⟩) (html : ∀ c cs, P ⟨.inlineHtml, c :: cs⟩)
    (inCode : Bool) (text : Text) : ∀ t ∈ lexFrom inCode text, P t := by
  induction inCode, text using lexFrom_induction with
  | nil inCode => simp
  | code c rest kind n h ih =>
    rw [lexFrom_code h]
    exact List.forall_mem_cons.mpr ⟨code h, ih⟩
  | openTag c rest n h ih =>
    rw [lexFrom_openTag h]
    exact List.forall_mem_cons.mpr ⟨openTag c _, ih⟩
  | html c rest h ih =>
    rw [lexFrom_html h]
    exact List.forall_mem_cons.mpr ⟨html c _, ih⟩

/-- What holds between a token and the first one behind it holds between all neighbours in a
text. -/
theorem isChain_lexFrom {R : Token → Token → Prop}
    (code : ∀ {c : Char} {rest : Text} {kind : TokenKind} {n : Nat}, lexeme c rest = (kind, n) →
      ∀ next ∈ (lexFrom (kind != .closeTag) (rest.drop n)).head?, R ⟨kind, c :: rest.take n⟩ next)
    (openTag : ∀ (content rest : Text), ∀ next ∈ (lexFrom true rest).head?,
      R ⟨.openTag, content⟩ next)
    (html : ∀ (content rest : Text), ∀ next ∈ (lexFrom false (rest.drop (htmlLength rest))).head?,
      R ⟨.inlineHtml, content⟩ next)
    (inCode : Bool) (text : Text) : (lexFrom inCode text).IsChain R := by
  induction inCode, text using lexFrom_induction with
  | nil inCode => simp
  | code c rest kind n h ih =>
    rw [lexFrom_code h, List.isChain_cons]
    exact ⟨code h, ih⟩
  | openTag c rest n h ih =>
    rw [lexFrom_openTag h, List.isChain_cons]
    exact ⟨openTag _ _, ih⟩
  | html c rest h ih =>
    rw [lexFrom_html h, List.isChain_cons]
    exact ⟨html _ rest, ih⟩

/-- Every token that splitting gives has a kind of its own and some content. -/
structure RawToken (t : Token) : Prop where
  kind : t.kind.isCode = true ∨ t.kind = .openTag ∨ t.kind = .inlineHtml
  content : t.content ≠ []

theorem rawToken_lexFrom (inCode : Bool) (text : Text) : ∀ t ∈ lexFrom inCode text, RawToken t := by
  refine forall_mem_lexFrom (fun {c rest kind n} h => ?_) (fun _ _ => ⟨.inr (.inl rfl), by simp⟩)
    (fun _ _ => ⟨.inr (.inr rfl), by simp⟩) inCode text
  have hKind := isCode_lexeme c rest
  rw [h] at hKind
  exact ⟨.inl hKind, by simp⟩

theorem alternates_lexFrom (inCode : Bool) (text : Text) :
    Alternates inCode (lexFrom inCode text) := by
  induction inCode, text using lexFrom_induction with
  | nil inCode => simp [Alternates]
  | code c rest kind n h ih =>
    have hKind := isCode_lexeme c rest
    rw [h] at hKind
    rw [lexFrom_code h, Alternates]
    refine ⟨?_, ?_, ih⟩ <;> (rintro rfl; simp [TokenKind.isCode] at hKind)
  | openTag c rest n h ih =>
    rw [lexFrom_openTag h]
    exact .inl ⟨rfl, ih⟩
  | html c rest h ih =>
    rw [lexFrom_html h]
    exact .inr ⟨rfl, ih⟩

/-! ## Relabelling -/

/-- The kinds that relabelling may give a token. -/
inductive Relabels (t : Token) : TokenKind → Prop
  | same : Relabels t t.kind
  | constWord (name : t.kind = .name) (word : lower t.content = "const".toList) :
    Relabels t .constWord
  | functionWord (name : t.kind = .name) (word : lower t.content = "function".toList) :
    Relabels t .functionWord
  | groupOpen (brace : t.isPunct "\x7b".toList = true) : Relabels t .groupOpen
  | groupClose (brace : t.isPunct "\x7d".toList = true) : Relabels t .groupClose
  | memberUse (word : t.kind = .useWord) : Relabels t .name
  | closureUse (word : t.kind = .useWord) : Relabels t .closureUse
  | traitUse (word : t.kind = .useWord) : Relabels t .traitUse
  | relativeName (word : t.kind = .namespaceWord) : Relabels t .name

theorem Relabels.importKind (first : Bool) (t : Token) (rest : List Token) :
    Relabels t (Context.importKind first t rest) := by
  unfold Context.importKind Context.qualifierKind?
  split
  · next h => exact .groupOpen h
  · split
    · next h => exact .groupClose h
    · split
      · split
        · next h =>
          rw [Bool.and_eq_true, beq_iff_eq] at h
          simp only
          split
          · next hWord => exact .constWord h.1 (by simpa using hWord)
          · split
            · next hWord => exact .functionWord h.1 (by simpa using hWord)
            · exact .same
        · exact .same
      · exact .same

theorem Relabels.codeKind (c : Context) (t : Token) (rest : List Token) :
    Relabels t (c.codeKind t rest).1 := by
  unfold Context.codeKind
  split
  · next h =>
    rw [beq_iff_eq] at h
    split
    · exact .memberUse h
    · split
      · exact .closureUse h
      · split
        · exact .traitUse h
        · exact h ▸ .same
  · split
    · next h =>
      rw [beq_iff_eq] at h
      split
      · exact .relativeName h
      · exact h ▸ .same
    · exact .same

theorem Relabels.step (c : Context) (t : Token) (rest : List Token) :
    Relabels t (c.step t rest).1 := by
  unfold Context.step
  split
  · exact Relabels.importKind _ t rest
  · exact Relabels.codeKind c t rest

/-- The kinds that relabelling neither takes away nor gives. -/
def TokenKind.isFixed : TokenKind → Bool
  | openTag | closeTag | inlineHtml | whitespace | comment | docComment | separator => true
  | _ => false

theorem Relabels.eq_fixed {t : Token} {kind fixed : TokenKind} (h : Relabels t kind)
    (hFixed : fixed.isFixed = true) : kind = fixed ↔ t.kind = fixed := by
  cases h with
  | same => rfl
  | constWord hKind _ | functionWord hKind _ | memberUse hKind | closureUse hKind | traitUse hKind
  | relativeName hKind =>
    rw [hKind]
    constructor <;> (rintro rfl; simp [TokenKind.isFixed] at hFixed)
  | groupOpen hBrace | groupClose hBrace =>
    rw [Token.isPunct, Bool.and_eq_true, beq_iff_eq] at hBrace
    rw [hBrace.1]
    constructor <;> (rintro rfl; simp [TokenKind.isFixed] at hFixed)

theorem Relabels.isMeaningful {t : Token} {kind : TokenKind} (h : Relabels t kind) :
    (⟨kind, t.content⟩ : Token).isMeaningful = t.isMeaningful := by
  have hKinds : ∀ k : TokenKind, k.isFixed = true → (kind == k) = (t.kind == k) := by
    intro k hk
    rw [Bool.eq_iff_iff, beq_iff_eq, beq_iff_eq]
    exact h.eq_fixed hk
  simp only [Token.isMeaningful, Token.isWhitespace, Token.isComment, hKinds .whitespace rfl,
    hKinds .comment rfl, hKinds .docComment rfl]

theorem Relabels.isTerminator {t : Token} {kind : TokenKind} (h : Relabels t kind) :
    (⟨kind, t.content⟩ : Token).isTerminator = t.isTerminator := by
  cases h with
  | same => rfl
  | constWord hKind _ | functionWord hKind _ | memberUse hKind | closureUse hKind | traitUse hKind
  | relativeName hKind =>
    simp only [Token.isTerminator, Token.isPunct, hKind]
    rfl
  | groupOpen hBrace | groupClose hBrace =>
    rw [Token.isPunct, Bool.and_eq_true, beq_iff_eq, beq_iff_eq] at hBrace
    simp [Token.isTerminator, Token.isPunct, hBrace]

theorem classifyFrom_cons (c : Context) (t : Token) (rest : List Token) :
    classifyFrom c (t :: rest) =
      ⟨(c.step t rest).1, t.content⟩ :: classifyFrom (c.step t rest).2 rest := rfl

theorem Alternates.classifyFrom {inCode : Bool} {ts : List Token} (h : Alternates inCode ts)
    (c : Context) : Alternates inCode (classifyFrom c ts) := by
  induction ts generalizing inCode c with
  | nil => simp [UseOrder.classifyFrom, Alternates]
  | cons t ts ih =>
    have hStep := Relabels.step c t ts
    rw [classifyFrom_cons]
    cases inCode with
    | true =>
      obtain ⟨hOpen, hHtml, hRest⟩ := h
      refine ⟨mt (hStep.eq_fixed rfl).mp hOpen, mt (hStep.eq_fixed rfl).mp hHtml, ?_⟩
      have hClose : ((c.step t ts).1 != .closeTag) = (t.kind != .closeTag) := by
        rw [bne, bne, Bool.eq_iff_iff]
        simp [@Relabels.eq_fixed _ _ .closeTag hStep rfl]
      simp only [hClose]
      exact ih hRest _
    | false =>
      rcases h with ⟨hOpen, hRest⟩ | ⟨hHtml, hRest⟩
      · exact .inl ⟨(hStep.eq_fixed rfl).mpr hOpen, ih hRest _⟩
      · exact .inr ⟨(hStep.eq_fixed rfl).mpr hHtml, ih hRest _⟩

/-! ## Qualifiers -/

@[simp] theorem Context.remember_place (c : Context) (t : Token) :
    (c.remember t).place = c.place := by
  unfold Context.remember
  split <;> rfl

theorem step_of_import {c : Context} {t : Token} (hc : c.place ≠ .code)
    (ht : t.isTerminator = false) (rest : List Token) :
    (c.step t rest).1 = Context.importKind (c.place == .importStart) t rest ∧
      (c.step t rest).2.place = if t.isMeaningful then .importBody else c.place := by
  have hPlace : (c.place != .code && !t.isTerminator) = true := by simp [hc, ht]
  simp [Context.step, hPlace]

theorem step_of_code {c : Context} {t : Token} (h : c.place = .code ∨ t.isTerminator = true)
    (rest : List Token) :
    (c.step t rest).1 = (c.codeKind t rest).1 ∧
      (c.step t rest).2.place = (c.codeKind t rest).2 := by
  have hPlace : (c.place != .code && !t.isTerminator) = false := by
    rcases h with h | h <;> simp [h]
  simp [Context.step, hPlace]

theorem RawToken.not_qualifier {t : Token} (h : RawToken t) : t.isQualifier = false := by
  have hKind := h.kind
  unfold Token.isQualifier
  cases ht : t.kind <;> simp_all [TokenKind.isCode]

/-- A token becomes a qualifier only as the first meaningful token of an import. -/
theorem place_of_qualifier {c : Context} {t : Token} {rest : List Token} (ht : RawToken t)
    (h : (⟨(c.step t rest).1, t.content⟩ : Token).isQualifier = true) :
    c.place = .importStart := by
  have hRaw := ht.not_qualifier
  by_cases hImport : c.place ≠ .code ∧ t.isTerminator = false
  · rw [(step_of_import hImport.1 hImport.2 rest).1] at h
    by_contra hStart
    rw [beq_eq_false_iff_ne.mpr hStart] at h
    unfold Context.importKind at h
    repeat' split at h
    all_goals simp_all [Token.isQualifier]
  · have hCode : c.place = .code ∨ t.isTerminator = true := by
      by_cases hPlace : c.place = .code
      · exact .inl hPlace
      · exact .inr (by simpa [hPlace] using hImport)
    rw [(step_of_code hCode rest).1] at h
    unfold Context.codeKind at h
    repeat' split at h
    all_goals simp_all [Token.isQualifier]

/-- Inside an import, behind its first meaningful token, nothing becomes a qualifier. -/
theorem not_qualifier_of_importBody {c : Context} {ts : List Token} (hc : c.place = .importBody)
    (hRaw : ∀ t ∈ ts, RawToken t) {middle rest : List Token} {q : Token}
    (h : classifyFrom c ts = middle ++ q :: rest) (hMiddle : ∀ t ∈ middle, t.isTerminator = false) :
    q.isQualifier = false := by
  induction middle generalizing c ts with
  | nil =>
    cases ts with
    | nil => simp [classifyFrom] at h
    | cons t ts =>
      rw [classifyFrom_cons, List.nil_append, List.cons.injEq] at h
      by_contra hq
      rw [Bool.not_eq_false, ← h.1] at hq
      have hStart := place_of_qualifier (hRaw t List.mem_cons_self) hq
      rw [hc] at hStart
      exact absurd hStart (by simp)
  | cons m middle ih =>
    cases ts with
    | nil => simp [classifyFrom] at h
    | cons t ts =>
      rw [classifyFrom_cons, List.cons_append, List.cons.injEq] at h
      have ht : t.isTerminator = false := by
        rw [← (Relabels.step c t ts).isTerminator, h.1]
        exact hMiddle m List.mem_cons_self
      refine ih ?_ (fun u hu => hRaw u (List.mem_cons_of_mem _ hu)) h.2
        fun u hu => hMiddle u (List.mem_cons_of_mem _ hu)
      rw [(step_of_import (by simp [hc]) ht ts).2, hc]
      split <;> rfl

theorem qualifier_of_importStart {c : Context} {ts : List Token} (hc : c.place = .importStart)
    (hRaw : ∀ t ∈ ts, RawToken t) {middle rest : List Token} {q : Token}
    (h : classifyFrom c ts = middle ++ q :: rest) (hMiddle : ∀ t ∈ middle, t.isTerminator = false)
    (hq : q.isQualifier = true) : ∀ t ∈ middle, t.isMeaningful = false := by
  induction middle generalizing c ts with
  | nil => simp
  | cons m middle ih =>
    cases ts with
    | nil => simp [classifyFrom] at h
    | cons t ts =>
      rw [classifyFrom_cons, List.cons_append, List.cons.injEq] at h
      have hStep := Relabels.step c t ts
      have ht : t.isTerminator = false := by
        rw [← hStep.isTerminator, h.1]
        exact hMiddle m List.mem_cons_self
      have hMeaning : m.isMeaningful = t.isMeaningful := by rw [← h.1, hStep.isMeaningful]
      have hPlace := (step_of_import (show c.place ≠ .code by simp [hc]) ht ts).2
      have hRest : ∀ u ∈ ts, RawToken u := fun u hu => hRaw u (List.mem_cons_of_mem _ hu)
      have hLater : ∀ u ∈ middle, u.isTerminator = false :=
        fun u hu => hMiddle u (List.mem_cons_of_mem _ hu)
      cases hm : t.isMeaningful with
      | true =>
        -- then the import is entered, and `q` would come too late
        rw [hm, if_pos rfl] at hPlace
        rw [not_qualifier_of_importBody hPlace hRest h.2 hLater] at hq
        exact absurd hq (by simp)
      | false =>
        rw [hm, hc] at hPlace
        intro u hu
        rcases List.mem_cons.mp hu with rfl | hu
        · rw [hMeaning, hm]
        · exact ih hPlace hRest h.2 hLater u hu

theorem classifyFrom_split {c : Context} {ts before after : List Token}
    (h : classifyFrom c ts = before ++ after) :
    ∃ c' front back, ts = front ++ back ∧ classifyFrom c' back = after := by
  induction before generalizing c ts with
  | nil => exact ⟨c, [], ts, rfl, h⟩
  | cons b before ih =>
    cases ts with
    | nil => simp [classifyFrom] at h
    | cons t ts =>
      rw [classifyFrom_cons, List.cons_append, List.cons.injEq] at h
      obtain ⟨c', front, back, rfl, hBack⟩ := ih h.2
      exact ⟨c', t :: front, back, rfl, hBack⟩

/-- After a `use` the pass is inside an import. -/
theorem place_after_use {c : Context} {t : Token} {rest : List Token}
    (h : (c.step t rest).1 = .useWord) :
    (c.step t rest).2.place = .importStart ∨ (c.step t rest).2.place = .importBody := by
  by_cases hImport : c.place ≠ .code ∧ t.isTerminator = false
  · right
    have hMeaning : t.isMeaningful = true := by
      rw [← (Relabels.step c t rest).isMeaningful, h]
      rfl
    rw [(step_of_import hImport.1 hImport.2 rest).2, hMeaning, if_pos rfl]
  · left
    have hCode : c.place = .code ∨ t.isTerminator = true := by
      by_cases hPlace : c.place = .code
      · exact .inl hPlace
      · exact .inr (by simpa [hPlace] using hImport)
    obtain ⟨hKind, hPlace⟩ := step_of_code hCode rest
    rw [hKind] at h
    rw [hPlace]
    unfold Context.codeKind at h ⊢
    repeat' split at h
    all_goals simp_all

/-! ## The tokens of a source text -/

/-- Only the first meaningful token of an import is a qualifier. -/
theorem qualifier_first {source : Text} {before middle rest : List Token} {word q : Token}
    (h : classify (lex source) = before ++ word :: (middle ++ q :: rest))
    (hWord : word.kind = .useWord) (hMiddle : ∀ t ∈ middle, t.isTerminator = false)
    (hq : q.isQualifier = true) : ∀ t ∈ middle, t.isMeaningful = false := by
  obtain ⟨c, front, back, hSplit, hBack⟩ := classifyFrom_split h
  have hRaw : ∀ t ∈ back, RawToken t := by
    intro t ht
    apply rawToken_lexFrom false source
    rw [← lex, hSplit]
    exact List.mem_append_right _ ht
  cases back with
  | nil => simp [classifyFrom] at hBack
  | cons t back =>
    rw [classifyFrom_cons, List.cons.injEq] at hBack
    have hKind : (c.step t back).1 = .useWord := by rw [← hWord, ← hBack.1]
    have hRest : ∀ u ∈ back, RawToken u := fun u hu => hRaw u (List.mem_cons_of_mem _ hu)
    rcases place_after_use hKind with hPlace | hPlace
    · exact qualifier_of_importStart hPlace hRest hBack.2 hMiddle hq
    · rw [not_qualifier_of_importBody hPlace hRest hBack.2 hMiddle] at hq
      exact absurd hq (by simp)

theorem alternates_source (source : Text) : Alternates false (classify (lex source)) :=
  (alternates_lexFrom false source).classifyFrom {}

theorem Alternates.after {inCode : Bool} {before rest : List Token}
    (h : Alternates inCode (before ++ rest)) : ∃ mode, Alternates mode rest := by
  induction before generalizing inCode with
  | nil => exact ⟨inCode, h⟩
  | cons t before ih =>
    cases inCode with
    | true => exact ih h.2.2
    | false =>
      rcases h with ⟨-, h⟩ | ⟨-, h⟩
      · exact ih h
      · exact ih h

theorem Alternates.of_use {inCode : Bool} {word : Token} {rest : List Token}
    (h : Alternates inCode (word :: rest)) (hWord : word.kind = .useWord) : Alternates true rest := by
  cases inCode with
  | true =>
    have hRest := h.2.2
    rwa [hWord] at hRest
  | false => simp [Alternates, hWord] at h

/-- Code goes on up to a close tag, so there is no open tag in front of one. -/
theorem Alternates.not_openTag {body rest : List Token} (h : Alternates true (body ++ rest))
    (hBody : ∀ t ∈ body, t.isTerminator = false) : ∀ t ∈ body, t.kind ≠ .openTag := by
  induction body with
  | nil => simp
  | cons t body ih =>
    intro u hu
    rcases List.mem_cons.mp hu with rfl | hu
    · exact h.1
    · have hClose : (t.kind != .closeTag) = true := by
        have ht := hBody t List.mem_cons_self
        simp only [Token.isTerminator, Bool.or_eq_false_iff] at ht
        simpa using ht.1
      have hRest := h.2.2
      rw [hClose] at hRest
      exact ih hRest (fun v hv => hBody v (List.mem_cons_of_mem _ hv)) u hu

/-- No open tag stands inside a statement. -/
theorem not_openTag_of_statement {source : Text} {before body rest : List Token} {word : Token}
    (h : classify (lex source) = before ++ word :: (body ++ rest)) (hWord : word.kind = .useWord)
    (hBody : ∀ t ∈ body, t.isTerminator = false) : ∀ t ∈ body, t.kind ≠ .openTag := by
  have hAlternates := alternates_source source
  rw [h] at hAlternates
  obtain ⟨mode, hMode⟩ := hAlternates.after
  exact (hMode.of_use hWord).not_openTag hBody

/-- Between a close tag and the next `use`, code starts again. -/
theorem exists_openTag_of_closeTag {source : Text} {before gap rest : List Token}
    {stop word : Token} (h : classify (lex source) = before ++ stop :: (gap ++ word :: rest))
    (hStop : stop.kind = .closeTag) (hWord : word.kind = .useWord) :
    ∃ t ∈ gap, t.kind = .openTag := by
  have hAlternates := alternates_source source
  rw [h] at hAlternates
  obtain ⟨mode, hMode⟩ := hAlternates.after
  have hMarkup : Alternates false (gap ++ word :: rest) := by
    cases mode with
    | true =>
      have hRest := hMode.2.2
      rwa [hStop] at hRest
    | false => simp [Alternates, hStop] at hMode
  clear h hAlternates hMode
  induction gap with
  | nil => simp [Alternates, hWord] at hMarkup
  | cons t gap ih =>
    rcases hMarkup with ⟨hOpen, -⟩ | ⟨-, hRest⟩
    · exact ⟨t, List.mem_cons_self, hOpen⟩
    · obtain ⟨u, hu, hOpen⟩ := ih hRest
      exact ⟨u, List.mem_cons_of_mem _ hu, hOpen⟩

theorem mem_classifyFrom {c : Context} {ts : List Token} {t : Token} (h : t ∈ classifyFrom c ts) :
    ∃ raw ∈ ts, Relabels raw t.kind ∧ t.content = raw.content := by
  induction ts generalizing c with
  | nil => simp [classifyFrom] at h
  | cons r ts ih =>
    rw [classifyFrom_cons] at h
    rcases List.mem_cons.mp h with rfl | h
    · exact ⟨r, List.mem_cons_self, Relabels.step c r ts, rfl⟩
    · obtain ⟨raw, hRaw, hKind⟩ := ih h
      exact ⟨raw, List.mem_cons_of_mem _ hRaw, hKind⟩

/-- No token of a source text is empty. -/
theorem content_ne_nil_of_mem_source {source : Text} {t : Token} (h : t ∈ classify (lex source)) :
    t.content ≠ [] := by
  obtain ⟨raw, hRaw, -, hContent⟩ := mem_classifyFrom h
  rw [hContent]
  exact (rawToken_lexFrom false source raw hRaw).content

end UseOrder
