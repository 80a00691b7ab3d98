import UseOrder.Proofs.Blocks
import UseOrder.Proofs.Shape

/-!
# Well-formed imports

An import statement is well formed if it has a terminator, no other `use` and no namespace
declaration stands inside it, and it is either a list of names with single commas between them or
one brace group. The tokens of a source text with well-formed imports are made up of blocks
(`exists_blocks`).
-/

namespace UseOrder

/-- Names with commas between them. Each name has a token besides white space and the qualifier;
a comment counts. -/
def isNameList (body : List Token) : Bool :=
  body.all (fun t => !t.isGroupBrace) &&
    (splitAtCommas body).all fun part => part.any fun t => !t.isWhitespace && !t.isQualifier

/-- A brace group: a path without commas, one pair of braces, and nothing meaningful behind the
closing one. -/
def isBraceGroup (body : List Token) : Bool :=
  body.countP (·.kind == .groupOpen) == 1 && body.countP (·.kind == .groupClose) == 1 &&
    (body.takeWhile (·.kind != .groupOpen)).all (fun t => !t.isComma) &&
    (body.reverse.find? Token.isMeaningful).any (·.kind == .groupClose)

/-- What follows a `use` begins with a well-formed statement. -/
def isStatement (after : List Token) : Bool :=
  let body := after.takeWhile fun t => !t.isTerminator
  after.any Token.isTerminator &&
    body.all (fun t => t.kind != .useWord && t.kind != .namespaceWord) &&
    (isNameList body || isBraceGroup body)

/-- Every import statement is well formed. -/
def wellFormed : List Token → Bool
  | [] => true
  | t :: rest => (t.kind != .useWord || isStatement rest) && wellFormed rest

/-! ## Names and groups in a statement -/

/-- White space around the tokens of a record. -/
theorem exists_core {part : List Token} (hInner : ∀ t ∈ part, t.isInner = true)
    (hNe : ∃ t ∈ part, t.isWhitespace = false)
    (hFirst : ∀ space t rest, part = space ++ t :: rest → AllSpace space →
      t.isWhitespace = false → t.isQualifier = false) :
    ∃ space core after, part = space ++ core ++ after ∧ AllSpace space ∧ IsCore core ∧
      AllSpace after := by
  obtain ⟨space, t, rest, rfl, ht, hSpace⟩ := @exists_first (fun t => !t.isWhitespace) part
    (by simpa using hNe)
  have hAll : AllSpace space := fun u hu => by simpa using hSpace u hu
  have htSpace : t.isWhitespace = false := by simpa using ht
  have hTrim := trimEnd_append_trailingSpace (t :: rest)
  have hHead := trimEnd_cons htSpace rest
  refine ⟨space, trimEnd (t :: rest), trailingSpace (t :: rest), ?_, hAll, ⟨?_, ?_, ?_⟩,
    allSpace_trailing _⟩
  · rw [List.append_assoc, hTrim]
  · intro u hu
    exact hInner u (List.mem_append_right _ (mem_of_mem_trimEnd hu))
  · exact ⟨t, trimEnd rest, hHead, htSpace, hFirst space t rest rfl hAll htSpace⟩
  · exact trimEnd_last (by simp [hHead])

/-- Nothing meaningful stands in front of a qualifier. -/
def QualifierLeads (ts : List Token) : Prop :=
  ∀ middle q rest, ts = middle ++ q :: rest → q.isQualifier = true →
    ∀ t ∈ middle, t.isMeaningful = false

theorem QualifierLeads.append_left {part rest : List Token} (h : QualifierLeads (part ++ rest)) :
    QualifierLeads part := by
  intro middle q later hSplit hq
  exact h middle q (later ++ rest) (by simp [hSplit]) hq

theorem QualifierLeads.not_qualifier {front back : List Token} {t : Token}
    (h : QualifierLeads (front ++ t :: back)) (ht : t.isMeaningful = true) :
    ∀ q ∈ back, q.isQualifier = false := by
  intro q hBack
  by_contra hq
  obtain ⟨middle, later, rfl⟩ := List.append_of_mem hBack
  have hQuiet := h (front ++ t :: middle) q later (by simp) (by simpa using hq) t (by simp)
  rw [ht] at hQuiet
  exact absurd hQuiet (by simp)

theorem Token.isMeaningful_of_isQualifier {t : Token} (h : t.isQualifier = true) :
    t.isMeaningful = true := by
  simp only [Token.isQualifier, Bool.or_eq_true, beq_iff_eq] at h
  rcases h with h | h <;> simp [Token.isMeaningful, Token.isWhitespace, Token.isComment, h]

/-- A qualifier word with white space behind it is the qualifier of some kind. -/
theorem exists_isQualifierOf {t : Token} {space : List Token} (ht : t.isQualifier = true)
    (hSpace : AllSpace space) : ∃ kind, IsQualifierOf kind (t :: space) := by
  simp only [Token.isQualifier, Bool.or_eq_true, beq_iff_eq] at ht
  rcases ht with ht | ht
  · exact ⟨.constKind, t, space, rfl, ht, hSpace⟩
  · exact ⟨.functionKind, t, space, rfl, ht, hSpace⟩

/-- The first record of a statement, behind white space and a qualifier. -/
theorem exists_head {part : List Token} (hInner : ∀ t ∈ part, t.isInner = true)
    (hNe : ∃ t ∈ part, t.isWhitespace = false ∧ t.isQualifier = false)
    (hQualifier : QualifierLeads part) :
    ∃ kind space qualifier core after, part = space ++ (qualifier ++ core ++ after) ∧
      AllSpace space ∧ IsQualifierOf kind qualifier ∧ IsCore core ∧ AllSpace after := by
  obtain ⟨space, t, rest, rfl, ht, hSpace⟩ := @exists_first (fun t => !t.isWhitespace) part
    (by obtain ⟨t, ht, hSpace, -⟩ := hNe; exact ⟨t, ht, by simp [hSpace]⟩)
  have hAll : AllSpace space := fun u hu => by simpa using hSpace u hu
  have htSpace : t.isWhitespace = false := by simpa using ht
  cases hq : t.isQualifier with
  | false =>
    -- the record begins with this token
    obtain ⟨more, core, after, hPart, hMore, hCore, hAfter⟩ := @exists_core (t :: rest)
      (fun u hu => hInner u (List.mem_append_right _ hu)) ⟨t, List.mem_cons_self, htSpace⟩ (by
        intro front u later hSplit hFront hu
        cases front with
        | nil =>
          obtain rfl := (List.cons.inj hSplit).1
          exact hq
        | cons f front =>
          rw [(List.cons.inj hSplit).1, hFront f List.mem_cons_self] at htSpace
          exact absurd htSpace (by simp))
    refine ⟨.classKind, space ++ more, [], core, after, ?_, hAll.append hMore, rfl, hCore, hAfter⟩
    rw [hPart]
    simp
  | true =>
    -- the record stands behind the qualifier, and no second one can begin it
    have hSingle := hQualifier.not_qualifier (Token.isMeaningful_of_isQualifier hq)
    have hRest : ∃ u ∈ rest, u.isWhitespace = false := by
      obtain ⟨u, hu, huSpace, huWord⟩ := hNe
      simp only [List.mem_append, List.mem_cons] at hu
      rcases hu with hu | rfl | hu
      · rw [hAll u hu] at huSpace
        exact absurd huSpace (by simp)
      · rw [hq] at huWord
        exact absurd huWord (by simp)
      · exact ⟨u, hu, huSpace⟩
    obtain ⟨gap, core, after, rfl, hGap, hCore, hAfter⟩ := @exists_core rest
      (fun u hu => hInner u (by simp [hu])) hRest
      (fun front u later hSplit _ _ => hSingle u (by simp [hSplit]))
    obtain ⟨kind, hKind⟩ := exists_isQualifierOf hq hGap
    exact ⟨kind, space, t :: gap, core, after, by simp, hAll, hKind, hCore, hAfter⟩

/-- A list of tokens is cut at its first comma, if it has one. -/
theorem comma_cases (ts : List Token) :
    (∀ t ∈ ts, t.isComma = false) ∨
      ∃ part rest, ts = part ++ commaToken :: rest ∧ ∀ t ∈ part, t.isComma = false := by
  by_cases h : ∃ t ∈ ts, t.isComma = true
  · obtain ⟨part, t, rest, rfl, ht, hPart⟩ := exists_first h
    exact .inr ⟨part, rest, by rw [eq_commaToken ht], hPart⟩
  · left
    simpa using h

/-- A list of names is its first name, and the others behind a comma. -/
theorem exists_first_part (body : List Token) :
    ∃ part rest, body = part ++ rest ∧ (∀ t ∈ part, t.isComma = false) ∧
      part ∈ splitAtCommas body ∧ (rest = [] ∨ ∃ more, rest = commaToken :: more ∧
        ∀ p ∈ splitAtCommas more, p ∈ splitAtCommas body) := by
  rcases comma_cases body with hNone | ⟨part, more, rfl, hPart⟩
  · exact ⟨body, [], by simp, hNone, by simp [splitAtCommas_of_no_comma hNone], .inl rfl⟩
  · refine ⟨part, commaToken :: more, rfl, hPart, ?_, .inr ⟨more, rfl, fun p hp => ?_⟩⟩
    · simp [splitAtCommas_append_comma hPart]
    · simp [splitAtCommas_append_comma hPart, hp]

/-- A name behind a comma. -/
theorem exists_comma_cell (kind : ImportKind) {part : List Token}
    (hInner : ∀ t ∈ part, t.isInner = true)
    (hName : ∀ t ∈ part, t.isComma = false ∧ t.isGroupBrace = false)
    (hQualifier : ∀ t ∈ part, t.isQualifier = false) (hNe : ∃ t ∈ part, t.isWhitespace = false) :
    ∃ c : Cell, c.tokens = commaToken :: part ∧ CommaCell c ∧ c.kind = kind := by
  obtain ⟨space, core, after, rfl, hSpace, hCore, hAfter⟩ := exists_core hInner hNe
    (fun space t rest hSplit _ _ => hQualifier t (by simp [hSplit]))
  refine ⟨⟨.comma space, kind, false, [], core, after⟩, by simp [Cell.tokens, Lead.tokens],
    ⟨⟨⟨hSpace, rfl⟩, hCore, ?_, hAfter⟩, rfl, rfl⟩, rfl⟩
  exact fun t ht => hName t (by simp [ht])

/-- The names behind the first one of a list. -/
theorem exists_comma_cells (kind : ImportKind) {rest : List Token}
    (hInner : ∀ t ∈ rest, t.isInner = true) (hBraces : ∀ t ∈ rest, t.isGroupBrace = false)
    (hQualifier : ∀ t ∈ rest, t.isQualifier = false)
    (hParts : ∀ part ∈ splitAtCommas rest, ∃ t ∈ part, t.isWhitespace = false) :
    ∃ cells : List Cell, cells.flatMap Cell.tokens = commaToken :: rest ∧
      ∀ d ∈ cells, CommaCell d ∧ d.kind = kind := by
  -- name by name, each up to the next comma
  induction hLength : rest.length using Nat.strong_induction_on generalizing rest with
  | _ n ih =>
    rcases comma_cases rest with hNone | ⟨part, more, rfl, hPart⟩
    · rw [splitAtCommas_of_no_comma hNone] at hParts
      obtain ⟨c, hTokens, hc⟩ := exists_comma_cell kind hInner
        (fun t ht => ⟨hNone t ht, hBraces t ht⟩) hQualifier (hParts rest (by simp))
      exact ⟨[c], by simp [hTokens], by simpa using hc⟩
    · rw [splitAtCommas_append_comma hPart] at hParts
      have hLeft : ∀ t ∈ part, t ∈ part ++ commaToken :: more :=
        fun t ht => List.mem_append_left _ ht
      have hRight : ∀ t ∈ more, t ∈ part ++ commaToken :: more := fun t ht => by simp [ht]
      obtain ⟨c, hTokens, hc⟩ := exists_comma_cell kind (fun t ht => hInner t (hLeft t ht))
        (fun t ht => ⟨hPart t ht, hBraces t (hLeft t ht)⟩) (fun t ht => hQualifier t (hLeft t ht))
        (hParts part List.mem_cons_self)
      obtain ⟨cells, hRest, hCells⟩ := ih more.length (by simp at hLength; omega)
        (fun t ht => hInner t (hRight t ht)) (fun t ht => hBraces t (hRight t ht))
        (fun t ht => hQualifier t (hRight t ht))
        (fun p hp => hParts p (List.mem_cons_of_mem _ hp)) rfl
      refine ⟨c :: cells, by simp [hTokens, hRest], ?_⟩
      intro d hd
      rcases List.mem_cons.mp hd with rfl | hd
      · exact hc
      · exact hCells d hd

theorem CellsOk.of_commas {c : Cell} {cs : List Cell} (hc : CellOk c)
    (hcs : ∀ d ∈ cs, CommaCell d ∧ d.kind = c.kind) (hSingle : c.grouped = true → cs = []) :
    CellsOk (c :: cs) := by
  refine ⟨?_, ?_⟩
  · intro d hd
    rcases List.mem_cons.mp hd with rfl | hd
    · exact hc
    · exact (hcs d hd).1.ok
  · clear hc
    induction cs generalizing c with
    | nil => simp
    | cons d cs ih =>
      obtain ⟨hd, hKind⟩ := hcs d List.mem_cons_self
      obtain ⟨space, -, hLead, -⟩ := hd.tokens_eq
      have hNot : c.grouped = false := by
        by_contra h
        exact absurd (hSingle (by simpa using h)) (by simp)
      refine List.isChain_cons_cons.mpr ⟨?_, ih ?_ ?_⟩
      · unfold MayFollow
        rw [hLead]
        exact ⟨hKind, hNot, hd.single⟩
      · intro e he
        obtain ⟨heCell, heKind⟩ := hcs e (List.mem_cons_of_mem _ he)
        exact ⟨heCell, heKind.trans hKind.symm⟩
      · simp [hd.single]

/-- A closing brace that is the last meaningful token has only white space and comments behind it. -/
theorem exists_lastClosing {ts : List Token}
    (h : (ts.reverse.find? Token.isMeaningful).any (·.kind == .groupClose) = true) :
    ∃ before closing back, ts = before ++ closing :: back ∧ closing.kind = .groupClose ∧
      ∀ t ∈ back, t.isMeaningful = false := by
  obtain ⟨closing, hFind, hClosing⟩ := (Option.any_eq_true _ _).mp h
  obtain ⟨-, behind, before, hSplit, hBehind⟩ := List.find?_eq_some_iff_append.mp hFind
  have hTokens : ts = before.reverse ++ closing :: behind.reverse := by
    simpa using congrArg List.reverse hSplit
  refine ⟨before.reverse, closing, behind.reverse, hTokens, by simpa using hClosing, ?_⟩
  intro t ht
  simpa using hBehind t (List.mem_reverse.mp ht)

/-- One pair of braces with the closing one as the last meaningful token is a group. -/
theorem isGroup_of_counts {ts : List Token} (hOpen : ts.countP (·.kind == .groupOpen) = 1)
    (hClose : ts.countP (·.kind == .groupClose) = 1)
    (hLast : (ts.reverse.find? Token.isMeaningful).any (·.kind == .groupClose) = true) :
    IsGroup ts := by
  obtain ⟨before, closing, back, rfl, hClosing, hBack⟩ := exists_lastClosing hLast
  have hBackBrace : ∀ t ∈ back, t.isGroupBrace = false := by
    intro t ht
    have hQuiet := hBack t ht
    cases hKind : t.kind <;>
      simp_all [Token.isMeaningful, Token.isWhitespace, Token.isComment, Token.isGroupBrace]
  have hNone : back.countP (·.kind == .groupOpen) = 0 ∧
      back.countP (·.kind == .groupClose) = 0 := by
    simp only [List.countP_eq_zero]
    constructor <;> intro t ht <;> have hBrace := hBackBrace t ht <;>
      simp_all [Token.isGroupBrace]
  -- so the opening brace is in front of the closing one, and no further brace is
  rw [List.countP_append, List.countP_cons, hNone.1, hClosing] at hOpen
  rw [List.countP_append, List.countP_cons, hNone.2, hClosing] at hClose
  have hOne : before.countP (·.kind == .groupOpen) = 1 := by simpa using hOpen
  have hZero : before.countP (·.kind == .groupClose) = 0 := by simpa using hClose
  obtain ⟨front, opening, inside, rfl, hOpening, hFront⟩ :=
    exists_first (List.countP_pos_iff.mp (show 0 < before.countP (·.kind == .groupOpen) by omega))
  rw [List.countP_append, List.countP_cons, if_pos hOpening] at hOne
  have hInside : inside.countP (·.kind == .groupOpen) = 0 := by omega
  rw [List.countP_eq_zero] at hZero hInside
  refine ⟨front, opening, inside, closing, back, by simp, by simpa using hOpening, hClosing, ?_,
    hBack⟩
  intro t ht
  simp only [List.mem_append] at ht
  rcases ht with (ht | ht) | ht
  · have hShut := hZero t (by simp [ht])
    simp_all [Token.isGroupBrace]
  · have hShut := hZero t (by simp [ht])
    simp_all [Token.isGroupBrace]
  · exact hBackBrace t ht

/-! ## Braces of a record -/

section Between

variable {front core after : List Token}

/-- A brace of a statement stands in the tokens of its record. -/
theorem countP_between (hFront : ∀ t ∈ front, t.isPlain = true) (hAfter : AllSpace after)
    {brace : TokenKind} (hBrace : brace = .groupOpen ∨ brace = .groupClose) :
    (front ++ core ++ after).countP (·.kind == brace) = core.countP (·.kind == brace) := by
  have hZero : ∀ ts : List Token, (∀ t ∈ ts, t.isPlain = true) →
      ts.countP (·.kind == brace) = 0 := by
    intro ts hts
    rw [List.countP_eq_zero]
    intro t ht
    have hPlain := hts t ht
    simp only [Token.isPlain, Token.isGroupBrace, Bool.and_eq_true, Bool.not_eq_true',
      Bool.or_eq_false_iff] at hPlain
    rcases hBrace with rfl | rfl
    · simp [hPlain.2.1]
    · simp [hPlain.2.2]
  rw [List.countP_append, List.countP_append, hZero front hFront, hZero after hAfter.isPlain,
    Nat.zero_add, Nat.add_zero]

/-- If a brace is the last meaningful token of a statement, it is that of the record. -/
theorem lastBrace_between (hFront : ∀ t ∈ front, t.isPlain = true) (hAfter : AllSpace after)
    (h : ((front ++ core ++ after).reverse.find? Token.isMeaningful).any (·.kind == .groupClose) =
      true) : (core.reverse.find? Token.isMeaningful).any (·.kind == .groupClose) = true := by
  have hNone : after.reverse.find? Token.isMeaningful = none := by
    simpa using hAfter.not_meaningful
  rw [List.reverse_append, List.reverse_append, List.find?_append, hNone, Option.none_or,
    List.find?_append] at h
  cases hFind : core.reverse.find? Token.isMeaningful with
  | some t => simpa [hFind] using h
  | none =>
    -- then it would be a token in front of the record
    rw [hFind, Option.none_or] at h
    obtain ⟨t, hFound, hKind⟩ := (Option.any_eq_true _ _).mp h
    have hPlain := hFront t (List.mem_reverse.mp (List.mem_of_find?_eq_some hFound))
    rw [beq_iff_eq] at hKind
    simp [Token.isPlain, Token.isGroupBrace, hKind] at hPlain

end Between

/-! ## Cells of a statement -/

/-- Cells that make up one statement. -/
structure StatementCells (gap : List Token) (word : Token) (body : List Token) (c : Cell)
    (cs : List Cell) : Prop where
  lead : ∃ space, c.lead = .start gap word space
  tokens : (c :: cs).flatMap Cell.tokens = gap ++ word :: body
  ok : CellsOk (c :: cs)
  commas : ∀ d ∈ cs, d.isStart = false

section Statement

variable {gap body : List Token} {word : Token}

theorem exists_cells_of_nameList (hGap : ∀ t ∈ gap, t.kind ≠ .useWord)
    (hWord : word.kind = .useWord) (hInner : ∀ t ∈ body, t.isInner = true)
    (hQualifier : QualifierLeads body) (hList : isNameList body = true) :
    ∃ c cs, StatementCells gap word body c cs := by
  simp only [isNameList, Bool.and_eq_true, List.all_eq_true, List.any_eq_true,
    Bool.not_eq_true'] at hList
  obtain ⟨hBraces, hParts⟩ := hList
  obtain ⟨part, rest, hBody, hPart, hMem, hRest⟩ := exists_first_part body
  obtain ⟨kind, space, qualifier, core, after, hSplit, hSpace, hWordOf, hCore, hAfter⟩ :=
    @exists_head part (fun t ht => hInner t (by simp [hBody, ht])) (hParts part hMem)
      (hBody ▸ hQualifier).append_left
  let c : Cell := ⟨.start gap word space, kind, false, qualifier, core, after⟩
  have hc : CellOk c := ⟨⟨hGap, hWord, hSpace, hWordOf⟩, hCore,
    fun t (ht : t ∈ core) => ⟨hPart t (by simp [hSplit, ht]),
      hBraces t (by simp [hBody, hSplit, ht])⟩, hAfter⟩
  obtain ⟨cs, hTokens, hcs⟩ : ∃ cs : List Cell, cs.flatMap Cell.tokens = rest ∧
      ∀ d ∈ cs, CommaCell d ∧ d.kind = kind := by
    rcases hRest with rfl | ⟨more, rfl, hMore⟩
    · exact ⟨[], rfl, by simp⟩
    · apply exists_comma_cells kind
      · exact fun t ht => hInner t (by simp [hBody, ht])
      · exact fun t ht => hBraces t (by simp [hBody, ht])
      · -- only the first name can have a qualifier, since the comma is meaningful
        rw [hBody] at hQualifier
        exact hQualifier.not_qualifier (by decide)
      · intro p hp
        obtain ⟨t, ht, hSpace, -⟩ := hParts p (hMore p hp)
        exact ⟨t, ht, hSpace⟩
  refine ⟨c, cs, ⟨⟨space, rfl⟩, ?_, CellsOk.of_commas hc hcs (by simp [c]), ?_⟩⟩
  · simp [c, Cell.tokens, Lead.tokens, hBody, hSplit, hTokens]
  · exact fun d hd => (hcs d hd).1.lead

theorem exists_cells_of_braceGroup (hGap : ∀ t ∈ gap, t.kind ≠ .useWord)
    (hWord : word.kind = .useWord) (hInner : ∀ t ∈ body, t.isInner = true)
    (hQualifier : QualifierLeads body) (hGroup : isBraceGroup body = true) :
    ∃ c cs, StatementCells gap word body c cs := by
  simp only [isBraceGroup, Bool.and_eq_true, beq_iff_eq] at hGroup
  obtain ⟨⟨⟨hOpen, hClose⟩, -⟩, hLast⟩ := hGroup
  have hNe : ∃ t ∈ body, t.isWhitespace = false ∧ t.isQualifier = false := by
    obtain ⟨t, ht, hKind⟩ :=
      List.countP_pos_iff.mp (show 0 < body.countP (·.kind == .groupOpen) by omega)
    rw [beq_iff_eq] at hKind
    exact ⟨t, ht, by simp [Token.isWhitespace, hKind], by simp [Token.isQualifier, hKind]⟩
  obtain ⟨kind, space, qualifier, core, after, rfl, hSpace, hWordOf, hCore, hAfter⟩ :=
    exists_head hInner hNe hQualifier
  -- white space and qualifier hold no brace, so the braces are those of the record
  have hFront : ∀ t ∈ space ++ qualifier, t.isPlain = true := by
    intro t ht
    rcases List.mem_append.mp ht with ht | ht
    · exact hSpace.isPlain t ht
    · exact hWordOf.isPlain t ht
  have hShape : space ++ (qualifier ++ core ++ after) = (space ++ qualifier) ++ core ++ after := by
    simp
  rw [hShape] at hOpen hClose hLast
  have hCoreGroup := isGroup_of_counts ((countP_between hFront hAfter (.inl rfl)).symm.trans hOpen)
    ((countP_between hFront hAfter (.inr rfl)).symm.trans hClose)
    (lastBrace_between hFront hAfter hLast)
  let c : Cell := ⟨.start gap word space, kind, true, qualifier, core, after⟩
  have hc : CellOk c := ⟨⟨hGap, hWord, hSpace, hWordOf⟩, hCore, hCoreGroup, hAfter⟩
  refine ⟨c, [], ⟨⟨space, rfl⟩, ?_, CellsOk.of_commas hc (by simp) (by simp), by simp⟩⟩
  simp [c, Cell.tokens, Lead.tokens]

theorem exists_cells (hGap : ∀ t ∈ gap, t.kind ≠ .useWord) (hWord : word.kind = .useWord)
    (hInner : ∀ t ∈ body, t.isInner = true) (hQualifier : QualifierLeads body)
    (hForm : (isNameList body || isBraceGroup body) = true) :
    ∃ c cs, StatementCells gap word body c cs := by
  rcases Bool.or_eq_true_iff.mp hForm with hList | hGroup
  · exact exists_cells_of_nameList hGap hWord hInner hQualifier hList
  · exact exists_cells_of_braceGroup hGap hWord hInner hQualifier hGroup

end Statement

/-! ## Blocks of a source text -/

theorem isStatement_of_wellFormed {before after : List Token} {word : Token}
    (h : wellFormed (before ++ word :: after) = true) (hWord : word.kind = .useWord) :
    isStatement after = true := by
  induction before with
  | nil =>
    simp only [List.nil_append, wellFormed, hWord, Bool.and_eq_true] at h
    simpa using h.1
  | cons t before ih =>
    simp only [List.cons_append, wellFormed, Bool.and_eq_true] at h
    exact ih h.2

theorem exists_body_of_isStatement {after : List Token} (h : isStatement after = true) :
    ∃ body stop rest, after = body ++ stop :: rest ∧ stop.isTerminator = true ∧
      (∀ t ∈ body, t.isTerminator = false ∧ t.kind ≠ .useWord ∧ t.kind ≠ .namespaceWord) ∧
      (isNameList body || isBraceGroup body) = true := by
  simp only [isStatement, Bool.and_eq_true, List.any_eq_true, List.all_eq_true, bne_iff_ne] at h
  obtain ⟨⟨hStop, hWords⟩, hForm⟩ := h
  obtain ⟨body, stop, rest, rfl, hStop, hBody⟩ := exists_first hStop
  have hTake : (body ++ stop :: rest).takeWhile (fun t => !t.isTerminator) = body := by
    rw [List.takeWhile_append_of_pos (by simpa using hBody),
      List.takeWhile_cons_of_neg (by simp [hStop]), List.append_nil]
  rw [hTake] at hWords hForm
  exact ⟨body, stop, rest, rfl, hStop, fun t ht => ⟨hBody t ht, hWords t ht⟩, hForm⟩

/-- A well-formed statement of a source text is made up of cells. -/
theorem exists_cells_source {source : Text} {before gap body rest : List Token} {word stop : Token}
    (hSource : classify (lex source) = before ++ (gap ++ word :: (body ++ stop :: rest)))
    (hGap : ∀ t ∈ gap, t.kind ≠ .useWord) (hWord : word.kind = .useWord)
    (hBody : ∀ t ∈ body, t.isTerminator = false ∧ t.kind ≠ .useWord ∧ t.kind ≠ .namespaceWord)
    (hForm : (isNameList body || isBraceGroup body) = true) :
    ∃ c cs, StatementCells gap word body c cs := by
  have hPlace : classify (lex source) = (before ++ gap) ++ word :: (body ++ stop :: rest) := by
    simp [hSource]
  have hInner : ∀ t ∈ body, t.isInner = true := by
    intro t ht
    have hOpen := not_openTag_of_statement hPlace hWord (fun u hu => (hBody u hu).1) t ht
    have hContent : t.content ≠ [] :=
      @content_ne_nil_of_mem_source source t (by simp [hPlace, ht])
    simp [Token.isInner, hBody t ht, hOpen, hContent]
  have hQualifier : QualifierLeads body := by
    rintro middle q later rfl hq
    have hSplit : classify (lex source) =
        (before ++ gap) ++ word :: (middle ++ q :: (later ++ stop :: rest)) := by
      simp [hSource]
    exact qualifier_first hSplit hWord (fun t ht => (hBody t (by simp [ht])).1) hq
  exact exists_cells hGap hWord hInner hQualifier hForm

theorem StatementCells.blockOk {gap body : List Token} {word : Token} {c : Cell} {cs : List Cell}
    (h : StatementCells gap word body c cs) : BlockOk (c :: cs) := by
  obtain ⟨space, hLead⟩ := h.lead
  refine ⟨c, cs, rfl, by simp [Cell.isStart, hLead], ?_⟩
  intro d hd gap hGap
  have hComma := h.commas d hd
  unfold Cell.isStart at hComma
  unfold Cell.gap? at hGap
  split at hGap <;> simp_all

/-- A statement in front of blocks that it is joined to. -/
theorem CellsOk.join {c d : Cell} {cs ds : List Cell} {blocks : List (List Cell)}
    (hCells : CellsOk (c :: cs)) (hBlock : BlockOk (c :: cs)) (h : BlocksOk ((d :: ds) :: blocks))
    (hGap : ∃ gap word space, d.lead = .start gap word space ∧ EndsStatement gap ∧
      joins gap = true) : BlocksOk ((c :: cs ++ d :: ds) :: blocks) := by
  obtain ⟨gap, word, space, hLead, hEnds, hJoins⟩ := hGap
  have hFlat : ((c :: cs ++ d :: ds) :: blocks).flatten =
      (c :: cs) ++ ((d :: ds) :: blocks).flatten := by simp
  refine ⟨⟨?_, ?_⟩, ?_, ?_⟩
  · intro e he
    rw [hFlat] at he
    rcases List.mem_append.mp he with he | he
    · exact hCells.each e he
    · exact h.cells.each e he
  · -- between the two stands the gap of `d`, which ends the statement in front of it
    rw [hFlat, List.isChain_append]
    refine ⟨hCells.chain, h.cells.chain, ?_⟩
    intro e _ f hf
    obtain rfl : d = f := by simpa using hf
    unfold MayFollow
    rw [hLead]
    exact hEnds
  · intro b hb
    rcases List.mem_cons.mp hb with rfl | hb
    · obtain ⟨c', cs', hEq, hc, hJoined⟩ := hBlock
      obtain ⟨d', ds', hEq', -, hJoined'⟩ := h.each (d :: ds) List.mem_cons_self
      obtain ⟨rfl, rfl⟩ := List.cons.inj hEq
      obtain ⟨rfl, rfl⟩ := List.cons.inj hEq'
      refine ⟨c, cs ++ d :: ds, rfl, hc, ?_⟩
      intro e he g hg
      simp only [List.mem_append, List.mem_cons] at he
      rcases he with he | rfl | he
      · exact hJoined e he g hg
      · obtain rfl : gap = g := by simpa [Cell.gap?, hLead] using hg
        exact hJoins
      · exact hJoined' e he g hg
    · exact h.each b (List.mem_cons_of_mem _ hb)
  · exact h.parted

/-- What is found of the blocks from some gap on. -/
structure BlocksFrom (gap : List Token) (word : Token) (ts : List Token) (block : List Cell)
    (blocks : List (List Cell)) (tail : List Token) : Prop where
  tokens : ts = (block :: blocks).flatten.flatMap Cell.tokens ++ tail
  ok : BlocksOk (block :: blocks)
  head : ∃ c cs space, block = c :: cs ∧ c.lead = .start gap word space
  noUse : ∀ t ∈ tail, t.kind ≠ .useWord
  stop : tail.head?.any Token.isTerminator = true

theorem Token.not_use_of_isTerminator {t : Token} (h : t.isTerminator = true) :
    t.kind ≠ .useWord := by
  intro hKind
  simp [Token.isTerminator, Token.isPunct, hKind] at h

/-- The last statement is a block of its own. -/
theorem StatementCells.last {gap body rest : List Token} {word stop : Token} {c : Cell}
    {cs : List Cell} (h : StatementCells gap word body c cs) (hStop : stop.isTerminator = true)
    (hRest : ∀ t ∈ rest, t.kind ≠ .useWord) :
    BlocksFrom gap word (gap ++ word :: (body ++ stop :: rest)) (c :: cs) [] (stop :: rest) := by
  obtain ⟨space, hLead⟩ := h.lead
  refine ⟨?_, .cons h.ok h.blockOk .nil (by simp [SetApart]), ⟨c, cs, space, rfl, hLead⟩, ?_,
    by simpa using hStop⟩
  · simp only [List.flatten_cons, List.flatten_nil, List.append_nil, h.tokens]
    simp
  · intro t ht
    rcases List.mem_cons.mp ht with rfl | ht
    · exact Token.not_use_of_isTerminator hStop
    · exact hRest t ht

/-- A statement in front of blocks goes on into the first of them, or is a block of its own. -/
theorem StatementCells.prepend {gap body next ts tail : List Token} {word nextWord : Token} {c : Cell}
    {cs block : List Cell} {blocks : List (List Cell)} (h : StatementCells gap word body c cs)
    (hBlocks : BlocksFrom next nextWord ts block blocks tail) (hEnds : EndsStatement next) :
    ∃ block' blocks', BlocksFrom gap word (gap ++ word :: (body ++ ts)) block' blocks' tail := by
  obtain ⟨space, hLead⟩ := h.lead
  obtain ⟨d, ds, nextSpace, rfl, hNextLead⟩ := hBlocks.head
  have hTokens : gap ++ word :: (body ++ ts) = (c :: cs).flatMap Cell.tokens ++
      (((d :: ds) :: blocks).flatten.flatMap Cell.tokens ++ tail) := by
    rw [h.tokens, ← hBlocks.tokens]
    simp
  cases hJoins : joins next with
  | true =>
    refine ⟨c :: cs ++ d :: ds, blocks, ⟨?_, h.ok.join h.blockOk hBlocks.ok
      ⟨_, _, _, hNextLead, hEnds, hJoins⟩, ⟨c, cs ++ d :: ds, space, rfl, hLead⟩, hBlocks.noUse,
      hBlocks.stop⟩⟩
    rw [hTokens]
    simp
  | false =>
    have hApart : SetApart ((d :: ds) :: blocks) := by
      intro b hb e he g hg
      obtain rfl : d :: ds = b := by simpa using hb
      obtain rfl : d = e := by simpa using he
      obtain rfl : next = g := by simpa [Cell.gap?, hNextLead] using hg
      exact ⟨hEnds, hJoins⟩
    refine ⟨c :: cs, (d :: ds) :: blocks, ⟨?_, .cons h.ok h.blockOk hBlocks.ok hApart,
      ⟨c, cs, space, rfl, hLead⟩, hBlocks.noUse, hBlocks.stop⟩⟩
    rw [hTokens]
    simp

theorem exists_blocks_from {source : Text} (h : wellFormed (classify (lex source)) = true)
    {before gap after : List Token} {word : Token}
    (hSource : classify (lex source) = before ++ (gap ++ word :: after))
    (hGap : ∀ t ∈ gap, t.kind ≠ .useWord) (hWord : word.kind = .useWord) :
    ∃ block blocks tail, BlocksFrom gap word (gap ++ word :: after) block blocks tail := by
  -- by the number of tokens that are left: the next statement begins behind the terminator of this one
  induction hLength : after.length using Nat.strong_induction_on
    generalizing before gap word after with
  | _ n ih =>
    have hHere := h
    rw [hSource, ← List.append_assoc] at hHere
    obtain ⟨body, stop, rest, rfl, hStop, hBody, hForm⟩ :=
      exists_body_of_isStatement (isStatement_of_wellFormed hHere hWord)
    obtain ⟨c, cs, hCells⟩ := exists_cells_source hSource hGap hWord hBody hForm
    by_cases hMore : ∃ t ∈ rest, (t.kind == .useWord) = true
    · obtain ⟨between, next, later, rfl, hNext, hBetween⟩ := exists_first hMore
      rw [beq_iff_eq] at hNext
      have hLater : classify (lex source) =
          (before ++ gap ++ word :: body) ++ (stop :: between ++ next :: later) := by
        simp [hSource]
      have hEnds : EndsStatement (stop :: between) :=
        ⟨stop, between, rfl, hStop, fun hClose => exists_openTag_of_closeTag hLater hClose hNext⟩
      have hGapLater : ∀ t ∈ stop :: between, t.kind ≠ .useWord := by
        intro t ht
        rcases List.mem_cons.mp ht with rfl | ht
        · exact Token.not_use_of_isTerminator hStop
        · simpa using hBetween t ht
      obtain ⟨block, blocks, tail, hBlocks⟩ := ih later.length
        (by simp only [List.length_append, List.length_cons] at hLength; omega) hLater hGapLater hNext rfl
      obtain ⟨block', blocks', hFrom⟩ := hCells.prepend hBlocks hEnds
      exact ⟨block', blocks', tail, hFrom⟩
    · refine ⟨c :: cs, [], stop :: rest, hCells.last hStop fun t ht hKind => ?_⟩
      exact hMore ⟨t, ht, by simpa using hKind⟩

/-- The tokens of a source text with well-formed imports are made up of blocks. -/
theorem exists_blocks {source : Text} (h : wellFormed (classify (lex source)) = true) :
    ∃ blocks tail, classify (lex source) = blocks.flatten.flatMap Cell.tokens ++ tail ∧
      BlocksOk blocks ∧ (∀ t ∈ tail, t.kind ≠ .useWord) ∧
      (blocks ≠ [] → tail.head?.any Token.isTerminator = true) := by
  by_cases hUse : ∃ t ∈ classify (lex source), (t.kind == .useWord) = true
  · obtain ⟨gap, word, after, hSplit, hWord, hGap⟩ := exists_first hUse
    have hNone : ∀ t ∈ gap, t.kind ≠ .useWord := fun t ht => by simpa using hGap t ht
    obtain ⟨block, blocks, tail, hBlocks⟩ :=
      @exists_blocks_from source h [] gap after word hSplit hNone (by simpa using hWord)
    exact ⟨block :: blocks, tail, hSplit.trans hBlocks.tokens, hBlocks.ok, hBlocks.noUse,
      fun _ => hBlocks.stop⟩
  · refine ⟨[], classify (lex source), rfl, .nil, ?_, by simp⟩
    intro t ht hKind
    exact hUse ⟨t, ht, by simpa using hKind⟩

end UseOrder
