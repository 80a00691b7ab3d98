import UseOrder.Proofs.Group

/-!
# Parsing cells

A statement that is laid out as cells is parsed into the records of these cells, at the positions
where the cells stand. The argument follows the parser: where the statement ends, what its first
token announces, where the qualifier stops, whether a brace closes it, and how the names are cut.
-/

namespace UseOrder

/-! ## The head of a statement -/

/-- The first token behind the `use` that is no white space announces the kind. -/
theorem IsQualifierOf.head {kind : ImportKind} {qualifier core : List Token}
    (hQualifier : IsQualifierOf kind qualifier) (hCore : IsCore core) (rest : List Token) :
    ∃ t more, qualifier ++ core ++ rest = t :: more ∧ t.isWhitespace = false ∧
      ImportKind.ofFirst t = kind := by
  have hWord : ∀ word, kind.qualifierKind? = some word →
      ∃ t more, qualifier ++ core ++ rest = t :: more ∧ t.kind = word := by
    intro word hKind
    unfold IsQualifierOf at hQualifier
    rw [hKind] at hQualifier
    obtain ⟨t, space, rfl, ht, -⟩ := hQualifier
    exact ⟨t, space ++ core ++ rest, by simp, ht⟩
  cases kind with
  | classKind =>
    obtain ⟨t, more, rfl, hSpace, hPlain⟩ := hCore.first
    have hNil : qualifier = [] := hQualifier
    subst hNil
    refine ⟨t, more ++ rest, rfl, hSpace, ?_⟩
    simp only [Token.isQualifier, Bool.or_eq_false_iff, beq_eq_false_iff_ne] at hPlain
    unfold ImportKind.ofFirst
    split
    · next h => exact absurd h hPlain.1
    · next h => exact absurd h hPlain.2
    · rfl
  | constKind =>
    obtain ⟨t, more, hts, ht⟩ := hWord .constWord rfl
    exact ⟨t, more, hts, by simp [Token.isWhitespace, ht], by simp [ImportKind.ofFirst, ht]⟩
  | functionKind =>
    obtain ⟨t, more, hts, ht⟩ := hWord .functionWord rfl
    exact ⟨t, more, hts, by simp [Token.isWhitespace, ht], by simp [ImportKind.ofFirst, ht]⟩

theorem qualifierSize_eq {kind : ImportKind} {qualifier core : List Token}
    (hQualifier : IsQualifierOf kind qualifier) (hCore : IsCore core) (rest : List Token) :
    qualifierSize kind (qualifier ++ core ++ rest) = qualifier.length := by
  unfold IsQualifierOf at hQualifier
  split at hQualifier
  · next hKind =>
    have hClass : kind = .classKind := by cases kind <;> simp_all [ImportKind.qualifierKind?]
    subst hClass hQualifier
    rfl
  · next word hKind =>
    have hClass : (kind == .classKind) = false := by
      cases kind <;> simp_all [ImportKind.qualifierKind?]
    obtain ⟨t, space, rfl, -, hSpace⟩ := hQualifier
    obtain ⟨u, more, rfl, hu, -⟩ := hCore.first
    have hTake : (space ++ u :: more ++ rest).takeWhile Token.isWhitespace = space := by
      rw [List.append_assoc, List.cons_append]
      exact takeWhile_space_of_first hSpace hu
    rw [qualifierSize, hClass, if_neg (by simp), List.cons_append, List.cons_append, List.drop_one,
      List.tail_cons, hTake, List.length_cons, Nat.add_comm]

/-! ## The names of a statement -/

/-- Tokens without a comma go to the name that has been started. -/
theorem namePartsFrom_run {run : List Token} (hRun : ∀ t ∈ run, t.isComma = false) (pos : Int)
    (part : NamePart) (rest : List Token) :
    namePartsFrom pos (some part) (run ++ rest) =
      namePartsFrom (pos + run.length) (some ⟨part.start, part.tokens ++ run⟩) rest := by
  induction run generalizing pos part with
  | nil => simp
  | cons t run ih =>
    have ht : t.isComma = false := hRun t List.mem_cons_self
    have hPos : pos + 1 + (run.length : Int) = pos + ((t :: run).length : Nat) := by
      simp
      omega
    rw [List.cons_append, namePartsFrom]
    simp only [ht, Bool.false_eq_true, if_false]
    rw [ih (fun u hu => hRun u (List.mem_cons_of_mem _ hu)), hPos]
    simp

/-- White space behind a comma belongs to no name. -/
theorem namePartsFrom_space {space : List Token} (hSpace : AllSpace space) (pos : Int)
    (rest : List Token) :
    namePartsFrom pos none (space ++ rest) = namePartsFrom (pos + space.length) none rest := by
  induction space generalizing pos with
  | nil => simp
  | cons t space ih =>
    have ht : t.isWhitespace = true := hSpace t List.mem_cons_self
    have hPos : pos + 1 + (space.length : Int) = pos + ((t :: space).length : Nat) := by
      simp
      omega
    rw [List.cons_append, namePartsFrom]
    simp only [ht, Bool.or_true, if_true]
    rw [ih (fun u hu => hSpace u (List.mem_cons_of_mem _ hu)), hPos]

/-- The name parts of cells that follow each other from `pos` on. -/
def Cell.parts (pos : Int) : List Cell → List NamePart
  | [] => []
  | c :: cs => ⟨pos + c.lead.tokens.length, c.core ++ c.after⟩ :: parts (pos + c.tokens.length) cs

/-- A cell that is led in by a comma. -/
structure CommaCell (c : Cell) : Prop where
  ok : CellOk c
  lead : c.isStart = false
  single : c.grouped = false

theorem CommaCell.tokens_eq {c : Cell} (h : CommaCell c) :
    ∃ space, AllSpace space ∧ c.lead = .comma space ∧
      c.tokens = commaToken :: (space ++ c.core ++ c.after) := by
  have hOk := h.ok.lead
  have hLead := h.lead
  unfold Cell.isStart at hLead
  split at hLead
  · simp at hLead
  · next space hComma =>
    rw [hComma] at hOk
    exact ⟨space, hOk.1, hComma, by simp [Cell.tokens, hComma, Lead.tokens, hOk.2]⟩

theorem CommaCell.isName {c : Cell} (h : CommaCell c) : IsName c.core := by
  have hShape := h.ok.shape
  rwa [h.single, if_neg (by simp)] at hShape

theorem namePartsFrom_cells {cs : List Cell} (hcs : ∀ c ∈ cs, CommaCell c) (pos : Int)
    (part : NamePart) :
    namePartsFrom pos (some part) (cs.flatMap Cell.tokens) = part :: Cell.parts pos cs := by
  induction cs generalizing pos part with
  | nil => rfl
  | cons c cs ih =>
    have hc := hcs c List.mem_cons_self
    obtain ⟨space, hSpace, hLead, hTokens⟩ := hc.tokens_eq
    obtain ⟨t, more, hCore, ht, -⟩ := hc.ok.core.first
    have hName := hc.isName
    have htComma : t.isComma = false := (hName t (by simp [hCore])).1
    have hRun : ∀ u ∈ more ++ c.after, u.isComma = false := by
      intro u hu
      rcases List.mem_append.mp hu with hu | hu
      · exact (hName u (by simp [hCore, hu])).1
      · exact hc.ok.after.not_comma u hu
    have hShape : (c :: cs).flatMap Cell.tokens =
        commaToken :: (space ++ (t :: ((more ++ c.after) ++ cs.flatMap Cell.tokens))) := by
      simp [hTokens, hCore]
    have hStart : pos + 1 + (space.length : Int) = pos + (c.lead.tokens.length : Nat) := by
      simp [hLead, Lead.tokens]
      omega
    have hNext : pos + (c.lead.tokens.length : Nat) + 1 + ((more ++ c.after).length : Nat) =
        pos + (c.tokens.length : Nat) := by
      simp [hTokens, hLead, Lead.tokens, hCore]
      omega
    have hComma : commaToken.isComma = true := rfl
    -- the scan goes over the comma, the white space, and the name with what stands behind it
    rw [hShape, namePartsFrom]
    simp only [hComma, if_true]
    rw [namePartsFrom_space hSpace, hStart, namePartsFrom]
    simp only [htComma, ht, Bool.or_false, Bool.false_eq_true, if_false]
    rw [namePartsFrom_run hRun, hNext, ih fun d hd => hcs d (List.mem_cons_of_mem _ hd)]
    simp [Cell.parts, hCore]

/-- The parts of cells make the records of cells. -/
theorem map_record_parts {settings : Settings} {head : StatementHead} {cs : List Cell}
    (hcs : ∀ c ∈ cs, CommaCell c ∧ c.kind = head.kind) (offset : Nat) :
    (Cell.parts offset cs).map (NamePart.record head false) =
      Cell.records settings offset cs := by
  induction cs generalizing offset with
  | nil => rfl
  | cons c cs ih =>
    obtain ⟨hc, hKind⟩ := hcs c List.mem_cons_self
    obtain ⟨space, -, hLead, hTokens⟩ := hc.tokens_eq
    have hTrim := hc.ok.core.trimmed.trimEnd_append hc.ok.after
    have hQualifier : c.qualifier = [] := by
      have hOk := hc.ok.lead
      rw [hLead] at hOk
      exact hOk.2
    have hRest : (offset : Int) + (c.tokens.length : Nat) = (offset + c.tokens.length : Nat) := by
      omega
    have hRecord : NamePart.record head false
        ⟨(offset : Int) + (c.lead.tokens.length : Nat), c.core ++ c.after⟩ =
          c.record settings offset := by
      simp only [NamePart.record, hTrim, Cell.record, Cell.arranged, hc.single, hc.lead,
        hQualifier, hKind]
      simp
    rw [Cell.parts, Cell.records, List.map_cons, hRecord, hRest,
      ih fun d hd => hcs d (List.mem_cons_of_mem _ hd)]

/-! ## The end of a statement -/

/-- A list with a meaningful token has a last one. -/
theorem exists_last_meaningful {ts : List Token} (h : ∃ t ∈ ts, t.isMeaningful = true) :
    ∃ front t back, ts = front ++ t :: back ∧ t.isMeaningful = true ∧
      ∀ u ∈ back, u.isMeaningful = false := by
  induction ts with
  | nil => simp at h
  | cons a ts ih =>
    by_cases hLater : ∃ t ∈ ts, t.isMeaningful = true
    · obtain ⟨front, t, back, rfl, ht, hBack⟩ := ih hLater
      exact ⟨a :: front, t, back, rfl, ht, hBack⟩
    · have ha : a.isMeaningful = true := by
        obtain ⟨t, ht, hm⟩ := h
        rcases List.mem_cons.mp ht with rfl | ht
        · exact hm
        · exact absurd ⟨t, ht, hm⟩ hLater
      refine ⟨[], a, ts, rfl, ha, ?_⟩
      intro u hu
      cases hm : u.isMeaningful with
      | false => rfl
      | true => exact absurd ⟨u, hu, hm⟩ hLater

theorem endsGroup_append {front back after : List Token} {t : Token}
    (ht : t.isMeaningful = true) (hBack : ∀ u ∈ back, u.isMeaningful = false) :
    endsGroup (front ++ t :: back ++ after) ((front ++ t :: back).length : Nat) =
      .ok (t.kind == .groupClose) := by
  have hToken : tokenAt (front ++ t :: back ++ after) (front.length : Nat) = .ok t := by
    rw [List.append_assoc, List.cons_append]
    exact tokenAt_append _ _ _
  simp only [endsGroup, previousMeaningful_append, lastIndex?_append ht hBack]
  simp only [Option.map_some, Int.ofNat_eq_natCast]
  show ((tokenAt _ _).bind _) = _
  rw [hToken]
  rfl

/-- No terminator and no group brace: a token that cannot end a statement or make it a group. -/
def Token.isPlain (t : Token) : Bool :=
  !t.isTerminator && !t.isGroupBrace

theorem Token.not_terminator_of_isPlain {t : Token} (h : t.isPlain = true) :
    t.isTerminator = false := by
  rw [Token.isPlain, Bool.and_eq_true, Bool.not_eq_true', Bool.not_eq_true'] at h
  exact h.1

theorem Token.not_brace_of_isPlain {t : Token} (h : t.isPlain = true) : t.isGroupBrace = false := by
  rw [Token.isPlain, Bool.and_eq_true, Bool.not_eq_true', Bool.not_eq_true'] at h
  exact h.2

theorem AllSpace.isPlain {ts : List Token} (h : AllSpace ts) : ∀ t ∈ ts, t.isPlain = true := by
  intro t ht
  have hSpace := h t ht
  simp only [Token.isWhitespace, beq_iff_eq] at hSpace
  simp [Token.isPlain, Token.isTerminator, Token.isPunct, Token.isGroupBrace, hSpace]

theorem IsQualifierOf.isPlain {kind : ImportKind} {ts : List Token} (h : IsQualifierOf kind ts) :
    ∀ t ∈ ts, t.isPlain = true := by
  unfold IsQualifierOf at h
  split at h
  · simp [h]
  · next word hKind =>
    obtain ⟨q, space, rfl, hq, hSpace⟩ := h
    intro t ht
    rcases List.mem_cons.mp ht with rfl | ht
    · rw [← hq] at hKind
      generalize hk : t.kind = k at hKind
      have hWord : k = .constWord ∨ k = .functionWord := by
        cases kind <;> simp_all [ImportKind.qualifierKind?]
      rcases hWord with rfl | rfl <;>
        simp [Token.isPlain, Token.isTerminator, Token.isPunct, Token.isGroupBrace, hk]
    · exact hSpace.isPlain t ht

theorem Token.not_terminator_of_isInner {t : Token} (h : t.isInner = true) :
    t.isTerminator = false := by
  simp only [Token.isInner, Bool.and_eq_true, Bool.not_eq_true'] at h
  exact h.1.1.1.1

theorem IsName.isPlain {ts : List Token} (h : IsName ts) (hCore : IsCore ts) :
    ∀ t ∈ ts, t.isPlain = true := by
  intro t ht
  simp [Token.isPlain, Token.not_terminator_of_isInner (hCore.inner t ht), (h t ht).2]

theorem CommaCell.isPlain {c : Cell} (h : CommaCell c) : ∀ t ∈ c.tokens, t.isPlain = true := by
  obtain ⟨space, hSpace, -, hTokens⟩ := h.tokens_eq
  intro t ht
  rw [hTokens] at ht
  simp only [List.mem_cons, List.mem_append] at ht
  rcases ht with rfl | (ht | ht) | ht
  · decide
  · exact hSpace.isPlain t ht
  · exact h.isName.isPlain h.ok.core t ht
  · exact h.ok.after.isPlain t ht

/-! ## Whole statements -/

theorem findIdx?_terminator_eq_none {ts : List Token} (h : ¬ ∃ t ∈ ts, t.isTerminator = true) :
    ts.findIdx? Token.isTerminator = none := by
  simpa using h

theorem findIdx?_terminator {body after : List Token} (hBody : ∀ t ∈ body, t.isTerminator = false)
    (hAfter : after.head?.any Token.isTerminator = true) :
    (body ++ after).findIdx? Token.isTerminator = some body.length := by
  have hNone : body.findIdx? Token.isTerminator = none := by
    rwa [List.findIdx?_eq_none_iff]
  cases after with
  | nil => simp at hAfter
  | cons t after =>
    have ht : t.isTerminator = true := by simpa using hAfter
    rw [List.findIdx?_append, hNone]
    simp [List.findIdx?_cons, ht]

theorem takeWhile_terminator {body more : List Token} {stop : Token}
    (hBody : ∀ t ∈ body, t.isTerminator = false) (hStop : stop.isTerminator = true) :
    (body ++ stop :: more).takeWhile (fun t => !t.isTerminator) = body := by
  rw [List.takeWhile_append_of_pos fun t ht => by simp [hBody t ht],
    List.takeWhile_cons_of_neg (by simp [hStop]), List.append_nil]

/-- How a statement is read whose qualifier and names are known: the first token behind white space
tells the kind, and the names are a group or a list. -/
theorem parseStatement_eq (settings : Settings) {before lead qualifier names after rest : List Token}
    {word first : Token} (hLead : AllSpace lead) (hTokens : qualifier ++ names = first :: rest)
    (hFirst : first.isWhitespace = false)
    (hSize : qualifierSize (ImportKind.ofFirst first) (qualifier ++ names) = qualifier.length)
    (hBody : ∀ t ∈ lead ++ (qualifier ++ names), t.isTerminator = false)
    (hAfter : after.head?.any Token.isTerminator = true) :
    let ts := before ++ word :: (lead ++ (qualifier ++ names) ++ after)
    let kind := ImportKind.ofFirst first
    let start : Int := (before.length + 1 + lead.length : Nat)
    let head : StatementHead :=
      ⟨kind, start, if kind == .classKind then none else some (textOf qualifier)⟩
    parseStatement settings ts before.length =
      (endsGroup ts ((before ++ word :: (lead ++ (qualifier ++ names))).length : Nat)).bind
        fun closed =>
          if closed then
            (groupRecord settings head (start + qualifier.length) names).map fun r => [r]
          else .ok (nameRecords head (start + qualifier.length) names) := by
  intro ts kind start head
  have hAfterUse : tokensAfter ts before.length = .ok (lead ++ (qualifier ++ names) ++ after) :=
    tokensAfter_append _ _ _
  have hSpace : (lead ++ (qualifier ++ names)).takeWhile Token.isWhitespace = lead := by
    rw [hTokens]
    exact takeWhile_space_of_first hLead hFirst
  have hHead : (qualifier ++ names).head? = some first := by
    rw [hTokens]
    rfl
  have hStart : (before.length : Int) + 1 + lead.length = start := by
    simp only [start]
    omega
  have hStop : (before.length : Int) + 1 + (lead ++ (qualifier ++ names)).length =
      ((before ++ word :: (lead ++ (qualifier ++ names))).length : Nat) := by
    simp only [List.length_append, List.length_cons]
    omega
  -- the path lies behind the `use`, so it is not at position zero
  have hZero : (kind != .classKind && start + (qualifier.length : Nat) == 0) = false := by
    have hPositive : start + (qualifier.length : Nat) ≠ 0 := by
      simp only [start]
      omega
    rw [beq_eq_false_iff_ne.mpr hPositive, Bool.and_false]
  have hText : slice ts start (start + (qualifier.length : Nat)) = qualifier := by
    have hSlice := slice_append (before ++ word :: lead) qualifier (names ++ after)
    simp only [List.append_assoc, List.cons_append, List.length_append, List.length_cons] at hSlice
    simp only [ts, start, List.append_assoc]
    convert hSlice using 2 <;> omega
  have hDrop : (start + (qualifier.length : Nat) - ((before.length : Int) + 1)).toNat =
      (lead ++ qualifier).length := by
    simp only [start, List.length_append]
    omega
  have hNames : (lead ++ (qualifier ++ names)).drop (lead ++ qualifier).length = names := by
    rw [← List.append_assoc, List.drop_left]
  simp only [parseStatement, hAfterUse, findIdx?_terminator hBody hAfter, List.take_left, hSpace,
    List.drop_left, hHead, hSize, hStart, hStop, bind, Except.bind, pure, Except.pure]
  simp only [kind] at hZero
  simp only [hZero, Bool.false_eq_true, if_false, hText, hDrop, hNames]
  rfl

/-- A statement with a known first record is read as a group or a list of names. -/
theorem parseStatement_head (settings : Settings) {before space qualifier core rest after : List Token}
    {word : Token} {kind : ImportKind} (hSpace : AllSpace space)
    (hQualifier : IsQualifierOf kind qualifier) (hCore : IsCore core)
    (hBody : ∀ t ∈ space ++ (qualifier ++ core ++ rest), t.isTerminator = false)
    (hAfter : after.head?.any Token.isTerminator = true) :
    parseStatement settings (before ++ word :: (space ++ (qualifier ++ core ++ rest)) ++ after)
        (before.length : Nat) =
      (endsGroup (before ++ word :: (space ++ (qualifier ++ core ++ rest)) ++ after)
        ((before ++ word :: (space ++ (qualifier ++ core ++ rest))).length : Nat)).bind fun closed =>
      let head : StatementHead := ⟨kind, (before.length + 1 + space.length : Nat),
        if kind == .classKind then none else some (textOf qualifier)⟩
      let pos : Int := (before.length + 1 + space.length + qualifier.length : Nat)
      if closed then (groupRecord settings head pos (core ++ rest)).map fun r => [r]
      else .ok (nameRecords head pos (core ++ rest)) := by
  obtain ⟨t, more, hFirst, ht, rfl⟩ := hQualifier.head hCore rest
  have hSize := qualifierSize_eq hQualifier hCore rest
  rw [List.append_assoc] at hFirst hSize hBody
  rw [List.append_assoc before, List.cons_append, List.append_assoc qualifier]
  exact parseStatement_eq settings hSpace hFirst ht hSize hBody hAfter

/-- A statement of one group. -/
theorem groupRecord_cell (settings : Settings) {c : Cell} (hc : CellOk c) (hGroup : c.grouped = true)
    (hStart : c.isStart = true) (offset : Nat) :
    groupRecord settings ⟨c.kind, (offset + c.lead.tokens.length : Nat),
        if c.kind == .classKind then none else some (textOf c.qualifier)⟩
        (offset + c.lead.tokens.length + c.qualifier.length : Nat) (c.core ++ c.after) =
      .ok (c.record settings offset) := by
  have hShape := hc.shape
  rw [if_pos hGroup] at hShape
  obtain ⟨front, opening, inside, closing, back, hCore, hOpening, hClosing, hBraces, -⟩ := hShape
  have hFront : ∀ t ∈ front, t.isGroupBrace = false := fun t ht => hBraces t (by simp [ht])
  have hTrim := hc.core.trimmed.trimEnd_append hc.after
  have hOpen := @findIdx?_groupOpen front (inside ++ closing :: back) _ hOpening hFront
  rw [← hCore] at hOpen
  have hArranged := arrangeGroup_eq settings hOpening hClosing hBraces
  rw [← hCore] at hArranged
  have hUnfold : arrangeGroup settings c.core =
      if settings.algorithm == .unsorted then c.core
      else (sortGroup? settings.layout c.core (front.length : Nat)
        ((lastIndex? (·.kind == .groupClose) c.core).getD 0 : Nat)).getD c.core := by
    rw [arrangeGroup, hOpen]
  have hPath : (arrangeGroup settings c.core).takeWhile (·.kind != .groupOpen) = front := by
    rw [hArranged]
    exact takeWhile_groupOpen hOpening hFront
  have hTake : (arrangeGroup settings c.core).take front.length = front := by
    rw [hArranged, List.take_left]
  simp only [groupRecord, hTrim, hOpen, ← hUnfold, hTake, Cell.record, Cell.arranged, hGroup,
    hStart, if_true, hPath]
  cases c.kind <;> rfl

theorem endsGroup_group {front core behind after : List Token} (hGroup : IsGroup core)
    (hBehind : AllSpace behind) :
    endsGroup (front ++ (core ++ behind) ++ after) ((front ++ (core ++ behind)).length : Nat) =
      .ok true := by
  obtain ⟨path, opening, inside, closing, back, rfl, -, hClosing, -, hBack⟩ := hGroup
  have hMeaning : closing.isMeaningful = true := by
    simp [Token.isMeaningful, Token.isWhitespace, Token.isComment, hClosing]
  have hRest : ∀ t ∈ back ++ behind, t.isMeaningful = false := by
    intro t ht
    rcases List.mem_append.mp ht with ht | ht
    · exact hBack t ht
    · exact hBehind.not_meaningful t ht
  have hSplit : front ++ (path ++ opening :: (inside ++ closing :: back) ++ behind) =
      (front ++ (path ++ opening :: inside)) ++ closing :: (back ++ behind) := by simp
  rw [hSplit, endsGroup_append hMeaning hRest, hClosing]
  rfl

theorem endsGroup_plain {front body after : List Token} {word : Token} (hWord : word.kind = .useWord)
    (hPlain : ∀ t ∈ body, t.isPlain = true) :
    endsGroup (front ++ word :: body ++ after) ((front ++ word :: body).length : Nat) =
      .ok false := by
  have hMeaning : word.isMeaningful = true := by
    simp [Token.isMeaningful, Token.isWhitespace, Token.isComment, hWord]
  obtain ⟨before, t, back, hSplit, ht, hBack⟩ :=
    exists_last_meaningful ⟨word, List.mem_cons_self (l := body), hMeaning⟩
  have hKind : (t.kind == .groupClose) = false := by
    have hMem : t ∈ word :: body := by simp [hSplit]
    rcases List.mem_cons.mp hMem with rfl | hMem
    · simp [hWord]
    · have hBrace := hPlain t hMem
      simp only [Token.isPlain, Token.isGroupBrace, Bool.and_eq_true, Bool.not_eq_true',
        Bool.or_eq_false_iff] at hBrace
      exact hBrace.2.2
  rw [hSplit, ← List.append_assoc, endsGroup_append ht hBack, hKind]

/-- A statement of names. -/
theorem nameRecords_cells (settings : Settings) {c : Cell} {cs : List Cell} (hc : CellOk c)
    (hSingle : c.grouped = false) (hStart : c.isStart = true)
    (hcs : ∀ d ∈ cs, CommaCell d ∧ d.kind = c.kind) (offset : Nat) :
    nameRecords ⟨c.kind, (offset + c.lead.tokens.length : Nat),
        if c.kind == .classKind then none else some (textOf c.qualifier)⟩
        (offset + c.lead.tokens.length + c.qualifier.length : Nat)
        (c.core ++ (c.after ++ cs.flatMap Cell.tokens)) =
      Cell.records settings offset (c :: cs) := by
  have hName := hc.shape
  rw [if_neg (by simp [hSingle])] at hName
  have hRun : ∀ t ∈ c.core ++ c.after, t.isComma = false := by
    intro t ht
    rcases List.mem_append.mp ht with ht | ht
    · exact (hName t ht).1
    · exact hc.after.not_comma t ht
  have hTrim := hc.core.trimmed.trimEnd_append hc.after
  have hNext : ((offset + c.lead.tokens.length + c.qualifier.length : Nat) : Int) +
      (c.core ++ c.after).length = (offset + c.tokens.length : Nat) := by
    simp only [Cell.tokens, List.length_append]
    omega
  rw [nameRecords, ← List.append_assoc, namePartsFrom_run hRun,
    namePartsFrom_cells fun d hd => (hcs d hd).1, hNext]
  simp only [Cell.records, @map_record_parts settings ⟨c.kind, _, _⟩ _ hcs]
  congr 1
  simp only [NamePart.record, List.nil_append, hTrim, Cell.record, Cell.arranged, hSingle, hStart]
  cases c.kind <;> simp

/-- Behind its first name, a statement of cells has no terminator and no brace. -/
theorem isPlain_after_core {c : Cell} {cs : List Cell} (hc : CellOk c)
    (hcs : ∀ d ∈ cs, CommaCell d) :
    ∀ t ∈ c.after ++ cs.flatMap Cell.tokens, t.isPlain = true := by
  intro t ht
  rcases List.mem_append.mp ht with ht | ht
  · exact hc.after.isPlain t ht
  · obtain ⟨d, hd, ht⟩ := List.mem_flatMap.mp ht
    exact (hcs d hd).isPlain t ht

/-- The tokens of one statement are parsed as its cells. -/
theorem parseStatement_cells (settings : Settings) {before after gap space : List Token}
    {word : Token} {c : Cell} {cs : List Cell} (hLead : c.lead = .start gap word space)
    (hc : CellOk c) (hcs : ∀ d ∈ cs, CommaCell d ∧ d.kind = c.kind)
    (hSingle : c.grouped = true → cs = []) (hAfter : after.head?.any Token.isTerminator = true) :
    parseStatement settings (before ++ (c :: cs).flatMap Cell.tokens ++ after)
        (before.length + gap.length : Nat) =
      .ok (Cell.records settings before.length (c :: cs)) := by
  have hOk := hc.lead
  rw [hLead] at hOk
  obtain ⟨-, hWord, hSpace, hQualifier⟩ := hOk
  have hRest := isPlain_after_core hc fun d hd => (hcs d hd).1
  have hBody : ∀ t ∈ space ++ (c.qualifier ++ c.core ++ (c.after ++ cs.flatMap Cell.tokens)),
      t.isTerminator = false := by
    simp only [List.forall_mem_append]
    exact ⟨fun t ht => Token.not_terminator_of_isPlain (hSpace.isPlain t ht),
      ⟨fun t ht => Token.not_terminator_of_isPlain (hQualifier.isPlain t ht),
        fun t ht => Token.not_terminator_of_isInner (hc.core.inner t ht)⟩,
      List.forall_mem_append.mp fun t ht => Token.not_terminator_of_isPlain (hRest t ht)⟩
  have hTokens : before ++ (c :: cs).flatMap Cell.tokens ++ after = (before ++ gap) ++ word ::
      (space ++ (c.qualifier ++ c.core ++ (c.after ++ cs.flatMap Cell.tokens))) ++ after := by
    simp [Cell.tokens, hLead, Lead.tokens]
  have hUse : before.length + gap.length = (before ++ gap).length := by simp
  have hStart : c.isStart = true := by simp [Cell.isStart, hLead]
  have hLength : (before ++ gap).length + 1 + space.length =
      before.length + c.lead.tokens.length := by
    simp [hLead, Lead.tokens]
    omega
  rw [hTokens, hUse, parseStatement_head settings hSpace hQualifier hc.core hBody hAfter, hLength]
  -- what is left is whether the statement ends in a brace: the shape of its first cell tells
  have hShape := hc.shape
  cases hGroup : c.grouped with
  | true =>
    obtain rfl := hSingle hGroup
    rw [if_pos hGroup] at hShape
    have hEnds := @endsGroup_group (before ++ gap ++ word :: (space ++ c.qualifier)) _ _ after
      hShape hc.after
    have hRecord := groupRecord_cell settings hc hGroup hStart before.length
    simp only [List.append_assoc, List.cons_append, List.flatMap_nil, List.append_nil] at hEnds ⊢
    rw [hEnds]
    simp only [Except.bind, if_true, hRecord, Except.map, Cell.records]
  | false =>
    rw [if_neg (by simp [hGroup])] at hShape
    rw [endsGroup_plain hWord ?plain]
    case plain =>
      simp only [List.forall_mem_append]
      exact ⟨hSpace.isPlain, ⟨hQualifier.isPlain, hShape.isPlain hc.core⟩,
        List.forall_mem_append.mp hRest⟩
    simp only [Except.bind, Bool.false_eq_true, if_false,
      nameRecords_cells settings hc hGroup hStart hcs]

/-! ## Several statements -/

theorem parseStatements_cons_iff {settings : Settings} {ts : List Token} {u : Int} {us : List Int}
    {records : List Record} :
    parseStatements settings ts (u :: us) = .ok records ↔
      ∃ first later, parseStatement settings ts u = .ok first ∧
        parseStatements settings ts us = .ok later ∧ records = first ++ later := by
  simp only [parseStatements, List.mapM_cons, bind, Except.bind, pure, Except.pure]
  cases parseStatement settings ts u with
  | error fault => simp
  | ok first =>
    cases us.mapM (parseStatement settings ts) with
    | error fault => simp
    | ok parsed => simp [eq_comm]

end UseOrder
