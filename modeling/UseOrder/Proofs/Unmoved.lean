import UseOrder.Proofs.Adjoining
import UseOrder.Proofs.CellReading
import UseOrder.Proofs.Kinds

/-!
# Imports that stay where they are

The records of a sub-group are always written anew, also when they are in order: the planner puts
together the tokens of every slot from the text of the qualifier and the tokens of the record. Here
the plan is followed for records that go back to the slots they came from. In the first slot of a
statement stands what `startStatement` writes (`Record.Opens`), in each further slot what
`continueStatement` writes behind a comma (`Record.Continues`), so every edit is idle and the tokens
stay the same. This needs no well-formed statement: it holds of any slot the parser makes, an empty
one included. What it does need is that the text of a qualifier is cut into the tokens it came from,
which rests on how a text is split: a word has no white space in it, and white space is one token.
-/

namespace UseOrder

/-! ## Edits that change nothing -/

/-- What the edit would write is there already. -/
def Edit.Idle (ts : List Token) (e : Edit) : Prop :=
  slice ts e.start e.stop = e.tokens

theorem applyInOrder_idle {ts : List Token} {edits : List Edit} (h : ∀ e ∈ edits, e.Idle ts)
    (changed : Nat) : applyInOrder ts changed edits = ⟨ts, .ok changed⟩ := by
  induction edits with
  | nil => rfl
  | cons e edits ih =>
    have hIdle : slice ts e.start e.stop = e.tokens := h e List.mem_cons_self
    rw [applyInOrder, if_pos hIdle]
    exact ih fun f hf => h f (List.mem_cons_of_mem _ hf)

theorem applyEdits_idle {ts : List Token} {edits : List Edit} (h : ∀ e ∈ edits, e.Idle ts) :
    applyEdits ts edits = ⟨ts, .ok 0⟩ :=
  applyInOrder_idle (fun e he => h e (List.mem_mergeSort.mp he)) 0

/-! ## Slots that hold what is written into them -/

/-- A record holds the tokens of its slot behind the qualifier as they stand. -/
def Record.Verbatim (ts : List Token) (r : Record) : Prop :=
  ∃ qualifier, slice ts r.start (r.last + 1) = qualifier ++ r.tokens ∧
    textOf qualifier = r.qualifier.getD []

/-- The first slot of a statement, with the record as it would be written there. -/
structure Record.Opens (ts : List Token) (r : Record) : Prop where
  behind : ∃ (u : Nat) (word : Token), tokenBefore ts r = .ok (some ((u : Int), word)) ∧
    u < ts.length ∧ word.isComma = false
  slot : slice ts r.start (r.last + 1) = qualifierTokens r ++ r.tokens

/-- A further slot of the statement of `a`, with the record as it would be written behind a comma. -/
structure Record.Continues (ts : List Token) (a r : Record) : Prop where
  behind : ∃ i comma, tokenBefore ts r = .ok (some (i, comma)) ∧ comma.isComma = true
  kind : r.kind = a.kind
  names : a.grouped = false ∧ r.grouped = false
  slot : slice ts r.start (r.last + 1) = r.tokens

section Plan

variable {layout : Layout} {ts : List Token} {a r : Record}

theorem Record.Opens.planSlot (h : r.Opens ts) (current : Option OpenStatement) :
    ∃ e indent, planSlot layout ts current r r = .ok (e, ⟨r.kind, r.grouped, indent⟩) ∧
      e.Idle ts := by
  obtain ⟨u, word, hBefore, hu, hWord⟩ := h.behind
  obtain ⟨indent, hIndent⟩ := @lineIndent_ok ts u (by omega) (by omega)
  refine ⟨⟨r.start, r.last + 1, qualifierTokens r ++ r.tokens⟩, indent, ?_, h.slot⟩
  simp only [UseOrder.planSlot, hBefore, startStatement, hIndent, hWord, bind, Except.bind, pure,
    Except.pure, Bool.false_eq_true, if_false]

theorem Record.Continues.planSlot (h : Record.Continues ts a r) (indent : Text) :
    ∃ e, planSlot layout ts (some ⟨a.kind, a.grouped, indent⟩) r r =
      .ok (e, ⟨r.kind, r.grouped, indent⟩) ∧ e.Idle ts := by
  obtain ⟨i, comma, hBefore, hComma⟩ := h.behind
  have hAccepts : (⟨a.kind, a.grouped, indent⟩ : OpenStatement).accepts r = true := by
    simp [OpenStatement.accepts, h.kind, h.names]
  refine ⟨⟨r.start, r.last + 1, r.tokens⟩, ?_, h.slot⟩
  simp [UseOrder.planSlot, hBefore, continueStatement, hComma, hAccepts, bind, Except.bind, pure,
    Except.pure]

/-- Records that open statements or continue them are written back as they are. -/
theorem planFrom_idle {records : List Record} {current : Option OpenStatement}
    (hFirst : ∀ r ∈ records.head?, r.Opens ts ∨ ∃ a indent,
      current = some ⟨a.kind, a.grouped, indent⟩ ∧ Record.Continues ts a r)
    (hChain : records.IsChain fun a r => r.Opens ts ∨ Record.Continues ts a r) :
    ∃ edits, planFrom layout ts current (records.zip records) = .ok edits ∧
      ∀ e ∈ edits, e.Idle ts := by
  induction records generalizing current with
  | nil => exact ⟨[], rfl, by simp⟩
  | cons r records ih =>
    obtain ⟨hNext, hLater⟩ := List.isChain_cons.mp hChain
    -- either way the statement that is left open is that of the record
    obtain ⟨e, indent, hPlan, hIdle⟩ : ∃ e indent, UseOrder.planSlot layout ts current r r =
        .ok (e, ⟨r.kind, r.grouped, indent⟩) ∧ e.Idle ts := by
      rcases hFirst r rfl with hOpens | ⟨a, indent, rfl, hContinues⟩
      · exact hOpens.planSlot current
      · obtain ⟨e, hPlan, hIdle⟩ := @Record.Continues.planSlot layout _ _ _ hContinues indent
        exact ⟨e, indent, hPlan, hIdle⟩
    obtain ⟨edits, hEdits, hAll⟩ := @ih (some ⟨r.kind, r.grouped, indent⟩)
      (fun next hMem => (hNext next hMem).imp_right fun h => ⟨r, indent, rfl, h⟩) hLater
    refine ⟨e :: edits, ?_, List.forall_mem_cons.mpr ⟨hIdle, hAll⟩⟩
    simp only [List.zip_cons_cons, planFrom, hPlan, hEdits, bind, Except.bind, pure, Except.pure]

end Plan

/-! ## The records of a statement -/

/-- The first record of a statement takes the qualifier, and all others are plain names. -/
structure HeadedBy (head : StatementHead) (first : Record) (others : List Record) : Prop where
  start : first.start = head.start
  kind : first.kind = head.kind
  qualifier : first.qualifier = head.qualifier
  names : others ≠ [] → first.grouped = false
  plain : ∀ r ∈ others, r.kind = head.kind ∧ r.grouped = false ∧ r.qualifier = none

theorem exists_headed_of_names (head : StatementHead) (pos : Int) (names : List Token) :
    ∃ first others, nameRecords head pos names = first :: others ∧ HeadedBy head first others := by
  unfold nameRecords
  split
  · next hNone => exact absurd hNone (namePartsFrom_ne_nil _ _ _)
  · next part parts _ =>
    refine ⟨_, _, rfl, rfl, rfl, rfl, fun _ => rfl, fun r hr => ?_⟩
    obtain ⟨part, -, rfl⟩ := List.mem_map.mp hr
    exact ⟨rfl, rfl, rfl⟩

theorem headed_of_group {settings : Settings} {head : StatementHead} {pos : Int}
    {names : List Token} {r : Record} (h : groupRecord settings head pos names = .ok r) :
    HeadedBy head r [] := by
  simp only [groupRecord, pure, Except.pure] at h
  split at h
  · obtain rfl := Except.ok.inj h
    exact ⟨rfl, rfl, rfl, fun hNe => absurd rfl hNe, by simp⟩
  · cases h

/-- Tokens that are never empty are told by their text. -/
theorem eq_of_prefixes {a b l : List Token} (ha : a <+: l) (hb : b <+: l)
    (hText : textOf a = textOf b) (hContents : ∀ t ∈ l, t.content ≠ []) : a = b := by
  -- of two prefixes one continues the other, here by nothing
  have hSame : ∀ a b : List Token, a <+: b → b <+: l → textOf a = textOf b → a = b := by
    rintro a b ⟨more, rfl⟩ hb hText
    cases more with
    | nil => simp
    | cons t more =>
      have hEmpty : t.content ++ textOf more = [] := by simpa using hText
      have ht := hContents t (hb.subset (by simp))
      exact absurd (List.append_eq_nil_iff.mp hEmpty).1 ht
  rcases List.prefix_or_prefix_of_prefix ha hb with h | h
  · exact hSame a b h hb hText
  · exact (hSame b a h ha hText.symm).symm

theorem slice_prefix_drop {ts : List Token} {n : Nat} (hn : n ≤ ts.length) (stop : Int) :
    slice ts n stop <+: ts.drop n := by
  rw [slice, bound_natCast hn, List.drop_take]
  exact List.take_prefix _ _

/-! ## Qualifiers -/

/-- White space in a source text is one token of blanks. -/
theorem spaced_source {source : Text} {before space after : List Token} {t : Token}
    (hSource : classify (lex source) = before ++ t :: (space ++ after)) (hSpace : AllSpace space) :
    Spaced space := by
  have hKind : ∀ s ∈ space, s.kind = .whitespace := by
    intro s hs
    simpa [Token.isWhitespace] using hSpace s hs
  have hFixed : ∀ s ∈ space, s.raw = s := by
    intro s hs
    exact Token.raw_eq_self (by rw [hKind s hs]; rfl)
  have hChain := neighbours_source source
  rw [hSource] at hChain
  cases space with
  | nil => exact .inl rfl
  | cons s more =>
    cases more with
    | cons s' more =>
      -- two pieces of white space would be neighbours
      have hInfix : [s, s'] <:+: before ++ t :: (s :: s' :: more ++ after) :=
        ⟨before ++ [t], more ++ after, by simp⟩
      have hPair := List.isChain_cons_cons.mp <| List.IsChain.infix hChain hInfix
      have hNot := hPair.1.space (by rw [hFixed s (by simp)]; exact hKind s (by simp))
      exact absurd (by rw [hFixed s' (by simp)]; exact hKind s' (by simp)) hNot
    | nil =>
      have hBlank := @isBlank_of_mem_source source s (by simp [hSource]) (hKind s (by simp))
      obtain ⟨kind, content⟩ := s
      obtain rfl : kind = .whitespace := hKind ⟨kind, content⟩ (by simp)
      cases content with
      | nil =>
        have hContent := @content_ne_nil_of_mem_source source ⟨.whitespace, []⟩ (by simp [hSource])
        exact absurd rfl hContent
      | cons c cs => exact .inr ⟨c, cs, rfl, hBlank⟩

/-- A qualifier that stands in a source text is written as it stands. -/
theorem qualifierTokens_source {source : Text} {before space after : List Token} {first : Token}
    {r : Record} (hSource : classify (lex source) = before ++ first :: (space ++ after))
    (hSpace : AllSpace space) (hKind : r.kind = ImportKind.ofFirst first)
    (hOther : r.kind ≠ .classKind) (hText : r.qualifier = some (textOf (first :: space))) :
    qualifierTokens r = first :: space := by
  have hWord : first.kind = .constWord ∨ first.kind = .functionWord := by
    rw [hKind] at hOther
    cases h : first.kind <;> simp_all [ImportKind.ofFirst]
  have hMem : first ∈ classify (lex source) := by simp [hSource]
  refine qualifierTokens_of_word ?_ hText (content_ne_nil_of_mem_source hMem)
    (isWord_of_qualifier hMem hWord) (spaced_source hSource hSpace)
  rcases hWord with h | h <;> simp [hKind, ImportKind.ofFirst, h, ImportKind.qualifierKind?]

/-! ## Statements -/

theorem tokenBefore_of_previous {ts : List Token} {r : Record} {i : Nat} {t : Token}
    (h : previousMeaningful ts r.start = .ok (some (i : Int))) (ht : ts[i]? = some t) :
    tokenBefore ts r = .ok (some ((i : Int), t)) := by
  simp only [tokenBefore, h, tokenAt_natCast.mpr ht, bind, Except.bind, pure, Except.pure]

/-- Without a group that is laid out anew, all records are verbatim. -/
theorem Covers.verbatim {settings : Settings} {first : Bool} {pos : Int} {ts tokens : List Token}
    {records : List Record} (h : Covers settings first pos tokens records)
    (hAt : StandsAt ts pos tokens) :
    ∀ r ∈ records, r.grouped = false ∨ settings.algorithm = .unsorted → r.Verbatim ts := by
  intro r hr hKept
  obtain ⟨qualifier, source, hSlot, hRead⟩ := h.read hAt r hr
  refine ⟨qualifier, ?_, hRead.qualifier_eq.symm⟩
  rw [hSlot, hRead.tokens_eq]
  rcases hKept with hName | hUnsorted
  · rw [if_neg (by simp [hName])]
  · have hNone : rebuiltGroup? settings source = none := by
      rw [rebuiltGroup?]
      split
      · rfl
      · rw [if_pos (by simp [hUnsorted])]
    rw [hNone, Option.getD_none, ite_self]

section Statement

variable {settings : Settings} {source : Text} {before lead qualifier names after : List Token}
  {word first : Token} {head : StatementHead} {r : Record}

/-- Behind the `use` of a statement there is white space only, up to its first record. -/
theorem tokenBefore_of_lead {more : List Token}
    (hSource : classify (lex source) = before ++ word :: (lead ++ more))
    (hWord : word.kind = .useWord) (hLead : AllSpace lead)
    (hStart : r.start = (before.length : Int) + 1 + lead.length) :
    tokenBefore (classify (lex source)) r = .ok (some ((before.length : Int), word)) := by
  have hUseAt : (classify (lex source))[before.length]? = some word := by
    rw [hSource]
    simp
  have hBound : r.start ≤ (classify (lex source)).length := by
    rw [hStart, hSource, List.length_append, List.length_cons, List.length_append]
    omega
  obtain ⟨i, t, hPrevious, ⟨hi, hMeaning⟩, hLow, hHigh⟩ := @exists_previous _ r.start before.length
    word hBound ⟨hUseAt, isMeaningful_of_use hWord⟩ (by omega)
  obtain rfl : i = before.length := by
    -- a later token would be one of the white space
    by_contra hNot
    have hLeadAt : StandsAt (classify (lex source)) (before.length + 1) lead := by
      rw [hSource]
      exact standsAt_body before lead more word
    have hMem := hLeadAt.mem hi (by omega) (by omega)
    simp [Token.isMeaningful, hLead t hMem] at hMeaning
  exact tokenBefore_of_previous hPrevious hUseAt

/-- The qualifier of a verbatim record is the one that stands in front of it. -/
theorem Record.Verbatim.slot_eq {front more : List Token} (h : r.Verbatim (classify (lex source)))
    (hSource : classify (lex source) = front ++ (qualifier ++ more))
    (hStart : r.start = (front.length : Nat)) (hText : r.qualifier.getD [] = textOf qualifier) :
    slice (classify (lex source)) r.start (r.last + 1) = qualifier ++ r.tokens := by
  obtain ⟨q, hSlot, hq⟩ := h
  have hLength : front.length ≤ (classify (lex source)).length := by
    rw [hSource]
    exact (List.prefix_append _ _).length_le
  have hDrop : (classify (lex source)).drop front.length = qualifier ++ more := by
    rw [hSource, List.drop_left]
  have hPrefix : q <+: qualifier ++ more := by
    rw [← hDrop]
    refine List.IsPrefix.trans ?_ (slice_prefix_drop hLength (r.last + 1))
    rw [← hStart, hSlot]
    exact List.prefix_append _ _
  -- the two are prefixes of one list with the same text
  have hSame : q = qualifier := by
    refine eq_of_prefixes hPrefix (List.prefix_append _ _) (hq.trans hText) fun t ht => ?_
    exact @content_ne_nil_of_mem_source source t (by rw [hSource]; exact List.mem_append_right _ ht)
  rw [hSlot, hSame]

/-- The first record of a statement is written behind its `use` as it stands there. -/
theorem opens_of_headed {others : List Record} {more : List Token}
    (hSource : classify (lex source) = before ++ word :: (lead ++ (qualifier ++ more)))
    (hWord : word.kind = .useWord) (hLead : AllSpace lead)
    (hStart : head.start = (before.length : Int) + 1 + lead.length)
    (hText : head.qualifier.getD [] = textOf qualifier) (hHead : head.ReadFrom qualifier first)
    (hHeaded : HeadedBy head r others) (hVerbatim : r.Verbatim (classify (lex source))) :
    r.Opens (classify (lex source)) := by
  have hShape : classify (lex source) = (before ++ word :: lead) ++ (qualifier ++ more) := by
    rw [hSource]
    simp
  have hBefore := tokenBefore_of_lead hSource hWord hLead (hHeaded.start.trans hStart)
  refine ⟨⟨before.length, word, hBefore, ?_, by simp [Token.isComma, Token.isPunct, hWord]⟩, ?_⟩
  · rw [hSource, List.length_append, List.length_cons]
    omega
  · have hSlotStart : r.start = ((before ++ word :: lead).length : Nat) := by
      rw [hHeaded.start, hStart, List.length_append, List.length_cons]
      omega
    rw [hVerbatim.slot_eq hShape hSlotStart (by rw [hHeaded.qualifier, hText])]
    congr 1
    by_cases hClass : head.kind = .classKind
    · rw [hHead.bare hClass]
      simp [qualifierTokens, hHeaded.kind, hClass, ImportKind.qualifierKind?]
    · obtain ⟨hSome, space, hSpace, rfl⟩ := hHead.worded hClass
      refine (@qualifierTokens_source source (before ++ word :: lead) space more first r ?_ hSpace ?_
        ?_ ?_).symm
      · rw [hShape, List.cons_append]
      · rw [hHeaded.kind, hHead.kind]
      · rwa [hHeaded.kind]
      · rw [hHeaded.qualifier, hSome]

/-- A name behind a comma is written there as it stands. -/
theorem continues_of_precedes {a : Record} (hPrecedes : a.Precedes (classify (lex source)) r)
    (hBound : r.start ≤ (classify (lex source)).length) (hKind : r.kind = a.kind)
    (hNames : a.grouped = false ∧ r.grouped = false) (hPlain : r.qualifier = none)
    (hVerbatim : r.Verbatim (classify (lex source))) :
    Record.Continues (classify (lex source)) a r := by
  obtain ⟨k, comma, hk, hBehind, hFront, hComma⟩ := hPrecedes.comma
  refine ⟨?_, hKind, hNames, ?_⟩
  · -- the last meaningful token in front of the slot is a comma, maybe not the first one
    obtain ⟨i, t, hPrevious, ⟨hi, hMeaning⟩, hki, hHigh⟩ := exists_previous hBound
      ⟨hk, by rw [eq_commaToken hComma]; decide⟩ hFront
    have hGap := hPrecedes.between i t hi (by omega) hHigh
    rw [Token.isGap, Token.not_space_of_meaningful hMeaning, Bool.or_false] at hGap
    exact ⟨i, t, tokenBefore_of_previous hPrevious hi, hGap⟩
  · obtain ⟨q, hSlot, hq⟩ := hVerbatim
    rw [hPlain, Option.getD_none] at hq
    have hContents : ∀ t ∈ q, t.content ≠ [] := by
      intro t ht
      have hMem : t ∈ slice (classify (lex source)) r.start (r.last + 1) := by
        rw [hSlot]
        exact List.mem_append_left _ ht
      exact content_ne_nil_of_mem_source (List.mem_of_mem_take (List.mem_of_mem_drop hMem))
    have hNil : q = [] := by
      rw [← List.isEmpty_iff, ← textOf_isEmpty hContents, hq]
      rfl
    rw [hSlot, hNil, List.nil_append]

/-- A record that another one precedes is not the first of its statement: it has no qualifier, and
both are plain names of one kind. -/
theorem HeadedBy.continues {head : StatementHead} {others : List Record} {pos : Int}
    {body : List Token} (h : HeadedBy head r others)
    (hCovers : Covers settings true pos body (r :: others))
    (hAt : StandsAt (classify (lex source)) pos body)
    (hVerbatim : ∀ a ∈ r :: others, a.Verbatim (classify (lex source))) :
    (r :: others).IsChain (Record.Continues (classify (lex source))) := by
  rw [List.isChain_iff_getElem]
  intro i hi
  have hPrecedes := List.isChain_iff_getElem.mp (hCovers.chain hAt) i hi
  have hMem : (r :: others)[i + 1] ∈ others := List.getElem_mem _
  obtain ⟨hKind, hName, hPlain⟩ := h.plain _ hMem
  have hEarlier : (r :: others)[i].kind = head.kind ∧ (r :: others)[i].grouped = false := by
    rcases List.mem_cons.mp (List.getElem_mem (Nat.lt_of_succ_lt hi)) with hFirst | hOther
    · rw [hFirst]
      exact ⟨h.kind, h.names (List.ne_nil_of_mem hMem)⟩
    · exact ⟨(h.plain _ hOther).1, (h.plain _ hOther).2.1⟩
  have hBound : (r :: others)[i + 1].start ≤ (classify (lex source)).length := by
    have hInside := hCovers.bounds _ (List.getElem_mem hi)
    obtain ⟨front, back, hSource, hFront⟩ := hAt
    have hLength := congrArg List.length hSource
    simp only [List.length_append] at hLength
    omega
  exact continues_of_precedes hPrecedes hBound (by rw [hKind, hEarlier.1]) ⟨hEarlier.2, hName⟩ hPlain
    (hVerbatim _ (List.getElem_mem hi))

/-- The first slot of a statement holds what is written there, and every further slot what is
written behind a comma. -/
theorem parseStatement_unmoved {u : Int} {records : List Record}
    (hUse : UseAt (classify (lex source)) u)
    (h : parseStatement settings (classify (lex source)) u = .ok records)
    (hGroups : ∀ r ∈ records, r.grouped = true → r.Verbatim (classify (lex source))) :
    (∀ r ∈ records.head?, r.Opens (classify (lex source))) ∧
      records.IsChain (Record.Continues (classify (lex source))) := by
  obtain ⟨before, word, body, stop, after, hSource, rfl, hWord, hBody, hStop⟩ :=
    exists_statement hUse h
  have hAfter : (stop :: after).head?.any Token.isTerminator = true := by simpa using hStop
  have hAt : StandsAt (classify (lex source)) (before.length + 1) body := by
    rw [hSource]
    exact standsAt_body before body (stop :: after) word
  have hParsed := h
  rw [hSource] at hParsed
  have hCovers := parseStatement_covers hBody hAfter hParsed
  have hVerbatim : ∀ r ∈ records, r.Verbatim (classify (lex source)) := by
    intro r hr
    cases hGrouped : r.grouped with
    | true => exact hGroups r hr hGrouped
    | false => exact hCovers.verbatim hAt r hr (.inl hGrouped)
  rcases parseStatement_cases hBody hAfter hParsed with
    ⟨-, rfl⟩ | ⟨lead, qualifier, names, head, rfl, hLead, hStart, hText, ⟨first, rest, -, -, hHead⟩,
      hRecords⟩
  · exact ⟨by simp, .nil⟩
  obtain ⟨r, others, rfl, hHeaded⟩ : ∃ r others, records = r :: others ∧ HeadedBy head r others := by
    rcases hRecords with ⟨r, hRecord, rfl⟩ | rfl
    · exact ⟨r, [], rfl, headed_of_group hRecord⟩
    · exact exists_headed_of_names head _ names
  constructor
  · intro r' hr'
    obtain rfl : r = r' := Option.some.inj hr'
    refine @opens_of_headed source before lead qualifier word first head r others
      (names ++ stop :: after) ?_ hWord hLead hStart hText hHead hHeaded (hVerbatim r (by simp))
    rw [hSource]
    simp
  · exact hHeaded.continues hCovers hAt hVerbatim

end Statement

/-! ## Sub-groups -/

theorem parseStatements_unmoved {settings : Settings} {source : Text} {uses : List Int}
    {records : List Record} (hUses : ∀ u ∈ uses, UseAt (classify (lex source)) u)
    (h : parseStatements settings (classify (lex source)) uses = .ok records)
    (hGroups : ∀ r ∈ records, r.grouped = true → r.Verbatim (classify (lex source))) :
    (∀ r ∈ records.head?, r.Opens (classify (lex source))) ∧
      records.IsChain fun a r =>
        r.Opens (classify (lex source)) ∨ Record.Continues (classify (lex source)) a r := by
  induction uses generalizing records with
  | nil =>
    obtain rfl := Except.ok.inj h
    exact ⟨by simp, .nil⟩
  | cons u uses ih =>
    obtain ⟨first, later, hFirst, hLater, rfl⟩ := parseStatements_cons_iff.mp h
    obtain ⟨hOpens, hChain⟩ := parseStatement_unmoved (hUses u List.mem_cons_self) hFirst
      fun r hr => hGroups r (List.mem_append_left _ hr)
    obtain ⟨hNext, hRest⟩ := ih (fun v hv => hUses v (List.mem_cons_of_mem _ hv)) hLater
      fun r hr => hGroups r (List.mem_append_right _ hr)
    refine ⟨fun r hr => ?_, List.isChain_append.mpr ⟨hChain.imp fun a b => .inr, hRest, ?_⟩⟩
    · rw [List.head?_append] at hr
      cases first with
      | nil => exact hNext r hr
      | cons a first => exact hOpens r hr
    · exact fun a _ r hr => .inl (hNext r hr)

/-- Records that are in order are written back without any change. -/
theorem planRecords_unmoved {settings : Settings} {source : Text} {uses : List Int}
    {records : List Record} (hUses : ∀ u ∈ uses, UseAt (classify (lex source)) u)
    (h : parseStatements settings (classify (lex source)) uses = .ok records)
    (hOrder : orderRecords settings records = records)
    (hGroups : ∀ r ∈ records, r.grouped = true → r.Verbatim (classify (lex source))) :
    ∃ edits, planRecords settings (classify (lex source)) records = .ok edits ∧
      applyEdits (classify (lex source)) edits = ⟨classify (lex source), .ok 0⟩ := by
  obtain ⟨hOpens, hChain⟩ := parseStatements_unmoved hUses h hGroups
  obtain ⟨edits, hEdits, hIdle⟩ := @planFrom_idle settings.layout (classify (lex source)) records none
    (fun r hr => .inl (hOpens r hr)) hChain
  refine ⟨edits, ?_, applyEdits_idle hIdle⟩
  rw [planRecords, hOrder, planEdits, hEdits]

theorem useAt_of_mem_subGroups {source : Text} {groups : List SubGroup} {group : SubGroup}
    (hGroups : subGroups (classify (lex source)) = .ok groups) (hGroup : group ∈ groups) :
    ∀ u ∈ group.uses, UseAt (classify (lex source)) u := by
  obtain ⟨-, hUses⟩ := importRuns_uses (classify (lex source))
  obtain ⟨hFlat, -⟩ := subGroupsFrom_uses hUses hGroups
  intro u hu
  exact hUses u (hFlat ▸ List.mem_flatMap.mpr ⟨group, hGroup, hu⟩)

/-! ## Without sorting -/

theorem orderRecords_unsorted {settings : Settings} (hUnsorted : settings.algorithm = .unsorted)
    (hKinds : settings.kindOrder = none) (records : List Record) :
    orderRecords settings records = records := by
  simp [orderRecords, hKinds, sortRecords, comparator?, hUnsorted]

theorem verbatim_of_unsorted {settings : Settings} {ts : List Token} {uses : List Int}
    {records : List Record} (hUnsorted : settings.algorithm = .unsorted)
    (hUses : ∀ u ∈ uses, UseAt ts u) (h : parseStatements settings ts uses = .ok records) :
    ∀ r ∈ records, r.Verbatim ts := by
  induction uses generalizing records with
  | nil =>
    obtain rfl := Except.ok.inj h
    simp
  | cons u uses ih =>
    obtain ⟨first, later, hFirst, hLater, rfl⟩ := parseStatements_cons_iff.mp h
    intro r hr
    rcases List.mem_append.mp hr with hr | hr
    · obtain ⟨before, word, body, stop, after, rfl, rfl, -, hBody, hStop⟩ :=
        exists_statement (hUses u List.mem_cons_self) hFirst
      exact (parseStatement_covers hBody (by simpa using hStop) hFirst).verbatim
        (standsAt_body before body (stop :: after) word) r hr (.inr hUnsorted)
    · exact ih (fun v hv => hUses v (List.mem_cons_of_mem _ hv)) hLater r hr

/-- Without sorting, the sub-groups are left alone one after the other. -/
theorem orderSubGroups_unmoved {settings : Settings} {source : Text} {groups : List SubGroup}
    {p next : Progress} (hUnsorted : settings.algorithm = .unsorted)
    (hKinds : settings.kindOrder = none)
    (hUses : ∀ g ∈ groups, ∀ u ∈ g.uses, UseAt (classify (lex source)) u)
    (hTokens : p.tokens = classify (lex source)) (h : orderSubGroups settings p groups = .ok next) :
    next.tokens = classify (lex source) ∧ next.slotsChanged = p.slotsChanged := by
  induction groups generalizing p with
  | nil =>
    obtain rfl := Except.ok.inj h
    exact ⟨hTokens, rfl⟩
  | cons group groups ih =>
    have hHere := hUses group List.mem_cons_self
    simp only [orderSubGroups, orderSubGroup, hTokens, bind, Except.bind] at h
    split at h
    · cases h
    · next progress hProgress =>
      split at hProgress
      · cases hProgress
      · next records hParse =>
        -- the records keep their order, and every slot already holds its record
        obtain ⟨edits, hPlan, hApplied⟩ := planRecords_unmoved hHere hParse
          (orderRecords_unsorted hUnsorted hKinds records)
          (fun r hr _ => verbatim_of_unsorted hUnsorted hHere hParse r hr)
        rw [hPlan] at hProgress
        simp only [hApplied] at hProgress
        obtain rfl := Except.ok.inj hProgress
        have hNext := @ih ⟨_, _, _⟩ (fun g hg => hUses g (List.mem_cons_of_mem _ hg)) rfl h
        simpa using hNext

/-! ## White space in front of imports -/

/-- The tokens without the blanks directly in front of a `use`. -/
def tightened : List Token → List Token
  | [] => []
  | t :: rest =>
    if t.isBlankSpace && (rest.find? (!·.isBlankSpace)).any (·.kind == .useWord) then tightened rest
    else t :: tightened rest

theorem Token.not_blankSpace {t : Token} (h : t.isWhitespace = false) : t.isBlankSpace = false := by
  rw [Token.isBlankSpace, h, Bool.false_and]

/-- What stands in front of a `use` loses the white space at its end. -/
theorem tightened_append {piece rest : List Token} {word : Token}
    (hPiece : ∀ t ∈ piece, t.kind ≠ .useWord) (hWord : word.kind = .useWord)
    (hBlank : BlankSpaced piece) :
    tightened (piece ++ word :: rest) = trimEnd piece ++ word :: tightened rest := by
  have hSolid : word.isBlankSpace = false :=
    Token.not_blankSpace (by simp [Token.isWhitespace, hWord])
  induction piece with
  | nil => simp [tightened, hSolid, trimEnd]
  | cons t piece ih =>
    obtain ⟨-, hPlain⟩ := List.forall_mem_cons.mp hPiece
    obtain ⟨hHere, hThere⟩ := List.forall_mem_cons.mp hBlank
    rw [List.cons_append, tightened, ih hPlain hThere]
    cases hSpace : t.isWhitespace with
    | false =>
      rw [Token.not_blankSpace hSpace, Bool.false_and, if_neg (by simp), trimEnd_cons hSpace,
        List.cons_append]
    | true =>
      rw [hHere hSpace]
      -- the white space goes just if nothing but white space follows it up to the `use`
      by_cases hAll : AllSpace piece
      · have hFind : (piece ++ word :: rest).find? (!·.isBlankSpace) = some word := by
          rw [List.find?_append,
            List.find?_eq_none.mpr fun u hu => by simp [hThere u hu (hAll u hu)]]
          simp [hSolid]
        have hNone : trimEnd (t :: piece) = [] :=
          trimEnd_eq_nil_iff.mpr (List.forall_mem_cons.mpr ⟨hSpace, hAll⟩)
        rw [hFind, hNone, trimEnd_eq_nil_iff.mpr hAll, if_pos (by simp [hWord])]
      · obtain ⟨u, hu, hNot⟩ : ∃ u ∈ piece, u.isWhitespace = false := by
          simpa [AllSpace] using hAll
        obtain ⟨v, hFind⟩ : ∃ v, piece.find? (!·.isBlankSpace) = some v :=
          Option.isSome_iff_exists.mp
            (List.find?_isSome.mpr ⟨u, hu, by rw [Token.not_blankSpace hNot]; rfl⟩)
        have hOther : v.kind ≠ .useWord := hPlain v (List.mem_of_find?_eq_some hFind)
        have hKept : trimEnd (t :: piece) = t :: trimEnd piece :=
          trimEnd_append_of_ne_nil [t] (trimEnd_eq_nil_iff.not.mpr hAll)
        rw [List.find?_append, hFind, hKept, if_neg (by simp [hOther]), List.cons_append]

theorem blankSpaced_use {piece rest : List Token} {word : Token} (hWord : word.kind = .useWord) :
    BlankSpaced (piece ++ word :: rest) ↔ BlankSpaced piece ∧ BlankSpaced rest := by
  have hSolid : word.isWhitespace = false := by simp [Token.isWhitespace, hWord]
  simp only [BlankSpaced, List.forall_mem_append, List.forall_mem_cons, hSolid,
    Bool.false_eq_true, false_implies, true_and]

/-- Blank lines are added in the blanks in front of imports only, and these stay blanks. -/
theorem Loosened.tightened_eq {e : LineEnding} {ts ts' : List Token} (h : Loosened e.text ts ts')
    (hBlank : BlankSpaced ts) : BlankSpaced ts' ∧ tightened ts' = tightened ts := by
  induction h with
  | last h => exact ⟨hBlank, rfl⟩
  | @use piece piece' rest rest' word plain word_use opened later ih =>
    obtain ⟨hPiece, hRest⟩ := (blankSpaced_use word_use).mp hBlank
    obtain ⟨hLater, hTight⟩ := ih hRest
    obtain ⟨space, hSpace, hOpened⟩ := exists_openUp_eq e.text piece
    -- the piece may have been opened up: it still holds no `use`, and only its end is new
    obtain ⟨hEnd, hPlain, hBlank'⟩ : trimEnd piece' = trimEnd piece ∧
        (∀ t ∈ piece', t.kind ≠ .useWord) ∧ BlankSpaced piece' := by
      rcases opened with rfl | rfl
      · exact ⟨rfl, plain, hPiece⟩
      · exact ⟨by rw [hOpened, trimEnd_append_space hSpace, trimEnd_trimEnd],
          not_use_openUp plain e.text, hPiece.openUp e⟩
    refine ⟨(blankSpaced_use word_use).mpr ⟨hBlank', hLater⟩, ?_⟩
    rw [tightened_append hPlain word_use hBlank', tightened_append plain word_use hPiece, hEnd,
      hTight]

theorem insertBlankLines_tightened {layout : Layout} {ts ts' : List Token} {added : Nat}
    (h : insertBlankLines layout ts = .ok (added, ts')) (hBlank : BlankSpaced ts) :
    BlankSpaced ts' ∧ tightened ts' = tightened ts := by
  rcases insertBlankLines_loosened h with
    ⟨-, rfl⟩ | ⟨front, word, rest, rest', rfl, hFront, hWord, rfl, hLoosened⟩
  · exact ⟨hBlank, rfl⟩
  · obtain ⟨hBefore, hRest⟩ := (blankSpaced_use hWord).mp hBlank
    obtain ⟨hLater, hTight⟩ := hLoosened.tightened_eq hRest
    refine ⟨(blankSpaced_use hWord).mpr ⟨hBefore, hLater⟩, ?_⟩
    rw [tightened_append hFront hWord hBefore, tightened_append hFront hWord hBefore, hTight]

theorem fixTokens_unmoved {settings : Settings} {source : Text} {counts : Counts}
    {fixed : List Token} (hUnsorted : settings.algorithm = .unsorted)
    (hKinds : settings.kindOrder = none)
    (h : fixTokens settings (classify (lex source)) = .ok (counts, fixed)) :
    counts.slotsChanged = 0 ∧ BlankSpaced fixed ∧
      tightened fixed = tightened (classify (lex source)) := by
  obtain ⟨groups, ordered, hGroups, hOrdered, hSpaced, hChanged⟩ := exists_steps_of_fixTokens h
  -- ordering leaves the tokens of the source as they are, so blank lines are added to these
  obtain ⟨hTokens, hSlots⟩ := @orderSubGroups_unmoved settings source groups.reverse
    ⟨classify (lex source), 0, 0⟩ ordered hUnsorted hKinds
    (fun g hg => useAt_of_mem_subGroups hGroups (List.mem_reverse.mp hg)) rfl hOrdered
  rw [hTokens] at hSpaced
  exact ⟨hChanged.trans hSlots, insertBlankLines_tightened hSpaced (blankSpaced_source source)⟩

/-- Imports that are in order, with no group laid out anew, are written back to the same tokens, and
no slot counts as changed. So without sorting only blank lines are added: no slot changes, and the
tokens that are written are those of the text up to blanks directly in front of imports. -/
theorem ordered_imports_unmoved (settings : Settings) (source : Text) :
    (∀ groups, subGroups (classify (lex source)) = .ok groups → ∀ group ∈ groups, ∀ records,
      parseStatements settings (classify (lex source)) group.uses = .ok records →
      orderRecords settings records = records →
      (∀ r ∈ records, r.grouped = true → r.Verbatim (classify (lex source))) →
      ∃ edits, planRecords settings (classify (lex source)) records = .ok edits ∧
        applyEdits (classify (lex source)) edits = ⟨classify (lex source), .ok 0⟩) ∧
    (settings.algorithm = .unsorted → settings.kindOrder = none → ∀ tokenizer outcome path r,
      tokenizer.engine = .builtIn → fixSource settings tokenizer outcome path source = .ok r →
      r.ok = true →
      (∀ counts, r.counts? = some counts → counts.slotsChanged = 0) ∧
        ∃ counts fixed, fixTokens settings (classify (lex source)) = .ok (counts, fixed) ∧
          r.code = textOf fixed ∧ BlankSpaced fixed ∧
          tightened fixed = tightened (classify (lex source))) := by
  constructor
  · intro groups hGroups group hGroup records hParse hOrder hVerbatim
    exact planRecords_unmoved (useAt_of_mem_subGroups hGroups hGroup) hParse hOrder hVerbatim
  · intro hUnsorted hKinds tokenizer outcome path r hEngine hResult hOk
    obtain ⟨counts, fixed, hFixed, hCode, hCounts⟩ := fixSource_outcome hEngine hResult hOk
    obtain ⟨hSlots, hBlank, hTight⟩ := fixTokens_unmoved hUnsorted hKinds hFixed
    refine ⟨fun counted hSome => ?_, counts, fixed, hFixed, hCode, hBlank, hTight⟩
    rw [hCounts counted hSome, hSlots]

/-- Constants in order, a group and a list with a comma too many; and two imports that are out of
order and stay so. -/
theorem ordered_imports_unmoved_of_constants :
    let ts := classify (lex "<?php\nuse const a\\\x7bb, c\x7d;\nuse const  d , ,e /* f */;\n".toList)
    let source := "<?php\nuse B\\C;\nuse A;\n".toList
    (∃ records edits, subGroups ts = .ok [⟨0, [1, 15]⟩] ∧
      parseStatements {} ts [1, 15] = .ok records ∧ records.length = 3 ∧
      orderRecords {} records = records ∧ (∀ r ∈ records, r.grouped = true → r.Verbatim ts) ∧
      planRecords {} ts records = .ok edits ∧ applyEdits ts edits = ⟨ts, .ok 0⟩) ∧
    ∃ r counts fixed, fixSource { algorithm := .unsorted } ⟨.builtIn, "php", .whole 30⟩ .notFound
        none source = .ok r ∧ r.ok = true ∧
      (∀ counts, r.counts? = some counts → counts.slotsChanged = 0) ∧
      fixTokens { algorithm := .unsorted } (classify (lex source)) = .ok (counts, fixed) ∧
      r.code = textOf fixed ∧ BlankSpaced fixed ∧
      tightened fixed = tightened (classify (lex source)) := by
  intro ts source
  let a : Record := ⟨"a\\\x7bb, c\x7d".toList, .constKind, true, 3, 12, (ts.drop 5).take 8,
    some "const ".toList, some "a\\".toList⟩
  let d : Record := ⟨"d".toList, .constKind, false, 17, 19, (ts.drop 19).take 1,
    some "const  ".toList, none⟩
  let e : Record := ⟨"e /* f */".toList, .constKind, false, 24, 26, (ts.drop 24).take 3, none, none⟩
  have hGroups : subGroups ts = .ok [⟨0, [1, 15]⟩] := by decide +kernel
  have hParse : parseStatements {} ts [1, 15] = .ok [a, d, e] := by decide +kernel
  have hOrder : orderRecords {} [a, d, e] = [a, d, e] := by
    refine orderRecords_of_pairwise ?_
    show [a, d, e].Pairwise fun x y => comesBefore {} x y = true
    decide +kernel
  have hVerbatim : ∀ r ∈ [a, d, e], r.grouped = true → r.Verbatim ts := by
    intro r hr hGrouped
    simp only [List.mem_cons, List.not_mem_nil, or_false] at hr
    rcases hr with rfl | rfl | rfl
    · exact ⟨(ts.drop 3).take 2, by decide +kernel, by decide +kernel⟩
    · simp [d] at hGrouped
    · simp [e] at hGrouped
  obtain ⟨edits, hPlan, hApplied⟩ := (ordered_imports_unmoved {} _).1 _ hGroups ⟨0, [1, 15]⟩ (by simp)
    _ hParse hOrder hVerbatim
  obtain ⟨r, hResult, hOk⟩ := @fixSource_wellFormed { algorithm := .unsorted }
    ⟨.builtIn, "php", .whole 30⟩ rfl .notFound none source (by decide +kernel)
  obtain ⟨hCounts, counts, fixed, hFixed⟩ := (ordered_imports_unmoved { algorithm := .unsorted }
    source).2 rfl rfl _ _ _ r rfl hResult hOk
  exact ⟨⟨_, edits, hGroups, hParse, rfl, hOrder, hVerbatim, hPlan, hApplied⟩, r, counts, fixed,
    hResult, hOk, hCounts, hFixed⟩

end UseOrder
