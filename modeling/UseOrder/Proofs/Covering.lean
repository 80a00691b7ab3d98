import UseOrder.Proofs.Runs

/-!
# Slots cover a statement

The records of a statement are read off its tokens from front to back: a gap of white space and
commas, the tokens of a slot, the next gap, and so on to the terminator (`Covers`). That is proved
along the scan for names, and for a group in one step. All that has to be known about the positions
of slots follows from it: where they lie (`Covers.bounds`), what stands between two of them
(`Covers.chain`), that no token in a statement is lost or taken twice (`Covers.once`), and which
tokens a record is read from (`Covers.read`).
-/

namespace UseOrder

/-! ## Tokens at a position -/

/-- Tokens stand in a list from a position on. -/
def StandsAt (ts : List Token) (pos : Int) (tokens : List Token) : Prop :=
  ∃ before after, ts = before ++ tokens ++ after ∧ pos = (before.length : Nat)

theorem StandsAt.append {ts front back : List Token} {pos : Int}
    (h : StandsAt ts pos (front ++ back)) :
    StandsAt ts pos front ∧ StandsAt ts (pos + front.length) back := by
  obtain ⟨before, after, rfl, rfl⟩ := h
  exact ⟨⟨before, back ++ after, by simp, rfl⟩, ⟨before ++ front, after, by simp, by simp⟩⟩

theorem StandsAt.mem {ts tokens : List Token} {pos : Int} {k : Nat} {t : Token}
    (h : StandsAt ts pos tokens) (hk : ts[k]? = some t) (hLow : pos ≤ k)
    (hHigh : (k : Int) < pos + tokens.length) : t ∈ tokens := by
  obtain ⟨before, after, rfl, rfl⟩ := h
  rw [List.append_assoc, List.getElem?_append_right (by omega),
    List.getElem?_append_left (by omega)] at hk
  exact List.mem_of_getElem? hk

theorem StandsAt.exists_at {ts tokens : List Token} {pos : Int} {t : Token}
    (h : StandsAt ts pos tokens) (ht : t ∈ tokens) :
    ∃ k : Nat, ts[k]? = some t ∧ pos ≤ k ∧ (k : Int) < pos + tokens.length := by
  obtain ⟨before, after, rfl, rfl⟩ := h
  obtain ⟨front, back, rfl⟩ := List.append_of_mem ht
  refine ⟨(before ++ front).length, ?_, ?_⟩
  · rw [List.append_assoc, List.append_assoc front, ← List.append_assoc before,
      List.getElem?_append_right (le_refl _)]
    simp
  · simp only [List.length_append, List.length_cons]
    omega

theorem StandsAt.slice_eq {ts tokens : List Token} {pos : Int} (h : StandsAt ts pos tokens) :
    slice ts pos (pos + tokens.length) = tokens := by
  obtain ⟨before, after, rfl, rfl⟩ := h
  exact slice_append before tokens after

theorem standsAt_body (before body after : List Token) (word : Token) :
    StandsAt (before ++ word :: (body ++ after)) (before.length + 1) body :=
  ⟨before ++ [word], after, by simp, by simp⟩

/-! ## Records and the tokens of their slots -/

/-- White space or a comma: what may stand outside of slots. -/
def Token.isGap (t : Token) : Bool :=
  t.isComma || t.isWhitespace

theorem AllSpace.isGap {ts : List Token} (h : AllSpace ts) : ∀ t ∈ ts, t.isGap = true :=
  fun t ht => by simp [Token.isGap, h t ht]

/-- The tokens of a group that is laid out anew; `none` if it is left as it is. -/
def rebuiltGroup? (settings : Settings) (source : List Token) : Option (List Token) :=
  match source.findIdx? (·.kind == .groupOpen) with
  | none => none
  | some openAt =>
    if settings.algorithm == .unsorted then none
    else sortGroup? settings.layout source openAt
      ((lastIndex? (·.kind == .groupClose) source).getD 0 : Nat)

/-- A record is read from a qualifier and the tokens behind it. -/
structure Record.ReadFrom (settings : Settings) (qualifier source : List Token) (r : Record) :
    Prop where
  qualifier_eq : r.qualifier.getD [] = textOf qualifier
  tokens_eq : r.tokens = if r.grouped then (rebuiltGroup? settings source).getD source else source
  name_eq : r.name = textOf r.tokens

/-- A record that is no rebuilt group has the text that it is read from. -/
theorem Record.ReadFrom.text {settings : Settings} {qualifier source : List Token} {r : Record}
    (h : r.ReadFrom settings qualifier source)
    (hKept : r.grouped = true → rebuiltGroup? settings source = none) :
    textOf (qualifier ++ source) = r.qualifier.getD [] ++ r.name := by
  have hTokens : r.tokens = source := by
    rw [h.tokens_eq]
    split
    · next hGrouped => rw [hKept hGrouped, Option.getD_none]
    · rfl
  rw [textOf_append, h.qualifier_eq, h.name_eq, hTokens]

/-- The records whose slots cover tokens from `pos` on. Only a slot that is the first of its
statement may have no comma in front. -/
inductive Covers (settings : Settings) : Bool → Int → List Token → List Record → Prop
  /-- Nothing is left but white space and commas. -/
  | done {first : Bool} {pos : Int} {rest : List Token} (hRest : ∀ t ∈ rest, t.isGap = true) :
    Covers settings first pos rest []
  /-- A gap, the slot of a record, and what is behind it. -/
  | slot {first : Bool} {pos : Int} {gap qualifier source rest : List Token} {r : Record}
      {records : List Record} (hGap : ∀ t ∈ gap, t.isGap = true)
      (hComma : first = false → ∃ t ∈ gap, t.isComma = true) (hStart : r.start = pos + gap.length)
      (hLast : r.last + 1 = r.start + (qualifier ++ source).length)
      (hRead : r.ReadFrom settings qualifier source)
      (hRest : Covers settings false (r.last + 1) rest records) :
    Covers settings first pos (gap ++ (qualifier ++ source) ++ rest) (r :: records)

/-! ## Names of a list -/

/-- The record of a name takes the name without the white space at its end, which goes to the next
gap. -/
theorem Covers.name {settings : Settings} {head : StatementHead} {first qualified : Bool} {pos : Int}
    {gap qualifier rest : List Token} {part : NamePart} {records : List Record}
    (hGap : ∀ t ∈ gap, t.isGap = true) (hComma : first = false → ∃ t ∈ gap, t.isComma = true)
    (hStart : (part.record head qualified).start = pos + gap.length)
    (hPart : part.start = pos + gap.length + qualifier.length)
    (hQualifier : (part.record head qualified).qualifier.getD [] = textOf qualifier)
    (hRest : Covers settings false (part.start + (trimEnd part.tokens).length)
      (trailingSpace part.tokens ++ rest) records) :
    Covers settings first pos (gap ++ (qualifier ++ part.tokens) ++ rest)
      (part.record head qualified :: records) := by
  have hTokens : gap ++ (qualifier ++ part.tokens) ++ rest =
      gap ++ (qualifier ++ trimEnd part.tokens) ++ (trailingSpace part.tokens ++ rest) := by
    rw [← List.append_assoc _ (trailingSpace part.tokens), List.append_assoc gap _ (trailingSpace _),
      List.append_assoc qualifier (trimEnd _), trimEnd_append_trailingSpace]
  have hLast : (part.record head qualified).last + 1 =
      part.start + (trimEnd part.tokens).length := by
    simp only [NamePart.record]
    omega
  rw [hTokens]
  refine .slot hGap hComma hStart ?_ ⟨hQualifier, rfl, rfl⟩ (hLast ▸ hRest)
  rw [hLast, hStart, hPart, List.length_append]
  omega

theorem length_trimEnd (ts : List Token) :
    (trimEnd ts).length + (trailingSpace ts).length = ts.length := by
  rw [← List.length_append, trimEnd_append_trailingSpace]

/-- The scan for names. While it is between names, the gap it has come through belongs to the next
slot; inside a name, what is left behind the name is covered with any white space in front. -/
theorem covers_namePartsFrom (settings : Settings) (head : StatementHead) (names : List Token) :
    (∀ (start pos : Int) (gap : List Token), pos = start + gap.length →
      (∀ t ∈ gap, t.isGap = true) → (∃ t ∈ gap, t.isComma = true) →
      Covers settings false start (gap ++ names)
        ((namePartsFrom pos none names).map (NamePart.record head false))) ∧
    ∀ (pos : Int) (part : NamePart), ∃ run rest others, names = run ++ rest ∧
      namePartsFrom pos (some part) names = ⟨part.start, part.tokens ++ run⟩ :: others ∧
      ∀ (start : Int) (space : List Token), pos + run.length = start + space.length →
        AllSpace space →
        Covers settings false start (space ++ rest) (others.map (NamePart.record head false)) := by
  induction names with
  | nil =>
    refine ⟨fun start pos gap _ hGap _ => .done (by simpa using hGap), fun pos part => ?_⟩
    exact ⟨[], [], [], rfl, by simp [namePartsFrom],
      fun start space _ hSpace => .done (by simpa using hSpace.isGap)⟩
  | cons t names ih =>
    obtain ⟨hBetween, hInside⟩ := ih
    refine ⟨fun start pos gap hPos hGap hComma => ?_, fun pos part => ?_⟩
    · rw [namePartsFrom]
      split
      · -- white space and commas between names lengthen the gap
        next hToken =>
        obtain ⟨comma, hMem, hComma⟩ := hComma
        have hNext := hBetween start (pos + 1) (gap ++ [t])
          (by rw [List.length_append, List.length_singleton]; omega)
          (List.forall_mem_append.mpr ⟨hGap, List.forall_mem_singleton.mpr hToken⟩)
          ⟨comma, List.mem_append_left _ hMem, hComma⟩
        simpa using hNext
      · -- any other token begins a name, and the gap in front of it is complete
        obtain ⟨run, rest, others, rfl, hParts, hRest⟩ := hInside (pos + 1) ⟨pos, [t]⟩
        have hLength := length_trimEnd ([t] ++ run)
        rw [List.length_append, List.length_singleton] at hLength
        have hSlot := @Covers.name settings head false false start gap [] rest ⟨pos, [t] ++ run⟩ _
          hGap (fun _ => hComma) hPos (by simpa using hPos) rfl
          (hRest _ _ (by simp only; omega) (allSpace_trailing _))
        rw [hParts, List.map_cons]
        simpa using hSlot
    · rw [namePartsFrom]
      split
      · -- the comma ends the name; the gap behind it begins with the white space that is trimmed
        next hToken =>
        refine ⟨[], t :: names, _, rfl, by rw [List.append_nil], fun start space hPos hSpace => ?_⟩
        have hNext := hBetween start (pos + 1) (space ++ [t])
          (by simp only [List.length_nil, List.length_append, List.length_singleton] at hPos ⊢; omega)
          (List.forall_mem_append.mpr ⟨hSpace.isGap, by simp [Token.isGap, hToken]⟩)
          ⟨t, by simp, hToken⟩
        simpa using hNext
      · obtain ⟨run, rest, others, rfl, hParts, hRest⟩ :=
          hInside (pos + 1) ⟨part.start, part.tokens ++ [t]⟩
        refine ⟨t :: run, rest, others, rfl, by simpa using hParts,
          fun start space hPos hSpace => ?_⟩
        exact hRest start space (by rw [List.length_cons] at hPos; omega) hSpace

/-! ## Statements -/

theorem covers_nameRecords {settings : Settings} {head : StatementHead}
    {lead qualifier names : List Token} {start : Int} (hLead : AllSpace lead)
    (hStart : head.start = start + lead.length)
    (hQualifier : head.qualifier.getD [] = textOf qualifier) :
    Covers settings true start (lead ++ (qualifier ++ names))
      (nameRecords head (head.start + qualifier.length) names) := by
  obtain ⟨run, rest, others, rfl, hParts, hRest⟩ :=
    (covers_namePartsFrom settings head names).2 (head.start + qualifier.length)
      ⟨head.start + qualifier.length, []⟩
  rw [List.nil_append] at hParts
  have hLength := length_trimEnd run
  have hSlot := @Covers.name settings head true true start lead qualifier rest
    ⟨head.start + qualifier.length, run⟩ _ hLead.isGap (by simp) hStart (by rw [hStart]) hQualifier
    (hRest _ _ (by simp only; omega) (allSpace_trailing run))
  rw [nameRecords, hParts]
  simpa using hSlot

theorem covers_groupRecord {settings : Settings} {head : StatementHead}
    {lead qualifier names : List Token} {start : Int} {r : Record} (hLead : AllSpace lead)
    (hStart : head.start = start + lead.length)
    (hQualifier : head.qualifier.getD [] = textOf qualifier)
    (h : groupRecord settings head (head.start + qualifier.length) names = .ok r) :
    Covers settings true start (lead ++ (qualifier ++ names)) [r] := by
  have hTokens : lead ++ (qualifier ++ names) =
      lead ++ (qualifier ++ trimEnd names) ++ trailingSpace names := by
    simp [trimEnd_append_trailingSpace]
  simp only [groupRecord, pure, Except.pure] at h
  split at h
  · next openAt hOpen =>
    obtain rfl := Except.ok.inj h
    rw [hTokens]
    refine .slot hLead.isGap (by simp) hStart ?_ ⟨hQualifier, ?_, rfl⟩
      (.done (allSpace_trailing names).isGap)
    · simp only [List.length_append]
      omega
    · simp only [rebuiltGroup?, hOpen, if_true]
      split <;> rfl
  · exact absurd h (by simp [throw, throwThe, MonadExceptOf.throw])

/-- In front of the names stand the tokens that the qualifier takes: its word and white space, or
nothing for a class. -/
theorem exists_qualifier (first : Token) (rest : List Token) :
    ∃ qualifier names, first :: rest = qualifier ++ names ∧
      qualifierSize (ImportKind.ofFirst first) (first :: rest) = qualifier.length ∧
      (∀ t ∈ qualifier, t.isPlain = true) ∧
      (ImportKind.ofFirst first = .classKind → qualifier = []) ∧
      (ImportKind.ofFirst first ≠ .classKind →
        ∃ space, AllSpace space ∧ qualifier = first :: space) := by
  by_cases hClass : ImportKind.ofFirst first = .classKind
  · exact ⟨[], first :: rest, rfl, by simp [qualifierSize, hClass], by simp, fun _ => rfl,
      fun h => absurd hClass h⟩
  · refine ⟨first :: rest.takeWhile Token.isWhitespace, rest.dropWhile Token.isWhitespace, ?_, ?_, ?_,
      fun h => absurd h hClass, fun _ => ⟨_, fun t ht => List.mem_takeWhile_imp ht, rfl⟩⟩
    · rw [List.cons_append, List.takeWhile_append_dropWhile]
    · rw [qualifierSize, if_neg (by simpa using hClass), List.drop_succ_cons, List.drop_zero,
        List.length_cons, Nat.add_comm]
    · have hWord : first.kind = .constWord ∨ first.kind = .functionWord := by
        cases hKind : first.kind <;> simp_all [ImportKind.ofFirst]
      intro t ht
      rcases List.mem_cons.mp ht with rfl | ht
      · rcases hWord with hWord | hWord <;>
          simp [Token.isPlain, Token.isTerminator, Token.isPunct, Token.isGroupBrace, hWord]
      · exact AllSpace.isPlain (fun u hu => List.mem_takeWhile_imp hu) t ht

/-- The first token tells the kind of a statement, and the qualifier is that token with the white
space behind it; a class has none. -/
structure StatementHead.ReadFrom (head : StatementHead) (qualifier : List Token) (first : Token) :
    Prop where
  kind : head.kind = ImportKind.ofFirst first
  bare : head.kind = .classKind → qualifier = []
  worded : head.kind ≠ .classKind → head.qualifier = some (textOf qualifier) ∧
    ∃ space, AllSpace space ∧ qualifier = first :: space

/-- A statement of white space has no record. -/
theorem parseStatement_space (settings : Settings) {before body after : List Token} {word : Token}
    (hBody : ∀ t ∈ body, t.isTerminator = false)
    (hAfter : after.head?.any Token.isTerminator = true) (hSpace : AllSpace body) :
    parseStatement settings (before ++ word :: (body ++ after)) before.length = .ok [] := by
  have hLead : body.takeWhile Token.isWhitespace = body :=
    List.takeWhile_eq_self_iff.mpr hSpace
  simp only [parseStatement, tokensAfter_append, findIdx?_terminator hBody hAfter, List.take_left,
    bind, Except.bind, pure, Except.pure, hLead, List.drop_length, List.head?_nil]

/-- Tokens are white space, or white space in front of a first token that is none. -/
theorem allSpace_or_exists_first (body : List Token) :
    AllSpace body ∨
      ∃ lead first rest, body = lead ++ first :: rest ∧ AllSpace lead ∧
        first.isWhitespace = false := by
  induction body with
  | nil => exact .inl (by simp [AllSpace])
  | cons t body ih =>
    cases hSpace : t.isWhitespace with
    | false => exact .inr ⟨[], t, body, rfl, by simp [AllSpace], hSpace⟩
    | true =>
      rcases ih with hAll | ⟨lead, first, rest, rfl, hLead, hFirst⟩
      · exact .inl (List.forall_mem_cons.mpr ⟨hSpace, hAll⟩)
      · exact .inr ⟨t :: lead, first, rest, rfl, List.forall_mem_cons.mpr ⟨hSpace, hLead⟩, hFirst⟩

/-- How any statement is read: there is nothing but white space, or behind white space and a
qualifier stand names, which are a group or a list. The first token behind the white space tells the
kind. -/
theorem parseStatement_form (settings : Settings) {before body after : List Token} {word : Token}
    (hBody : ∀ t ∈ body, t.isTerminator = false)
    (hAfter : after.head?.any Token.isTerminator = true) :
    AllSpace body ∧
        parseStatement settings (before ++ word :: (body ++ after)) before.length = .ok [] ∨
      ∃ (lead qualifier names : List Token) (head : StatementHead),
        body = lead ++ (qualifier ++ names) ∧ AllSpace lead ∧
        (∀ t ∈ qualifier, t.isPlain = true) ∧
        head.start = (before.length : Int) + 1 + lead.length ∧
        head.qualifier.getD [] = textOf qualifier ∧
        (∃ first rest, qualifier ++ names = first :: rest ∧ first.isWhitespace = false ∧
          head.ReadFrom qualifier first) ∧
        parseStatement settings (before ++ word :: (body ++ after)) before.length =
          (endsGroup (before ++ word :: (body ++ after))
            ((before ++ word :: body).length : Nat)).bind fun closed =>
          let pos := head.start + qualifier.length
          if closed then (groupRecord settings head pos names).map fun r => [r]
          else .ok (nameRecords head pos names) := by
  rcases allSpace_or_exists_first body with
    hSpace | ⟨lead, first, rest, rfl, hLead, hFirst⟩
  · exact .inl ⟨hSpace, parseStatement_space settings hBody hAfter hSpace⟩
  · right
    obtain ⟨qualifier, names, hTokens, hSize, hPlain, hNone, hWord⟩ := exists_qualifier first rest
    rw [hTokens] at hSize hBody ⊢
    refine ⟨lead, qualifier, names,
      ⟨ImportKind.ofFirst first, (before.length + 1 + lead.length : Nat),
        if ImportKind.ofFirst first == .classKind then none else some (textOf qualifier)⟩,
      rfl, hLead, hPlain, by simp, ?_,
      ⟨first, rest, hTokens.symm, hFirst, rfl, hNone, fun hOther => ⟨?_, hWord hOther⟩⟩,
      parseStatement_eq settings hLead hTokens.symm hFirst hSize hBody hAfter⟩
    · -- a class has no qualifier text, and its qualifier is empty
      cases hClass : ImportKind.ofFirst first == .classKind with
      | true =>
        rw [hNone (by simpa using hClass)]
        rfl
      | false => rfl
    · exact if_neg (by simpa using hOther)

/-- A statement that can be read has nothing in it, or it is a group with one record, or a list. -/
theorem parseStatement_cases {settings : Settings} {before body after : List Token} {word : Token}
    {records : List Record} (hBody : ∀ t ∈ body, t.isTerminator = false)
    (hAfter : after.head?.any Token.isTerminator = true)
    (h : parseStatement settings (before ++ word :: (body ++ after)) before.length = .ok records) :
    (AllSpace body ∧ records = []) ∨
      ∃ (lead qualifier names : List Token) (head : StatementHead),
        body = lead ++ (qualifier ++ names) ∧ AllSpace lead ∧
        head.start = (before.length : Int) + 1 + lead.length ∧
        head.qualifier.getD [] = textOf qualifier ∧
        (∃ first rest, qualifier ++ names = first :: rest ∧ first.isWhitespace = false ∧
          head.ReadFrom qualifier first) ∧
        ((∃ r, groupRecord settings head (head.start + qualifier.length) names = .ok r ∧
            records = [r]) ∨
          records = nameRecords head (head.start + qualifier.length) names) := by
  rcases @parseStatement_form settings before body after word hBody hAfter with
    ⟨hSpace, hNone⟩ | ⟨lead, qualifier, names, head, rfl, hLead, -, hStart, hQualifier, hFirst,
      hForm⟩
  · rw [hNone] at h
    exact .inl ⟨hSpace, (Except.ok.inj h).symm⟩
  · refine .inr ⟨lead, qualifier, names, head, rfl, hLead, hStart, hQualifier, hFirst, ?_⟩
    rw [hForm] at h
    simp only [Except.bind] at h
    split at h
    · cases h
    · split at h
      · cases hRecord : groupRecord settings head (head.start + qualifier.length) names with
        | error fault =>
          rw [hRecord] at h
          cases h
        | ok r =>
          rw [hRecord] at h
          exact .inl ⟨r, rfl, (Except.ok.inj h).symm⟩
      · exact .inr (Except.ok.inj h).symm

/-- The slots of a statement cover what stands between its `use` and its terminator. -/
theorem parseStatement_covers {settings : Settings} {before body after : List Token} {word : Token}
    {records : List Record} (hBody : ∀ t ∈ body, t.isTerminator = false)
    (hAfter : after.head?.any Token.isTerminator = true)
    (h : parseStatement settings (before ++ word :: (body ++ after)) before.length = .ok records) :
    Covers settings true (before.length + 1) body records := by
  rcases parseStatement_cases hBody hAfter h with
    ⟨hSpace, rfl⟩ | ⟨lead, qualifier, names, head, rfl, hLead, hStart, hQualifier, -, hRecords⟩
  · exact .done hSpace.isGap
  · rcases hRecords with ⟨r, hRecord, rfl⟩ | rfl
    · exact covers_groupRecord hLead hStart hQualifier hRecord
    · exact covers_nameRecords hLead hStart hQualifier

/-! ## Positions of slots -/

theorem Covers.bounds {settings : Settings} {first : Bool} {pos : Int} {tokens : List Token}
    {records : List Record} (h : Covers settings first pos tokens records) :
    ∀ r ∈ records, pos ≤ r.start ∧ r.start ≤ r.last + 1 ∧ r.last + 1 ≤ pos + tokens.length := by
  induction h with
  | done hRest => simp
  | slot hGap hComma hStart hLast hRead hRest ih =>
    intro r hr
    simp only [List.length_append] at hLast ⊢
    rcases List.mem_cons.mp hr with rfl | hr
    · omega
    · have hLater := ih r hr
      omega

/-- In front of a slot that is not the first there is a gap with a comma. -/
theorem Covers.gap {settings : Settings} {pos : Int} {tokens : List Token} {r : Record}
    {records : List Record} (h : Covers settings false pos tokens (r :: records)) :
    ∃ gap rest, tokens = gap ++ rest ∧ r.start = pos + gap.length ∧
      (∀ t ∈ gap, t.isGap = true) ∧ ∃ t ∈ gap, t.isComma = true := by
  cases h with
  | slot hGap hComma hStart hLast hRead hRest =>
    exact ⟨_, _, List.append_assoc _ _ _, hStart, hGap, hComma rfl⟩

/-- Two slots follow each other: they have a comma between them, and nothing but white space and
commas. -/
structure Record.Precedes (ts : List Token) (a b : Record) : Prop where
  lt : a.last < b.start
  comma : ∃ (k : Nat) (t : Token), ts[k]? = some t ∧ a.last < k ∧ (k : Int) < b.start ∧
    t.isComma = true
  between : ∀ (k : Nat) (t : Token), ts[k]? = some t → a.last < k → (k : Int) < b.start →
    t.isGap = true

section Positions

variable {settings : Settings} {first : Bool} {pos : Int} {ts tokens : List Token}
  {records : List Record}

theorem StandsAt.slot {gap tokens rest : List Token} {r : Record}
    (h : StandsAt ts pos (gap ++ tokens ++ rest)) (hStart : r.start = pos + gap.length)
    (hLast : r.last + 1 = r.start + tokens.length) :
    StandsAt ts pos gap ∧ StandsAt ts r.start tokens ∧ StandsAt ts (r.last + 1) rest := by
  obtain ⟨hFront, hRest⟩ := h.append
  obtain ⟨hGap, hSlot⟩ := hFront.append
  have hEnd : r.last + 1 = pos + (gap ++ tokens).length := by
    rw [hLast, hStart, List.length_append]
    omega
  exact ⟨hGap, hStart ▸ hSlot, hEnd ▸ hRest⟩

theorem Covers.chain (h : Covers settings first pos tokens records) (hAt : StandsAt ts pos tokens) :
    records.IsChain (Record.Precedes ts) := by
  induction h with
  | done hRest => simp
  | @slot first pos gap qualifier source rest r records hGap hComma hStart hLast hRead hRest ih =>
    obtain ⟨-, -, hBehind⟩ := hAt.slot hStart hLast
    cases records with
    | nil => simp
    | cons next records =>
      refine List.isChain_cons_cons.mpr ⟨?_, ih hBehind⟩
      obtain ⟨space, more, rfl, hNext, hSpace, comma, hMem, hIsComma⟩ := hRest.gap
      obtain ⟨hSpaceAt, -⟩ := hBehind.append
      obtain ⟨k, hk, hLow, hHigh⟩ := hSpaceAt.exists_at hMem
      refine ⟨by omega, ⟨k, comma, hk, by omega, by omega, hIsComma⟩, ?_⟩
      intro j t hj hLow hHigh
      exact hSpace t (hSpaceAt.mem hj (by omega) (by omega))

/-- A token that is neither white space nor a comma lies in one slot, and in one only. -/
theorem Covers.once (h : Covers settings first pos tokens records) (hAt : StandsAt ts pos tokens)
    {k : Nat} {t : Token} (hk : ts[k]? = some t) (ht : t.isGap = false) (hLow : pos ≤ k)
    (hHigh : (k : Int) < pos + tokens.length) :
    records.countP (fun r => r.start ≤ (k : Int) ∧ (k : Int) ≤ r.last) = 1 := by
  induction h with
  | done hRest => simpa [ht] using hRest t (hAt.mem hk hLow hHigh)
  | @slot first pos gap qualifier source rest r records hGap hComma hStart hLast hRead hRest ih =>
    obtain ⟨hGapAt, -, hBehind⟩ := hAt.slot hStart hLast
    have hStartLe : r.start ≤ k := by
      by_contra hLess
      simpa [ht] using hGap t (hGapAt.mem hk hLow (by omega))
    rw [List.countP_cons]
    by_cases hSlot : (k : Int) ≤ r.last
    · -- all later slots begin behind this one
      have hNone : records.countP (fun r => r.start ≤ (k : Int) ∧ (k : Int) ≤ r.last) = 0 := by
        rw [List.countP_eq_zero]
        intro b hb
        have hBounds := hRest.bounds b hb
        simp only [decide_eq_true_eq]
        omega
      rw [hNone, if_pos (by simpa using ⟨hStartLe, hSlot⟩)]
    · have hLater := ih hBehind (by omega) (by
        simp only [List.length_append] at hHigh hLast
        omega)
      rw [hLater, if_neg (by simpa using fun _ => by omega)]

/-- The tokens of a slot are those that the record is read from. -/
theorem Covers.read (h : Covers settings first pos tokens records) (hAt : StandsAt ts pos tokens) :
    ∀ r ∈ records, ∃ qualifier source, slice ts r.start (r.last + 1) = qualifier ++ source ∧
      r.ReadFrom settings qualifier source := by
  induction h with
  | done hRest => simp
  | @slot first pos gap qualifier source rest r records hGap hComma hStart hLast hRead hRest ih =>
    obtain ⟨-, hSlotAt, hBehind⟩ := hAt.slot hStart hLast
    intro b hb
    rcases List.mem_cons.mp hb with rfl | hb
    · exact ⟨qualifier, source, by rw [hLast, hSlotAt.slice_eq], hRead⟩
    · exact ih hBehind b hb

end Positions

/-! ## Statements in a list of tokens -/

/-- A statement from the `use` at `u` up to the terminator at `stop`. -/
structure StatementAt (ts : List Token) (u stop : Nat) : Prop where
  word : ∃ t, ts[u]? = some t ∧ t.kind = .useWord
  inside : ∀ k t, u < k → k < stop → ts[k]? = some t → t.isTerminator = false
  stop : ∃ t, ts[stop]? = some t ∧ t.isTerminator = true

theorem exists_split {α : Type} {ts : List α} {n : Nat} {t : α} (h : ts[n]? = some t) :
    ∃ before after, ts = before ++ t :: after ∧ n = before.length := by
  obtain ⟨hn, rfl⟩ := List.getElem?_eq_some_iff.mp h
  refine ⟨ts.take n, ts.drop (n + 1), ?_, by simp; omega⟩
  rw [List.getElem_cons_drop, List.take_append_drop]

theorem statementAt_append {before body after : List Token} {word stop : Token}
    (hWord : word.kind = .useWord) (hBody : ∀ t ∈ body, t.isTerminator = false)
    (hStop : stop.isTerminator = true) :
    StatementAt (before ++ word :: (body ++ stop :: after)) before.length
      (before ++ word :: body).length := by
  have hAt := standsAt_body before body (stop :: after) word
  have hShape : before ++ word :: (body ++ stop :: after) =
      (before ++ word :: body) ++ stop :: after := by simp
  refine ⟨⟨word, by simp, hWord⟩, fun k t hLow hHigh hk => ?_, ⟨stop, ?_, hStop⟩⟩
  · simp only [List.length_append, List.length_cons] at hHigh
    exact hBody t (hAt.mem hk (by omega) (by omega))
  · rw [hShape, List.getElem?_append_right (le_refl _)]
    simp

/-- The first terminator behind a `use` ends its statement. -/
theorem statementAt_of_findIdx? {ts : List Token} {u n : Nat}
    (hWord : ts[u]?.any (·.kind == .useWord) = true)
    (hStop : (ts.drop (u + 1)).findIdx? Token.isTerminator = some n) :
    StatementAt ts u (u + 1 + n) := by
  obtain ⟨word, hAt, hKind⟩ := (Option.any_eq_true _ _).mp hWord
  obtain ⟨before, after, rfl, rfl⟩ := exists_split hAt
  have hBehind : (before ++ word :: after).drop (before.length + 1) = after := by simp
  rw [hBehind] at hStop
  have hSome : after.any Token.isTerminator = true := by
    rw [← List.findIdx?_isSome, hStop]
    rfl
  obtain ⟨body, stop, rest, rfl, hTerm, hBody⟩ := exists_first (List.any_eq_true.mp hSome)
  rw [findIdx?_terminator hBody (by simpa using hTerm), Option.some.injEq] at hStop
  subst hStop
  have hEnd := @statementAt_append before body rest word stop (by simpa using hKind) hBody hTerm
  rwa [List.length_append, List.length_cons, Nat.add_comm body.length, ← Nat.add_assoc] at hEnd

theorem StatementAt.split {ts : List Token} {u e : Nat} (h : StatementAt ts u e) (hLess : u < e) :
    ∃ before word body stop after, ts = before ++ word :: (body ++ stop :: after) ∧
      u = before.length ∧ e = (before ++ word :: body).length ∧
      (∀ t ∈ body, t.isTerminator = false) ∧ stop.isTerminator = true := by
  obtain ⟨word, hWord, -⟩ := h.word
  obtain ⟨stop, hStop, hTerm⟩ := h.stop
  obtain ⟨before, rest, rfl, rfl⟩ := exists_split hWord
  obtain ⟨n, rfl⟩ : ∃ n, e = before.length + (n + 1) := ⟨e - before.length - 1, by omega⟩
  rw [List.getElem?_append_right (by omega), Nat.add_sub_cancel_left,
    List.getElem?_cons_succ] at hStop
  obtain ⟨body, after, rfl, rfl⟩ := exists_split hStop
  refine ⟨before, word, body, stop, after, rfl, rfl, by simp, fun t ht => ?_, hTerm⟩
  have hAt := standsAt_body before body (stop :: after) word
  obtain ⟨k, hk, hLow, hHigh⟩ := hAt.exists_at ht
  exact h.inside k t (by omega) (by omega) hk

/-- The slots of a statement lie between its `use` and its terminator. They follow each other with
a comma between two of them, and nothing but white space and commas; every other token of the
statement lies in one slot. A slot is worded by the qualifier and the name of its record, unless the
record is a group that is laid out anew. -/
theorem slots_cover_statement {settings : Settings} {ts : List Token} {u e : Nat}
    {records : List Record} (hStatement : StatementAt ts u e) (hLess : u < e)
    (h : parseStatement settings ts u = .ok records) :
    (∀ r ∈ records, (u : Int) < r.start ∧ r.start ≤ r.last + 1 ∧ r.last + 1 ≤ e) ∧
      records.IsChain (Record.Precedes ts) ∧
      (∀ (k : Nat) (t : Token), ts[k]? = some t → u < k → k < e → t.isWhitespace = false →
        t.isComma = false →
        records.countP (fun r => r.start ≤ (k : Int) ∧ (k : Int) ≤ r.last) = 1) ∧
      ∀ r ∈ records, ∃ qualifier source, slice ts r.start (r.last + 1) = qualifier ++ source ∧
        r.ReadFrom settings qualifier source ∧
        ((r.grouped = true → rebuiltGroup? settings source = none) →
          textOf (slice ts r.start (r.last + 1)) = r.qualifier.getD [] ++ r.name) := by
  obtain ⟨before, word, body, stop, after, rfl, rfl, rfl, hBody, hStop⟩ := hStatement.split hLess
  have hCovers := parseStatement_covers hBody (by simpa using hStop) h
  have hAt := standsAt_body before body (stop :: after) word
  have hEnd : ((before ++ word :: body).length : Int) = before.length + 1 + body.length := by
    simp only [List.length_append, List.length_cons]
    omega
  refine ⟨fun r hr => ?_, hCovers.chain hAt, fun k t hk hLow hHigh hSpace hComma => ?_,
    fun r hr => ?_⟩
  · have hBounds := hCovers.bounds r hr
    omega
  · exact hCovers.once hAt hk (by simp [Token.isGap, hSpace, hComma]) (by omega) (by omega)
  · obtain ⟨qualifier, source, hSlot, hRead⟩ := hCovers.read hAt r hr
    exact ⟨qualifier, source, hSlot, hRead, fun hKept => hSlot ▸ hRead.text hKept⟩

/-- A list with a qualifier, a comma too many and a comment. -/
theorem slots_cover_statement_of_list :
    let ts : List Token := [⟨.useWord, "use".toList⟩, oneSpace, ⟨.functionWord, "function".toList⟩,
      oneSpace, ⟨.name, "A".toList⟩, oneSpace, commaToken, commaToken, ⟨.name, "B".toList⟩, oneSpace,
      ⟨.comment, "/* c */".toList⟩, ⟨.punct, ";".toList⟩]
    let a : Record := ⟨"A".toList, .functionKind, false, 2, 4, (ts.drop 4).take 1,
      some "function ".toList, none⟩
    let b : Record := ⟨"B /* c */".toList, .functionKind, false, 8, 10, (ts.drop 8).take 3, none, none⟩
    StatementAt ts 0 11 ∧ parseStatement {} ts 0 = .ok [a, b] ∧ a.Precedes ts b ∧
      textOf (slice ts a.start (a.last + 1)) = "function ".toList ++ "A".toList := by
  intro ts a b
  have hStatement : StatementAt ts 0 11 :=
    @statementAt_append [] ((ts.drop 1).take 10) [] ⟨.useWord, "use".toList⟩ ⟨.punct, ";".toList⟩ rfl
      (by decide) rfl
  have hRecords : parseStatement {} ts 0 = .ok [a, b] := by decide +kernel
  obtain ⟨-, hChain, -, hText⟩ := slots_cover_statement hStatement (by decide) hRecords
  obtain ⟨_, _, -, -, hFirst⟩ := hText a List.mem_cons_self
  exact ⟨hStatement, hRecords, (List.isChain_cons_cons.mp hChain).1, hFirst (by simp [a])⟩

end UseOrder
