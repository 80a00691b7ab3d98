import UseOrder.Proofs.Writable

/-!
# Cells that were read

The cells of a source text are pieces of tokens that were split and relabelled where they stand.
`Cell.IsRead` keeps what that tells about one cell, and `isRead_cells` gives it for all cells of a
text. The record of a cell that was read, and whose name can be written elsewhere, is read as a
movable one (`CellOk.exists_movable`), also when the names in its braces are put in order.
-/

namespace UseOrder

/-! ## Kinds inside an import -/

/-- Inside an import, a token that is no qualifier is labelled so anywhere. -/
theorem settled_of_kind {t : Token} {first : Bool} {rest : List Token}
    (h : Context.importKind first t.raw rest = t.kind) (hPlain : t.isQualifier = false)
    (hInside : t.raw.isTerminator = false) : t.Settled := by
  refine ⟨?_, hInside⟩
  rw [← h]
  symm
  refine importKind_eq ?_ []
  cases hFound : Context.qualifierKind? t.raw rest with
  | none => exact .inr (.inr rfl)
  | some kind =>
    -- a word that is taken for a qualifier would have that kind
    obtain ⟨-, hKind, hName, -⟩ := qualifierKind?_of_some hFound
    have hMeaning : t.raw.isMeaningful = true := by
      simp [Token.isMeaningful, Token.isWhitespace, Token.isComment, hName]
    cases first with
    | false => exact .inl rfl
    | true =>
      simp only [Context.importKind, Token.isPunct, hName, hMeaning, hFound] at h
      have hSame : kind = t.kind := by simpa using h
      rcases hKind with rfl | rfl <;> simp [Token.isQualifier, ← hSame] at hPlain

theorem qualifies_of_kind {q : Token} {first : Bool} {rest : List Token}
    (h : Context.importKind first q.raw rest = q.kind) (hq : q.isQualifier = true) :
    q.Qualifies ∧ rest.head?.any (·.kind == .separator) = false := by
  have hRaw : q.raw.kind = .ofWord q.content := by
    rw [Token.isQualifier, Bool.or_eq_true, beq_iff_eq, beq_iff_eq] at hq
    rcases hq with hq | hq <;> simp [Token.raw, hq, TokenKind.raw]
  have hOther : q.raw.kind ≠ q.kind := by
    intro hSame
    rw [hSame] at hRaw
    rcases ofWord_cases q.content with hWord | hWord | hWord <;>
      simp [Token.isQualifier, hRaw, hWord] at hq
  have hPunct (text : Text) : q.raw.isPunct text = false := by
    rcases ofWord_cases q.content with hWord | hWord | hWord <;> simp [Token.isPunct, hRaw, hWord]
  rw [Context.importKind, hPunct, hPunct] at h
  simp only [Bool.false_eq_true, if_false] at h
  split at h
  · cases hFound : Context.qualifierKind? q.raw rest with
    | none =>
      rw [hFound] at h
      exact absurd h hOther
    | some kind =>
      rw [hFound] at h
      obtain ⟨hAlone, -, -, hNext⟩ := qualifierKind?_of_some hFound
      exact ⟨hAlone.trans (congrArg some h), hNext⟩
  · exact absurd h hOther

theorem Labels.settled_body {c c' : Context} {ts rest : List Token} (h : Labels c ts rest c')
    (hc : c.place = .importBody) (hBody : ∀ t ∈ ts, t.isBody = true) : ∀ t ∈ ts, t.Settled := by
  induction ts generalizing c with
  | nil => simp
  | cons t ts ih =>
    have hInside : t.raw.isTerminator = false := by
      rw [h.raw_isTerminator t List.mem_cons_self]
      exact (Token.isBody_iff.mp (hBody t List.mem_cons_self)).1
    obtain ⟨hKind, hLater⟩ := labels_cons.mp h
    have hCode : c.place ≠ .code := by simp [hc]
    obtain ⟨hStep, hPlace⟩ := step_of_import hCode hInside (ts.map Token.raw ++ rest)
    have hNext : (c.step t.raw (ts.map Token.raw ++ rest)).2.place = .importBody := by
      rw [hPlace, hc]
      split <;> rfl
    intro u hu
    rcases List.mem_cons.mp hu with rfl | hu
    · rw [hStep, hc] at hKind
      exact ⟨(importKind_eq (.inl rfl) []).symm.trans hKind, hInside⟩
    · exact ih hLater hNext (fun v hv => hBody v (List.mem_cons_of_mem _ hv)) u hu

theorem Token.Qualifies.settled_name {q : Token} (h : q.Qualifies) :
    Token.Settled ⟨.name, q.content⟩ := by
  have hWord : TokenKind.ofWord q.content = .name := TokenKind.ofWord_of_raw h.name
  have hRaw : Token.raw ⟨.name, q.content⟩ = ⟨.name, q.content⟩ := by
    simp [Token.raw, TokenKind.raw, hWord]
  constructor
  · rw [hRaw]
    simp [Context.importKind, Token.isPunct]
  · rw [hRaw]
    simp [Token.isTerminator, Token.isPunct]

/-- Inside an import only the first word can be labelled otherwise elsewhere. -/
theorem Labels.exists_settled {c c' : Context} {ts rest : List Token} (h : Labels c ts rest c')
    (hc : c.place ≠ .code) (hBody : ∀ t ∈ ts, t.isBody = true) :
    ∃ us, Reworded ts us ∧ ∀ u ∈ us, u.Settled := by
  induction ts generalizing c with
  | nil => exact ⟨[], .same [], by simp⟩
  | cons t ts ih =>
    have hLaterBody : ∀ u ∈ ts, u.isBody = true := fun u hu => hBody u (List.mem_cons_of_mem _ hu)
    have hInside : t.raw.isTerminator = false := by
      rw [h.raw_isTerminator t List.mem_cons_self]
      exact (Token.isBody_iff.mp (hBody t List.mem_cons_self)).1
    obtain ⟨hKind, hLater⟩ := labels_cons.mp h
    obtain ⟨hStep, hPlace⟩ := step_of_import hc hInside (ts.map Token.raw ++ rest)
    rw [hStep] at hKind
    rw [t.raw_isMeaningful] at hPlace
    have hCons {u : Token} {us : List Token} (hu : u.Settled) (hus : ∀ v ∈ us, v.Settled) :
        ∀ v ∈ u :: us, v.Settled := by
      simpa using And.intro hu hus
    cases hMeaning : t.isMeaningful with
    | false =>
      rw [hMeaning] at hPlace
      obtain ⟨us, hSame, hSettled⟩ := ih hLater (by rw [hPlace]; exact hc) hLaterBody
      have hPlain : t.isQualifier = false := by
        cases hQualifier : t.isQualifier with
        | false => rfl
        | true =>
          have hWord : t.isNameWord = true := by simp [Token.isNameWord, hQualifier]
          simp [Token.isMeaningful_of_isNameWord hWord] at hMeaning
      exact ⟨t :: us, hSame.cons hMeaning, hCons (settled_of_kind hKind hPlain hInside) hSettled⟩
    | true =>
      -- behind a meaningful token the labels are settled
      rw [hMeaning, if_pos rfl] at hPlace
      have hSettled := hLater.settled_body hPlace hLaterBody
      cases hQualifier : t.isQualifier with
      | false => exact ⟨t :: ts, .same _, hCons (settled_of_kind hKind hQualifier hInside) hSettled⟩
      | true =>
        obtain ⟨hQualifies, -⟩ := qualifies_of_kind hKind hQualifier
        exact ⟨⟨.name, t.content⟩ :: ts,
          @Reworded.word [] ts t ⟨.name, t.content⟩ (by simp)
            (by simp [Token.isNameWord, hQualifier]) rfl rfl, hCons hQualifies.settled_name hSettled⟩

theorem Labels.qualifies {c c' : Context} {q : Token} {rest : List Token}
    (h : Labels c [q] rest c') (hc : c.place ≠ .code) (hq : q.isQualifier = true) :
    q.Qualifies ∧ rest.head?.any (·.kind == .separator) = false := by
  have hInside : q.raw.isTerminator = false := by
    rw [h.raw_isTerminator q List.mem_cons_self]
    rw [Token.isQualifier, Bool.or_eq_true, beq_iff_eq, beq_iff_eq] at hq
    rcases hq with hq | hq <;> simp [Token.isTerminator, Token.isPunct, hq]
  have hKind := (labels_cons.mp h).1
  rw [(step_of_import hc hInside _).1] at hKind
  exact qualifies_of_kind hKind hq

/-- White space leaves the pass where it is. -/
theorem Labels.space_eq {c c' : Context} {ts rest : List Token} (h : Labels c ts rest c')
    (hSpace : AllSpace ts) : c' = c := by
  induction ts generalizing c with
  | nil => exact (show c = c' from h).symm
  | cons t ts ih =>
    have ht : t.isWhitespace = true := hSpace t List.mem_cons_self
    have hKind : t.kind = .whitespace := by simpa [Token.isWhitespace] using ht
    have hLater := h.2
    rw [Token.raw_eq_self (by rw [hKind]; rfl), step_space c ht] at hLater
    exact ih hLater fun u hu => hSpace u (List.mem_cons_of_mem _ hu)

/-! ## Cells -/

/-- What reading tells about a cell. -/
structure Cell.IsRead (c : Cell) : Prop where
  settled : ∃ d : Cell, c.Relabelled d ∧ ∀ t ∈ d.core, t.Settled
  announced : ∀ q space, c.qualifier = q :: space →
    q.Qualifies ∧ (space ++ c.core).head?.any (·.kind == .separator) = false
  scans : ∃ x, Scans true (c.qualifier ++ c.core) x ∧ x.head? ≠ some '['
  indent : ∀ gap ∈ c.gap?, ∀ d ∈ gapIndent gap, isBlank d = true

theorem blank_of_mem_scans {m : Bool} {ts : List Token} {x : Text} (h : Scans m ts x) {t : Token}
    (ht : t ∈ ts) (hSpace : t.isWhitespace = true) : ∀ d ∈ t.content, isBlank d = true := by
  induction ts generalizing m with
  | nil => simp at ht
  | cons u ts ih =>
    rcases List.mem_cons.mp ht with rfl | ht
    · obtain rfl := h.1.of_space hSpace
      obtain ⟨c, cs, rfl, hBlank⟩ := exists_blanks h.1.1 hSpace
      exact hBlank
    · exact ih h.2 ht

/-- The indentation behind a gap that was read is blank. -/
theorem blank_gapIndent {m : Bool} {gap : List Token} {x : Text} (h : Scans m gap x) :
    ∀ d ∈ gapIndent gap, isBlank d = true := by
  unfold gapIndent
  split
  · next t hLast =>
    split
    · next hBreak =>
      rw [Bool.and_eq_true] at hBreak
      intro d hd
      refine blank_of_mem_scans h (List.mem_of_getLast? hLast) hBreak.1 d ?_
      exact List.mem_reverse.mp ((List.takeWhile_sublist _).mem (List.mem_reverse.mp hd))
    · simp
  · simp

section Reading

variable {c : Cell} {before behind : Context} {rest : List Token}

/-- Behind every cell the pass is inside its import. -/
theorem CellOk.within (hc : CellOk c) (hGap : ∀ gap ∈ c.gap?, leavesDeclaration gap = false)
    (hMeets : Meets c.lead before before) (hLabels : Labels before c.tokens rest behind) :
    behind.Within := by
  cases hLead : c.lead with
  | start gap word space =>
    obtain ⟨inside, hWithin, -, hAgrees, hBehind, -⟩ :=
      hc.labels_start hLead (hGap gap (by simp [Cell.gap?, hLead])) hMeets hLabels
    exact hWithin.congr hAgrees hBehind
  | comma space =>
    obtain ⟨hWithin, -, -, hAgrees, hBehind⟩ := hc.labels_comma hLead hMeets hLabels
    exact hWithin.congr hAgrees hBehind

/-- The labels inside a cell. -/
theorem CellOk.labels_slot (hc : CellOk c) (hGap : ∀ gap ∈ c.gap?, leavesDeclaration gap = false)
    (hMeets : Meets c.lead before before) (hLabels : Labels before c.tokens rest behind) :
    ∃ inside : Context, inside.place ≠ .code ∧
      Labels inside (c.qualifier ++ (c.core ++ c.after)) rest behind := by
  have hOk := hc.lead
  cases hLead : c.lead with
  | start gap word space =>
    rw [hLead] at hOk
    obtain ⟨inside, hWithin, -, -, -, hSlot, -⟩ :=
      hc.labels_start hLead (hGap gap (by simp [Cell.gap?, hLead])) hMeets hLabels
    obtain ⟨between, hSpace, hLater⟩ := labels_append.mp hSlot
    obtain rfl := hSpace.space_eq hOk.2.2.1
    exact ⟨between, hWithin.place, by simpa using hLater⟩
  | comma space =>
    rw [hLead] at hOk
    obtain ⟨hWithin, -⟩ := hc.labels_comma hLead hMeets hLabels
    have hShape : c.tokens = (commaToken :: space) ++ (c.qualifier ++ (c.core ++ c.after)) := by
      simp [Cell.tokens, hLead, Lead.tokens]
    rw [hShape, labels_append] at hLabels
    obtain ⟨inside, hComma, hSlot⟩ := hLabels
    refine ⟨inside, (hComma.body_of_isBody ?_ hWithin.place).2, hSlot⟩
    intro t ht
    rcases List.mem_cons.mp ht with rfl | ht
    · decide
    · exact hOk.1.isBody t ht

theorem CellOk.isQualifier_of_eq (hc : CellOk c) {q : Token} {space : List Token}
    (h : c.qualifier = q :: space) : q.isQualifier = true ∧ AllSpace space := by
  have hOk := hc.lead
  cases hLead : c.lead with
  | start gap word other =>
    rw [hLead] at hOk
    have hWord := hOk.2.2.2
    rw [h] at hWord
    cases hKind : c.kind <;> rw [hKind] at hWord
    · obtain ⟨t, more, hSame, ht, hSpace⟩ := hWord
      obtain ⟨rfl, rfl⟩ := List.cons.inj hSame
      exact ⟨by simp [Token.isQualifier, ht], hSpace⟩
    · exact absurd hWord (by simp [IsQualifierOf, ImportKind.qualifierKind?])
    · obtain ⟨t, more, hSame, ht, hSpace⟩ := hWord
      obtain ⟨rfl, rfl⟩ := List.cons.inj hSame
      exact ⟨by simp [Token.isQualifier, ht], hSpace⟩
  | comma other =>
    rw [hLead] at hOk
    rw [hOk.2] at h
    simp at h

/-- One cell of a text that was split and relabelled. -/
theorem CellOk.isRead (hc : CellOk c) (hGap : ∀ gap ∈ c.gap?, leavesDeclaration gap = false)
    (hMeets : Meets c.lead before before) (hLabels : Labels before c.tokens rest behind)
    {m : Bool} {x : Text} (hMode : c.isStart = false → m = true) (hScans : Scans m c.tokens x)
    (hx : Parted x) : c.IsRead := by
  obtain ⟨inside, hPlace, hSlot⟩ := hc.labels_slot hGap hMeets hLabels
  obtain ⟨hRead, hSpaced, -⟩ := hc.scans_slot hMode hScans
  refine ⟨?_, ?_, ⟨textOf c.after ++ x, hRead, ?_⟩, ?_⟩
  · -- the name is labelled inside the import, behind its qualifier
    obtain ⟨between, hQualifier, hLater⟩ := labels_append.mp hSlot
    obtain ⟨-, hInside⟩ :=
      hQualifier.body_of_isBody (fun t ht => hc.slot_isBody t (by simp [ht])) hPlace
    obtain ⟨_, hCore, -⟩ := labels_append.mp hLater
    obtain ⟨us, hSame, hSettled⟩ :=
      hCore.exists_settled hInside fun t ht => hc.slot_isBody t (by simp [ht])
    exact ⟨{ c with core := us }, ⟨⟨.refl _, rfl, rfl, rfl, hSame,
      fun t ht => (hSettled t (List.mem_of_mem_head? ht)).not_qualifier, rfl⟩, rfl⟩, hSettled⟩
  · intro q space hQualifier
    rw [hQualifier, List.cons_append, ← List.singleton_append, labels_append] at hSlot
    obtain ⟨between, hWord, -⟩ := hSlot
    obtain ⟨hQualifies, hNext⟩ := hWord.qualifies hPlace (hc.isQualifier_of_eq hQualifier).1
    refine ⟨hQualifies, ?_⟩
    -- the name is not empty, so what follows the word is in the cell
    obtain ⟨t, more, hCore, -⟩ := hc.core.first
    cases space with
    | nil =>
      rw [hCore] at hNext ⊢
      simpa [Token.raw, @TokenKind.raw_eq_iff t.kind .separator rfl] using hNext
    | cons u space =>
      simpa [Token.raw, @TokenKind.raw_eq_iff u.kind .separator rfl] using hNext
  · obtain ⟨d, later, hHead, hd⟩ := exists_of_endsName (hSpaced.endsName hx.ends)
    rw [hHead]
    rintro hBracket
    obtain rfl : d = '[' := by simpa using hBracket
    simp at hd
  · intro gap hOld
    cases hLead : c.lead with
    | start old word space =>
      obtain rfl : old = gap := by simpa [Cell.gap?, hLead] using hOld
      have hShape : c.tokens = old ++ (word :: space ++ (c.qualifier ++ c.core ++ c.after)) := by
        simp [Cell.tokens, hLead, Lead.tokens]
      rw [hShape, scans_append] at hScans
      exact blank_gapIndent hScans.1
    | comma space => simp [Cell.gap?, hLead] at hOld

end Reading

/-- All cells of a text that was split and relabelled. -/
theorem isRead_cells {cells : List Cell} (hOk : CellsOk cells)
    (hGaps : ∀ c ∈ cells, ∀ gap ∈ c.gap?, leavesDeclaration gap = false) {tail : List Token}
    (hTags : TagsWritten (cells.flatMap Cell.tokens ++ tail))
    (hStop : tail.head?.any Token.isTerminator = true) {before behind : Context}
    (hMeets : ∀ c ∈ cells.head?, Meets c.lead before before)
    (hLabels : Labels before (cells.flatMap Cell.tokens) (tail.map Token.raw) behind) {m : Bool}
    (hMode : ∀ c ∈ cells.head?, c.isStart = false → m = true)
    (hScans : Scans m (cells.flatMap Cell.tokens) (textOf tail)) : ∀ c ∈ cells, c.IsRead := by
  induction cells generalizing before m with
  | nil => simp
  | cons c cs ih =>
    have hc := hOk.each c List.mem_cons_self
    have hGap := hGaps c List.mem_cons_self
    have hLater : TagsWritten (cs.flatMap Cell.tokens ++ tail) := fun t ht => hTags t (by simp_all)
    have hNext := parting_next hOk.chain hLater hStop
    rw [List.flatMap_cons, labels_append] at hLabels
    rw [List.flatMap_cons, scans_append] at hScans
    obtain ⟨between, hFirst, hLabels⟩ := hLabels
    -- the next cell is met in code and inside this import
    have hCode := (hc.scans_slot (hMode c rfl) hScans.1).2.2
    have hWithin := hc.within hGap (hMeets c rfl) hFirst
    rw [hCode] at hScans
    intro d hd
    rcases List.mem_cons.mp hd with rfl | hd
    · refine hc.isRead hGap (hMeets d rfl) hFirst (hMode d rfl) hScans.1 ?_
      rw [← textOf_append]
      exact hNext.parted
    · refine ih ⟨fun e he => hOk.each e (List.mem_cons_of_mem _ he), hOk.chain.of_cons⟩
        (fun e he => hGaps e (List.mem_cons_of_mem _ he)) hLater ?_ hLabels (fun _ _ _ => rfl)
        hScans.2 d hd
      intro e he
      cases cs with
      | nil => simp at he
      | cons f cs =>
        obtain rfl : f = e := by simpa using he
        exact .next (List.isChain_cons_cons.mp hOk.chain).1 hWithin hWithin.place (.refl _)

theorem lexeme_ne_closeTag {c : Char} {rest : Text}
    (h : ¬ (c == '?' && rest.head? == some '>') = true) : (lexeme c rest).1 ≠ .closeTag := by
  have hWord (word : Text) : TokenKind.ofWord word ≠ .closeTag := by
    rcases ofWord_cases word with hWord | hWord | hWord <;> simp [hWord]
  rw [lexeme, if_neg h]
  simp only
  repeat' split
  all_goals first | exact hWord _ | simp

theorem lexeme_closeTag {c : Char} {rest : Text} {n : Nat} (h : lexeme c rest = (.closeTag, n)) :
    c = '?' ∧ rest.head? = some '>' ∧ 0 < n := by
  by_cases hTag : (c == '?' && rest.head? == some '>') = true
  · rw [lexeme, if_pos hTag, Prod.mk.injEq] at h
    rw [Bool.and_eq_true, beq_iff_eq, beq_iff_eq] at hTag
    exact ⟨hTag.1, hTag.2, by omega⟩
  · exact absurd (congrArg Prod.fst h) (lexeme_ne_closeTag hTag)

theorem tagsWritten_lexFrom (inCode : Bool) (text : Text) : TagsWritten (lexFrom inCode text) := by
  refine forall_mem_lexFrom (fun {c rest kind n} h hClose => ?_) (by simp) (by simp) inCode text
  obtain rfl : kind = .closeTag := hClose
  obtain ⟨rfl, hHead, hn⟩ := lexeme_closeTag h
  obtain ⟨n, rfl⟩ : ∃ k, n = k + 1 := ⟨n - 1, by omega⟩
  cases rest with
  | nil => simp at hHead
  | cons d rest =>
    obtain rfl : d = '>' := by simpa using hHead
    exact ⟨rest.take n, rfl⟩

/-- The close tags of a source text are written as such. -/
theorem tagsWritten_source (source : Text) : TagsWritten (classify (lex source)) := by
  intro t ht hClose
  obtain ⟨raw, hRaw, hKind, hContent⟩ := mem_classifyFrom ht
  rw [hContent]
  exact tagsWritten_lexFrom false source raw hRaw ((hKind.eq_fixed rfl).mp hClose)

/-! ## Arranged cells -/

/-- Only what stands between the braces of a group is put in order. -/
theorem CellOk.arranged_cases {c : Cell} (hc : CellOk c) (settings : Settings) :
    c.arranged settings = c.core ∨ ∃ front opening inside closing back,
      c.core = front ++ opening :: (inside ++ closing :: back) ∧
      opening.kind = .groupOpen ∧ closing.kind = .groupClose ∧
      (∀ t ∈ front ++ inside ++ back, t.isGroupBrace = false) ∧
      c.arranged settings =
        front ++ opening :: (arrangeInside settings inside ++ closing :: back) := by
  have hShape := hc.shape
  rw [Cell.arranged]
  cases hGrouped : c.grouped with
  | false => exact .inl rfl
  | true =>
    rw [if_pos hGrouped] at hShape
    obtain ⟨front, opening, inside, closing, back, hCore, hOpening, hClosing, hBraces, -⟩ := hShape
    refine .inr ⟨front, opening, inside, closing, back, hCore, hOpening, hClosing, hBraces, ?_⟩
    rw [if_pos rfl, hCore, arrangeGroup_eq settings hOpening hClosing hBraces]

/-- A name begins with the same token when its braces are put in order. -/
theorem CellOk.arranged_first {c : Cell} (hc : CellOk c) (settings : Settings) :
    ∃ t rest rest', c.core = t :: rest ∧ c.arranged settings = t :: rest' := by
  rcases hc.arranged_cases settings with hSame | ⟨front, opening, _, _, _, hCore, -, -, -, hNew⟩
  · obtain ⟨t, rest, hCore, -⟩ := hc.core.first
    exact ⟨t, rest, rest, hCore, hSame.trans hCore⟩
  · rw [hCore, hNew]
    cases front with
    | nil => exact ⟨opening, _, _, rfl, rfl⟩
    | cons t front => exact ⟨t, _, _, rfl, rfl⟩

theorem settled_comma : commaToken.Settled :=
  ⟨rfl, rfl⟩

/-- Putting braces in order brings in commas and white space only. -/
theorem CellOk.settled_arranged {c : Cell} (hc : CellOk c) (h : ∀ t ∈ c.core, t.Settled)
    (settings : Settings) : ∀ t ∈ c.arranged settings, t.Settled := by
  rcases hc.arranged_cases settings with
    hSame | ⟨front, opening, inside, closing, back, hCore, -, -, -, hNew⟩
  · rwa [hSame]
  · rw [hCore] at h
    rw [hNew]
    intro t ht
    simp only [List.mem_append, List.mem_cons] at ht
    rcases ht with ht | rfl | ht | rfl | ht
    · exact h t (by simp [ht])
    · exact h t (by simp)
    · rcases mem_arrangeInside ht with ht | rfl | ht
      · exact h t (by simp [ht])
      · exact settled_comma
      · have hSpace : AllSpace [t] := by
          intro u hu
          rw [List.mem_singleton.mp hu, Token.isWhitespace, beq_iff_eq]
          exact ht.1
        exact hSpace.settled t (by simp)
    · exact h t (by simp)
    · exact h t (by simp [ht])

/-- Whether a group begins with a qualifier's word is told in front of its braces. -/
theorem firstQualifies_group (front : List Token) {opening : Token}
    (hOpening : opening.kind = .groupOpen) (a b : List Token) :
    firstQualifies (front ++ opening :: a) = firstQualifies (front ++ opening :: b) := by
  have hRaw : opening.raw.kind = .punct := by simp [Token.raw, hOpening, TokenKind.raw]
  cases front with
  | nil => simp [firstQualifies, Context.qualifierKind?, hRaw]
  | cons t front =>
    have hHead : (front ++ opening :: a).head? = (front ++ opening :: b).head? := by
      cases front <;> rfl
    simp only [List.cons_append, firstQualifies, Context.qualifierKind?, hHead]

theorem CellOk.firstQualifies_arranged {c : Cell} (hc : CellOk c) (settings : Settings) :
    firstQualifies (c.arranged settings) = firstQualifies c.core := by
  rcases hc.arranged_cases settings with
    hSame | ⟨front, opening, _, _, _, hCore, hOpening, -, -, hNew⟩
  · rw [hSame]
  · rw [hNew, hCore]
    exact firstQualifies_group front hOpening _ _

/-! ## Solid arrangements -/

theorem Token.Settled.content_groupOpen {t : Token} (h : t.Settled) (ht : t.kind = .groupOpen) :
    t.content = ['{'] := by
  have hRaw : t.raw = ⟨.punct, t.content⟩ := by simp [Token.raw, ht, TokenKind.raw]
  have hKind := h.kind
  rw [hRaw, ht, Context.importKind] at hKind
  split at hKind
  · next hPunct => simpa [Token.isPunct] using hPunct
  · split at hKind <;> simp at hKind

theorem Token.Settled.content_groupClose {t : Token} (h : t.Settled) (ht : t.kind = .groupClose) :
    t.content = ['}'] := by
  have hRaw : t.raw = ⟨.punct, t.content⟩ := by simp [Token.raw, ht, TokenKind.raw]
  have hKind := h.kind
  rw [hRaw, ht, Context.importKind] at hKind
  split at hKind
  · simp at hKind
  · split at hKind
    · next hPunct => simpa [Token.isPunct] using hPunct
    · simp at hKind

theorem StartsSolid.of_append {x y : Text} (h : StartsSolid (x ++ y)) (hx : x ≠ []) :
    StartsSolid x := by
  obtain ⟨c, rest, rfl⟩ := List.exists_cons_of_ne_nil hx
  obtain ⟨d, later, hText, hd⟩ := h
  obtain rfl : c = d := (List.cons.inj hText).1
  exact ⟨c, rest, rfl, hd⟩

theorem Trimmed.last_of_append {as bs : List Token} (h : Trimmed (as ++ bs)) (hbs : bs ≠ []) :
    ∃ rest t, bs = rest ++ [t] ∧ t.isWhitespace = false := by
  obtain ⟨rest, t, hts, ht⟩ := h.last
  obtain hNil | ⟨init, last, hInit⟩ := List.eq_nil_or_concat bs
  · exact absurd hNil hbs
  · rw [hInit, List.concat_eq_append, ← List.append_assoc] at hts
    obtain ⟨-, hLast⟩ := List.append_inj' hts rfl
    obtain rfl : last = t := by simpa using hLast
    exact ⟨init, last, by rw [hInit, List.concat_eq_append], ht⟩

/-- The tokens up to an opening brace are read in front of anything. -/
theorem readOn_opening {front : List Token} {opening : Token} {x : Text}
    (h : Scans true (front ++ [opening]) x) (hInner : ∀ t ∈ front, t.kind ≠ .closeTag)
    (hKind : opening.kind = .groupOpen) (hContent : opening.content = ['{']) (y : Text) :
    ReadOn (front ++ [opening]) y := by
  have hRaw : opening.raw = ⟨.punct, ['{']⟩ := by simp [Token.raw, hKind, TokenKind.raw, hContent]
  have hMode := modeAfter_of_no_closeTag hInner
  refine ⟨h.congr ?_ ?_, ?_⟩
  · rw [hMode, ReadsIn, hRaw]
    exact ⟨.mark '{' (by decide) (by decide) (by decide) (by decide) (by decide), rfl⟩
  · rw [hContent]
    simp
  · rw [modeAfter_append, hMode]
    simp [nextMode, hKind]

/-- The names of a list that was read in front of a closing brace are solid. -/
theorem solid_groupParts {inside : List Token} {y : Text} (h : Scans true inside ('}' :: y))
    (hInner : ∀ t ∈ inside, t.kind ≠ .closeTag) (hLine : inside.any Token.isLineComment = false)
    (hPieces : ∀ piece ∈ splitAtCommas inside, commentsOutside piece = true) :
    ∀ p ∈ groupParts inside, Solid p.tokens := by
  intro p hp
  obtain ⟨piece, hPiece, hPart⟩ := List.mem_filterMap.mp hp
  obtain ⟨before, after, rfl, hNext⟩ := exists_piece hPiece
  have hFirst : modeAfter true before = true :=
    modeAfter_of_no_closeTag fun t ht => hInner t (by simp [ht])
  rw [List.append_assoc, scans_append, hFirst, scans_append] at h
  refine solid_part h.2.1 ?_ (fun t ht => hInner t (by simp [ht])) (fun t ht => ?_)
    (hPieces piece hPiece) hPart
  · -- a comma or the closing brace follows
    rcases hNext with rfl | hComma
    · simp
    · cases after with
      | nil => simp at hComma
      | cons u after =>
        obtain rfl : u = commaToken := by simpa using hComma
        simp [commaToken]
  · have hNone := List.any_eq_false.mp hLine t (by simp [ht])
    simpa using hNone

/-- What closes a group is solid. -/
theorem solid_closing {front back : List Token} {closing : Token} {x : Text}
    (h : Scans true (closing :: back) x) (hx : x.head? ≠ some '[')
    (hTrimmed : Trimmed (front ++ closing :: back))
    (hInner : ∀ t ∈ closing :: back, t.kind ≠ .closeTag) (hClosing : closing.kind = .groupClose)
    (hLast : (front ++ closing :: back).getLast?.any Token.isLineComment = false) :
    Solid (closing :: back) := by
  refine solid_of_scans h hInner ⟨?_, ?_⟩ ?_ hx
  · exact ⟨closing, back, rfl, by simp [Token.isWhitespace, hClosing]⟩
  · exact hTrimmed.last_of_append (by simp)
  · rwa [List.getLast?_append_of_ne_nil _ (by simp)] at hLast

/-- A group whose names are put in order is solid, if the names are. -/
theorem solid_arranged {settings : Settings} {front inside back : List Token}
    {opening closing : Token} {x : Text}
    (h : Scans true (front ++ opening :: (inside ++ closing :: back)) x) (hx : x.head? ≠ some '[')
    (hTrimmed : Trimmed (front ++ opening :: (inside ++ closing :: back)))
    (hInner : ∀ t ∈ front ++ opening :: (inside ++ closing :: back), t.kind ≠ .closeTag)
    (hOpening : opening.kind = .groupOpen) (hOpen : opening.content = ['{'])
    (hClosing : closing.kind = .groupClose) (hClose : closing.content = ['}'])
    (hLast : (front ++ opening :: (inside ++ closing :: back)).getLast?.any Token.isLineComment =
      false)
    (hRemarked : keepsInside settings inside = true ∨
      ∀ piece ∈ splitAtCommas inside, commentsOutside piece = true) :
    Solid (front ++ opening :: (arrangeInside settings inside ++ closing :: back)) := by
  have hWhole := solid_of_scans h hInner hTrimmed hLast hx
  unfold arrangeInside
  split
  · exact hWhole
  · next hOrder =>
    have hPieces := hRemarked.resolve_left hOrder
    simp only [keepsInside, Bool.or_eq_true, not_or, Bool.not_eq_true] at hOrder
    have hSome : groupParts inside ≠ [] := by
      intro hNil
      rw [hNil] at hOrder
      simp [partsInOrder] at hOrder
    -- both groups have three parts, and only the middle one is new
    have hShape (body : List Token) : front ++ opening :: (body ++ closing :: back) =
        (front ++ [opening]) ++ (body ++ (closing :: back)) := by simp
    have hFront : ∀ t ∈ front, t.kind ≠ .closeTag := fun t ht => hInner t (by simp [ht])
    rw [hShape] at h hWhole hTrimmed hLast
    obtain ⟨hBefore, hRest⟩ := scans_append.mp h
    rw [(readOn_opening hBefore hFront hOpening hOpen []).mode] at hRest
    obtain ⟨hMiddle, hAfter⟩ := scans_append.mp hRest
    have hMode : modeAfter true inside = true :=
      modeAfter_of_no_closeTag fun t ht => hInner t (by simp [ht])
    rw [hMode] at hAfter
    have hBack : Solid (closing :: back) := by
      rw [← List.append_assoc] at hTrimmed hLast
      refine solid_closing hAfter hx hTrimmed (fun t ht => hInner t ?_) hClosing hLast
      rw [hShape]
      exact List.mem_append_right _ (List.mem_append_right _ ht)
    rw [textOf_cons, hClose] at hMiddle
    have hParts := solid_groupParts hMiddle (fun t ht => hInner t (by simp [ht])) hOrder.1.2 hPieces
    rw [hShape]
    refine ⟨?_, fun y hy => ?_⟩
    · have hStarts := hWhole.starts
      rw [textOf_append] at hStarts ⊢
      exact (hStarts.of_append (by simp [hOpen])).append _
    · refine (readOn_opening hBefore hFront hOpening hOpen _).append
        (.append ?_ (hBack.readOn y hy))
      rw [textOf_cons, hClose]
      exact readOn_groupBody _ _ _ hParts hSome _

theorem CellOk.solid_arranged {settings : Settings} {c : Cell} (hc : CellOk c) (hRead : c.IsRead)
    (hWritable : c.Writable settings) : Solid (c.arranged settings) := by
  obtain ⟨x, hScans, hx⟩ := hRead.scans
  obtain ⟨d, ⟨hSame, -⟩, hSettled⟩ := hRead.settled
  -- a brace is no word, so it has the label that it was read with
  have hBraces : ∀ t ∈ c.core, t.isGroupBrace = true → t.Settled := by
    refine @Reworded.forall_mem _ _ _ hSame.core.symm (fun t ht _ => hSettled t ht) ?_
    intro w w' _ hWord _ _ hBrace
    rw [Token.isNameWord_iff] at hWord
    rcases hWord with hWord | hWord | hWord <;> simp [Token.isGroupBrace, hWord] at hBrace
  have hInner : ∀ t ∈ c.core, t.kind ≠ .closeTag := by
    intro t ht hClose
    have hBody := (Token.isBody_iff.mp (hc.slot_isBody t (by simp [ht]))).1
    simp [Token.isTerminator, hClose] at hBody
  have hCore : Scans true c.core x := by
    rw [scans_append, modeAfter_of_isBody fun t ht => hc.slot_isBody t (by simp [ht])] at hScans
    exact hScans.2
  have hTrimmed := hc.core.trimmed
  have hLast := hWritable.closed
  have hRemarked := hWritable.remarked
  rcases hc.arranged_cases settings with
    hSame | ⟨front, opening, inside, closing, back, hGroup, hOpening, hClosing, hNone, hNew⟩
  · rw [hSame]
    exact solid_of_scans hCore hInner hTrimmed hLast hx
  · have hInside : insideBraces c.core = inside := by
      rw [hGroup]
      exact @insideBraces_eq [] front inside back opening closing
        (fun t ht => hNone t (by simp_all)) hOpening (fun t ht => hNone t (by simp [ht])) hClosing
    rw [hInside] at hRemarked
    have hOpen := (hBraces opening (by simp [hGroup])
      (by simp [Token.isGroupBrace, hOpening])).content_groupOpen hOpening
    have hClose := (hBraces closing (by simp [hGroup])
      (by simp [Token.isGroupBrace, hClosing])).content_groupClose hClosing
    rw [hGroup] at hCore hTrimmed hInner hLast
    rw [hNew]
    exact UseOrder.solid_arranged hCore hx hTrimmed hInner hOpening hOpen hClosing hClose hLast
      hRemarked

/-! ## Qualifiers -/

/-- The code points of white space. -/
def whiteCodes : List Nat :=
  [0x09, 0x0A, 0x0B, 0x0C, 0x0D, 0x1C, 0x1D, 0x1E, 0x1F, 0x20, 0x85, 0xA0, 0x1680, 0x2000, 0x2001,
    0x2002, 0x2003, 0x2004, 0x2005, 0x2006, 0x2007, 0x2008, 0x2009, 0x200A, 0x2028, 0x2029, 0x202F,
    0x205F, 0x3000]

theorem mem_whiteCodes {c : Char} (h : isWhite c = true) : c.toNat ∈ whiteCodes := by
  simp only [isWhite, Bool.or_eq_true, Bool.and_eq_true, decide_eq_true_eq, beq_iff_eq] at h
  simp only [whiteCodes, List.mem_cons, List.not_mem_nil, or_false]
  omega

/-- White space is no part of a word. -/
theorem not_white_of_isWord {c : Char} (h : isWord c = true) : isWhite c = false := by
  have hCodes : ∀ n ∈ whiteCodes, isWord (Char.ofNat n) = false := by decide +kernel
  cases hWhite : isWhite c with
  | false => rfl
  | true =>
    have hNot := hCodes c.toNat (mem_whiteCodes hWhite)
    rw [Char.ofNat_toNat, h] at hNot
    simp at hNot

theorem isWhite_of_isBlank {c : Char} (h : isBlank c = true) : isWhite c = true := by
  simp only [isBlank, Bool.or_eq_true, beq_iff_eq] at h
  rcases h with ((rfl | rfl) | rfl) | rfl <;> decide

theorem stripEnd_word {word gap : Text} (hNe : word ≠ []) (hWord : ∀ d ∈ word, isWord d = true)
    (hGap : ∀ d ∈ gap, isBlank d = true) : Text.stripEnd (word ++ gap) = word := by
  obtain hNil | ⟨init, last, rfl⟩ := List.eq_nil_or_concat word
  · exact absurd hNil hNe
  · have hLast := not_white_of_isWord (hWord last (by simp))
    rw [Text.stripEnd, Text.trimEndBy, List.reverse_append,
      List.dropWhile_append_of_pos fun d hd => isWhite_of_isBlank (hGap d (List.mem_reverse.mp hd)),
      List.concat_eq_append, List.reverse_append, List.reverse_singleton, List.singleton_append,
      List.dropWhile_cons_of_neg (by simp [hLast])]
    simp

theorem Lexical.words_of_name {t : Token} (h : Lexical t) (hName : t.kind = .name) :
    t.content ≠ [] ∧ ∀ d ∈ t.content, isWord d = true := by
  cases h with
  | word c cs start words =>
    have hFirst : isWord c = true := by
      rw [isNameStart, Bool.and_eq_true] at start
      exact start.1
    refine ⟨by simp, fun d hd => ?_⟩
    rcases List.mem_cons.mp hd with rfl | hd
    · exact hFirst
    · exact words d hd
  | blockComment cs =>
    simp only at hName
    split at hName <;> simp at hName
  | _ => simp at hName

/-- A word and white space behind it are the qualifier that their text is written as. -/
theorem qualifierTokens_of_word {r : Record} {q : Token} {space : List Token}
    (hKind : r.kind.qualifierKind? = some q.kind) (hText : r.qualifier = some (textOf (q :: space)))
    (hNe : q.content ≠ []) (hWords : ∀ d ∈ q.content, isWord d = true) (hSpace : Spaced space) :
    qualifierTokens r = q :: space := by
  have hBlank : ∀ d ∈ textOf space, isBlank d = true := by
    rcases hSpace with rfl | ⟨c, cs, rfl, hBlank⟩
    · simp
    · simpa using hBlank
  have hStrip := stripEnd_word hNe hWords hBlank
  unfold qualifierTokens
  rw [hKind, hText]
  simp only [Option.getD_some, textOf_cons, hStrip, List.drop_left]
  rcases hSpace with rfl | ⟨c, cs, rfl, -⟩ <;> simp

/-- A qualifier that was read is written back as it stands. -/
theorem qualifierTokens_of_read {r : Record} {q : Token} {space : List Token}
    (hKind : r.kind.qualifierKind? = some q.kind) (hText : r.qualifier = some (textOf (q :: space)))
    (hq : q.Qualifies) (hLexical : Lexical q.raw) (hSpace : Spaced space) :
    qualifierTokens r = q :: space := by
  obtain ⟨hNe, hWords⟩ := hLexical.words_of_name hq.name
  exact qualifierTokens_of_word hKind hText hNe hWords hSpace

/-- A qualifier's word and the white space behind it are read back in front of a name. -/
structure Announces (q : Token) (space name : List Token) : Prop where
  qualifies : q.Qualifies
  lexical : Lexical q.raw
  spaced : Spaced space
  parted : (space ++ name).head?.any (·.kind == .separator) = false
  apart : space = [] → (textOf name).head?.any isWord = false

/-- A qualifier in front of a solid name. -/
theorem Announces.solid {q : Token} {space ts : List Token} (hq : Announces q space ts)
    (h : Solid ts) : Solid (q :: space ++ ts) := by
  have hName := hq.qualifies.name
  have hWhite : q.raw.kind ≠ .whitespace := by simp [hName]
  have hClose : q.kind ≠ .closeTag := by
    intro hKind
    rw [Token.raw_eq_self (by rw [hKind]; rfl), hKind] at hName
    simp at hName
  refine ⟨(hq.lexical.startsSolid hWhite).append _, fun y hy => ?_⟩
  have hStarts : StartsSolid (textOf ts ++ y) := h.starts.append y
  have hWord : ReadOn [q] (textOf (space ++ ts) ++ y) := by
    refine ⟨⟨⟨hq.lexical, ?_⟩, trivial⟩, by simp [nextMode, hClose]⟩
    have hStops (z : Text) : stops q.raw z = !z.head?.any isWord := by simp [stops, hName]
    rw [hStops, textOf_nil, List.nil_append, textOf_append]
    rcases hq.spaced with rfl | ⟨c, cs, rfl, hBlank⟩
    · obtain ⟨d, rest, hText, -⟩ := h.starts
      have hNot := hq.apart rfl
      rw [hText] at hNot ⊢
      simpa using hNot
    · simpa using not_word_of_isBlank (hBlank c (by simp))
  rw [List.cons_append, ← List.singleton_append]
  exact hWord.append ((hq.spaced.readOn hStarts).append (h.readOn y hy))

/-- Only the first token of the name matters. -/
theorem Announces.congr {q t : Token} {space rest : List Token} (h : Announces q space (t :: rest))
    (ht : t.content ≠ []) (rest' : List Token) : Announces q space (t :: rest') where
  qualifies := h.qualifies
  lexical := h.lexical
  spaced := h.spaced
  parted := by
    have hNext := h.parted
    cases space <;> exact hNext
  apart hNone := by
    have hHead := h.apart hNone
    rw [textOf_cons, List.head?_append_of_ne_nil _ ht] at hHead
    rwa [textOf_cons, List.head?_append_of_ne_nil _ ht]

theorem IsCore.content_ne_nil {ts : List Token} (h : IsCore ts) : ∀ t ∈ ts, t.content ≠ [] := by
  intro t ht
  have hInner := h.inner t ht
  rw [Token.isInner, Bool.and_eq_true] at hInner
  simpa using hInner.2

theorem qualifies_const : Token.Qualifies ⟨.constWord, "const".toList⟩ := by
  show Context.qualifierKind? _ [] = _
  decide

theorem qualifies_function : Token.Qualifies ⟨.functionWord, "function".toList⟩ := by
  show Context.qualifierKind? _ [] = _
  decide

/-- A qualifier that was read is written again. -/
theorem CellOk.exists_qualifier_start {c : Cell} (hc : CellOk c) (hRead : c.IsRead)
    (hKind : c.kind ≠ .classKind) {gap space : List Token} {word : Token}
    (hLead : c.lead = .start gap word space) (settings : Settings) (offset : Nat) :
    ∃ q space, qualifierTokens (c.record settings offset) = q :: space ∧
      Announces q space c.core := by
  have hOk := hc.lead
  rw [hLead] at hOk
  obtain ⟨q, space, hQualifier, hWord, hSpace⟩ : ∃ q space, c.qualifier = q :: space ∧
      c.kind.qualifierKind? = some q.kind ∧ AllSpace space := by
    have hAnnounces := hOk.2.2.2
    unfold IsQualifierOf at hAnnounces
    cases hWord : c.kind.qualifierKind? with
    | none => cases hc : c.kind <;> simp_all [ImportKind.qualifierKind?]
    | some word =>
      rw [hWord] at hAnnounces
      obtain ⟨q, space, hQualifier, hq, hSpace⟩ := hAnnounces
      exact ⟨q, space, hQualifier, by rw [hq], hSpace⟩
  obtain ⟨hQualifies, hNext⟩ := hRead.announced q space hQualifier
  obtain ⟨x, hScans, -⟩ := hRead.scans
  have hBody : ∀ t ∈ q :: space, t.isBody = true := by
    intro t ht
    rw [← hQualifier] at ht
    exact hc.slot_isBody t (by simp [ht])
  rw [hQualifier, List.cons_append, ← List.singleton_append, scans_append,
    modeAfter_of_isBody fun t ht => hBody t (by simp_all), scans_append] at hScans
  obtain ⟨hFirst, hAfter, -⟩ := hScans
  have hSpaced := spaced_of_scans hSpace hAfter
  have hText : (c.record settings offset).qualifier = some (textOf (q :: space)) := by
    simp [Cell.record, Cell.isStart, hLead, hKind, hQualifier]
  refine ⟨q, space, qualifierTokens_of_read hWord hText hQualifies hFirst.1.1 hSpaced,
    ⟨hQualifies, hFirst.1.1, hSpaced, hNext, ?_⟩⟩
  rintro rfl
  -- the word was read in front of the name
  have hName : (textOf c.core ++ x).head?.any isWord = false := by
    have hStops := hFirst.1.2
    simpa [stops, hQualifies.name] using hStops
  obtain ⟨t, rest, hCore, -⟩ := hc.core.first
  have hContent := hc.core.content_ne_nil t (by simp [hCore])
  rw [List.head?_append_of_ne_nil _ (by simp [hCore, hContent])] at hName
  exact hName

/-- A name behind a comma gets a new qualifier. -/
theorem Cell.exists_qualifier_comma {c : Cell} (hKind : c.kind ≠ .classKind) {space : List Token}
    (hLead : c.lead = .comma space) (settings : Settings) (offset : Nat) :
    ∃ q space, qualifierTokens (c.record settings offset) = q :: space ∧
      Announces q space c.core := by
  have hNone : (c.record settings offset).qualifier = none := by
    simp [Cell.record, Cell.isStart, hLead]
  have hDefault (kind : ImportKind) (word : TokenKind) (hc : c.kind = kind)
      (hWord : kind.qualifierKind? = some word)
      (hStrip : Text.stripEnd (kind.label.toList ++ [' ']) = kind.label.toList) :
      qualifierTokens (c.record settings offset) =
        ⟨word, kind.label.toList⟩ :: [⟨.whitespace, [' ']⟩] := by
    unfold qualifierTokens
    rw [hNone]
    simp [Cell.record, hc, hWord, hStrip]
  have hSpaced : Spaced [⟨.whitespace, [' ']⟩] := spaced_oneSpace
  cases hWord : c.kind with
  | classKind => exact absurd hWord hKind
  | constKind =>
    exact ⟨_, _, hDefault .constKind .constWord hWord rfl (by decide), qualifies_const,
      .word 'c' "onst".toList (by decide) (List.all_eq_true.mp (by decide)), hSpaced, rfl,
      by simp⟩
  | functionKind =>
    exact ⟨_, _, hDefault .functionKind .functionWord hWord rfl (by decide), qualifies_function,
      .word 'f' "unction".toList (by decide) (List.all_eq_true.mp (by decide)), hSpaced, rfl,
      by simp⟩

/-- The qualifier that is written for the record of a cell. -/
theorem CellOk.exists_qualifier {c : Cell} (hc : CellOk c) (hRead : c.IsRead)
    (hKind : c.kind ≠ .classKind) (settings : Settings) (offset : Nat) :
    ∃ q space, qualifierTokens (c.record settings offset) = q :: space ∧
      Announces q space c.core := by
  cases hLead : c.lead with
  | start gap word space => exact hc.exists_qualifier_start hRead hKind hLead settings offset
  | comma space => exact Cell.exists_qualifier_comma hKind hLead settings offset

/-! ## Movable records -/

/-- The record of a cell that was read, and whose name can be written elsewhere, is read as a
movable one. -/
theorem CellOk.exists_movable {settings : Settings} {c : Cell} (hc : CellOk c) (hRead : c.IsRead)
    (hWritable : c.Writable settings) (offset : Nat) :
    ∃ s : Record, s.Movable ∧ (c.record settings offset).ReadAs s := by
  obtain ⟨d, ⟨hSame, -⟩, hPlain⟩ := hRead.settled
  have hRecord := hSame.record hc settings offset
  have hRaw : (d.record settings offset).tokens.map Token.raw =
      (c.arranged settings).map Token.raw := hRecord.tokens.map_raw
  have hSolid := hc.solid_arranged hRead hWritable
  have hSettled := (hSame.resembles.ok hc).settled_arranged hPlain settings
  refine ⟨d.record settings offset, ?_, hRecord⟩
  -- a class is written without qualifier, so its name must not begin like one
  by_cases hKind : c.kind = .classKind
  · have hNone : qualifierTokens (d.record settings offset) = [] := by
      simp [qualifierTokens, Cell.record, hSame.kind, hKind, ImportKind.qualifierKind?]
    refine ⟨hSolid.raw_congr hRaw, ?_, hSettled, .inl ⟨hNone, ?_⟩⟩
    · rw [hNone]
      exact hSolid.raw_congr hRaw
    · rw [firstQualifies_congr hRaw, hc.firstQualifies_arranged settings]
      exact hWritable.named hKind
  · obtain ⟨q, space, hTokens, hq⟩ := hc.exists_qualifier hRead hKind settings offset
    have hArranged : Announces q space (c.arranged settings) := by
      obtain ⟨t, rest, rest', hCore, hNew⟩ := hc.arranged_first settings
      rw [hCore] at hq
      rw [hNew]
      exact hq.congr (hc.core.content_ne_nil t (by simp [hCore])) rest'
    rw [← hRecord.qualifierTokens_eq] at hTokens
    refine ⟨hSolid.raw_congr hRaw, ?_, hSettled, .inr ⟨q, space, hTokens, hq.qualifies, ?_, ?_⟩⟩
    · rw [hTokens]
      exact (hArranged.solid hSolid).raw_congr (by simpa using hRaw)
    · rcases hq.spaced with rfl | ⟨c, cs, rfl, -⟩
      · exact AllSpace.nil
      · exact AllSpace.singleton _
    · -- a separator is told from the raw tokens, which the relabelled name shares
      have hSeparator (ts : List Token) : ts.head?.any (·.kind == .separator) =
          (ts.map Token.raw).head?.any (·.kind == .separator) := by
        simpa using (@head_separator_raw ts [] rfl).symm
      rw [hSeparator, List.map_append, hRaw, ← List.map_append, ← hSeparator]
      exact hArranged.parted

end UseOrder
