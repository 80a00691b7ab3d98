import UseOrder.Proofs.Covering
import UseOrder.Token.Source

/-!
# The kind of a statement

The word behind a `use` that makes it an import of constants or of functions is looked for twice:
when tokens are told apart, behind white space and comments, and when the statement is read, behind
white space only. Here both are put side by side. The records of a statement are of the kind that
the first meaningful token announces, unless a comment stands in front of that token: then they are
classes (`readKind`). So the two disagree on the statements whose qualifier stands behind a comment,
and on no others.
-/

namespace UseOrder

/-! ## What stands behind a `use` -/

/-- The kind that the first meaningful token announces. -/
def announcedKind (after : List Token) : ImportKind :=
  match (after.find? Token.isMeaningful).map Token.kind with
  | some .constWord => .constKind
  | some .functionWord => .functionKind
  | _ => .classKind

/-- A comment stands in front of the first meaningful token. -/
def remarked (after : List Token) : Bool :=
  (after.takeWhile (!·.isMeaningful)).any Token.isComment

/-- The kind that is read: comments in front of a qualifier hide it. -/
def readKind (after : List Token) : ImportKind :=
  if remarked after then .classKind else announcedKind after

theorem readKind_eq_announced_iff (after : List Token) :
    readKind after = announcedKind after ↔
      announcedKind after = .classKind ∨ remarked after = false := by
  unfold readKind
  split
  · next hRemarked => simp [hRemarked, eq_comm]
  · next hPlain => simp [hPlain]

section Behind

variable {lead : List Token} {first : Token}

theorem announcedKind_append (hLead : ∀ t ∈ lead, t.isMeaningful = false)
    (hFirst : first.isMeaningful = true) (more : List Token) :
    announcedKind (lead ++ first :: more) = ImportKind.ofFirst first := by
  have hFind : (lead ++ first :: more).find? Token.isMeaningful = some first := by
    rw [List.find?_append, List.find?_eq_none.mpr fun t ht => by simp [hLead t ht]]
    simp [hFirst]
  rw [announcedKind, hFind, Option.map_some, ImportKind.ofFirst]
  cases first.kind <;> rfl

theorem remarked_append (hLead : AllSpace lead) (hFirst : first.isWhitespace = false)
    (more : List Token) : remarked (lead ++ first :: more) = first.isComment := by
  have hQuiet : ∀ t ∈ lead, (!t.isMeaningful) = true := fun t ht => by
    simp [Token.isMeaningful, hLead t ht]
  have hNone : lead.any Token.isComment = false :=
    List.any_eq_false.mpr fun t ht => by simp [hLead.not_comment t ht]
  rw [remarked, List.takeWhile_append_of_pos hQuiet, List.any_append, hNone, Bool.false_or]
  cases hComment : first.isComment with
  | true => simp [Token.isMeaningful, hComment]
  | false => simp [Token.isMeaningful, hComment, hFirst]

/-- The first token that is no white space tells the kind that is read. -/
theorem readKind_append (hLead : AllSpace lead) (hFirst : first.isWhitespace = false)
    (more : List Token) : readKind (lead ++ first :: more) = ImportKind.ofFirst first := by
  rw [readKind, remarked_append hLead hFirst]
  split
  · next hComment =>
    -- a comment is no qualifier
    rw [Token.isComment] at hComment
    cases hKind : first.kind <;> simp_all [ImportKind.ofFirst]
  · next hPlain =>
    exact announcedKind_append hLead.not_meaningful
      (by simpa [Token.isMeaningful, hFirst] using hPlain) more

end Behind

/-! ## Records -/

theorem groupRecord_kind {settings : Settings} {head : StatementHead} {pos : Int}
    {names : List Token} {r : Record} (h : groupRecord settings head pos names = .ok r) :
    r.kind = head.kind := by
  simp only [groupRecord, pure, Except.pure] at h
  split at h
  · obtain rfl := Except.ok.inj h
    rfl
  · cases h

theorem namePartsFrom_ne_nil (pos : Int) (part : NamePart) (tokens : List Token) :
    namePartsFrom pos (some part) tokens ≠ [] := by
  induction tokens generalizing pos part with
  | nil => simp [namePartsFrom]
  | cons t tokens ih =>
    rw [namePartsFrom]
    split
    · simp
    · exact ih _ _

/-- A list makes records, and all of them are of the kind of the statement. -/
theorem nameRecords_kind (head : StatementHead) (pos : Int) (names : List Token) :
    nameRecords head pos names ≠ [] ∧ ∀ r ∈ nameRecords head pos names, r.kind = head.kind := by
  unfold nameRecords
  split
  · next hNone => exact absurd hNone (namePartsFrom_ne_nil _ _ _)
  · refine ⟨by simp, fun r hr => ?_⟩
    rcases List.mem_cons.mp hr with rfl | hr
    · rfl
    · obtain ⟨part, -, rfl⟩ := List.mem_map.mp hr
      rfl

/-- A statement makes no records if there is nothing in it; otherwise all its records are of the
kind that the first token tells which is no white space. -/
theorem parseStatement_first {settings : Settings} {before body after : List Token} {word : Token}
    {records : List Record} (hBody : ∀ t ∈ body, t.isTerminator = false)
    (hAfter : after.head?.any Token.isTerminator = true)
    (h : parseStatement settings (before ++ word :: (body ++ after)) before.length = .ok records) :
    (AllSpace body ∧ records = []) ∨
      ∃ lead first rest, body = lead ++ first :: rest ∧ AllSpace lead ∧
        first.isWhitespace = false ∧ records ≠ [] ∧
        ∀ r ∈ records, r.kind = ImportKind.ofFirst first := by
  rcases parseStatement_cases hBody hAfter h with
    hNone | ⟨lead, qualifier, names, head, rfl, hLead, -, -, ⟨first, rest, hTokens, hFirst, hHead⟩,
      hRecords⟩
  · exact .inl hNone
  · refine .inr ⟨lead, first, rest, by rw [hTokens], hLead, hFirst, ?_⟩
    rw [← hHead.kind]
    rcases hRecords with ⟨r, hRecord, rfl⟩ | rfl
    · simpa using groupRecord_kind hRecord
    · exact nameRecords_kind head _ names

/-- All records of a statement are of one kind: the one that the first meaningful token behind the
`use` announces, or that of classes if a comment stands in front of that token. So they are of the
announced kind unless a comment stands in front of a qualifier. -/
theorem parseStatement_kinds {settings : Settings} {ts : List Token} {u e : Nat}
    {records : List Record} (hStatement : StatementAt ts u e) (hLess : u < e)
    (h : parseStatement settings ts u = .ok records) :
    (∀ r ∈ records, r.kind =
        if remarked (ts.drop (u + 1)) then .classKind else announcedKind (ts.drop (u + 1))) ∧
      ((∀ r ∈ records, r.kind = announcedKind (ts.drop (u + 1))) ↔
        announcedKind (ts.drop (u + 1)) = .classKind ∨ remarked (ts.drop (u + 1)) = false) := by
  obtain ⟨before, word, body, stop, after, rfl, rfl, rfl, hBody, hStop⟩ := hStatement.split hLess
  have hBehind : (before ++ word :: (body ++ stop :: after)).drop (before.length + 1) =
      body ++ stop :: after := by
    simp
  rw [hBehind]
  rcases parseStatement_first hBody (by simpa using hStop) h with
    ⟨hSpace, rfl⟩ | ⟨lead, first, rest, rfl, hLead, hFirst, hSome, hKinds⟩
  · -- the terminator is the first meaningful token, and it is no qualifier
    have hClass : announcedKind (body ++ stop :: after) = .classKind := by
      rw [announcedKind_append hSpace.not_meaningful (Token.isMeaningful_of_isTerminator hStop)]
      rcases stop.kind_of_isTerminator hStop with hClose | rfl
      · simp [ImportKind.ofFirst, hClose]
      · rfl
    simp [hClass]
  · have hRead := readKind_append hLead hFirst (rest ++ stop :: after)
    rw [← List.cons_append, ← List.append_assoc] at hRead
    rw [← hRead] at hKinds
    refine ⟨hKinds, ?_⟩
    -- there is a record, so the kinds agree only if the two readings do
    rw [← readKind_eq_announced_iff]
    obtain ⟨r, more, rfl⟩ := List.exists_cons_of_ne_nil hSome
    constructor
    · intro hAnnounced
      rw [← hKinds r List.mem_cons_self, hAnnounced r List.mem_cons_self]
    · intro hSame b hb
      rw [hKinds b hb, hSame]

/-- Two functions, with a comment behind the qualifier. -/
theorem parseStatement_kinds_of_functions :
    let ts := classify (lex "<?php use function /* f */ f, g;".toList)
    let a : Record := ⟨"/* f */ f".toList, .functionKind, false, 3, 7, (ts.drop 5).take 3,
      some "function ".toList, none⟩
    let b : Record := ⟨"g".toList, .functionKind, false, 10, 10, (ts.drop 10).take 1, none, none⟩
    StatementAt ts 1 11 ∧ parseStatement {} ts 1 = .ok [a, b] ∧
      a.kind = announcedKind (ts.drop 2) ∧ b.kind = announcedKind (ts.drop 2) := by
  intro ts a b
  have hStatement : StatementAt ts 1 11 :=
    @statementAt_of_findIdx? ts 1 9 (by decide +kernel) (by decide +kernel)
  have hRecords : parseStatement {} ts 1 = .ok [a, b] := by decide +kernel
  obtain ⟨-, hAgree⟩ := parseStatement_kinds hStatement (by decide) hRecords
  have hKinds := hAgree.mpr (.inr (by decide +kernel))
  exact ⟨hStatement, hRecords, hKinds a (by simp), hKinds b (by simp)⟩

/-- A constant behind a comment is announced, but read as a class. -/
theorem comment_hides_qualifier :
    let ts := classify (lex "<?php\nuse /* c */ const FOO;\n".toList)
    StatementAt ts 1 8 ∧ announcedKind (ts.drop 2) = .constKind ∧
      ∃ r, parseStatement {} ts 1 = .ok [r] ∧ r.kind = .classKind := by
  intro ts
  have hStatement : StatementAt ts 1 8 :=
    @statementAt_of_findIdx? ts 1 6 (by decide +kernel) (by decide +kernel)
  refine ⟨hStatement, by decide +kernel, ?_⟩
  exact ⟨⟨"/* c */ const FOO".toList, .classKind, false, 3, 7, (ts.drop 3).take 5, none, none⟩,
    by decide +kernel, rfl⟩

end UseOrder
