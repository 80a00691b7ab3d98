import UseOrder.Proofs.Labels

/-!
# Relabelling twice

The pass over the tokens changes no content, and few kinds (`Relabels`). A second pass sees other
kinds everywhere, in the token that it decides on and in those ahead, and still decides in the same
way at each of them: what a step asks of a token ahead is whether it is a separator and whether it
counts, which relabelling leaves alone, and a token that has been given its kind is given the same
one again (`step_relabelled`). So both passes go through the same contexts, and the second changes
nothing. This holds of every list of tokens, not only of one that a text is split into.
-/

namespace UseOrder

/-- A token, and what relabelling may make of it. -/
structure Relabelled (t t' : Token) : Prop where
  content : t'.content = t.content
  kind : Relabels t t'.kind

theorem relabelled_classifyFrom (c : Context) (ts : List Token) :
    List.Forall₂ Relabelled ts (classifyFrom c ts) := by
  induction ts generalizing c with
  | nil => exact .nil
  | cons t ts ih =>
    rw [classifyFrom_cons]
    exact .cons ⟨rfl, Relabels.step c t ts⟩ (ih _)

/-! ## Looking ahead -/

namespace Relabelled

theorem kind_beq {t t' : Token} (h : Relabelled t t') (kind : TokenKind)
    (hFixed : kind.isFixed = true) : (t'.kind == kind) = (t.kind == kind) := by
  rw [Bool.eq_iff_iff, beq_iff_eq, beq_iff_eq]
  exact h.kind.eq_fixed hFixed

theorem isMeaningful {t t' : Token} (h : Relabelled t t') : t'.isMeaningful = t.isMeaningful := by
  simp only [Token.isMeaningful, Token.isWhitespace, Token.isComment,
    h.kind_beq .whitespace rfl, h.kind_beq .comment rfl,
    h.kind_beq .docComment rfl]

end Relabelled

theorem head_separator_relabelled {ts ts' : List Token} (h : List.Forall₂ Relabelled ts ts') :
    ts'.head?.any (·.kind == .separator) = ts.head?.any (·.kind == .separator) := by
  cases h with
  | nil => rfl
  | cons hFirst _ => simpa using hFirst.kind_beq .separator rfl

theorem isRelativeName_relabelled {ts ts' : List Token} (h : List.Forall₂ Relabelled ts ts') :
    Context.isRelativeName ts' = Context.isRelativeName ts := by
  unfold Context.isRelativeName
  induction h with
  | nil => rfl
  | @cons t t' ts ts' hFirst _ ih =>
    rw [List.find?_cons, List.find?_cons, hFirst.isMeaningful]
    cases t.isMeaningful with
    | true => simpa using hFirst.kind_beq .separator rfl
    | false => exact ih

/-! ## One step -/

section Step

variable (c : Context) (t : Token) {rest rest' : List Token}

/-- Inside an import a token keeps its kind, or is given one that is neither a name's nor that of
punctuation. -/
theorem importKind_cases (first : Bool) (rest : List Token) :
    Context.importKind first t rest = t.kind ∨
      Context.importKind first t rest ∈
        [TokenKind.groupOpen, .groupClose, .constWord, .functionWord] := by
  unfold Context.importKind
  split
  · exact .inr (by simp)
  · split
    · exact .inr (by simp)
    · split
      · cases hFound : Context.qualifierKind? t rest with
        | none => exact .inl rfl
        | some kind =>
          obtain ⟨-, rfl | rfl, -⟩ := qualifierKind?_of_some hFound <;> exact .inr (by simp)
      · exact .inl rfl

theorem importKind_relabelled (first : Bool) (h : List.Forall₂ Relabelled rest rest') :
    Context.importKind first ⟨Context.importKind first t rest, t.content⟩ rest' =
      Context.importKind first t rest := by
  rcases importKind_cases t first rest with hSame | hGiven
  · have hAhead : Context.importKind first t rest' = Context.importKind first t rest := by
      rw [Context.importKind, Context.importKind, Context.qualifierKind?, Context.qualifierKind?,
        head_separator_relabelled h]
    rw [hSame] at hAhead ⊢
    exact hAhead
  · generalize Context.importKind first t rest = kind at hGiven
    have hKind : kind ≠ .punct ∧ kind ≠ .name := by
      constructor <;> (rintro rfl; simp at hGiven)
    simp [Context.importKind, Context.qualifierKind?, Token.isPunct, hKind]

/-- Outside imports only the words `use` and `namespace` change their kind. -/
theorem codeKind_cases (rest : List Token) :
    (c.codeKind t rest).1 = t.kind ∨ (c.codeKind t rest).2 = .code ∧
      (t.kind = .useWord ∨ t.kind = .namespaceWord) ∧
      (c.codeKind t rest).1 ∈ [TokenKind.name, .closureUse, .traitUse] := by
  unfold Context.codeKind
  split
  · next hUse =>
    rw [beq_iff_eq] at hUse
    repeat' split
    all_goals simp [hUse]
  · split
    · next hNamespace =>
      rw [beq_iff_eq] at hNamespace
      split <;> simp [hNamespace]
    · exact .inl rfl

theorem codeKind_relabelled (h : List.Forall₂ Relabelled rest rest') :
    c.codeKind ⟨(c.codeKind t rest).1, t.content⟩ rest' = c.codeKind t rest := by
  rcases codeKind_cases c t rest with hSame | ⟨hPlace, -, hGiven⟩
  · have hAhead : c.codeKind t rest' = c.codeKind t rest := by
      rw [Context.codeKind, Context.codeKind, isRelativeName_relabelled h]
    rw [hSame]
    exact hAhead
  · generalize c.codeKind t rest = given at hPlace hGiven ⊢
    obtain ⟨kind, place⟩ := given
    obtain rfl : place = .code := hPlace
    refine codeKind_plain c ?_ ?_ rest' <;> (rintro rfl; simp at hGiven)

/-- Brackets and semicolons count in both passes or in neither. -/
theorem track_relabelled (rest : List Token) :
    c.track ⟨(c.codeKind t rest).1, t.content⟩ (c.codeKind t rest).1 =
      c.track t (c.codeKind t rest).1 := by
  rcases codeKind_cases c t rest with hSame | ⟨-, hWord, hGiven⟩
  · rw [hSame]
  · have hKind : (c.codeKind t rest).1 ≠ .punct := by
      intro hPunct
      simp [hPunct] at hGiven
    have hPlain : t.kind ≠ .punct := by rcases hWord with hWord | hWord <;> simp [hWord]
    simp [Context.track, Context.isOpeningBrace, Token.isPunct, hKind, hPlain]

/-- A step that comes upon a token with the kind that it would give decides as before, and leaves
the same context behind. -/
theorem step_relabelled (h : List.Forall₂ Relabelled rest rest') :
    c.step ⟨(c.step t rest).1, t.content⟩ rest' = c.step t rest := by
  have hStep := Relabels.step c t rest
  by_cases hImport : c.place ≠ .code ∧ t.isTerminator = false
  · obtain ⟨hPlace, hStop⟩ := hImport
    have hStop' := hStep.isTerminator.trans hStop
    have hMeaning := hStep.isMeaningful
    rw [(step_of_import hPlace hStop rest).1] at hStop' hMeaning ⊢
    rw [step_import hPlace hStop', step_import hPlace hStop, importKind_relabelled t _ h, hMeaning]
  · have hCode : c.place = .code ∨ t.isTerminator = true := by
      by_cases hPlace : c.place = .code
      · exact .inl hPlace
      · exact .inr (by simpa [hPlace] using hImport)
    have hCode' := hCode.imp_right hStep.isTerminator.trans
    rw [(step_of_code hCode rest).1] at hCode' ⊢
    rw [step_code hCode', step_code hCode, codeKind_relabelled c t h, track_relabelled]

end Step

/-! ## The whole pass -/

/-- From any context, relabelling what has been relabelled from there changes nothing. -/
theorem classifyFrom_idempotent (c : Context) (ts : List Token) :
    classifyFrom c (classifyFrom c ts) = classifyFrom c ts := by
  induction ts generalizing c with
  | nil => rfl
  | cons t ts ih =>
    have hStep := step_relabelled c t (relabelled_classifyFrom (c.step t ts).2 ts)
    rw [classifyFrom_cons, classifyFrom_cons, hStep, ih]

/-- Relabelling goes through the tokens one by one, keeps every content, changes kinds only as
`Relabels` says, and has nothing left to do a second time. -/
theorem classify_relabels_once (raw : List Token) :
    List.Forall₂ Relabelled raw (classify raw) ∧ classify (classify raw) = classify raw :=
  ⟨relabelled_classifyFrom {} raw, classifyFrom_idempotent {} raw⟩

end UseOrder
