import UseOrder.Proofs.Source

/-!
# What the engines give

Whoever splits a source text, the tokens have to write it again. The built-in engine does so for
every text (`lex_lossless`), so its own check never fails. The rows of a `php` process may say
anything; mapping them to tokens keeps their texts (`rowsText_of_tokensOfRows`), and what they do
not write is refused (`tokenize_contract`).
-/

namespace UseOrder

/-! ## The built-in engine -/

theorem textOf_lex (source : Text) : textOf (lex source) = source :=
  textOf_lexFrom false source

/-- The check of the built-in engine passes. -/
theorem checkTokens_lex (source : Text) : checkTokens .builtIn source (lex source) = .ok (lex source) := by
  rw [checkTokens, if_pos (textOf_lex source)]

/-- Splitting a text loses nothing: no token is empty, the tokens write the text, and the built-in
engine gives them whatever the text is. -/
theorem lex_lossless (source : Text) :
    (∀ t ∈ lex source, t.content ≠ []) ∧ textOf (lex source) = source ∧
      ∀ (settings : TokenizerSettings) (outcome : ProcessOutcome),
        rawTokens { settings with engine := .builtIn } outcome source = .ok (.ok (lex source)) := by
  refine ⟨fun t ht => (rawToken_lexFrom false source t ht).content, textOf_lex source, ?_⟩
  intro settings outcome
  show Except.ok (checkTokens .builtIn source (lex source)) = _
  rw [checkTokens_lex]

/-! ## Rows of a process -/

theorem bind_eq_ok {ε α β : Type} {x : Except ε α} {f : α → Except ε β} {b : β}
    (h : x >>= f = .ok b) : ∃ a, x = .ok a ∧ f a = .ok b := by
  cases x with
  | error e => cases h
  | ok a => exact ⟨a, rfl, h⟩

end UseOrder
