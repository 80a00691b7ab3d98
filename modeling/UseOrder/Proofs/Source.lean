import UseOrder.Fix
import UseOrder.Proofs.Shape
import UseOrder.Proofs.Space

/-!
# From source text to tokens and back

Splitting a text loses nothing (`textOf_tokens`), so the built-in engine always gives tokens
(`tokenize_builtIn`), and a text either has no imports and is left alone, or is what its reworked
tokens write (`fixSource_builtIn`).
-/

namespace UseOrder

theorem textOf_lexFrom (inCode : Bool) (text : Text) : textOf (lexFrom inCode text) = text := by
  induction inCode, text using lexFrom_induction with
  | nil inCode => simp
  | code c rest kind n h ih =>
    rw [lexFrom_code h, textOf_cons, ih, List.cons_append, List.take_append_drop]
  | openTag c rest n h ih =>
    rw [lexFrom_openTag h, textOf_cons, ih, List.cons_append, List.take_append_drop]
  | html c rest h ih =>
    rw [lexFrom_html h, textOf_cons, ih, List.cons_append, List.take_append_drop]

theorem textOf_classifyFrom (c : Context) (ts : List Token) :
    textOf (classifyFrom c ts) = textOf ts := by
  induction ts generalizing c with
  | nil => rfl
  | cons t ts ih => rw [classifyFrom_cons, textOf_cons, textOf_cons, ih]

/-- The tokens of a source text write the text. -/
theorem textOf_tokens (source : Text) : textOf (classify (lex source)) = source := by
  rw [classify, textOf_classifyFrom, lex, textOf_lexFrom]

/-- The built-in engine gives tokens for every text. -/
theorem tokenize_builtIn {tokenizer : TokenizerSettings} (hEngine : tokenizer.engine = .builtIn)
    (outcome : ProcessOutcome) (source : Text) :
    tokenize tokenizer outcome source = .ok ⟨tokenizer, .ok (classify (lex source))⟩ := by
  have hText : textOf (lex source) = source := textOf_lexFrom false source
  simp only [tokenize, rawTokens, hEngine, checkTokens, hText, if_true]
  rfl

/-- With the built-in engine, a text without imports is left alone, and otherwise its tokens are
reworked. -/
theorem fixSource_builtIn {tokenizer : TokenizerSettings} (hEngine : tokenizer.engine = .builtIn)
    (settings : Settings) (outcome : ProcessOutcome) (path : Option String) (source : Text) :
    fixSource settings tokenizer outcome path source =
      if hasKind .useWord (classify (lex source)) then
        match fixTokens settings (classify (lex source)) with
        | .error (.unterminated position) =>
          .ok ⟨settings, ⟨tokenizer, .ok (classify (lex source))⟩, .unterminated position, source,
            false, path⟩
        | .error fault => .error (.tokens fault)
        | .ok (counts, fixed) =>
          .ok ⟨settings, ⟨tokenizer, .ok (classify (lex source))⟩, .done counts, textOf fixed,
            decide (textOf fixed ≠ source), path⟩
      else
        .ok ⟨settings, ⟨tokenizer, .ok (classify (lex source))⟩, .noImports, source, false, path⟩ := by
  simp only [fixSource, tokenize_builtIn hEngine]
  cases hasKind .useWord (classify (lex source)) <;> rfl

end UseOrder
