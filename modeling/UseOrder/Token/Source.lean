import UseOrder.Json.Reader
import UseOrder.Token.Context
import UseOrder.Token.Lexer
import UseOrder.Token.Rows

/-!
# Tokens of a source text

Source text is split either by the program itself or by a `php` process that lists its tokens as
JSON. What the process did is given from outside. Whoever splits the text, its tokens have to write
the text again, and their kinds from context are decided afterwards in the same way. On failure
there are no tokens, and one issue that says why.
-/

namespace UseOrder

/-- Who splits the source text. -/
inductive Engine
  | builtIn
  | phpProcess
deriving DecidableEq, Repr

namespace Engine

/-- Every engine, in the order of declaration. -/
def all : List Engine :=
  [builtIn, phpProcess]

/-- The word for an engine. -/
def label : Engine → String
  | builtIn => "regex"
  | phpProcess => "php_cli"

/-- The engine with a word. -/
def ofLabel? (text : String) : Option Engine :=
  all.find? (·.label == text)

end Engine

/-- A duration, as it was given: a whole or a fractional number of seconds. -/
inductive Seconds
  | whole (n : Int)
  | fractional (x : Float)

namespace Seconds

/-- More than nothing. What is no number counts as such. -/
def isPositive : Seconds → Bool
  | whole n => 0 < n
  | fractional x => !(x ≤ 0.0)

/-- The wording of the refusal of a limit that is not positive. -/
def refusal : String :=
  "timeout_s must be > 0"

/-- The duration as a value. -/
def toValue : Seconds → Value
  | whole n => .int n
  | fractional x => .float x

/-- The duration that a number stands for; a truth value counts as zero or one. -/
def ofValue? : Value → Option Seconds
  | .int n => some (whole n)
  | .bool b => some (whole (if b then 1 else 0))
  | .float x => some (fractional x)
  | _ => none

end Seconds

/-- How source text is split. -/
structure TokenizerSettings where
  engine : Engine := .builtIn
  phpBinary : String := "php"
  timeout : Seconds := .fractional 30.0

/-- Why an engine or a time limit is refused. -/
inductive TokenizerRefusal
  /-- What is given as the engine is none, not even by its word. -/
  | notAnEngine
  | unsupported (given : Value)
  /-- What is given as the limit is no number. -/
  | notANumber
  | notPositive

/-- The wording of a refusal. A limit that is no number is refused without one. -/
def TokenizerRefusal.message? : TokenizerRefusal → Option String
  | notAnEngine => some "engine must be a TokenizerEngineName"
  | unsupported given => some ("Unsupported tokenizer engine: " ++ given.plain)
  | notANumber => none
  | notPositive => some Seconds.refusal

/-- The engine that a value names. -/
def Engine.ofValue (given : Value) : Except TokenizerRefusal Engine :=
  let engine? :=
    match given with
    | .str word => ofLabel? word
    | _ => none
  engine?.elim (.error (.unsupported given)) .ok

/-- The time limit that a value stands for. -/
def Seconds.limit (given : Value) : Except TokenizerRefusal Seconds :=
  match ofValue? given with
  | none => .error .notANumber
  | some seconds => if seconds.isPositive then .ok seconds else .error .notPositive

/-- The settings with an engine, if there is one, and a time limit. The engine is checked first. -/
def TokenizerSettings.ofParts (engine : Option Engine) (phpBinary : String) (timeout : Value) :
    Except TokenizerRefusal TokenizerSettings := do
  let some engine := engine | throw .notAnEngine
  return ⟨engine, phpBinary, ← Seconds.limit timeout⟩

/-- What a `php` process did. -/
inductive ProcessOutcome
  | notFound
  | timedOut
  | finished (exitCode : Int) (stderr stdout : String)

/-- Why there are no tokens. -/
inductive TokenizeIssue
  | notInstalled (command : String)
  | timedOut (limit : Seconds)
  | failed (exitCode : Int) (stderr : String)
  | badOutput (problem : String)
  | mismatch (engine : Engine) (length : Nat)

namespace TokenizeIssue

/-- The code of an issue. -/
def code : TokenizeIssue → String
  | notInstalled _ => "TOKENIZE_BACKEND_NOT_INSTALLED"
  | timedOut _ => "TOKENIZE_TIMEOUT"
  | failed _ _ => "TOKENIZE_BACKEND_ERROR"
  | badOutput _ => "TOKENIZE_BAD_OUTPUT"
  | mismatch _ _ => "TOKENIZE_ROUNDTRIP_MISMATCH"

/-- The wording of an issue. -/
def message : TokenizeIssue → String
  | notInstalled _ => "php binary not found on PATH"
  | timedOut _ => "Tokenizer backend timed out"
  | failed _ _ => "Tokenizer backend returned a non-zero exit code"
  | badOutput _ => "Tokenizer backend produced invalid JSON"
  | mismatch .builtIn _ => "Lexer output does not reproduce the source text"
  | mismatch .phpProcess _ => "Backend tokens do not reproduce the source text"

/-- The particulars of an issue. -/
def detail : TokenizeIssue → Value
  | notInstalled command => .object [("expected_command", .str command)]
  | timedOut limit => .object [("timeout_s", limit.toValue)]
  | failed exitCode stderr => .object [("returncode", .int exitCode), ("stderr", .str stderr)]
  | badOutput problem => .object [("error", .str problem)]
  | mismatch _ length => .object [("source_length", .nat length)]

/-- An issue as a value. -/
def toValue (i : TokenizeIssue) : Value :=
  .object [("code", .str i.code), ("message", .str i.message), ("detail", i.detail)]

end TokenizeIssue

/-- What can go wrong with the output of a process besides the issues. -/
inductive TokenizeFault
  | rows (fault : RowFault)
  | number (message : String)
deriving DecidableEq, Repr

/-- The end of a text, at most so many characters of it. -/
def lastChars (n : Nat) (s : String) : String :=
  let chars := s.toList
  String.ofList (chars.drop (chars.length - n))

/-- Tokens that write the source text, or an issue. -/
def checkTokens (engine : Engine) (source : Text) (tokens : List Token) :
    Except TokenizeIssue (List Token) :=
  if textOf tokens = source then .ok tokens else .error (.mismatch engine source.length)

/-- The raw tokens that a process gives. -/
def processTokens (settings : TokenizerSettings) (source : Text) (outcome : ProcessOutcome) :
    Except TokenizeFault (Except TokenizeIssue (List Token)) :=
  match outcome with
  | .notFound => .ok (.error (.notInstalled settings.phpBinary))
  | .timedOut => .ok (.error (.timedOut settings.timeout))
  | .finished exitCode stderr stdout =>
    if exitCode != 0 then .ok (.error (.failed exitCode (lastChars 4000 stderr)))
    else
      match Json.parse stdout.toList with
      | .error e =>
        -- a number that is too long is no fault of the JSON, and breaks off
        if e.hasPlace then .ok (.error (.badOutput e.message)) else .error (.number e.message)
      | .ok rows =>
        match tokensOfRows rows with
        | .error fault => .error (.rows fault)
        | .ok tokens => .ok (checkTokens .phpProcess source tokens)

/-- The raw tokens of a source text. -/
def rawTokens (settings : TokenizerSettings) (outcome : ProcessOutcome) (source : Text) :
    Except TokenizeFault (Except TokenizeIssue (List Token)) :=
  match settings.engine with
  | .builtIn => .ok (checkTokens .builtIn source (lex source))
  | .phpProcess => processTokens settings source outcome

/-- The outcome of splitting a source text. -/
structure Tokenized where
  settings : TokenizerSettings
  tokens : Except TokenizeIssue (List Token)

/-- Split a source text and give the tokens their kinds from context. -/
def tokenize (settings : TokenizerSettings) (outcome : ProcessOutcome) (source : Text) :
    Except TokenizeFault Tokenized := do
  let raw ← rawTokens settings outcome source
  return ⟨settings, raw.map classify⟩

namespace Tokenized

/-- What is reported about the splitting itself. -/
def facts (t : Tokenized) : List (String × Value) :=
  let command : List (String × Value) :=
    match t.settings.engine with
    | .builtIn => []
    | .phpProcess =>
      [("command_template", .list [.str t.settings.phpBinary, .str "-r", .str "<DUMP_SCRIPT>"])]
  let count : List (String × Value) :=
    match t.tokens with
    | .ok tokens => [("token_count", .nat tokens.length)]
    | .error _ => []
  [("backend", .str t.settings.engine.label)] ++ command ++ count

/-- The issues: none, or the one that left no tokens. -/
def issues (t : Tokenized) : List TokenizeIssue :=
  match t.tokens with
  | .ok _ => []
  | .error issue => [issue]

end Tokenized

end UseOrder
