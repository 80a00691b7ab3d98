import UseOrder.Text.Numeral
import UseOrder.Value.Shown

/-!
# Arguments

How a list of arguments is read. An option is a word that starts with a dash: it may be shortened
as long as it is clear which option is meant, and its value follows it as the next word or after an
equals sign. Negative numbers, and words with a blank that are no option, are plain words. Two
dashes alone end the options. The first unbroken row of plain words is the list of positional
arguments; plain words after it are not recognized.
-/

namespace UseOrder

/-- Whether an option has a value. -/
inductive Arity
  | flag
  | value
deriving DecidableEq, Repr

/-- An option: what it is for the program, its names, and whether it has a value. -/
structure OptionSpec (κ : Type) where
  key : κ
  names : List String
  arity : Arity
deriving DecidableEq, Repr

/-- The name of an option in messages. -/
def OptionSpec.label {κ : Type} (o : OptionSpec κ) : String :=
  String.intercalate "/" o.names

/-- What positional arguments there are. -/
inductive Positional
  /-- Any number. -/
  | many
  /-- Exactly one, with a name for messages. -/
  | one (name : String)
deriving DecidableEq, Repr

/-- What arguments there are. -/
structure Grammar (κ : Type) where
  options : List (OptionSpec κ)
  positional : Positional

/-- What is wrong with the arguments. Options are given by their labels. -/
inductive ArgumentError
  | ambiguous (given : String) (candidates : List String)
  | expectedValue (option : String)
  | ignoredValue (option value : String)
  | notAChoice (option value : String) (choices : List String)
  | notANumber (option numbers value : String)
  | refused (option message : String)
  | required (name : String)
  | unrecognized (words : List String)
deriving DecidableEq, Repr

/-- The wording of an error. -/
def ArgumentError.message : ArgumentError → String
  | ambiguous given candidates =>
    "ambiguous option: " ++ given ++ " could match " ++ String.intercalate ", " candidates
  | expectedValue option => "argument " ++ option ++ ": expected one argument"
  | ignoredValue option value =>
    "argument " ++ option ++ ": ignored explicit argument " ++ Value.shownText value
  | notAChoice option value choices =>
    "argument " ++ option ++ ": invalid choice: " ++ Value.shownText value ++ " (choose from " ++
      String.intercalate ", " (choices.map Value.shownText) ++ ")"
  | notANumber option numbers value =>
    "argument " ++ option ++ ": invalid " ++ numbers ++ " value: " ++ Value.shownText value
  | refused option text => "argument " ++ option ++ ": " ++ text
  | required name => "the following arguments are required: " ++ name
  | unrecognized words => "unrecognized arguments: " ++ String.intercalate " " words

/-! ## Words -/

/-- A word, by what it is. -/
inductive Word (κ : Type)
  /-- Two dashes alone. -/
  | separator
  | plain (text : String)
  /-- An option, with the value given in the same word. -/
  | option (spec : OptionSpec κ) (value : Option String)
  /-- A word in the form of an option that is none. -/
  | unknown (text : String)
deriving DecidableEq, Repr

/-- Digits, perhaps with a line break behind them. -/
def endsInDigits (text : Text) : Bool :=
  let digits := if text.getLast? == some '\n' then text.dropLast else text
  !digits.isEmpty && digits.all isDigit

/-- A negative number, whole or with a point. -/
def isNegativeNumber (text : Text) : Bool :=
  match text with
  | '-' :: rest =>
    endsInDigits rest ||
      match rest.dropWhile isDigit with
      | '.' :: fraction => endsInDigits fraction
      | _ => false
  | _ => false

/-- The part before the first equals sign, and the part after it if there is one. -/
def splitAssignment (text : Text) : String × Option String :=
  let name := String.ofList (text.takeWhile (· != '='))
  match text.dropWhile (· != '=') with
  | [] => (name, none)
  | _ :: value => (name, some (String.ofList value))

namespace Grammar

variable {κ : Type}

/-- Every name of an option, with the option. -/
def namedOptions (g : Grammar κ) : List (String × OptionSpec κ) :=
  g.options.flatMap fun o => o.names.map fun name => (name, o)

/-- The option with exactly this name. -/
def named? (g : Grammar κ) (name : String) : Option (OptionSpec κ) :=
  g.namedOptions.lookup name

/-- The words end in a flag with a value, which flags do not have. -/
def endsRefused (words : List (Word κ)) : Bool :=
  match words.getLast? with
  | some (.option o (some _)) => o.arity = .flag
  | _ => false

/-- A short option with more characters directly behind it: they are its value, or, behind a flag,
further short options. If these end in a refusal, the flags before count for nothing. -/
def cluster (g : Grammar κ) (o : OptionSpec κ) : Text → List (Word κ)
  | [] => [.option o none]
  | '=' :: value => [.option o (some (String.ofList value))]
  | c :: rest =>
    let tail := String.ofList (c :: rest)
    -- a dash is no short option, so behind a flag it starts a value, which the flag refuses
    if o.arity = .value || c == '-' then [.option o (some tail)]
    else match g.named? (String.ofList ['-', c]) with
      | none => [.option o none, .unknown ("-" ++ tail)]
      | some next =>
        let later := g.cluster next rest
        if endsRefused later then later else .option o none :: later

/-- The readings of a word that is no option's full name, by the name of the option. -/
def readings (g : Grammar κ) (text : Text) : List (String × List (Word κ)) :=
  if (text.drop 1).head? == some '-' then
    let (start, value) := splitAssignment text
    (g.namedOptions.filter fun (name, _) => start.toList.isPrefixOf name.toList).map
      fun (name, o) => (name, [.option o value])
  else
    g.namedOptions.filterMap fun (name, o) =>
      if name.toList == text.take 2 then some (name, g.cluster o (text.drop 2))
      else if text.isPrefixOf name.toList then some (name, [.option o none])
      else none

/-- What a word is, before two dashes have ended the options. -/
def classifyWord (g : Grammar κ) (s : String) : Except ArgumentError (List (Word κ)) :=
  let text := s.toList
  if text.head? != some '-' then .ok [.plain s]
  else match g.named? s with
    | some o => .ok [.option o none]
    | none =>
      if text.length == 1 then .ok [.plain s]
      else
        -- a full name in front of an equals sign comes before every shortened one
        let (name, value) := splitAssignment text
        match value, g.named? name with
        | some v, some o => .ok [.option o (some v)]
        | _, _ =>
          match g.readings text with
          | [(_, words)] => .ok words
          | [] =>
            if isNegativeNumber text || text.contains ' ' then .ok [.plain s]
            else .ok [.unknown s]
          | several => .error (.ambiguous s (several.map (·.1)))

/-- What each word is. -/
def classifyWords (g : Grammar κ) : List String → Except ArgumentError (List (Word κ))
  | [] => .ok []
  | s :: rest =>
    if s == "--" then .ok (.separator :: rest.map .plain)
    else do
      let first ← g.classifyWord s
      let later ← g.classifyWords rest
      return first ++ later

end Grammar

/-! ## What is given -/

section Given

variable {κ : Type}

/-- Something that the arguments give. The value of a flag is empty. -/
inductive Given (κ : Type)
  | option (spec : OptionSpec κ) (value : String)
  | positional (words : List String)
deriving DecidableEq, Repr

/-- What the arguments give, in order, and the error that stopped the reading, if one did. -/
structure Scan (κ : Type) where
  given : List (Given κ) := []
  error : Option ArgumentError := none
deriving DecidableEq, Repr

/-- One more thing given, in front. -/
def Scan.push (g : Given κ) (s : Scan κ) : Scan κ :=
  { s with given := g :: s.given }

/-- Reading stops with an error. -/
def Scan.stop (e : ArgumentError) : Scan κ :=
  ⟨[], some e⟩

/-- The text of a plain word or the separator. -/
def Word.plainText? : Word κ → Option String
  | .separator => some "--"
  | .plain s => some s
  | _ => none

/-- The word is the separator. -/
def Word.isSeparator : Word κ → Bool
  | .separator => true
  | _ => false

/-- The texts of words, the first separator left out. -/
def withoutSeparator (row : List (Word κ)) : List String :=
  (row.eraseP Word.isSeparator).filterMap Word.plainText?

/-- The number of words that the positional arguments take from a row. One that stands alone takes
the separator next to it along. -/
def Positional.size (p : Positional) (row : List (Word κ)) : Nat :=
  match p, row with
  | .many, _ => row.length
  | .one _, .separator :: .plain _ :: _ => 2
  | .one _, .plain _ :: .separator :: _ => 2
  | .one _, .plain _ :: _ => 1
  | .one _, _ => 0

/-- What is wrong when all words are read: a positional argument that did not come, or words that
were not recognized. -/
def finish (p : Positional) (pending : Bool) (extras : List String) : Scan κ :=
  match p, pending with
  | .one name, true => .stop (.required name)
  | _, _ => if extras.isEmpty then {} else .stop (.unrecognized extras)

/-- Read words one after the other. `pending` tells that the positional arguments have not come yet;
`extras` are the words that were not recognized. -/
def scanFrom (p : Positional) (pending : Bool) (extras : List String) (words : List (Word κ)) :
    Scan κ :=
  match words with
  | [] => finish p pending extras
  | .option o (some v) :: rest =>
    match o.arity with
    | .value => (scanFrom p pending extras rest).push (.option o v)
    | .flag => .stop (.ignoredValue o.label v)
  | .option o none :: .plain v :: rest =>
    match o.arity with
    | .flag => (scanFrom p pending extras (.plain v :: rest)).push (.option o "")
    | .value => (scanFrom p pending extras rest).push (.option o v)
  | .option o none :: rest =>
    match o.arity with
    | .flag => (scanFrom p pending extras rest).push (.option o "")
    | .value => .stop (.expectedValue o.label)
  | .unknown s :: rest => scanFrom p pending (extras ++ [s]) rest
  | first :: rest =>
    -- the positional arguments take from one row only; what they leave is not recognized
    let others := rest.takeWhile fun w => w.plainText?.isSome
    let row := first :: others
    let size := if pending then p.size row else 0
    let left := extras ++ (row.drop size).filterMap Word.plainText?
    let later := rest.drop others.length
    if size == 0 then scanFrom p pending left later
    else (scanFrom p false left later).push (.positional (withoutSeparator (row.take size)))
termination_by words.length
decreasing_by
  all_goals simp only [List.length_cons, List.length_drop]
  all_goals omega

/-- What the arguments give. -/
def Grammar.scan (g : Grammar κ) (arguments : List String) : Scan κ :=
  match g.classifyWords arguments with
  | .error e => .stop e
  | .ok words => scanFrom g.positional true [] words

/-- Why the arguments ask for no run. -/
inductive Halt
  /-- Help is asked for. -/
  | help
  | error (cause : ArgumentError)
deriving DecidableEq, Repr

/-- Take up what is given, one after the other. -/
def takeAll {σ : Type} (take : σ → Given κ → Except Halt σ) (state : σ) :
    List (Given κ) → Except Halt σ
  | [] => .ok state
  | g :: rest => do
    let next ← take state g
    takeAll take next rest

/-- Read arguments into a state: what is given is taken up in order, up to the first error. -/
def Grammar.read {σ : Type} (g : Grammar κ) (take : σ → Given κ → Except Halt σ) (start : σ)
    (arguments : List String) : Except Halt σ := do
  let scan := g.scan arguments
  -- a value that is refused, or a call for help, comes before the error that stopped the reading
  let state ← takeAll take start scan.given
  match scan.error with
  | some e => throw (.error e)
  | none => return state

/-- The choice with a word. -/
def OptionSpec.choose {α : Type} (o : OptionSpec κ) (choices : List (String × α))
    (value : String) : Except Halt α :=
  match choices.lookup value with
  | some a => .ok a
  | none => .error (.error (.notAChoice o.label value (choices.map (·.1))))

end Given

end UseOrder
