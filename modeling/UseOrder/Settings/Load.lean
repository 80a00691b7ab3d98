import UseOrder.Settings.Basic
import UseOrder.Value.Shown

/-!
# Reading settings from option values

Options come as values of any type, by name. Every problem is reported, in a fixed order, and
settings are given only if there is none. `Settings.toValue` writes settings as such options again.
-/

namespace UseOrder

/-- The names of the options. -/
def optionNames : List String :=
  ["sort_algorithm", "imports_order", "case_sensitive", "namespace_priority",
    "no_namespace_priority", "indent", "line_ending"]

/-- Names in quotes, with commas and a last "and" between them. -/
def joinNames (wrapper : String) (names : List String) : String :=
  let quoted := names.map fun name => wrapper ++ name ++ wrapper
  match quoted.getLast? with
  | none => ""
  | some last =>
    if quoted.length == 1 then last
    else String.intercalate ", " quoted.dropLast ++ " and " ++ last

/-- What is wrong with an option. -/
inductive OptionProblem
  | unknownOptions (names : List String)
  | badAlgorithm (value : Value)
  | orderNotAList
  | missingKinds (kinds : List ImportKind)
  | unknownKinds (names : List String)
  | repeatedKinds (kinds : List ImportKind)
  | caseNotABoolean
  | prioritiesNotAMapping
  | badPrefix (key : Value)
  | badPriority (value key : Value)
  | barePriorityNotAnInteger
  | badIndent
  | badLineEnding
deriving Inhabited

namespace OptionProblem

/-- A list of names after what is wrong with them. -/
def kindsMessage (what : String) (names : List String) : String :=
  what ++ " sort " ++ (if names.length == 1 then "type" else "types") ++ " " ++
    joinNames "\"" names ++ "."

/-- The wording of a problem. -/
def message : OptionProblem → String
  | unknownOptions names =>
    "Unknown " ++ (if names.length == 1 then "option" else "options") ++ " " ++
      joinNames "\"" names ++ ". Defined options are: " ++ joinNames "\"" optionNames ++ "."
  | badAlgorithm value =>
    "The option \"sort_algorithm\" with value " ++ value.shown ++
      " is invalid. Accepted values are: " ++
      String.intercalate ", " (SortAlgorithm.all.map fun a => "\"" ++ a.label ++ "\"") ++ "."
  | orderNotAList => "The option \"imports_order\" must be a list of sort types or null."
  | missingKinds kinds => kindsMessage "Missing" (kinds.map ImportKind.label)
  | unknownKinds names => kindsMessage "Unknown" names
  | repeatedKinds kinds => kindsMessage "Duplicate" (kinds.map ImportKind.label)
  | caseNotABoolean => "The option \"case_sensitive\" must be a boolean."
  | prioritiesNotAMapping =>
    "The option \"namespace_priority\" must be a mapping of prefix to integer or null."
  | badPrefix key =>
    "Invalid namespace priority prefix " ++ key.shown ++ ", expected a non-empty string."
  | badPriority value key =>
    "Invalid priority " ++ value.shown ++ " for prefix " ++ key.shown ++ ", expected an integer."
  | barePriorityNotAnInteger => "The option \"no_namespace_priority\" must be an integer or null."
  | badIndent => "Invalid \"indent\" param, expected tab or two or four spaces."
  | badLineEnding => "Invalid \"line_ending\" param, expected \"\\n\" or \"\\r\\n\"."

end OptionProblem

/-- A result, or all that is wrong with it. -/
abbrev Checked (α : Type) := Except (List OptionProblem) α

/-- Both results, or the problems of both. -/
def Checked.both {α β : Type} (a : Checked α) (b : Checked β) : Checked (α × β) :=
  match a, b with
  | .ok x, .ok y => .ok (x, y)
  | .ok _, .error ps => .error ps
  | .error ps, .ok _ => .error ps
  | .error ps, .error qs => .error (ps ++ qs)

/-! ## The single options -/

/-- The sort algorithm. -/
def readAlgorithm (v : Value) : Checked SortAlgorithm :=
  match v with
  | .str s =>
    match SortAlgorithm.ofLabel? s with
    | some a => .ok a
    | none => .error [.badAlgorithm v]
  | _ => .error [.badAlgorithm v]

/-- The kind that an item of the order names. -/
def kindOf? : Value → Option ImportKind
  | .str s => ImportKind.ofLabel? s
  | _ => none

/-- The kinds that come up again, in the order in which they do. `seen` holds the kinds before. -/
def repeatedFrom (seen reported : List ImportKind) : List ImportKind → List ImportKind
  | [] => []
  | k :: rest =>
    -- a kind is reported once, however often it comes up
    if seen.contains k && !reported.contains k then
      k :: repeatedFrom (k :: seen) (k :: reported) rest
    else repeatedFrom (k :: seen) reported rest

/-- What is wrong with a list of kinds: kinds that are missing, items that are no kind, kinds that
come up again. -/
def orderProblems (items : List Value) : List OptionProblem :=
  let kinds := items.filterMap kindOf?
  let missing := ImportKind.all.filter fun k => !kinds.contains k
  let unknown := (items.filter fun v => (kindOf? v).isNone).map Value.plain
  let repeated := repeatedFrom [] [] kinds
  (if missing.isEmpty then [] else [.missingKinds missing]) ++
    (if unknown.isEmpty then [] else [.unknownKinds unknown]) ++
    (if repeated.isEmpty then [] else [.repeatedKinds repeated])

/-- The order of kinds: null, or each kind once. -/
def readKindOrder (v : Value) : Checked (Option KindOrder) :=
  match v with
  | .null => .ok none
  | .list items =>
    if h : (∀ v ∈ items, (kindOf? v).isSome) ∧ (items.filterMap kindOf?).Perm ImportKind.all then
      .ok (some ⟨items.filterMap kindOf?, h.2⟩)
    else .error (orderProblems items)
  | _ => .error [.orderNotAList]

/-- Whether letter case counts. -/
def readCase (v : Value) : Checked Bool :=
  match v with
  | .bool b => .ok b
  | _ => .error [.caseNotABoolean]

/-- A prefix of the priorities: a text that is not empty. -/
def readPrefix (v : Value) : Checked Text :=
  match v with
  | .str s => if s.isEmpty then .error [.badPrefix v] else .ok s.toList
  | _ => .error [.badPrefix v]

/-- The priority of a prefix. -/
def readPriority (key v : Value) : Checked Int :=
  match v with
  | .int n => .ok n
  | _ => .error [.badPriority v key]

/-- The entries of the priorities. -/
def readEntries : List (Value × Value) → Checked (List (Text × Int))
  | [] => .ok []
  | (key, v) :: rest =>
    (Checked.both (Checked.both (readPrefix key) (readPriority key v)) (readEntries rest)).map
      fun (entry, entries) => entry :: entries

/-- The priorities of namespace prefixes. -/
def readPriorities (v : Value) : Checked (List (Text × Int)) :=
  match v with
  | .map entries => readEntries entries
  | _ => .error [.prioritiesNotAMapping]

/-- The priority of names without a separator: null or an integer. -/
def readBarePriority (v : Value) : Checked (Option Int) :=
  match v with
  | .null => .ok none
  | .int n => .ok (some n)
  | _ => .error [.barePriorityNotAnInteger]

/-- The indentation. -/
def readIndent (v : Value) : Checked Indent :=
  match v with
  | .str s =>
    match Indent.ofChars? s with
    | some i => .ok i
    | none => .error [.badIndent]
  | _ => .error [.badIndent]

/-- The line ending. -/
def readLineEnding (v : Value) : Checked LineEnding :=
  match v with
  | .str s =>
    match LineEnding.ofChars? s with
    | some e => .ok e
    | none => .error [.badLineEnding]
  | _ => .error [.badLineEnding]

/-! ## All options -/

/-- A value for each option. Missing options have the value that stands for the default. -/
structure Options where
  algorithm : Value := .str "alpha"
  kindOrder : Value := .null
  caseSensitive : Value := .bool false
  priorities : Value := .map []
  barePriority : Value := .null
  indent : Value := .str "    "
  lineEnding : Value := .str "\n"

namespace Options

/-- The options of a mapping; all other keys are left out. -/
def ofEntries (entries : List (Value × Value)) : Options :=
  let given (name : String) (default : Value) : Value := (Value.lookup? name entries).getD default
  { algorithm := given "sort_algorithm" (.str "alpha")
    kindOrder := given "imports_order" .null
    caseSensitive := given "case_sensitive" (.bool false)
    priorities := given "namespace_priority" (.map [])
    barePriority := given "no_namespace_priority" .null
    indent := given "indent" (.str "    ")
    lineEnding := given "line_ending" (.str "\n") }

/-- The options with no priorities where null is given for them. -/
def allowNullPriorities (o : Options) : Options :=
  match o.priorities with
  | .null => { o with priorities := .map [] }
  | _ => o

/-- The layout. -/
def layout (o : Options) : Checked Layout :=
  (Checked.both (readIndent o.indent) (readLineEnding o.lineEnding)).map
    fun (indent, lineEnding) => ⟨indent, lineEnding⟩

/-- The settings, given their layout. -/
def settings (o : Options) (layout : Checked Layout) : Checked Settings :=
  let ordering := Checked.both (readAlgorithm o.algorithm) (readKindOrder o.kindOrder)
  let ordering := Checked.both ordering (readCase o.caseSensitive)
  let ranking := Checked.both (readPriorities o.priorities) (readBarePriority o.barePriority)
  (Checked.both (Checked.both ordering ranking) layout).map
    fun (((( algorithm, kindOrder), caseSensitive), (priorities, barePriority)), layout) =>
      { algorithm, kindOrder, caseSensitive, priorities, barePriority, layout }

end Options

/-- The keys that name no option, sorted. -/
def unknownKeys (entries : List (Value × Value)) : List String :=
  let unknown := entries.filterMap fun (key, _) =>
    match key with
    | .str s => if optionNames.contains s then none else some s
    -- a key that is no text is told by how it would be printed
    | _ => some key.plain
  unknown.mergeSort fun a b => Text.le a.toList b.toList

/-- Every key names an option. -/
def checkKeys (entries : List (Value × Value)) : Checked Unit :=
  match unknownKeys entries with
  | [] => .ok ()
  | names => .error [.unknownOptions names]

namespace Settings

/-- The settings that a mapping of options gives, or all that is wrong with it. -/
def load (entries : List (Value × Value)) : Checked Settings :=
  let options := (Options.ofEntries entries).allowNullPriorities
  (Checked.both (checkKeys entries) (options.settings options.layout)).map (·.2)

/-- Why a value is no mapping of options. -/
inductive NotAMapping
  /-- A list or a text: something that can be gone through, but not looked up by name. -/
  | sequence
  /-- A single value. -/
  | scalar
deriving DecidableEq, Repr

/-- The settings that a value gives. -/
def ofValue (v : Value) : Except NotAMapping (Checked Settings) :=
  match v with
  | .map entries => .ok (load entries)
  | .list _ => .error .sequence
  | .str _ => .error .sequence
  | _ => .error .scalar

/-- Why settings cannot be made from single fields. -/
inductive MakeError
  /-- A field that does not exist. -/
  | unknownField
  /-- A layout that is refused: the first thing that is wrong with it. -/
  | layout (problem : OptionProblem)
  /-- Fields that are refused: all that is wrong with them. -/
  | fields (problems : List OptionProblem)

/-- Every key is one of the names. -/
def onlyKeys (names : List String) (entries : List (Value × Value)) : Bool :=
  entries.all fun (key, _) =>
    match key with
    | .str s => names.contains s
    | _ => false

/-- Make settings from fields, the layout apart. Unlike options, fields are refused one part after
the other, and priorities cannot be null. -/
def make (layout fields : List (Value × Value)) : Except MakeError Settings :=
  if !onlyKeys ["indent", "line_ending"] layout then .error .unknownField
  else
    match (Options.ofEntries layout).layout with
    -- the layout is refused at the first thing that is wrong with it
    | .error problems => .error (.layout (problems.headD .badIndent))
    | .ok made =>
      let names := ["sort_algorithm", "imports_order", "case_sensitive", "namespace_priority",
        "no_namespace_priority"]
      if !onlyKeys names fields then .error .unknownField
      else ((Options.ofEntries fields).settings (.ok made)).mapError .fields

/-- The settings as a mapping of options. -/
def toEntries (s : Settings) : List (Value × Value) :=
  [(.str "sort_algorithm", .str s.algorithm.label),
    (.str "imports_order",
      .ofOption (fun o : KindOrder => .list (o.kinds.map fun k => .str k.label)) s.kindOrder),
    (.str "case_sensitive", .bool s.caseSensitive),
    (.str "namespace_priority", .map (s.priorities.map fun (key, n) => (.text key, .int n))),
    (.str "no_namespace_priority", .ofOption .int s.barePriority),
    (.str "indent", .str s.layout.indent.chars),
    (.str "line_ending", .str s.layout.lineEnding.chars)]

/-- The settings as a value. -/
def toValue (s : Settings) : Value :=
  .map s.toEntries

end Settings

end UseOrder
