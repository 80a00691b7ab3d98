import Mathlib.Data.List.Nodup
import UseOrder.Settings.Load

/-!
# Loading settings

Options come as values of any type. Each of them is read by a function of its own, and `toEntries`
writes settings as options again. Here both directions are put side by side: a function reads just
the values that are written for its results (`readAlgorithm_eq_ok_iff` and those that follow), so
options are loaded just if they are, with defaults where nothing is given, those of the settings
(`load_eq_ok_iff`). What is accepted is then told option by option (`Acceptable`), loaded settings
are loaded again from what is written for them, and what is refused is refused with at least one
problem (`load_explains`).
-/

namespace UseOrder

/-! ## Words for the values of a type -/

/-- A word is looked up in the list of all values. If no two of them share a word, it stands for the
value that is found. -/
theorem find?_word_eq_some_iff {α : Type} {all : List α} {word : α → String} (hAll : ∀ a, a ∈ all)
    (hWord : ∀ a b, word a = word b → a = b) {text : String} {a : α} :
    all.find? (fun b => word b == text) = some a ↔ text = word a := by
  have hFound {b : α} (h : all.find? (fun b => word b == text) = some b) : word b = text := by
    simpa using List.find?_some h
  constructor
  · exact fun h => (hFound h).symm
  · rintro rfl
    have hSome : (all.find? fun b => word b == word a).isSome = true := by
      rw [List.find?_isSome]
      exact ⟨a, hAll a, beq_self_eq_true _⟩
    obtain ⟨b, hb⟩ := Option.isSome_iff_exists.mp hSome
    rw [hb, hWord b a (hFound hb)]

theorem SortAlgorithm.ofLabel?_eq_some_iff {text : String} {a : SortAlgorithm} :
    ofLabel? text = some a ↔ text = a.label :=
  find?_word_eq_some_iff (by intro a; cases a <;> decide)
    (by intro a b; cases a <;> cases b <;> decide)

theorem ImportKind.ofLabel?_eq_some_iff {text : String} {k : ImportKind} :
    ofLabel? text = some k ↔ text = k.label :=
  find?_word_eq_some_iff (by intro a; cases a <;> decide)
    (by intro a b; cases a <;> cases b <;> decide)

theorem Indent.ofChars?_eq_some_iff {text : String} {i : Indent} :
    ofChars? text = some i ↔ text = i.chars :=
  find?_word_eq_some_iff (by intro a; cases a <;> decide)
    (by intro a b; cases a <;> cases b <;> decide)

theorem LineEnding.ofChars?_eq_some_iff {text : String} {e : LineEnding} :
    ofChars? text = some e ↔ text = e.chars :=
  find?_word_eq_some_iff (by intro a; cases a <;> decide)
    (by intro a b; cases a <;> cases b <;> decide)

/-! ## Results and problems -/

namespace Checked

variable {α β : Type} {a : Checked α} {b : Checked β}

theorem both_eq_ok_iff {x : α × β} : both a b = .ok x ↔ a = .ok x.1 ∧ b = .ok x.2 := by
  cases a <;> cases b <;> simp [both, Prod.ext_iff]

theorem map_eq_ok_iff {f : α → β} {y : β} : a.map f = .ok y ↔ ∃ x, a = .ok x ∧ f x = y := by
  cases a <;> simp [Except.map]

theorem mapError_eq_ok_iff {ε : Type} {f : List OptionProblem → ε} {x : α} :
    a.mapError f = .ok x ↔ a = .ok x := by
  cases a <;> simp [Except.mapError]

/-- What is refused comes with something that is wrong about it. -/
def Explains (a : Checked α) : Prop :=
  a ≠ .error []

theorem Explains.both (ha : a.Explains) (hb : b.Explains) : (a.both b).Explains := by
  unfold Explains at *
  cases a <;> cases b <;> simp_all [Checked.both]

theorem Explains.map (ha : a.Explains) (f : α → β) : Explains (a.map f) := by
  unfold Explains at *
  cases a <;> simp_all [Except.map]

end Checked

open Checked

/-! ## The single options -/

/-- Read a value that has to be the word for something. -/
def readWord {α : Type} (ofWord? : String → Option α) (problem : Value → OptionProblem) (v : Value) :
    Checked α :=
  match v with
  | .str s =>
    match ofWord? s with
    | some a => .ok a
    | none => .error [problem v]
  | _ => .error [problem v]

theorem readWord_eq_ok_iff {α : Type} {ofWord? : String → Option α} {word : α → String}
    {problem : Value → OptionProblem} (h : ∀ s a, ofWord? s = some a ↔ s = word a) {v : Value}
    {a : α} : readWord ofWord? problem v = .ok a ↔ v = .str (word a) := by
  cases v with
  | str s =>
    rw [Value.str.injEq, ← h]
    cases hWord : ofWord? s <;> simp [readWord, hWord]
  | _ => simp [readWord]

theorem readWord_explains {α : Type} (ofWord? : String → Option α) (problem : Value → OptionProblem)
    (v : Value) : (readWord ofWord? problem v).Explains := by
  unfold readWord
  split
  · split <;> simp [Explains]
  · simp [Explains]

theorem readAlgorithm_eq (v : Value) :
    readAlgorithm v = readWord SortAlgorithm.ofLabel? .badAlgorithm v := by
  cases v with
  | str s =>
    rw [readAlgorithm, readWord]
    cases SortAlgorithm.ofLabel? s <;> rfl
  | _ => rfl

theorem readIndent_eq (v : Value) :
    readIndent v = readWord Indent.ofChars? (fun _ => .badIndent) v := by
  cases v with
  | str s =>
    rw [readIndent, readWord]
    cases Indent.ofChars? s <;> rfl
  | _ => rfl

theorem readLineEnding_eq (v : Value) :
    readLineEnding v = readWord LineEnding.ofChars? (fun _ => .badLineEnding) v := by
  cases v with
  | str s =>
    rw [readLineEnding, readWord]
    cases LineEnding.ofChars? s <;> rfl
  | _ => rfl

theorem readAlgorithm_eq_ok_iff {v : Value} {a : SortAlgorithm} :
    readAlgorithm v = .ok a ↔ v = .str a.label := by
  rw [readAlgorithm_eq]
  exact readWord_eq_ok_iff fun _ _ => SortAlgorithm.ofLabel?_eq_some_iff

theorem readIndent_eq_ok_iff {v : Value} {i : Indent} :
    readIndent v = .ok i ↔ v = .str i.chars := by
  rw [readIndent_eq]
  exact readWord_eq_ok_iff fun _ _ => Indent.ofChars?_eq_some_iff

theorem readLineEnding_eq_ok_iff {v : Value} {e : LineEnding} :
    readLineEnding v = .ok e ↔ v = .str e.chars := by
  rw [readLineEnding_eq]
  exact readWord_eq_ok_iff fun _ _ => LineEnding.ofChars?_eq_some_iff

theorem readCase_eq_ok_iff {v : Value} {b : Bool} : readCase v = .ok b ↔ v = .bool b := by
  cases v <;> simp [readCase]

theorem readBarePriority_eq_ok_iff {v : Value} {p : Option Int} :
    readBarePriority v = .ok p ↔ v = .ofOption .int p := by
  cases v <;> cases p <;> simp [readBarePriority, Value.ofOption]

/-! ### The order of kinds -/

/-- The words of kinds, as a list of values. -/
def kindWords (kinds : List ImportKind) : List Value :=
  kinds.map fun k => .str k.label

theorem kindOf?_eq_some_iff {v : Value} {k : ImportKind} :
    kindOf? v = some k ↔ v = .str k.label := by
  cases v with
  | str s => rw [kindOf?, ImportKind.ofLabel?_eq_some_iff, Value.str.injEq]
  | _ => simp [kindOf?]

theorem filterMap_kindWords (kinds : List ImportKind) :
    (kindWords kinds).filterMap kindOf? = kinds := by
  rw [kindWords, List.filterMap_map]
  have hKind : kindOf? ∘ (fun k : ImportKind => Value.str k.label) = some :=
    funext fun k => kindOf?_eq_some_iff.mpr rfl
  rw [hKind, List.filterMap_some]

/-- Items that all name kinds are the words of these kinds. -/
theorem eq_kindWords {items : List Value} (h : ∀ v ∈ items, (kindOf? v).isSome = true) :
    items = kindWords (items.filterMap kindOf?) := by
  induction items with
  | nil => rfl
  | cons v items ih =>
    obtain ⟨hHere, hMore⟩ := List.forall_mem_cons.mp h
    obtain ⟨k, hk⟩ := Option.isSome_iff_exists.mp hHere
    rw [List.filterMap_cons_some hk, kindWords, List.map_cons, ← kindOf?_eq_some_iff.mp hk,
      ← kindWords, ← ih hMore]

theorem readKindOrder_eq_ok_iff {v : Value} {order : Option KindOrder} :
    readKindOrder v = .ok order ↔
      v = .ofOption (fun o : KindOrder => .list (kindWords o.kinds)) order := by
  cases v with
  | null => cases order <;> simp [readKindOrder, Value.ofOption]
  | list items =>
    simp only [readKindOrder]
    split
    · next hKinds =>
      rw [Except.ok.injEq]
      constructor
      · rintro rfl
        exact congrArg Value.list (eq_kindWords hKinds.1)
      · intro h
        cases order with
        | none => cases h
        | some o =>
          obtain rfl := Value.list.inj h
          simp only [filterMap_kindWords]
    · next hNot =>
      simp only [reduceCtorEq, false_iff]
      intro h
      refine hNot ?_
      cases order with
      | none => cases h
      | some o =>
        obtain rfl := Value.list.inj h
        rw [filterMap_kindWords]
        refine ⟨fun v hv => ?_, o.complete⟩
        obtain ⟨k, -, rfl⟩ := List.mem_map.mp hv
        rw [kindOf?_eq_some_iff.mpr rfl, Option.isSome_some]
  | _ => cases order <;> simp [readKindOrder, Value.ofOption]

/-- Nothing comes up again just if no kind is there twice, and none that has been seen before. -/
theorem repeatedFrom_eq_nil_iff {seen kinds : List ImportKind} :
    repeatedFrom seen [] kinds = [] ↔ kinds.Nodup ∧ ∀ k ∈ kinds, k ∉ seen := by
  induction kinds generalizing seen with
  | nil => simp [repeatedFrom]
  | cons k kinds ih =>
    -- up to the first kind that comes up again, none has been reported
    by_cases hSeen : k ∈ seen
    · simp [repeatedFrom, hSeen]
    · rw [repeatedFrom, if_neg (by simpa using hSeen), ih, List.nodup_cons, List.forall_mem_cons]
      simp only [List.mem_cons, not_or]
      constructor
      · rintro ⟨hOnce, hNew⟩
        exact ⟨⟨fun hk => (hNew k hk).1 rfl, hOnce⟩, hSeen, fun j hj => (hNew j hj).2⟩
      · rintro ⟨⟨hHere, hOnce⟩, -, hNew⟩
        exact ⟨hOnce, fun j hj => ⟨fun hEq => hHere (hEq ▸ hj), hNew j hj⟩⟩

theorem ImportKind.mem_all (k : ImportKind) : k ∈ all := by
  cases k <;> decide

theorem problem_eq_nil_iff {α : Type} {found : List α} {problem : OptionProblem} :
    (if found.isEmpty then [] else [problem]) = [] ↔ found = [] := by
  cases found <;> simp

/-- Each way in which a list of kinds can be wrong is reported. -/
theorem orderProblems_eq_nil_iff {items : List Value} :
    orderProblems items = [] ↔
      (∀ v ∈ items, (kindOf? v).isSome = true) ∧ (items.filterMap kindOf?).Perm ImportKind.all := by
  have hOnce : ImportKind.all.Nodup := by decide
  simp only [orderProblems, List.append_eq_nil_iff, problem_eq_nil_iff, repeatedFrom_eq_nil_iff,
    List.filter_eq_nil_iff, List.map_eq_nil_iff, Bool.not_eq_true', Bool.not_eq_false,
    List.contains_iff_mem, Option.isNone_iff_eq_none, ← ne_eq, ← Option.isSome_iff_ne_none]
  constructor
  · rintro ⟨⟨hMissing, hUnknown⟩, hNodup, -⟩
    -- two lists without repetition that hold every kind are each other's permutation
    refine ⟨hUnknown, (List.perm_ext_iff_of_nodup hNodup hOnce).mpr fun k => ?_⟩
    exact ⟨fun _ => k.mem_all, fun hk => hMissing k hk⟩
  · rintro ⟨hUnknown, hPerm⟩
    exact ⟨⟨fun k hk => hPerm.mem_iff.mpr hk, hUnknown⟩, hPerm.nodup_iff.mpr hOnce, by simp⟩

/-! ### Priorities -/

/-- A table of priorities, as the entries of a mapping. -/
def priorityEntries (table : List (Text × Int)) : List (Value × Value) :=
  table.map fun (key, n) => (.text key, .int n)

theorem readPrefix_eq_ok_iff {v : Value} {key : Text} :
    readPrefix v = .ok key ↔ v = .text key ∧ key ≠ [] := by
  cases v with
  | str s =>
    rw [readPrefix, Value.text, Value.str.injEq, ← String.toList_inj, String.toList_ofList]
    split
    · next hEmpty =>
      obtain rfl : s = "" := by simpa using hEmpty
      simp
    · next hSome =>
      rw [Except.ok.injEq, iff_self_and]
      rintro rfl
      simpa using hSome
  | _ => simp [readPrefix, Value.text]

theorem readPriority_eq_ok_iff {key v : Value} {n : Int} :
    readPriority key v = .ok n ↔ v = .int n := by
  cases v <;> simp [readPriority]

theorem readEntries_eq_ok_iff {entries : List (Value × Value)} {table : List (Text × Int)} :
    readEntries entries = .ok table ↔
      entries = priorityEntries table ∧ ∀ entry ∈ table, entry.1 ≠ [] := by
  induction entries generalizing table with
  | nil => cases table <;> simp [readEntries, priorityEntries]
  | cons entry entries ih =>
    obtain ⟨key, v⟩ := entry
    simp only [readEntries, map_eq_ok_iff, both_eq_ok_iff, readPrefix_eq_ok_iff,
      readPriority_eq_ok_iff, ih]
    constructor
    · rintro ⟨⟨⟨key, n⟩, table⟩, ⟨⟨⟨rfl, hKey⟩, rfl⟩, rfl, hTable⟩, rfl⟩
      exact ⟨rfl, List.forall_mem_cons.mpr ⟨hKey, hTable⟩⟩
    · rintro ⟨hEntries, hTable⟩
      cases table with
      | nil => cases hEntries
      | cons entry table =>
        obtain ⟨hEntry, rfl⟩ := List.cons.inj hEntries
        obtain ⟨rfl, rfl⟩ := Prod.mk.inj hEntry
        obtain ⟨hKey, hMore⟩ := List.forall_mem_cons.mp hTable
        exact ⟨(entry, table), ⟨⟨⟨rfl, hKey⟩, rfl⟩, rfl, hMore⟩, rfl⟩

theorem readPriorities_eq_ok_iff {v : Value} {table : List (Text × Int)} :
    readPriorities v = .ok table ↔
      v = .map (priorityEntries table) ∧ ∀ entry ∈ table, entry.1 ≠ [] := by
  cases v with
  | map entries => rw [readPriorities, readEntries_eq_ok_iff, Value.map.injEq]
  | _ => simp [readPriorities]

/-! ### Problems -/

theorem readCase_explains (v : Value) : (readCase v).Explains := by
  cases v <;> simp [Explains, readCase]

theorem readBarePriority_explains (v : Value) : (readBarePriority v).Explains := by
  cases v <;> simp [Explains, readBarePriority]

theorem readKindOrder_explains (v : Value) : (readKindOrder v).Explains := by
  cases v with
  | list items =>
    simp only [readKindOrder]
    split
    · simp [Explains]
    · next hNot =>
      intro h
      exact hNot (orderProblems_eq_nil_iff.mp (Except.error.inj h))
  | _ => simp [Explains, readKindOrder]

theorem readPrefix_explains (v : Value) : (readPrefix v).Explains := by
  unfold readPrefix
  split
  · split <;> simp [Explains]
  · simp [Explains]

theorem readPriority_explains (key v : Value) : (readPriority key v).Explains := by
  cases v <;> simp [Explains, readPriority]

theorem readPriorities_explains (v : Value) : (readPriorities v).Explains := by
  cases v with
  | map entries =>
    rw [readPriorities]
    induction entries with
    | nil => simp [Explains, readEntries]
    | cons entry entries ih =>
      have hEntry := (readPrefix_explains entry.1).both (readPriority_explains entry.1 entry.2)
      exact (hEntry.both ih).map _
  | _ => simp [Explains, readPriorities]

/-! ## All options -/

/-- No prefix of the priorities is empty. -/
def Settings.HasPrefixes (s : Settings) : Prop :=
  ∀ entry ∈ s.priorities, entry.1 ≠ []

/-- The values that are written for settings. -/
def Settings.toOptions (s : Settings) : Options where
  algorithm := .str s.algorithm.label
  kindOrder := .ofOption (fun o : KindOrder => .list (kindWords o.kinds)) s.kindOrder
  caseSensitive := .bool s.caseSensitive
  priorities := .map (priorityEntries s.priorities)
  barePriority := .ofOption .int s.barePriority
  indent := .str s.layout.indent.chars
  lineEnding := .str s.layout.lineEnding.chars

namespace Options

theorem layout_eq_ok_iff {o : Options} {l : Layout} : o.layout = .ok l ↔
    o.indent = .str l.indent.chars ∧ o.lineEnding = .str l.lineEnding.chars := by
  rw [layout, map_eq_ok_iff]
  constructor
  · rintro ⟨⟨indent, lineEnding⟩, hBoth, rfl⟩
    rwa [both_eq_ok_iff, readIndent_eq_ok_iff, readLineEnding_eq_ok_iff] at hBoth
  · intro h
    refine ⟨(l.indent, l.lineEnding), ?_, rfl⟩
    rwa [both_eq_ok_iff, readIndent_eq_ok_iff, readLineEnding_eq_ok_iff]

theorem settings_eq_ok_iff {o : Options} {layout : Checked Layout} {s : Settings} :
    o.settings layout = .ok s ↔
      ((readAlgorithm o.algorithm = .ok s.algorithm ∧ readKindOrder o.kindOrder = .ok s.kindOrder) ∧
        readCase o.caseSensitive = .ok s.caseSensitive) ∧
      (readPriorities o.priorities = .ok s.priorities ∧
        readBarePriority o.barePriority = .ok s.barePriority) ∧ layout = .ok s.layout := by
  rw [settings, map_eq_ok_iff]
  simp only [both_eq_ok_iff]
  constructor
  · rintro ⟨x, ⟨⟨hOrdering, hRanking⟩, hLayout⟩, rfl⟩
    exact ⟨hOrdering, hRanking, hLayout⟩
  · rintro ⟨hOrdering, hRanking, hLayout⟩
    exact ⟨((((s.algorithm, s.kindOrder), s.caseSensitive), (s.priorities, s.barePriority)),
      s.layout), ⟨⟨hOrdering, hRanking⟩, hLayout⟩, rfl⟩

/-- Options are read just if they are those of the settings. -/
theorem read_eq_ok_iff {o : Options} {s : Settings} :
    o.settings o.layout = .ok s ↔ o = s.toOptions ∧ s.HasPrefixes := by
  rw [settings_eq_ok_iff, readAlgorithm_eq_ok_iff, readKindOrder_eq_ok_iff, readCase_eq_ok_iff,
    readPriorities_eq_ok_iff, readBarePriority_eq_ok_iff, layout_eq_ok_iff]
  constructor
  · rintro ⟨⟨⟨hAlgorithm, hOrder⟩, hCase⟩, ⟨⟨hPriorities, hPrefixes⟩, hBare⟩, hIndent, hEnding⟩
    refine ⟨?_, hPrefixes⟩
    rw [Settings.toOptions, ← hAlgorithm, ← hOrder, ← hCase, ← hPriorities, ← hBare, ← hIndent,
      ← hEnding]
  · rintro ⟨rfl, hPrefixes⟩
    exact ⟨⟨⟨rfl, rfl⟩, rfl⟩, ⟨⟨rfl, hPrefixes⟩, rfl⟩, rfl, rfl⟩

theorem settings_explains (o : Options) : (o.settings o.layout).Explains := by
  have hAlgorithm : (readAlgorithm o.algorithm).Explains := by
    rw [readAlgorithm_eq]
    exact readWord_explains _ _ _
  have hIndent : (readIndent o.indent).Explains := by
    rw [readIndent_eq]
    exact readWord_explains _ _ _
  have hLineEnding : (readLineEnding o.lineEnding).Explains := by
    rw [readLineEnding_eq]
    exact readWord_explains _ _ _
  have hOrdering := (hAlgorithm.both (readKindOrder_explains o.kindOrder)).both
    (readCase_explains o.caseSensitive)
  have hRanking := (readPriorities_explains o.priorities).both
    (readBarePriority_explains o.barePriority)
  have hLayout : o.layout.Explains := (hIndent.both hLineEnding).map _
  exact ((hOrdering.both hRanking).both hLayout).map _

end Options

/-- Every key names an option. -/
def KnownKeys (entries : List (Value × Value)) : Prop :=
  ∀ entry ∈ entries, ∃ name ∈ optionNames, entry.1 = .str name

theorem unknownKeys_eq_nil_iff {entries : List (Value × Value)} :
    unknownKeys entries = [] ↔ KnownKeys entries := by
  rw [← List.length_eq_zero_iff, unknownKeys, List.length_mergeSort, List.length_eq_zero_iff,
    List.filterMap_eq_nil_iff]
  refine forall₂_congr fun entry _ => ?_
  obtain ⟨key, v⟩ := entry
  cases key <;> simp

theorem checkKeys_eq_ok_iff {entries : List (Value × Value)} :
    checkKeys entries = .ok () ↔ KnownKeys entries := by
  rw [← unknownKeys_eq_nil_iff, checkKeys]
  cases unknownKeys entries <;> simp

theorem checkKeys_explains (entries : List (Value × Value)) : (checkKeys entries).Explains := by
  unfold checkKeys
  split <;> simp [Explains]

namespace Settings

/-- Options are loaded just if every key names one, and if they are those of the settings, with the
defaults where nothing is given. -/
theorem load_eq_ok_iff {entries : List (Value × Value)} {s : Settings} :
    load entries = .ok s ↔
      KnownKeys entries ∧ (Options.ofEntries entries).allowNullPriorities = s.toOptions ∧
        s.HasPrefixes := by
  rw [load, map_eq_ok_iff, ← checkKeys_eq_ok_iff, ← Options.read_eq_ok_iff]
  constructor
  · rintro ⟨x, hBoth, rfl⟩
    exact both_eq_ok_iff.mp hBoth
  · intro h
    exact ⟨((), s), both_eq_ok_iff.mpr h, rfl⟩

theorem load_explains (entries : List (Value × Value)) : (load entries).Explains :=
  ((checkKeys_explains entries).both (Options.settings_explains _)).map _

theorem knownKeys_toEntries (s : Settings) : KnownKeys s.toEntries := by
  simp [KnownKeys, toEntries, optionNames]

theorem ofEntries_toEntries (s : Settings) : Options.ofEntries s.toEntries = s.toOptions := by
  simp [Options.ofEntries, toEntries, Value.lookup?, toOptions, kindWords, priorityEntries]

/-- Settings are loaded from what is written for them. -/
theorem load_toEntries {s : Settings} (h : s.HasPrefixes) : load s.toEntries = .ok s :=
  load_eq_ok_iff.mpr ⟨s.knownKeys_toEntries, by rw [ofEntries_toEntries]; rfl, h⟩

/-- Settings are made from fields just if these have known names and are read. -/
theorem make_eq_ok_iff {layout fields : List (Value × Value)} {s : Settings} :
    make layout fields = .ok s ↔
      (onlyKeys ["indent", "line_ending"] layout = true ∧
        (Options.ofEntries layout).layout = .ok s.layout) ∧
      onlyKeys ["sort_algorithm", "imports_order", "case_sensitive", "namespace_priority",
        "no_namespace_priority"] fields = true ∧
      (Options.ofEntries fields).settings (.ok s.layout) = .ok s := by
  unfold make
  split
  · next hKeys =>
    simp only [Bool.not_eq_true'] at hKeys
    simp [hKeys]
  · next hKeys =>
    simp only [Bool.not_eq_true', Bool.not_eq_false] at hKeys
    cases (Options.ofEntries layout).layout with
    | error problems => simp
    | ok made =>
      simp only [hKeys, true_and, Except.ok.injEq]
      split
      · next hNames =>
        simp only [Bool.not_eq_true'] at hNames
        simp [hNames]
      · next hNames =>
        simp only [Bool.not_eq_true', Bool.not_eq_false] at hNames
        simp only [mapError_eq_ok_iff, hNames, true_and]
        -- the layout that is made is the one of the settings
        constructor
        · intro hRead
          have hMade : made = s.layout :=
            Except.ok.inj (Options.settings_eq_ok_iff.mp hRead).2.2
          exact ⟨hMade, hMade ▸ hRead⟩
        · rintro ⟨rfl, hRead⟩
          exact hRead

end Settings

/-- The fields of a layout. -/
def Options.layoutFields (o : Options) : List (Value × Value) :=
  [(.str "indent", o.indent), (.str "line_ending", o.lineEnding)]

/-- The fields of settings, the layout apart. -/
def Options.orderFields (o : Options) : List (Value × Value) :=
  [(.str "sort_algorithm", o.algorithm), (.str "imports_order", o.kindOrder),
    (.str "case_sensitive", o.caseSensitive), (.str "namespace_priority", o.priorities),
    (.str "no_namespace_priority", o.barePriority)]

namespace Settings

/-- Settings can be made from the values that are written for them. -/
theorem make_toOptions {s : Settings} (h : s.HasPrefixes) :
    make s.toOptions.layoutFields s.toOptions.orderFields = .ok s := by
  have hLayout : s.toOptions.layout = .ok s.layout := Options.layout_eq_ok_iff.mpr ⟨rfl, rfl⟩
  have hRead : s.toOptions.settings s.toOptions.layout = .ok s := Options.read_eq_ok_iff.mpr ⟨rfl, h⟩
  rw [hLayout] at hRead
  exact make_eq_ok_iff.mpr ⟨⟨rfl, hLayout⟩, rfl, hRead⟩

theorem hasPrefixes_of_make {layout fields : List (Value × Value)} {s : Settings}
    (h : make layout fields = .ok s) : s.HasPrefixes := by
  obtain ⟨-, -, hRead⟩ := make_eq_ok_iff.mp h
  obtain ⟨-, ⟨hPriorities, -⟩, -⟩ := Options.settings_eq_ok_iff.mp hRead
  exact (readPriorities_eq_ok_iff.mp hPriorities).2

end Settings

/-! ## Accepted options -/

/-- The options that are accepted. -/
structure Acceptable (entries : List (Value × Value)) : Prop where
  keys : ∀ entry ∈ entries, ∃ name ∈ optionNames, entry.1 = .str name
  algorithm : ∀ v ∈ Value.lookup? "sort_algorithm" entries, ∃ a : SortAlgorithm, v = .str a.label
  kindOrder : ∀ v ∈ Value.lookup? "imports_order" entries, v = .null ∨
    ∃ kinds : List ImportKind, kinds.Perm ImportKind.all ∧
      v = .list (kinds.map fun k => .str k.label)
  caseSensitive : ∀ v ∈ Value.lookup? "case_sensitive" entries, ∃ b, v = .bool b
  priorities : ∀ v ∈ Value.lookup? "namespace_priority" entries, v = .null ∨
    ∃ table : List (Text × Int), (∀ entry ∈ table, entry.1 ≠ []) ∧
      v = .map (table.map fun (key, n) => (.text key, .int n))
  barePriority : ∀ v ∈ Value.lookup? "no_namespace_priority" entries, v = .null ∨ ∃ n, v = .int n
  indent : ∀ v ∈ Value.lookup? "indent" entries, ∃ i : Indent, v = .str i.chars
  lineEnding : ∀ v ∈ Value.lookup? "line_ending" entries, ∃ e : LineEnding, v = .str e.chars

/-- Null stands for priorities without entries. -/
def orNoEntries : Value → Value
  | .null => .map []
  | v => v

theorem allowNullPriorities_eq (o : Options) :
    o.allowNullPriorities = { o with priorities := orNoEntries o.priorities } := by
  obtain ⟨_, _, _, priorities, _, _, _⟩ := o
  cases priorities <;> rfl

/-- What has to be given for settings to be loaded, option by option. -/
theorem given_eq_toOptions_iff {entries : List (Value × Value)} {s : Settings} :
    (Options.ofEntries entries).allowNullPriorities = s.toOptions ↔
      (Value.lookup? "sort_algorithm" entries).getD (.str "alpha") = s.toOptions.algorithm ∧
      (Value.lookup? "imports_order" entries).getD .null = s.toOptions.kindOrder ∧
      (Value.lookup? "case_sensitive" entries).getD (.bool false) = s.toOptions.caseSensitive ∧
      orNoEntries ((Value.lookup? "namespace_priority" entries).getD (.map [])) =
        s.toOptions.priorities ∧
      (Value.lookup? "no_namespace_priority" entries).getD .null = s.toOptions.barePriority ∧
      (Value.lookup? "indent" entries).getD (.str "    ") = s.toOptions.indent ∧
      (Value.lookup? "line_ending" entries).getD (.str "\n") = s.toOptions.lineEnding := by
  rw [allowNullPriorities_eq, Options.ofEntries, Options.mk.injEq]

theorem eq_of_mem_of_getD {α : Type} {given : Option α} {default w v : α}
    (h : given.getD default = w) (hv : v ∈ given) : v = w := by
  rw [← h, Option.mem_def.mp hv, Option.getD_some]

theorem getD_of_forall {α : Type} {P : α → Prop} {given : Option α} {default : α}
    (hDefault : P default) (hGiven : ∀ v ∈ given, P v) : P (given.getD default) := by
  cases given with
  | none => exact hDefault
  | some v => exact hGiven v rfl

theorem acceptable_of_load {entries : List (Value × Value)} {s : Settings}
    (h : Settings.load entries = .ok s) : Acceptable entries := by
  obtain ⟨hKeys, hGiven, hPrefixes⟩ := Settings.load_eq_ok_iff.mp h
  obtain ⟨hAlgorithm, hOrder, hCase, hPriorities, hBare, hIndent, hEnding⟩ :=
    given_eq_toOptions_iff.mp hGiven
  refine ⟨hKeys, fun v hv => ⟨_, eq_of_mem_of_getD hAlgorithm hv⟩, fun v hv => ?_,
    fun v hv => ⟨_, eq_of_mem_of_getD hCase hv⟩, fun v hv => ?_, fun v hv => ?_,
    fun v hv => ⟨_, eq_of_mem_of_getD hIndent hv⟩, fun v hv => ⟨_, eq_of_mem_of_getD hEnding hv⟩⟩
  · obtain rfl := eq_of_mem_of_getD hOrder hv
    cases hKinds : s.kindOrder with
    | none => exact .inl (by rw [Settings.toOptions, hKinds]; rfl)
    | some o => exact .inr ⟨o.kinds, o.complete, by rw [Settings.toOptions, hKinds]; rfl⟩
  · rw [Option.mem_def.mp hv, Option.getD_some] at hPriorities
    cases v with
    | null => exact .inl rfl
    | _ => exact .inr ⟨s.priorities, hPrefixes, hPriorities⟩
  · obtain rfl := eq_of_mem_of_getD hBare hv
    cases hPriority : s.barePriority with
    | none => exact .inl (by rw [Settings.toOptions, hPriority]; rfl)
    | some n => exact .inr ⟨n, by rw [Settings.toOptions, hPriority]; rfl⟩

theorem Acceptable.exists_load {entries : List (Value × Value)} (h : Acceptable entries) :
    ∃ s, Settings.load entries = .ok s := by
  obtain ⟨algorithm, hAlgorithm⟩ := getD_of_forall ⟨SortAlgorithm.alpha, rfl⟩ h.algorithm
  obtain ⟨caseSensitive, hCase⟩ := getD_of_forall ⟨false, rfl⟩ h.caseSensitive
  obtain ⟨indent, hIndent⟩ := getD_of_forall ⟨Indent.fourSpaces, rfl⟩ h.indent
  obtain ⟨lineEnding, hEnding⟩ := getD_of_forall ⟨LineEnding.lf, rfl⟩ h.lineEnding
  obtain ⟨kindOrder, hOrder⟩ : ∃ o : Option KindOrder,
      (Value.lookup? "imports_order" entries).getD .null =
        .ofOption (fun o : KindOrder => .list (kindWords o.kinds)) o := by
    rcases getD_of_forall (.inl rfl) h.kindOrder with hNull | ⟨kinds, hPerm, hKinds⟩
    · exact ⟨none, hNull⟩
    · exact ⟨some ⟨kinds, hPerm⟩, hKinds⟩
  obtain ⟨priorities, hPriorities, hPrefixes⟩ : ∃ table : List (Text × Int),
      orNoEntries ((Value.lookup? "namespace_priority" entries).getD (.map [])) =
        .map (priorityEntries table) ∧ ∀ entry ∈ table, entry.1 ≠ [] := by
    have hDefault : ∃ table : List (Text × Int), (∀ entry ∈ table, entry.1 ≠ []) ∧
        Value.map [] = .map (priorityEntries table) := ⟨[], by simp, rfl⟩
    rcases getD_of_forall (.inr hDefault) h.priorities with hNull | ⟨table, hPrefixes, hTable⟩
    · exact ⟨[], by rw [hNull]; rfl, by simp⟩
    · exact ⟨table, by rw [hTable]; rfl, hPrefixes⟩
  obtain ⟨barePriority, hBare⟩ : ∃ p : Option Int,
      (Value.lookup? "no_namespace_priority" entries).getD .null = .ofOption .int p := by
    rcases getD_of_forall (.inl rfl) h.barePriority with hNull | ⟨n, hn⟩
    · exact ⟨none, hNull⟩
    · exact ⟨some n, hn⟩
  refine ⟨⟨algorithm, kindOrder, caseSensitive, priorities, barePriority, indent, lineEnding⟩,
    Settings.load_eq_ok_iff.mpr ⟨h.keys, given_eq_toOptions_iff.mpr ?_, hPrefixes⟩⟩
  exact ⟨hAlgorithm, hOrder, hCase, hPriorities, hBare, hIndent, hEnding⟩

/-- The value that counts for an option: the one that is given, or the default if none or null is. -/
def inForce (entries : List (Value × Value)) (name : String) : Option Value :=
  match Value.lookup? name entries with
  | none => Value.lookup? name ({} : Settings).toEntries
  | some .null => Value.lookup? name ({} : Settings).toEntries
  | some v => some v

theorem inForce_eq {entries : List (Value × Value)} {name : String} {default w : Value}
    (hDefault : Value.lookup? name ({} : Settings).toEntries = some default)
    (hGiven : (Value.lookup? name entries).getD default = w) (hNull : w = .null → default = .null) :
    inForce entries name = some w := by
  unfold inForce
  split
  · next hNone => rw [hDefault, ← hGiven, hNone, Option.getD_none]
  · next hSome =>
    rw [hSome, Option.getD_some] at hGiven
    rw [hDefault, hNull hGiven.symm, hGiven]
  · next v _ hSome =>
    rw [← hGiven, hSome, Option.getD_some]

/-- Loaded settings have the values that count. -/
theorem lookup?_toEntries_of_load {entries : List (Value × Value)} {s : Settings}
    (h : Settings.load entries = .ok s) :
    ∀ name ∈ optionNames, Value.lookup? name s.toEntries = inForce entries name := by
  obtain ⟨-, hGiven, -⟩ := Settings.load_eq_ok_iff.mp h
  obtain ⟨hAlgorithm, hOrder, hCase, hPriorities, hBare, hIndent, hEnding⟩ :=
    given_eq_toOptions_iff.mp hGiven
  -- null is no value of the other options, and stands for the default of these
  have hTable : inForce entries "namespace_priority" = some s.toOptions.priorities := by
    rw [← hPriorities, inForce]
    split
    · next hNone => rw [hNone]; rfl
    · next hNull => rw [hNull]; rfl
    · next v hSome hv =>
      rw [hv, Option.getD_some]
      cases v with
      | null => exact absurd rfl hSome
      | _ => rfl
  intro name hName
  simp only [optionNames, List.mem_cons, List.not_mem_nil, or_false] at hName
  rcases hName with rfl | rfl | rfl | rfl | rfl | rfl | rfl
  · exact (inForce_eq rfl hAlgorithm (by simp [Settings.toOptions])).symm
  · exact (inForce_eq rfl hOrder fun _ => rfl).symm
  · exact (inForce_eq rfl hCase (by simp [Settings.toOptions])).symm
  · exact hTable.symm
  · exact (inForce_eq rfl hBare fun _ => rfl).symm
  · exact (inForce_eq rfl hIndent (by simp [Settings.toOptions])).symm
  · exact (inForce_eq rfl hEnding (by simp [Settings.toOptions])).symm

/-- Options are loaded just if they are acceptable, and refused with at least one problem. Loaded
settings have the values that count, and the same settings are made from these values. Settings that
were loaded or made are loaded again from what is written for them. -/
theorem load_iff_acceptable (entries : List (Value × Value)) :
    ((∃ s, Settings.load entries = .ok s) ↔ Acceptable entries) ∧
      (∀ problems, Settings.load entries = .error problems → problems ≠ []) ∧
      (∀ s, Settings.load entries = .ok s →
        (∀ name ∈ optionNames, Value.lookup? name s.toEntries = inForce entries name) ∧
        let given := (Options.ofEntries entries).allowNullPriorities
        Settings.make given.layoutFields given.orderFields = .ok s) ∧
      ∀ s, (Settings.load entries = .ok s ∨
          ∃ layout fields, Settings.make layout fields = .ok s) →
        Settings.load s.toEntries = .ok s := by
  refine ⟨⟨fun ⟨s, hs⟩ => acceptable_of_load hs, Acceptable.exists_load⟩, ?_, fun s hs => ?_,
    fun s hs => Settings.load_toEntries ?_⟩
  · rintro problems hError rfl
    exact Settings.load_explains entries hError
  · obtain ⟨-, hGiven, hPrefixes⟩ := Settings.load_eq_ok_iff.mp hs
    rw [hGiven]
    exact ⟨lookup?_toEntries_of_load hs, Settings.make_toOptions hPrefixes⟩
  · rcases hs with hLoaded | ⟨layout, fields, hMade⟩
    · exact (Settings.load_eq_ok_iff.mp hLoaded).2.2
    · exact Settings.hasPrefixes_of_make hMade

/-- An order of all kinds, two prefixes of which one begins with the other, and null for the priority
of bare names. An order of two kinds is refused. -/
theorem load_iff_acceptable_of_priorities :
    let order : List Value := [.str "class", .str "function", .str "const"]
    let entries : List (Value × Value) :=
      [(.str "imports_order", .list order),
        (.str "namespace_priority", .map [(.str "App", .int (-2)), (.str "App\\", .int 7)]),
        (.str "no_namespace_priority", .null)]
    let s : Settings :=
      { kindOrder := some ⟨[.classKind, .functionKind, .constKind], by decide⟩
        priorities := [("App".toList, -2), ("App\\".toList, 7)] }
    Settings.load entries = .ok s ∧ Acceptable entries ∧ Settings.load s.toEntries = .ok s ∧
      ∃ problems, Settings.load [(.str "imports_order", .list (order.take 2))] = .error problems ∧
        problems ≠ [] := by
  intro order entries s
  have hLoaded : Settings.load entries = .ok s := Settings.load_eq_ok_iff.mpr
    ⟨by simp [KnownKeys, entries, optionNames], rfl, by simp [Settings.HasPrefixes, s]⟩
  obtain ⟨hAccepted, -, -, hAgain⟩ := load_iff_acceptable entries
  refine ⟨hLoaded, hAccepted.mp ⟨s, hLoaded⟩, hAgain s (.inl hLoaded), ?_⟩
  obtain ⟨hTwo, hProblems, -⟩ :=
    load_iff_acceptable [(.str "imports_order", .list (order.take 2))]
  cases hLoad : Settings.load [(.str "imports_order", .list (order.take 2))] with
  | error problems => exact ⟨problems, rfl, hProblems problems hLoad⟩
  | ok s =>
    obtain hNull | ⟨kinds, hPerm, hItems⟩ := (hTwo.mp ⟨s, hLoad⟩).kindOrder _ rfl
    · cases hNull
    · have hLength := congrArg List.length (Value.list.inj hItems)
      rw [List.length_map, hPerm.length_eq] at hLength
      cases hLength

end UseOrder
