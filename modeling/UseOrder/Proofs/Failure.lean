import UseOrder.Proofs.Engines
import UseOrder.Proofs.Frame

/-!
# When a source text cannot be handled

An import without a terminator is the only thing that can keep a text from being handled, as long
as the terminated ones can be read (`readable`): they hold no further `use`, and none of them
closes a group that it has not opened. Each stage of the work either succeeds or stops at an import
without a terminator (`Halts`). Where all imports are terminated, no stage changes that: a
sub-group is ordered while everything up to the terminators of the sub-groups to come is as it was
(`orderSubGroups_ok`), and what follows the last import begins with a terminator throughout
(`exists_insertBlankLines`).
-/

namespace UseOrder

/-! ## Imports that can be read -/

/-- No brace closes a group before one has opened a group. -/
def closesOpened (body : List Token) : Bool :=
  (body.takeWhile (·.kind != .groupOpen)).all (·.kind != .groupClose)

/-- Every terminated import holds no further `use` and closes no group that it has not opened. -/
def readable : List Token → Bool
  | [] => true
  | t :: rest =>
    let body := rest.takeWhile (!·.isTerminator)
    (t.kind != .useWord || !rest.any Token.isTerminator ||
      body.all (·.kind != .useWord) && closesOpened body) && readable rest

/-- An import at a position has no terminator behind it. -/
def UnendedAt (ts : List Token) (u : Int) : Prop :=
  ∃ before word after, ts = before ++ word :: after ∧ u = (before.length : Nat) ∧
    word.kind = .useWord ∧ ∀ t ∈ after, t.isTerminator = false

/-- What `readable` tells about one import. -/
theorem readable_body {before body after : List Token} {word stop : Token}
    (h : readable (before ++ word :: (body ++ stop :: after)) = true) (hWord : word.kind = .useWord)
    (hBody : ∀ t ∈ body, t.isTerminator = false) (hStop : stop.isTerminator = true) :
    (∀ t ∈ body, t.kind ≠ .useWord) ∧ closesOpened body = true := by
  induction before with
  | nil =>
    simpa [readable, hWord, takeWhile_terminator hBody hStop, hStop] using (Bool.and_eq_true_iff.mp h).1
  | cons t before ih => exact ih (Bool.and_eq_true_iff.mp h).2

/-- A `use` is at the start of a terminated import, or has no terminator behind it. -/
theorem UseAt.cases {ts : List Token} {u : Int} (h : UseAt ts u) :
    UnendedAt ts u ∨ ∃ before word body stop after, ts = before ++ word :: (body ++ stop :: after) ∧
      u = (before.length : Nat) ∧ word.kind = .useWord ∧ stop.isTerminator = true ∧
      ∀ t ∈ body, t.isTerminator = false := by
  obtain ⟨n, rfl, word, hToken, hWord⟩ := h
  obtain ⟨before, rest, rfl, rfl⟩ := exists_split hToken
  by_cases hStop : ∃ t ∈ rest, t.isTerminator = true
  · obtain ⟨body, stop, after, rfl, hStop, hBody⟩ := exists_first hStop
    exact .inr ⟨before, word, body, stop, after, rfl, rfl, hWord, hStop, hBody⟩
  · exact .inl ⟨before, word, rest, rfl, rfl, hWord, fun t ht => by
      simpa using fun hTerm => hStop ⟨t, ht, hTerm⟩⟩

/-- Behind an import without a terminator, no import has one. -/
theorem UnendedAt.of_le {ts : List Token} {u v : Int} (h : UnendedAt ts u) (hv : UseAt ts v)
    (huv : u ≤ v) : UnendedAt ts v := by
  rcases hv.cases with hv | ⟨before', word', body, stop, after', hSplit, rfl, -, hStop, -⟩
  · exact hv
  · obtain ⟨before, word, after, rfl, rfl, hWord, hNone⟩ := h
    -- the terminator stands behind the second `use`, and so behind the first
    have hBehind : (before ++ word :: after).drop (before'.length + 1) = body ++ stop :: after' := by
      rw [hSplit]
      simp
    have hSuffix : (before ++ word :: after).drop (before'.length + 1) =
        after.drop (before'.length - before.length) := by
      rw [show before'.length + 1 = before.length + (before'.length - before.length + 1) by omega,
        ← List.drop_drop, List.drop_left, List.drop_succ_cons]
    have hMem : stop ∈ after := by
      refine List.mem_of_mem_drop (i := before'.length - before.length) ?_
      rw [← hSuffix, hBehind]
      simp
    exact absurd (hNone stop hMem) (by simp [hStop])

/-! ## Reading statements -/

/-- The work succeeds, or it stops at an import without a terminator. -/
def Halts {α : Type} (ts : List Token) (x : Except Fault α) : Prop :=
  (∃ a, x = .ok a) ∨ ∃ u, UnendedAt ts u ∧ x = .error (.unterminated u)

theorem Halts.pure {α : Type} {ts : List Token} (a : α) : Halts ts (.ok a) :=
  .inl ⟨a, rfl⟩

theorem Halts.bind {α β : Type} {ts : List Token} {x : Except Fault α} {f : α → Except Fault β}
    (hx : Halts ts x) (hf : ∀ a, x = .ok a → Halts ts (f a)) : Halts ts (x.bind f) := by
  rcases hx with ⟨a, rfl⟩ | ⟨u, hu, rfl⟩
  · exact hf a rfl
  · exact .inr ⟨u, hu, rfl⟩

theorem Halts.mapM {α β : Type} {ts : List Token} {f : α → Except Fault β} {xs : List α}
    (h : ∀ x ∈ xs, Halts ts (f x)) : Halts ts (xs.mapM f) := by
  induction xs with
  | nil => exact .pure []
  | cons x xs ih =>
    rw [List.mapM_cons]
    refine (h x List.mem_cons_self).bind fun y _ => ?_
    exact (ih fun z hz => h z (List.mem_cons_of_mem _ hz)).bind fun ys _ => .pure _

theorem ok_of_mapM {α β ε : Type} {f : α → Except ε β} {xs : List α} {ys : List β}
    (h : xs.mapM f = .ok ys) {x : α} (hx : x ∈ xs) : ∃ y, f x = .ok y := by
  induction xs generalizing ys with
  | nil => simp at hx
  | cons a xs ih =>
    rw [List.mapM_cons] at h
    obtain ⟨b, hb, hRest⟩ := bind_eq_ok h
    obtain ⟨bs, hbs, -⟩ := bind_eq_ok hRest
    rcases List.mem_cons.mp hx with rfl | hx
    · exact ⟨b, hb⟩
    · exact ih hbs hx

theorem parseStatement_unended (settings : Settings) {ts : List Token} {u : Int}
    (h : UnendedAt ts u) : parseStatement settings ts u = .error (.unterminated u) := by
  obtain ⟨before, word, after, rfl, rfl, -, hAfter⟩ := h
  simp only [parseStatement, tokensAfter_append, List.findIdx?_eq_none_iff.mpr hAfter, bind,
    Except.bind]
  rfl

theorem exists_open_of_close {body : List Token} {closing : Token}
    (h : closesOpened body = true) (hMem : closing ∈ body) (hKind : closing.kind = .groupClose) :
    ∃ t ∈ body, t.kind = .groupOpen := by
  by_contra hNone
  have hWhole : body.takeWhile (·.kind != .groupOpen) = body :=
    List.takeWhile_eq_self_iff.mpr fun t ht => by simpa using fun hOpen => hNone ⟨t, ht, hOpen⟩
  rw [closesOpened, hWhole, List.all_eq_true] at h
  simpa [hKind] using h closing hMem

/-- A group with an opening brace makes a record. -/
theorem groupRecord_ok (settings : Settings) (head : StatementHead) (pos : Int)
    {names : List Token} {opening : Token} (hMem : opening ∈ names)
    (hKind : opening.kind = .groupOpen) : ∃ r, groupRecord settings head pos names = .ok r := by
  have hTrim : opening ∈ trimEnd names := by
    rw [← trimEnd_append_trailingSpace names] at hMem
    rcases List.mem_append.mp hMem with hMem | hMem
    · exact hMem
    · have hSpace := allSpace_trailing names opening hMem
      simp [Token.isWhitespace, hKind] at hSpace
  obtain ⟨i, hi⟩ := Option.isSome_iff_exists.mp
    (List.findIdx?_isSome.trans (List.any_eq_true.mpr ⟨opening, hTrim, by simp [hKind]⟩) :
      ((trimEnd names).findIdx? (·.kind == .groupOpen)).isSome = true)
  exact ⟨_, by simp only [groupRecord, hi]; rfl⟩

/-- A terminated statement can be read, if it closes no group that it has not opened. -/
theorem parseStatement_ok (settings : Settings) {before body after : List Token} {word : Token}
    (hWord : word.kind = .useWord) (hBody : ∀ t ∈ body, t.isTerminator = false)
    (hAfter : after.head?.any Token.isTerminator = true) (hBraces : closesOpened body = true) :
    ∃ records, parseStatement settings (before ++ word :: (body ++ after)) before.length =
      .ok records := by
  rcases @parseStatement_form settings before body after word hBody hAfter with
    ⟨-, hNone⟩ | ⟨lead, qualifier, names, head, rfl, hLead, hPlain, -, -, -, hForm⟩
  · exact ⟨[], hNone⟩
  · -- the `use` is meaningful, so there is a last meaningful token to tell a group by
    obtain ⟨front, t, back, hSplit, ht, hBack⟩ := exists_last_meaningful
      ⟨word, List.mem_cons_self (l := lead ++ (qualifier ++ names)), isMeaningful_of_use hWord⟩
    have hEnds : endsGroup (before ++ word :: (lead ++ (qualifier ++ names) ++ after))
        ((before ++ word :: (lead ++ (qualifier ++ names))).length : Nat) =
          .ok (t.kind == .groupClose) := by
      have hTokens : before ++ word :: (lead ++ (qualifier ++ names) ++ after) =
          (before ++ front) ++ t :: back ++ after := by
        rw [List.append_assoc before, ← hSplit]
        simp
      rw [hSplit, hTokens, ← List.append_assoc]
      exact endsGroup_append ht hBack
    rw [hForm, hEnds]
    simp only [Except.bind]
    split
    · next hClose =>
      -- a group: its opening brace is behind the qualifier, where the record looks for it
      have hKind : t.kind = .groupClose := by simpa using hClose
      have hMem : t ∈ word :: (lead ++ (qualifier ++ names)) := by
        rw [hSplit]
        simp
      have hInside : t ∈ lead ++ (qualifier ++ names) := by
        rcases List.mem_cons.mp hMem with rfl | hMem
        · exact absurd (hWord.symm.trans hKind) (by simp)
        · exact hMem
      obtain ⟨opening, hOpening, hOpen⟩ := exists_open_of_close hBraces hInside hKind
      have hNames : opening ∈ names := by
        have hBrace : opening.isPlain = false := by simp [Token.isPlain, Token.isGroupBrace, hOpen]
        rcases List.mem_append.mp hOpening with hFront | hBehind
        · exact absurd (hLead.isPlain opening hFront) (by simp [hBrace])
        · rcases List.mem_append.mp hBehind with hFront | hNames
          · exact absurd (hPlain opening hFront) (by simp [hBrace])
          · exact hNames
      obtain ⟨r, hr⟩ := groupRecord_ok settings head (head.start + qualifier.length) hNames hOpen
      exact ⟨[r], by rw [hr]; rfl⟩
    · exact ⟨_, rfl⟩

theorem parseStatement_halts (settings : Settings) {ts : List Token} (hReadable : readable ts = true)
    {u : Int} (hUse : UseAt ts u) : Halts ts (parseStatement settings ts u) := by
  rcases hUse.cases with hUnended | ⟨before, word, body, stop, after, rfl, rfl, hWord, hStop, hBody⟩
  · exact .inr ⟨u, hUnended, parseStatement_unended settings hUnended⟩
  · exact .inl (parseStatement_ok settings hWord hBody (by simpa using hStop)
      (readable_body hReadable hWord hBody hStop).2)

/-! ## Writing records -/

theorem tokenAt_ok {ts : List Token} {i : Int} (hLow : 0 ≤ i) (hHigh : i < ts.length) :
    ∃ t, tokenAt ts i = .ok t := by
  obtain ⟨n, rfl⟩ := Int.eq_ofNat_of_zero_le hLow
  have hn : n < ts.length := by omega
  exact ⟨ts[n], tokenAt_natCast.mpr (List.getElem?_eq_getElem hn)⟩

theorem lineIndent_ok {ts : List Token} {i : Int} (hLow : 0 ≤ i) (hHigh : i < ts.length) :
    ∃ indent, lineIndent ts i = .ok indent := by
  rw [lineIndent]
  split
  · exact ⟨_, rfl⟩
  · next hZero =>
    have hNonzero : i ≠ 0 := by simpa using hZero
    obtain ⟨t, ht⟩ := @tokenAt_ok ts (i - 1) (by omega) (by omega)
    rw [ht]
    simp only [bind, Except.bind]
    split <;> exact ⟨_, rfl⟩

/-- A record can be written into every slot that begins inside the tokens. -/
theorem planSlot_ok (layout : Layout) {ts : List Token} (current : Option OpenStatement)
    {slot : Record} (record : Record) (hSlot : slot.start ≤ ts.length) :
    ∃ planned, planSlot layout ts current slot record = .ok planned := by
  cases hPrevious : previousMeaningful ts slot.start with
  | error fault =>
    rw [previousMeaningful] at hPrevious
    split at hPrevious
    · cases hPrevious
    · rw [if_neg (by omega)] at hPrevious
      cases hPrevious
  | ok found =>
    cases found with
    | none => exact ⟨_, by simp only [planSlot, tokenBefore, hPrevious, bind, Except.bind]; rfl⟩
    | some i =>
      obtain ⟨hLow, hHigh⟩ := previousMeaningful_lt hPrevious
      obtain ⟨t, ht⟩ := @tokenAt_ok ts i hLow (by omega)
      obtain ⟨indent, hIndent⟩ := @lineIndent_ok ts i hLow (by omega)
      simp only [planSlot, tokenBefore, hPrevious, ht, bind, Except.bind, pure, Except.pure]
      split
      · exact ⟨_, rfl⟩
      · exact ⟨_, by simp only [startStatement, hIndent, bind, Except.bind]; rfl⟩

theorem planFrom_ok (layout : Layout) {ts : List Token} (current : Option OpenStatement)
    {pairs : List (Record × Record)} (h : ∀ pair ∈ pairs, pair.1.start ≤ ts.length) :
    ∃ edits, planFrom layout ts current pairs = .ok edits := by
  induction pairs generalizing current with
  | nil => exact ⟨[], rfl⟩
  | cons pair pairs ih =>
    obtain ⟨⟨edit, statement⟩, hPlanned⟩ :=
      planSlot_ok layout current pair.2 (h pair List.mem_cons_self)
    obtain ⟨later, hLater⟩ := ih (some statement) fun q hq => h q (List.mem_cons_of_mem _ hq)
    exact ⟨edit :: later, by simp only [planFrom, hPlanned, hLater, bind, Except.bind]; rfl⟩

theorem planRecords_ok (settings : Settings) {ts : List Token} {records : List Record}
    (h : ∀ r ∈ records, r.start ≤ ts.length) :
    ∃ edits, planRecords settings ts records = .ok edits :=
  planFrom_ok settings.layout none fun pair hPair => h pair.1 (List.of_mem_zip hPair).1

/-- A sub-group whose statements can be read can be ordered. -/
theorem orderSubGroup_ok (settings : Settings) {p : Progress} {group : SubGroup}
    {regions : List Region} {last : List Token} (hFramed : Framed last regions)
    (hTokens : p.tokens = regionTokens regions last)
    (hUses : ∀ u ∈ group.uses, UseAt p.tokens u)
    (hDivided : group.uses.Pairwise (Divided p.tokens))
    (hParsed : ∀ u ∈ group.uses, ∃ records, parseStatement settings p.tokens u = .ok records) :
    ∃ next, orderSubGroup settings p group = .ok next := by
  obtain ⟨parsed, hParsed⟩ := exists_mapM_ok hParsed
  have hRecords : parseStatements settings p.tokens group.uses = .ok parsed.flatten := by
    rw [parseStatements, hParsed]
    rfl
  have hSlots := (parseStatements_slots hUses hDivided hRecords).1
  -- every slot ends in front of a terminator, so it begins inside the tokens
  obtain ⟨edits, hEdits⟩ := @planRecords_ok settings p.tokens parsed.flatten fun r hr => by
    obtain ⟨⟨u, stop, -, hStatement, -, hStop⟩, hOrder⟩ := hSlots r hr
    obtain ⟨t, ht, -⟩ := hStatement.stop
    obtain ⟨hLength, -⟩ := List.getElem?_eq_some_iff.mp ht
    omega
  obtain ⟨regions', count, hApplied, -⟩ :=
    applyEdits_frame hFramed hTokens hUses hDivided hRecords hEdits
  exact ⟨_, by simp only [orderSubGroup, hRecords, hEdits, hApplied, bind, Except.bind]; rfl⟩

/-! ## Sub-groups -/

theorem statementEnd_unended {ts : List Token} {u : Int} (h : UnendedAt ts u) :
    statementEnd ts u = .error (.unterminated u) := by
  obtain ⟨before, word, after, rfl, rfl, -, hAfter⟩ := h
  rw [statementEnd, nextWhere_append, List.findIdx?_eq_none_iff.mpr hAfter]
  rfl

/-- Whether a statement follows another can be told, if it has a terminator. -/
theorem follows_halts {ts : List Token} {u : Int} (hUse : UseAt ts u) (v : Int) :
    Halts ts (follows ts u v) := by
  rcases hUse.cases with hUnended | ⟨before, word, body, stop, after, rfl, rfl, -, hStop, hBody⟩
  · refine .inr ⟨u, hUnended, ?_⟩
    rw [follows, statementEnd_unended hUnended]
    rfl
  · obtain ⟨start, hStart, -, hFollows⟩ := @exists_resumed before body after word stop hBody hStop
    obtain ⟨found, hFound⟩ := nextWhere_ok Token.isMeaningful
      (before ++ word :: (body ++ stop :: after)) (show 0 ≤ start by omega)
    exact .inl ⟨_, by rw [hFollows, nextMeaningful, hFound]; rfl⟩

theorem splitRun_halts {ts : List Token} {run : List Int} (hUses : ∀ u ∈ run, UseAt ts u) :
    Halts ts (splitRun ts run) := by
  induction run with
  | nil => exact .pure []
  | cons u run ih =>
    cases run with
    | nil => exact .pure [[u]]
    | cons v rest =>
      rw [splitRun]
      refine (follows_halts (hUses u List.mem_cons_self) v).bind fun joined _ => ?_
      refine (ih fun w hw => hUses w (List.mem_cons_of_mem _ hw)).bind fun groups _ => ?_
      split <;> exact .pure _

theorem subGroupsFrom_halts {ts : List Token} (n : Nat) {runs : List (List Int)}
    (hUses : ∀ u ∈ runs.flatten, UseAt ts u) : Halts ts (subGroupsFrom ts n runs) := by
  induction runs generalizing n with
  | nil => exact .pure []
  | cons run runs ih =>
    rw [subGroupsFrom]
    refine (splitRun_halts fun u hu => hUses u (by simp [hu])).bind fun groups _ => ?_
    exact (ih (n + 1) fun u hu => hUses u (List.mem_append.mpr (.inr hu))).bind fun later _ =>
      .pure _

/-- Every `use` is found in some run. -/
theorem mem_importRunsFrom {ts : List Token} {n : Nat} {word : Token} (i : Nat)
    (hToken : ts[n]? = some word) (hWord : word.kind = .useWord) :
    ((i + n : Nat) : Int) ∈ (importRunsFrom i ts).flatten := by
  induction ts generalizing i n with
  | nil => simp at hToken
  | cons t ts ih =>
    rw [importRunsFrom]
    cases n with
    | zero =>
      obtain rfl : t = word := by simpa using hToken
      simp only [hWord, beq_self_eq_true, if_true, show
        (TokenKind.useWord == TokenKind.namespaceWord) = false from rfl, Bool.false_eq_true, if_false]
      split <;> simp
    | succ n =>
      have hLater := ih (i + 1) (by simpa using hToken)
      rw [show i + 1 + n = i + (n + 1) by omega] at hLater
      split
      · simpa using hLater
      · split
        · split
          · next hNil => simp [hNil] at hLater
          · next hRuns =>
            rw [hRuns] at hLater
            exact List.mem_cons_of_mem _ hLater
        · exact hLater

theorem UnendedAt.mem_importRuns {ts : List Token} {u : Int} (h : UnendedAt ts u) :
    u ∈ (importRuns ts).flatten := by
  obtain ⟨before, word, after, rfl, rfl, hWord, -⟩ := h
  have hToken : (before ++ word :: after)[before.length]? = some word := by simp
  rw [importRuns]
  simpa using mem_importRunsFrom 0 hToken hWord

/-! ## All imports have terminators -/

/-- The position behind the terminator of an import. -/
def stopOf (ts : List Token) (u : Int) : Nat :=
  (u + 1).toNat + ((ts.drop (u + 1).toNat).takeWhile (!·.isTerminator)).length + 1

theorem stopOf_append {before body after : List Token} {word stop : Token}
    (hBody : ∀ t ∈ body, t.isTerminator = false) (hStop : stop.isTerminator = true) :
    stopOf (before ++ word :: (body ++ stop :: after)) (before.length : Nat) =
      (before ++ word :: (body ++ [stop])).length := by
  have hDrop : (before ++ word :: (body ++ stop :: after)).drop ((before.length : Int) + 1).toNat =
      body ++ stop :: after := by
    rw [show ((before.length : Int) + 1).toNat = (before ++ [word]).length by simp,
      show before ++ word :: (body ++ stop :: after) = (before ++ [word]) ++ (body ++ stop :: after)
        by simp, List.drop_left]
  rw [stopOf, hDrop, takeWhile_terminator hBody hStop]
  simp only [List.length_append, List.length_cons, List.length_nil]
  omega

/-- An import that can be read ends in front of the next one. -/
theorem stopOf_le {ts : List Token} (hReadable : readable ts = true)
    (hEnded : ∀ u, ¬ UnendedAt ts u) {u : Int} (hu : UseAt ts u) :
    (u + 1).toNat ≤ stopOf ts u ∧ ∀ v, UseAt ts v → u < v → (stopOf ts u : Int) ≤ v := by
  refine ⟨by unfold stopOf; omega, fun v hv huv => ?_⟩
  rcases hu.cases with hUnended | ⟨before, word, body, stop, after, rfl, rfl, hWord, hStop, hBody⟩
  · exact absurd hUnended (hEnded u)
  · rw [stopOf_append hBody hStop]
    obtain ⟨n, rfl, next, hNext, hKind⟩ := hv
    by_contra hInside
    -- up to its terminator, the import holds no further `use`
    have hMem : next ∈ body ++ [stop] := by
      rw [show before ++ word :: (body ++ stop :: after) =
        before ++ word :: ((body ++ [stop]) ++ after) by simp] at hNext
      refine (standsAt_body before (body ++ [stop]) after word).mem hNext (by omega) ?_
      simp only [List.length_append, List.length_cons, List.length_nil] at hInside ⊢
      omega
    rcases List.mem_append.mp hMem with hMem | hMem
    · exact (readable_body hReadable hWord hBody hStop).1 next hMem hKind
    · obtain rfl : next = stop := by simpa using hMem
      simp [Token.isTerminator, Token.isPunct, hKind] at hStop

/-- A statement that is as it was up to its terminator can be read. -/
theorem parseStatement_of_take (settings : Settings) {ts current : List Token}
    (hReadable : readable ts = true) (hEnded : ∀ u, ¬ UnendedAt ts u) {u : Int} (hu : UseAt ts u)
    (hTake : current.take (stopOf ts u) = ts.take (stopOf ts u)) :
    ∃ records, parseStatement settings current u = .ok records := by
  rcases hu.cases with hUnended | ⟨before, word, body, stop, after, rfl, rfl, hWord, hStop, hBody⟩
  · exact absurd hUnended (hEnded u)
  · have hFront : current.take (before ++ word :: (body ++ [stop])).length =
        before ++ word :: (body ++ [stop]) := by
      rw [← @stopOf_append before body after word stop hBody hStop, hTake, stopOf_append hBody hStop,
        show before ++ word :: (body ++ stop :: after) =
          (before ++ word :: (body ++ [stop])) ++ after by simp, List.take_left]
    have hCurrent : current = before ++ word :: (body ++ stop ::
        current.drop (before ++ word :: (body ++ [stop])).length) := by
      conv_lhs => rw [← List.take_append_drop (before ++ word :: (body ++ [stop])).length current,
        hFront]
      simp
    rw [hCurrent]
    exact parseStatement_ok settings hWord hBody (by simpa using hStop)
      (readable_body hReadable hWord hBody hStop).2

/-- Sub-groups with terminated imports can be ordered, from the last to the first. -/
theorem orderSubGroups_ok (settings : Settings) {ts : List Token} (hReadable : readable ts = true)
    (hEnded : ∀ u, ¬ UnendedAt ts u) {groups : List SubGroup} {p : Progress}
    {regions : List Region} {last : List Token} (hFramed : Framed last regions)
    (hTokens : p.tokens = regionTokens regions last)
    (hPending : Pending ts (stopOf ts) p.tokens groups) :
    ∃ next, orderSubGroups settings p groups = .ok next := by
  -- the regions carry over: ordering changes bodies, and those of `g` stand behind what is pending
  induction groups generalizing p regions with
  | nil => exact ⟨p, rfl⟩
  | cons g groups ih =>
    obtain ⟨hUses, hDivided⟩ := hPending.head
    obtain ⟨q, hq⟩ := orderSubGroup_ok settings hFramed hTokens hUses hDivided
      fun u hu => parseStatement_of_take settings hReadable hEnded
        (hPending.use g List.mem_cons_self u hu).1 (hPending.kept g List.mem_cons_self u hu)
    obtain ⟨regions', hTokens', hFrame, hFront⟩ :=
      orderSubGroup_frame hFramed hTokens hUses hDivided hq
    obtain ⟨next, hNext⟩ := ih (hFramed.of_sameFrame hFrame) hTokens' (hPending.step hFront)
    exact ⟨next, by simp only [orderSubGroups, hq, hNext, bind, Except.bind]⟩

/-- Blank lines can be added between terminated imports. -/
theorem exists_insertBlankLines (layout : Layout) {ts : List Token}
    (hEnded : ∀ u, ¬ UnendedAt ts u) : ∃ spaced, insertBlankLines layout ts = .ok spaced := by
  have hUses := (importRuns_uses ts).2
  obtain ⟨front, stretches, rfl, hFront, hStretches⟩ := exists_stretches ts
  rw [flatten_importRuns hFront hStretches] at hUses
  have hSegment : ∀ u ∈ usesOf front.length stretches, ∃ segment,
      leadingSegment (front ++ stretches.flatMap Stretch.tokens) u = .ok segment := by
    intro u hu
    rcases (hUses u hu).cases with hUnended | ⟨before, word, body, stop, after, hSplit, rfl, -,
      hStop, -⟩
    · exact absurd hUnended (hEnded u)
    · rw [hSplit]
      exact exists_leadingSegment before word ⟨stop, by simp, hStop⟩
  obtain ⟨segments, hSegments⟩ := exists_mapM_ok hSegment
  exact ⟨_, insertBlankLines_stretches layout hFront hStretches hSegments⟩

/-- What follows the outermost imports begins with a terminator, if all imports have one. -/
theorem terminator_mem_last {ts : List Token} (hEnded : ∀ u, ¬ UnendedAt ts u)
    (h : (outermost ts).1 ≠ []) : ∃ t ∈ (outermost ts).2, t.isTerminator = true := by
  have hTokens := regionTokens_outermost ts
  have hFramed := framed_outermost ts
  have hBodies := body_outermost ts
  generalize (outermost ts).1 = regions at *
  generalize (outermost ts).2 = last at *
  subst hTokens
  by_contra hNone
  -- otherwise the last of the outermost imports has no terminator
  obtain ⟨front, r, rfl⟩ : ∃ front r, regions = front ++ [r] :=
    ⟨_, _, (List.dropLast_append_getLast h).symm⟩
  refine hEnded _ ⟨front.flatMap Region.tokens ++ r.gap, r.word, r.body ++ last, ?_, rfl, ?_, ?_⟩
  · simp [regionTokens, Region.tokens]
  · exact hFramed.word_of_mem r (by simp)
  · intro t ht
    rcases List.mem_append.mp ht with ht | ht
    · exact hBodies r (by simp) t ht
    · simpa using fun hTerm => hNone ⟨t, ht, hTerm⟩

/-- Tokens with the same frame have only terminated imports too. -/
theorem ended_of_sameFrame {ts : List Token} (hEnded : ∀ u, ¬ UnendedAt ts u)
    {regions : List Region} (hFrame : SameFrame (outermost ts).1 regions) (u : Int) :
    ¬ UnendedAt (regionTokens regions (outermost ts).2) u := by
  rintro ⟨before, word, after, hSplit, -, hWord, hNone⟩
  have hLast := (framed_outermost ts).last
  by_cases hEmpty : (outermost ts).1 = []
  · rw [hEmpty] at hFrame
    cases hFrame
    exact hLast word (by simp [regionTokens] at hSplit; simp [hSplit]) hWord
  · obtain ⟨stop, hStop, hTerm⟩ := terminator_mem_last hEnded hEmpty
    -- the `use` stands in front of what follows the imports
    rw [regionTokens, List.append_eq_append_iff] at hSplit
    rcases hSplit with ⟨more, -, hMore⟩ | ⟨more, -, hMore⟩
    · exact hLast word (by rw [hMore]; simp) hWord
    · have hMem : stop ∈ word :: after := by
        rw [hMore]
        exact List.mem_append_right _ hStop
      rcases List.mem_cons.mp hMem with rfl | hMem
      · exact hLast stop hStop hWord
      · exact absurd (hNone stop hMem) (by simp [hTerm])

/-! ## The whole work -/

/-- Terminated imports that can be read are put in order. -/
theorem fixTokens_ended (settings : Settings) {source : Text}
    (hReadable : readable (classify (lex source)) = true)
    (hEnded : ∀ u, ¬ UnendedAt (classify (lex source)) u) :
    ∃ fixed, fixTokens settings (classify (lex source)) = .ok fixed := by
  rcases subGroupsFrom_halts 0 (importRuns_uses (classify (lex source))).2 with
    ⟨groups, hGroups⟩ | ⟨u, hu, -⟩
  · have hPending := pending_subGroups hGroups fun u hu => stopOf_le hReadable hEnded hu
    obtain ⟨ordered, hOrdered⟩ := orderSubGroups_ok settings
      (p := ⟨classify (lex source), 0, 0⟩) hReadable hEnded (framed_outermost _)
      (regionTokens_outermost _).symm hPending
    obtain ⟨regions, hTokens, hFrame⟩ := orderSubGroups_outermost hGroups hOrdered
    obtain ⟨spaced, hSpaced⟩ :=
      exists_insertBlankLines settings.layout (ended_of_sameFrame hEnded hFrame)
    rw [← hTokens] at hSpaced
    have hAll : subGroups (classify (lex source)) = .ok groups := hGroups
    exact ⟨_, by simp only [fixTokens, hAll, hOrdered, hSpaced, bind, Except.bind]; rfl⟩
  · exact absurd hu (hEnded u)

/-- If some import has no terminator, one in the last sub-group has none. -/
theorem exists_unended_last {source : Text} {groups : List SubGroup} {g : SubGroup} {u : Int}
    (hGroups : subGroups (classify (lex source)) = .ok (groups ++ [g]))
    (hu : UnendedAt (classify (lex source)) u) :
    ∃ v ∈ g.uses, UnendedAt (classify (lex source)) v := by
  obtain ⟨hIncreasing, hUses⟩ := importRuns_uses (classify (lex source))
  obtain ⟨hFlat, hParts⟩ := subGroupsFrom_uses hUses hGroups
  have hMem := hFlat ▸ hu.mem_importRuns
  rw [List.flatMap_append, List.flatMap_singleton] at hFlat hMem
  rcases List.mem_append.mp hMem with hFront | hLast
  · -- an import of the last sub-group stands behind it
    obtain ⟨v, others, hv⟩ := List.exists_cons_of_ne_nil (hParts g (by simp)).1
    rw [← hFlat] at hIncreasing hUses
    have hvMem : v ∈ g.uses := by simp [hv]
    have hLess := (List.pairwise_append.mp hIncreasing).2.2 u hFront v hvMem
    exact ⟨v, hvMem, hu.of_le (hUses v (List.mem_append_right _ hvMem)) hLess.le⟩
  · exact ⟨u, hLast, hu⟩

/-- An import without a terminator stops the work, and is what it names. -/
theorem fixTokens_unended (settings : Settings) {source : Text} {u : Int}
    (hReadable : readable (classify (lex source)) = true)
    (hu : UnendedAt (classify (lex source)) u) :
    ∃ v, fixTokens settings (classify (lex source)) = .error (.unterminated v) := by
  have hUses := (importRuns_uses (classify (lex source))).2
  rcases subGroupsFrom_halts 0 hUses with ⟨groups, hGroups⟩ | ⟨v, -, hv⟩
  · have hAll : subGroups (classify (lex source)) = .ok groups := hGroups
    obtain ⟨hFlat, -⟩ := subGroupsFrom_uses hUses hGroups
    rcases List.eq_nil_or_concat groups with rfl | ⟨front, g, rfl⟩
    · -- there is an import, and so there is a sub-group
      have hMem := hu.mem_importRuns
      rw [← hFlat] at hMem
      exact absurd hMem (by simp)
    · -- the last sub-group comes first, and its imports are read from the tokens as they are
      rw [List.concat_eq_append] at hAll hFlat
      obtain ⟨w, hw, hUnended⟩ := exists_unended_last hAll hu
      have hLast : ∀ x ∈ g.uses, UseAt (classify (lex source)) x := fun x hx => hUses x (by
        rw [← hFlat]
        simp [hx])
      have hStops : ∃ v, parseStatements settings (classify (lex source)) g.uses =
          .error (.unterminated v) := by
        rcases Halts.mapM fun x hx => parseStatement_halts settings hReadable (hLast x hx) with
          ⟨parsed, hParsed⟩ | ⟨v, -, hv⟩
        · obtain ⟨records, hRecords⟩ := ok_of_mapM hParsed hw
          rw [parseStatement_unended settings hUnended] at hRecords
          cases hRecords
        · exact ⟨v, by rw [parseStatements, hv]; rfl⟩
      obtain ⟨v, hv⟩ := hStops
      refine ⟨v, ?_⟩
      simp only [fixTokens, hAll, List.reverse_append, List.reverse_singleton, List.singleton_append,
        orderSubGroups, orderSubGroup, hv, bind, Except.bind]
  · have hAll : subGroups (classify (lex source)) = .error (.unterminated v) := hv
    exact ⟨v, by simp only [fixTokens, hAll, bind, Except.bind]⟩

/-- Imports that can be read are put in order, or the work stops because one has no terminator. -/
theorem fixTokens_readable (settings : Settings) {source : Text}
    (h : readable (classify (lex source)) = true) :
    (∃ u v, UnendedAt (classify (lex source)) u ∧
      fixTokens settings (classify (lex source)) = .error (.unterminated v)) ∨
    ((¬ ∃ u, UnendedAt (classify (lex source)) u) ∧
      ∃ counts fixed, fixTokens settings (classify (lex source)) = .ok (counts, fixed)) := by
  by_cases hUnended : ∃ u, UnendedAt (classify (lex source)) u
  · obtain ⟨u, hu⟩ := hUnended
    obtain ⟨v, hv⟩ := fixTokens_unended settings h hu
    exact .inl ⟨u, v, hu, hv⟩
  · obtain ⟨⟨counts, fixed⟩, hFixed⟩ := fixTokens_ended settings h fun u hu => hUnended ⟨u, hu⟩
    exact .inr ⟨hUnended, counts, fixed, hFixed⟩

/-- There is a result for every text whose imports can be read. -/
theorem exists_fixSource (settings : Settings) {tokenizer : TokenizerSettings}
    (hEngine : tokenizer.engine = .builtIn) (outcome : ProcessOutcome) (path : Option String)
    {source : Text} (h : readable (classify (lex source)) = true) :
    ∃ r, fixSource settings tokenizer outcome path source = .ok r := by
  rw [fixSource_builtIn hEngine]
  rcases fixTokens_readable settings h with ⟨u, v, -, hStops⟩ | ⟨-, counts, fixed, hFixed⟩
  · rw [hStops]
    split <;> exact ⟨_, rfl⟩
  · rw [hFixed]
    split <;> exact ⟨_, rfl⟩

/-- Failure is exact and leaves the text alone. Where no import holds a further `use` or closes a
group that it has not opened, there is a result for every text. It reports an issue exactly if no
terminator stands behind some import; the text is then as it was, and the one issue says so. -/
theorem fixSource_fails_iff_unended (settings : Settings) (tokenizer : TokenizerSettings)
    (hEngine : tokenizer.engine = .builtIn) (outcome : ProcessOutcome) (path : Option String)
    (source : Text) (h : readable (classify (lex source)) = true) :
    ∃ r, fixSource settings tokenizer outcome path source = .ok r ∧
      (r.ok = false ↔ ∃ u, UnendedAt (classify (lex source)) u) ∧
      (r.ok = false → r.code = source ∧ r.changed = false ∧
        r.issues.map FixIssue.code = ["FIX_UNTERMINATED_IMPORT"]) ∧
      (r.ok = true → r.issues = []) := by
  rw [fixSource_builtIn hEngine]
  rcases fixTokens_readable settings h with ⟨u, v, hu, hStops⟩ | ⟨hEnded, counts, fixed, hFixed⟩
  · -- an import without a terminator is an import, so the tokens are worked on
    have hUse : hasKind .useWord (classify (lex source)) = true := by
      obtain ⟨before, word, after, hSplit, -, hWord, -⟩ := hu
      rw [hSplit]
      simp [hasKind, hWord]
    rw [if_pos hUse, hStops]
    refine ⟨_, rfl, ⟨fun _ => ⟨u, hu⟩, fun _ => rfl⟩, fun _ => ⟨rfl, rfl, rfl⟩, ?_⟩
    exact fun hOk => absurd hOk (by simp [FixResult.ok, FixResult.issues])
  · -- the result has no issue, with imports or without
    rw [hFixed]
    split <;> refine ⟨_, rfl, ⟨fun hFails => ?_, fun hu => absurd hu hEnded⟩, fun hFails => ?_,
      fun _ => rfl⟩ <;> exact absurd hFails (by simp [FixResult.ok, FixResult.issues])

theorem fixSource_fails_iff_unended_of_open :
    readable (classify (lex "<?php\nuse B, A\\\x7bD, C\x7d;\nuse function E".toList)) = true ∧
      ∃ r, fixSource {} ⟨.builtIn, "php", .whole 30⟩ .notFound none
          "<?php\nuse B, A\\\x7bD, C\x7d;\nuse function E".toList = .ok r ∧
        (r.ok = false ↔ ∃ u,
          UnendedAt (classify (lex "<?php\nuse B, A\\\x7bD, C\x7d;\nuse function E".toList)) u) ∧
        (r.ok = false → r.code = "<?php\nuse B, A\\\x7bD, C\x7d;\nuse function E".toList ∧
          r.changed = false ∧ r.issues.map FixIssue.code = ["FIX_UNTERMINATED_IMPORT"]) ∧
        (r.ok = true → r.issues = []) := by
  have hReadable : readable
      (classify (lex "<?php\nuse B, A\\\x7bD, C\x7d;\nuse function E".toList)) = true := by
    decide +kernel
  exact ⟨hReadable, fixSource_fails_iff_unended {} ⟨.builtIn, "php", .whole 30⟩ rfl .notFound none
    "<?php\nuse B, A\\\x7bD, C\x7d;\nuse function E".toList hReadable⟩

end UseOrder
