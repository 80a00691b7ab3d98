import UseOrder.Import.Spacing
import UseOrder.Proofs.Runs

/-!
# Blank lines

Blank lines are only ever added in front of a `use`, to what stands between it and the `use`
before. So the tokens are cut into stretches, each a `use` and what follows it up to the next one,
and adding blank lines opens the ends of some stretches (`insertBlankLines_stretches`). What an end
is opened with are line endings and the white space that was there, or line endings alone
(`openUp_cases`), so blanks stay blanks (`BlankSpaced.openUp`).
-/

namespace UseOrder

/-! ## White space at the end -/

theorem trailingSpace_append_of_ne_nil (before : List Token) {ts : List Token}
    (h : trimEnd ts ≠ []) : trailingSpace (before ++ ts) = trailingSpace ts := by
  have hWhole := trimEnd_append_trailingSpace (before ++ ts)
  have hPart := trimEnd_append_trailingSpace ts
  rw [trimEnd_append_of_ne_nil before h, List.append_assoc, List.append_cancel_left_eq] at hWhole
  exact List.append_cancel_left (hWhole.trans hPart.symm)

theorem trailingSpace_cons {t : Token} (ht : t.isWhitespace = false) (rest : List Token) :
    trailingSpace (t :: rest) = trailingSpace rest := by
  have hSplit := trimEnd_append_trailingSpace (t :: rest)
  rw [trimEnd_cons ht, List.cons_append] at hSplit
  exact List.append_cancel_left
    ((List.cons.inj hSplit).2.trans (trimEnd_append_trailingSpace rest).symm)

theorem lineBreaks_append_of_ne_nil (before : List Token) {ts : List Token} (h : trimEnd ts ≠ []) :
    lineBreaks (before ++ ts) = lineBreaks ts := by
  have hLast : (before ++ trimEnd ts).getLast? = (trimEnd ts).getLast? := by
    obtain ⟨rest, t, hTrim, -⟩ := trimEnd_last h
    rw [hTrim, ← List.append_assoc, List.getLast?_concat, List.getLast?_concat]
  rw [lineBreaks, lineBreaks, trimEnd_append_of_ne_nil before h,
    trailingSpace_append_of_ne_nil before h, hLast]

/-! ## Opening a blank line -/

/-- The tokens with at least two line breaks at their end. White space on one line is replaced,
indentation is kept. -/
def openUp (lineEnding : Text) (before : List Token) : List Token :=
  let breaks := lineBreaks before
  if 2 ≤ breaks then before
  else trimEnd before ++ [⟨.whitespace, (List.replicate (2 - breaks) lineEnding).flatten ++
    if breaks == 0 then [] else textOf (trailingSpace before)⟩]

/-- Ensuring a blank line opens up what stands before. -/
theorem ensureBlankLine_append (lineEnding : Text) (before after : List Token) :
    ensureBlankLine lineEnding (before ++ after) (before.length : Nat) =
      .ok (decide (lineBreaks before < 2), openUp lineEnding before ++ after) := by
  have hRange : ¬ (((before ++ after).length : Int) < (before.length : Nat)) := by
    simp only [List.length_append]
    omega
  simp only [ensureBlankLine, hRange, if_false, Int.toNat_natCast, List.take_left, List.drop_left,
    openUp]
  split
  · next h =>
    have hNot : ¬ lineBreaks before < 2 := by omega
    simp [hNot]
  · next h =>
    have hLess : lineBreaks before < 2 := by omega
    split
    · next hEmpty =>
      have hSpace : trailingSpace before = [] := by simpa using hEmpty
      have hTrim : trimEnd before = before := by
        have hSplit := trimEnd_append_trailingSpace before
        rwa [hSpace, List.append_nil] at hSplit
      simp [hLess, insertAt, bound_natCast, hTrim, hSpace, textOf]
    · simp [hLess]

theorem openUp_append_of_ne_nil (lineEnding : Text) (before : List Token) {ts : List Token}
    (h : trimEnd ts ≠ []) : openUp lineEnding (before ++ ts) = before ++ openUp lineEnding ts := by
  simp only [openUp, lineBreaks_append_of_ne_nil before h, trimEnd_append_of_ne_nil before h,
    trailingSpace_append_of_ne_nil before h]
  split <;> simp

/-- A `use` is no white space, so what stands in front of it does not count. -/
theorem lineBreaks_use (before : List Token) {word : Token} (hWord : word.kind = .useWord)
    (rest : List Token) : lineBreaks (before ++ word :: rest) = lineBreaks rest := by
  have hSpace : word.isWhitespace = false := by simp [Token.isWhitespace, hWord]
  have hLine : opensLine word = false := by simp [opensLine, hWord]
  have hTrim := trimEnd_cons hSpace rest
  rw [lineBreaks_append_of_ne_nil before (by simp [hTrim]), lineBreaks, lineBreaks, hTrim,
    trailingSpace_cons hSpace, List.getLast?_cons]
  cases (trimEnd rest).getLast? <;> simp [hLine]

/-- Opening up leaves a `use` in place. -/
theorem openUp_use (lineEnding : Text) (before : List Token) {word : Token}
    (hWord : word.kind = .useWord) (rest : List Token) :
    openUp lineEnding (before ++ word :: rest) =
      before ++ word :: openUp lineEnding rest := by
  have hSpace : word.isWhitespace = false := by simp [Token.isWhitespace, hWord]
  have hTrim := trimEnd_cons hSpace rest
  have hBreaks : lineBreaks (word :: rest) = lineBreaks rest := lineBreaks_use [] hWord rest
  rw [openUp_append_of_ne_nil lineEnding before (by simp [hTrim])]
  simp only [openUp, hBreaks, hTrim, trailingSpace_cons hSpace]
  split <;> simp

theorem openUp_of_le {lineEnding : Text} {ts : List Token} (h : 2 ≤ lineBreaks ts) :
    openUp lineEnding ts = ts := by
  simp [openUp, h]

/-- White space that takes the place of `old` to make a blank line: line endings, and behind them
`old` or nothing. -/
structure Opening (lineEnding old : Text) (space : Token) : Prop where
  kind : space.isWhitespace = true
  content : ∃ n kept, space.content = (List.replicate (n + 1) lineEnding).flatten ++ kept ∧
    (kept = [] ∨ kept = old)

/-- Where a blank line is, opening up changes nothing. Otherwise one token takes the place of the
white space at the end. -/
theorem openUp_cases (lineEnding : Text) (gap : List Token) :
    (2 ≤ lineBreaks gap ∧ openUp lineEnding gap = gap) ∨
      lineBreaks gap < 2 ∧ ∃ space, openUp lineEnding gap = trimEnd gap ++ [space] ∧
        Opening lineEnding (textOf (trailingSpace gap)) space := by
  by_cases hTwo : 2 ≤ lineBreaks gap
  · exact .inl ⟨hTwo, openUp_of_le hTwo⟩
  · -- at least one line ending is written, and white space on one line goes
    have hMissing : 2 - lineBreaks gap = (1 - lineBreaks gap) + 1 := by omega
    refine .inr ⟨by omega, _, by rw [openUp, if_neg hTwo], rfl, 1 - lineBreaks gap,
      if lineBreaks gap == 0 then [] else textOf (trailingSpace gap), ?_, ?_⟩
    · rw [hMissing]
    · split
      · exact .inl rfl
      · exact .inr rfl

/-- A gap and the opened gap are the same tokens with other white space behind them. -/
theorem exists_openUp_eq (lineEnding : Text) (gap : List Token) :
    ∃ space, AllSpace space ∧ openUp lineEnding gap = trimEnd gap ++ space := by
  rcases openUp_cases lineEnding gap with ⟨-, hSame⟩ | ⟨-, space, hOpened, hSpace⟩
  · refine ⟨trailingSpace gap, allSpace_trailing gap, ?_⟩
    rw [hSame]
    exact (trimEnd_append_trailingSpace gap).symm
  · refine ⟨[space], fun t ht => ?_, hOpened⟩
    rw [List.mem_singleton.mp ht]
    exact hSpace.kind

/-! ## Blanks -/

/-- White space that is made of blanks. -/
def Token.isBlankSpace (t : Token) : Bool :=
  t.isWhitespace && t.content.all isBlank

/-- All white space is made of blanks. -/
def BlankSpaced (ts : List Token) : Prop :=
  ∀ t ∈ ts, t.isWhitespace = true → t.isBlankSpace = true

theorem LineEnding.text_head (e : LineEnding) :
    e.text.head? = some '\r' ∨ e.text.head? = some '\n' := by
  cases e <;> decide

theorem LineEnding.text_blank (e : LineEnding) : ∀ d ∈ e.text, isBlank d = true := by
  cases e <;> exact List.all_eq_true.mp (by decide)

theorem BlankSpaced.trailing {ts : List Token} (h : BlankSpaced ts) :
    ∀ d ∈ textOf (trailingSpace ts), isBlank d = true := by
  intro d hd
  obtain ⟨t, ht, hdt⟩ := List.mem_flatMap.mp hd
  have hMem : t ∈ ts := by
    rw [← trimEnd_append_trailingSpace ts]
    exact List.mem_append_right _ ht
  have hBlank := h t hMem (allSpace_trailing ts t ht)
  rw [Token.isBlankSpace, Bool.and_eq_true] at hBlank
  exact List.all_eq_true.mp hBlank.2 d hdt

/-- What is written in the place of blanks is made of blanks. -/
theorem Opening.blank {e : LineEnding} {old : Text} {space : Token} (h : Opening e.text old space)
    (hOld : ∀ d ∈ old, isBlank d = true) : ∀ d ∈ space.content, isBlank d = true := by
  obtain ⟨n, kept, hContent, hKept⟩ := h.content
  intro d hd
  rw [hContent, List.mem_append, List.mem_flatten] at hd
  rcases hd with ⟨part, hPart, hd⟩ | hd
  · rw [List.eq_of_mem_replicate hPart] at hd
    exact e.text_blank d hd
  · rcases hKept with rfl | rfl
    · simp at hd
    · exact hOld d hd

theorem Opening.isBlankSpace {e : LineEnding} {old : Text} {space : Token}
    (h : Opening e.text old space) (hOld : ∀ d ∈ old, isBlank d = true) :
    space.isBlankSpace = true := by
  rw [Token.isBlankSpace, h.kind, Bool.true_and]
  exact List.all_eq_true.mpr (h.blank hOld)

theorem Opening.head {e : LineEnding} {old : Text} {space : Token} (h : Opening e.text old space) :
    space.content.head? = some '\r' ∨ space.content.head? = some '\n' := by
  obtain ⟨n, kept, hContent, -⟩ := h.content
  rw [hContent, List.replicate_succ, List.flatten_cons, List.append_assoc, List.head?_append]
  rcases e.text_head with hHead | hHead <;> simp [hHead]

theorem BlankSpaced.opening {ts : List Token} {e : LineEnding} {space : Token} (h : BlankSpaced ts)
    (hSpace : Opening e.text (textOf (trailingSpace ts)) space) :
    BlankSpaced (trimEnd ts ++ [space]) := by
  intro t ht hWhite
  rcases List.mem_append.mp ht with ht | ht
  · exact h t (mem_of_mem_trimEnd ht) hWhite
  · rw [List.mem_singleton.mp ht]
    exact hSpace.isBlankSpace h.trailing

/-- Opening up writes blanks only. -/
theorem BlankSpaced.openUp {ts : List Token} (h : BlankSpaced ts) (e : LineEnding) :
    BlankSpaced (openUp e.text ts) := by
  rcases openUp_cases e.text ts with ⟨-, hSame⟩ | ⟨-, space, hOpened, hSpace⟩
  · rwa [hSame]
  · rw [hOpened]
    exact h.opening hSpace

/-! ## Counting line breaks -/

theorem trimEnd_trimEnd (ts : List Token) : trimEnd (trimEnd ts) = trimEnd ts := by
  have hSpace := @trimEnd_append_space (trimEnd ts) _ (allSpace_trailing ts)
  rw [trimEnd_append_trailingSpace] at hSpace
  exact hSpace.symm

theorem trailingSpace_trimEnd_append {space : List Token} (h : AllSpace space) (ts : List Token) :
    trailingSpace (trimEnd ts ++ space) = space := by
  have hSplit := trimEnd_append_trailingSpace (trimEnd ts ++ space)
  rw [trimEnd_append_space h, trimEnd_trimEnd] at hSplit
  exact List.append_cancel_left hSplit

theorem lineBreaks_trimEnd_append {space : List Token} (h : AllSpace space) (ts : List Token) :
    lineBreaks (trimEnd ts ++ space) =
      (textOf space).count '\n' + if (trimEnd ts).getLast?.any opensLine then 1 else 0 := by
  rw [lineBreaks, trailingSpace_trimEnd_append h, trimEnd_append_space h, trimEnd_trimEnd]

/-- What has been opened up ends with two line breaks, or with as many as before if these were
more. -/
theorem lineBreaks_openUp {lineEnding : Text} (hLine : lineEnding.count '\n' = 1)
    (before : List Token) :
    lineBreaks (openUp lineEnding before) = max 2 (lineBreaks before) := by
  have hBreaks : lineBreaks before = (textOf (trailingSpace before)).count '\n' +
      if (trimEnd before).getLast?.any opensLine then 1 else 0 := rfl
  by_cases hTwo : 2 ≤ lineBreaks before
  · rw [openUp, if_pos hTwo, Nat.max_eq_right hTwo]
  · rw [openUp, if_neg hTwo, lineBreaks_trimEnd_append (AllSpace.singleton _), textOf_cons, textOf_nil,
      List.append_nil, List.count_append, Nat.max_eq_left (by omega)]
    rcases (show lineBreaks before = 0 ∨ lineBreaks before = 1 by omega) with hNone | hOne
    · rw [hNone] at hBreaks ⊢
      simp only [List.replicate, List.flatten_cons, List.flatten_nil, List.append_nil,
        List.count_append, hLine, beq_self_eq_true, if_true, List.count_nil]
      omega
    · rw [hOne] at hBreaks ⊢
      simp only [List.replicate, List.flatten_cons, List.flatten_nil, List.append_nil, hLine,
        Nat.reduceBEq, Bool.false_eq_true, if_false]
      omega

theorem LineEnding.count_text (e : LineEnding) : e.text.count '\n' = 1 := by
  cases e <;> decide

/-! ## Stretches -/

/-- A `use` and what follows it, up to the next one. -/
structure Stretch where
  word : Token
  rest : List Token

/-- The tokens of a stretch. -/
def Stretch.tokens (s : Stretch) : List Token :=
  s.word :: s.rest

/-- The one `use` of a stretch is its first token. -/
structure StretchOk (s : Stretch) : Prop where
  word : s.word.kind = .useWord
  rest : ∀ t ∈ s.rest, t.kind ≠ .useWord

/-- The positions of the `use` words of stretches from `offset` on. -/
def usesOf (offset : Nat) : List Stretch → List Int
  | [] => []
  | s :: ss => (offset : Int) :: usesOf (offset + s.tokens.length) ss

/-- Tokens can be cut into stretches. -/
theorem exists_stretches (ts : List Token) :
    ∃ (front : List Token) (stretches : List Stretch),
      ts = front ++ stretches.flatMap Stretch.tokens ∧
      (∀ t ∈ front, t.kind ≠ .useWord) ∧ ∀ s ∈ stretches, StretchOk s := by
  induction ts with
  | nil => exact ⟨[], [], rfl, by simp, by simp⟩
  | cons t ts ih =>
    obtain ⟨front, stretches, rfl, hFront, hStretches⟩ := ih
    by_cases ht : t.kind = .useWord
    · refine ⟨[], ⟨t, front⟩ :: stretches, by simp [Stretch.tokens], by simp, ?_⟩
      intro s hs
      rcases List.mem_cons.mp hs with rfl | hs
      · exact ⟨ht, hFront⟩
      · exact hStretches s hs
    · refine ⟨t :: front, stretches, rfl, ?_, hStretches⟩
      intro u hu
      rcases List.mem_cons.mp hu with rfl | hu
      · exact ht
      · exact hFront u hu

theorem flatten_importRunsFrom {front : List Token} {stretches : List Stretch}
    (hFront : ∀ t ∈ front, t.kind ≠ .useWord) (hStretches : ∀ s ∈ stretches, StretchOk s) (i : Nat) :
    (importRunsFrom i (front ++ stretches.flatMap Stretch.tokens)).flatten =
      usesOf (i + front.length) stretches := by
  induction stretches generalizing front i with
  | nil =>
    rw [importRunsFrom_gap hFront]
    simp [importRunsFrom, usesOf]
  | cons s stretches ih =>
    have hs := hStretches s List.mem_cons_self
    obtain ⟨run, runs, hRuns, hUse⟩ := importRunsFrom_use hs.word (i + front.length)
      (s.rest ++ stretches.flatMap Stretch.tokens)
    have hLater := ih hs.rest (fun r hr => hStretches r (List.mem_cons_of_mem _ hr))
      (i + front.length + 1)
    have hTokens : (s :: stretches).flatMap Stretch.tokens =
        s.word :: (s.rest ++ stretches.flatMap Stretch.tokens) := by simp [Stretch.tokens]
    rw [hRuns] at hLater
    rw [importRunsFrom_gap hFront, hTokens, hUse]
    simp only [List.flatten_append, List.flatten_cons, List.flatten_replicate_nil, List.nil_append] at hLater ⊢
    rw [List.cons_append, hLater, usesOf]
    simp [Stretch.tokens, Nat.add_assoc, Nat.add_comm 1]

/-- The positions of imports are those of the stretches. -/
theorem flatten_importRuns {front : List Token} {stretches : List Stretch}
    (hFront : ∀ t ∈ front, t.kind ≠ .useWord) (hStretches : ∀ s ∈ stretches, StretchOk s) :
    (importRuns (front ++ stretches.flatMap Stretch.tokens)).flatten =
      usesOf front.length stretches := by
  rw [importRuns, flatten_importRunsFrom hFront hStretches, Nat.zero_add]

/-! ## Adding blank lines -/

/-- The stretches with a blank line at the end of each whose segment differs from the next. -/
def openGaps (lineEnding : Text) : List (Stretch × Text) → List Stretch
  | (s, a) :: (t, b) :: rest =>
    (if b = a then s else { s with rest := openUp lineEnding s.rest }) ::
      openGaps lineEnding ((t, b) :: rest)
  | [(s, _)] => [s]
  | [] => []

/-- The number of stretches that need a blank line at their end and have none. -/
def openings : List (Stretch × Text) → Nat
  | (s, a) :: (t, b) :: rest =>
    openings ((t, b) :: rest) + if b ≠ a ∧ lineBreaks s.rest < 2 then 1 else 0
  | _ => 0

theorem ensureBlankLines_append (lineEnding : Text) (ts : List Token) (added : Nat)
    (is js : List Int) :
    ensureBlankLines lineEnding ts added (is ++ js) =
      (ensureBlankLines lineEnding ts added is).bind fun (added, ts) =>
        ensureBlankLines lineEnding ts added js := by
  induction is generalizing ts added with
  | nil => rfl
  | cons i is ih =>
    simp only [List.cons_append, ensureBlankLines, bind, Except.bind]
    cases ensureBlankLine lineEnding ts i with
    | error fault => rfl
    | ok result => exact ih _ _

/-- Working from the end, each blank line is opened at the end of its own stretch. -/
theorem ensureBlankLines_stretches (lineEnding : Text) {pairs : List (Stretch × Text)}
    (hPairs : ∀ s ∈ pairs.map Prod.fst, StretchOk s) (before : List Token) (added : Nat) :
    ensureBlankLines lineEnding
        (before ++ (pairs.map Prod.fst).flatMap Stretch.tokens) added
        (segmentStarts ((usesOf before.length (pairs.map Prod.fst)).zip
          (pairs.map Prod.snd))).reverse =
      .ok (added + openings pairs,
        before ++ (openGaps lineEnding pairs).flatMap Stretch.tokens) := by
  induction pairs generalizing before added with
  | nil => rfl
  | cons pair rest ih =>
    obtain ⟨s, a⟩ := pair
    cases rest with
    | nil => rfl
    | cons next rest =>
      obtain ⟨t, b⟩ := next
      have hs := hPairs s (by simp)
      have hLater := ih (fun r hr => hPairs r (List.mem_cons_of_mem _ hr)) (before ++ s.tokens) added
      have hTokens : before ++ (((s, a) :: (t, b) :: rest).map Prod.fst).flatMap Stretch.tokens =
          before ++ s.tokens ++ (((t, b) :: rest).map Prod.fst).flatMap Stretch.tokens := by
        simp
      have hUses : (usesOf before.length (((s, a) :: (t, b) :: rest).map Prod.fst)).zip
          (((s, a) :: (t, b) :: rest).map Prod.snd) = ((before.length : Int), a) ::
            (usesOf (before ++ s.tokens).length (((t, b) :: rest).map Prod.fst)).zip
              (((t, b) :: rest).map Prod.snd) := by
        simp [usesOf]
      have hFirst : (usesOf (before ++ s.tokens).length (((t, b) :: rest).map Prod.fst)).zip
          (((t, b) :: rest).map Prod.snd) = (((before ++ s.tokens).length : Int), b) ::
            (usesOf ((before ++ s.tokens).length + t.tokens.length) (rest.map Prod.fst)).zip
              (rest.map Prod.snd) := by
        simp [usesOf]
      rw [hTokens, hUses]
      rw [hFirst] at hLater ⊢
      -- the later stretches are done first, so the line in front of them is opened in what they left
      by_cases hSame : b = a
      · rw [segmentStarts, if_pos hSame, hLater, openGaps, if_pos hSame, openings,
          if_neg (fun h => h.1 hSame)]
        simp
      · rw [segmentStarts, if_neg hSame, List.reverse_cons, ensureBlankLines_append, hLater]
        have hOpen : openUp lineEnding (before ++ s.tokens) =
            before ++ s.word :: openUp lineEnding s.rest :=
          openUp_use lineEnding before hs.word s.rest
        have hBreaks : lineBreaks (before ++ s.tokens) = lineBreaks s.rest :=
          lineBreaks_use before hs.word s.rest
        simp only [Except.bind, ensureBlankLines, bind,
          ensureBlankLine_append lineEnding (before ++ s.tokens), hOpen, hBreaks, pure, Except.pure,
          openGaps, List.flatMap_cons, openings, hSame, ne_eq, not_false_eq_true,
          true_and, decide_eq_true_eq]
        simp only [Stretch.tokens, List.append_assoc, List.cons_append]
        split <;> rfl

theorem length_usesOf (offset : Nat) (stretches : List Stretch) :
    (usesOf offset stretches).length = stretches.length := by
  induction stretches generalizing offset with
  | nil => rfl
  | cons s stretches ih => simp [usesOf, ih]

theorem length_of_mapM {α β ε : Type} {f : α → Except ε β} {xs : List α} {ys : List β}
    (h : xs.mapM f = .ok ys) : ys.length = xs.length := by
  induction xs generalizing ys with
  | nil =>
    obtain rfl := Except.ok.inj h
    rfl
  | cons x xs ih =>
    rw [List.mapM_cons] at h
    simp only [bind, Except.bind, pure, Except.pure] at h
    split at h
    · simp at h
    · split at h
      · simp at h
      · next hRest =>
        obtain rfl := Except.ok.inj h
        simp [ih hRest]

/-- Adding blank lines opens the ends of stretches, changes nothing else, and counts those that it
had to open. -/
theorem insertBlankLines_stretches (layout : Layout) {front : List Token}
    {stretches : List Stretch} {segments : List Text} (hFront : ∀ t ∈ front, t.kind ≠ .useWord)
    (hStretches : ∀ s ∈ stretches, StretchOk s)
    (hSegments : (usesOf front.length stretches).mapM
      (leadingSegment (front ++ stretches.flatMap Stretch.tokens)) = .ok segments) :
    insertBlankLines layout (front ++ stretches.flatMap Stretch.tokens) =
      .ok (openings (stretches.zip segments),
        front ++ (openGaps layout.lineEnding.text (stretches.zip segments)).flatMap
          Stretch.tokens) := by
  have hLength : segments.length = stretches.length := by
    rw [length_of_mapM hSegments, length_usesOf]
  have hFst : (stretches.zip segments).map Prod.fst = stretches := List.map_fst_zip hLength.ge
  have hSnd : (stretches.zip segments).map Prod.snd = segments := List.map_snd_zip hLength.le
  have hUses := flatten_importRuns hFront hStretches
  have hAdded := @ensureBlankLines_stretches layout.lineEnding.text
    (stretches.zip segments) (by rwa [hFst]) front 0
  rw [hFst, hSnd, Nat.zero_add] at hAdded
  simp only [insertBlankLines, hUses, hSegments, bind, Except.bind, hAdded]

/-! ## First segments -/

theorem exists_mapM_ok {α β ε : Type} {f : α → Except ε β} {xs : List α}
    (h : ∀ x ∈ xs, ∃ y, f x = .ok y) : ∃ ys, xs.mapM f = .ok ys := by
  induction xs with
  | nil => exact ⟨[], rfl⟩
  | cons x xs ih =>
    obtain ⟨y, hy⟩ := h x List.mem_cons_self
    obtain ⟨ys, hys⟩ := ih fun z hz => h z (List.mem_cons_of_mem _ hz)
    exact ⟨y :: ys, by simp [List.mapM_cons, hy, hys, bind, Except.bind, pure, Except.pure]⟩

/-- The first segment of a statement is read off the text of its body. -/
theorem leadingSegment_append (before : List Token) (word : Token) {body : List Token} {stop : Token}
    (rest : List Token) (hBody : ∀ t ∈ body, t.isTerminator = false)
    (hStop : stop.isTerminator = true) :
    leadingSegment (before ++ word :: (body ++ stop :: rest)) (before.length : Nat) =
      .ok (firstSegment (dropQualifier (Text.strip (stripComments (textOf body))))) := by
  have hEnd := @statementEnd_append before body (stop :: rest) word hBody (by simpa using hStop)
  have hSlice : slice (before ++ word :: (body ++ stop :: rest)) (before.length + 1 : Int)
      ((before ++ word :: body).length : Nat) = body := by
    have hCut := slice_append (before ++ [word]) body (stop :: rest)
    simpa [Nat.add_assoc, Nat.add_comm 1] using hCut
  simp only [leadingSegment, hEnd, bind, Except.bind, pure, Except.pure, hSlice]

/-- A statement with a terminator has a first segment. -/
theorem exists_leadingSegment (before : List Token) (word : Token) {after : List Token}
    (h : ∃ t ∈ after, t.isTerminator = true) :
    ∃ segment, leadingSegment (before ++ word :: after) (before.length : Nat) = .ok segment := by
  obtain ⟨body, stop, rest, rfl, hStop, hBody⟩ := exists_first h
  exact ⟨_, leadingSegment_append before word rest hBody hStop⟩

theorem mem_usesOf {offset : Nat} {stretches : List Stretch} {u : Int}
    (h : u ∈ usesOf offset stretches) :
    ∃ before s after, stretches = before ++ s :: after ∧
      u = (offset + (before.flatMap Stretch.tokens).length : Nat) := by
  induction stretches generalizing offset with
  | nil => simp [usesOf] at h
  | cons s stretches ih =>
    rcases List.mem_cons.mp h with rfl | h
    · exact ⟨[], s, stretches, rfl, by simp⟩
    · obtain ⟨before, t, after, rfl, rfl⟩ := ih h
      exact ⟨s :: before, t, after, rfl, by simp [Nat.add_assoc]⟩

/-- If the last stretch has a terminator, every import has a first segment. -/
theorem exists_segments {stretches : List Stretch} (front : List Token)
    (hLast : ∀ s ∈ stretches.getLast?, ∃ t ∈ s.rest, t.isTerminator = true) :
    ∃ segments, (usesOf front.length stretches).mapM
      (leadingSegment (front ++ stretches.flatMap Stretch.tokens)) = .ok segments := by
  apply exists_mapM_ok
  intro u hu
  obtain ⟨before, s, after, rfl, rfl⟩ := mem_usesOf hu
  have hStop : ∃ t ∈ s.rest ++ after.flatMap Stretch.tokens, t.isTerminator = true := by
    rcases List.eq_nil_or_concat after with rfl | ⟨others, last, rfl⟩
    · simpa using hLast s (by simp)
    · have hEnd : before ++ s :: others.concat last = (before ++ s :: others) ++ [last] := by simp
      obtain ⟨t, ht, hStop⟩ := hLast last (by rw [hEnd, List.getLast?_concat]; rfl)
      exact ⟨t, by simp [Stretch.tokens, ht], hStop⟩
  have hTokens : front ++ (before ++ s :: after).flatMap Stretch.tokens =
      (front ++ before.flatMap Stretch.tokens) ++
        s.word :: (s.rest ++ after.flatMap Stretch.tokens) := by
    simp [Stretch.tokens]
  rw [hTokens, ← List.length_append]
  exact exists_leadingSegment _ _ hStop

end UseOrder
