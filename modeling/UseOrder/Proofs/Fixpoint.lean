import UseOrder.Proofs.Rewording
import UseOrder.Proofs.Slots

/-!
# Fixed tokens stay as they are

Both steps of fixing have a normal form that they do not change. Cells that hold their own records,
as they are written and in order, are left alone by reordering (`Cell.reorder_of_placed`). Stretches
with a blank line wherever the first segment changes (`Spread`) are left alone by the insertion of
blank lines (`Stretched.insertBlankLines_of_spread`). What fixing gives is in both normal forms, and
so are the cells it is read as. So fixing it again changes nothing and counts no change
(`fixTokens_settled`).
-/

namespace UseOrder

/-! ## Opened gaps -/

/-- A stretch holds the terminator of its import. -/
def Stretch.Stops (s : Stretch) : Prop :=
  ∃ t ∈ s.rest, t.isTerminator = true

/-- The first segment of the import that a stretch begins with. -/
def Stretch.segment (s : Stretch) : Text :=
  firstSegment (dropQualifier (Text.strip (stripComments
    (textOf (s.rest.takeWhile fun t => !t.isTerminator)))))

theorem leadingSegment_stretch (before after : List Token) {s : Stretch} (h : s.Stops) :
    leadingSegment (before ++ s.tokens ++ after) (before.length : Nat) = .ok s.segment := by
  obtain ⟨body, stop, more, hRest, hStop, hBody⟩ := exists_first h
  have hShape : before ++ s.tokens ++ after =
      before ++ s.word :: (body ++ (stop :: more ++ after)) := by
    simp [Stretch.tokens, hRest]
  rw [hShape, Stretch.segment, hRest, takeWhile_terminator hBody hStop]
  exact leadingSegment_append before s.word (more ++ after) hBody hStop

theorem segments_stretches {stretches : List Stretch} (h : ∀ s ∈ stretches, s.Stops)
    (front : List Token) :
    (usesOf front.length stretches).mapM
        (leadingSegment (front ++ stretches.flatMap Stretch.tokens)) =
      .ok (stretches.map Stretch.segment) := by
  induction stretches generalizing front with
  | nil => rfl
  | cons s stretches ih =>
    have hFirst := leadingSegment_stretch front (stretches.flatMap Stretch.tokens)
      (h s List.mem_cons_self)
    have hLater := ih (fun t ht => h t (List.mem_cons_of_mem _ ht)) (front ++ s.tokens)
    rw [List.length_append] at hLater
    rw [usesOf, List.mapM_cons, List.flatMap_cons, ← List.append_assoc, hFirst]
    simp only [bind, Except.bind, hLater, pure, Except.pure, List.map_cons]

/-- The stretch with a blank line at its end. -/
def Stretch.opened (lineEnding : Text) (s : Stretch) : Stretch :=
  { s with rest := openUp lineEnding s.rest }

/-- Opening the gap behind an import keeps the import. -/
theorem Stretch.opened_body {s : Stretch} (h : s.Stops) (lineEnding : Text) :
    (s.opened lineEnding).Stops ∧ (s.opened lineEnding).segment = s.segment := by
  obtain ⟨body, stop, more, hRest, hStop, hBody⟩ := exists_first h
  have hTrim := trimEnd_cons (not_space_of_terminator hStop) more
  obtain ⟨space, -, hOpened⟩ := exists_openUp_eq lineEnding (stop :: more)
  have hNew : (s.opened lineEnding).rest = body ++ stop :: (trimEnd more ++ space) := by
    rw [Stretch.opened, hRest, openUp_append_of_ne_nil lineEnding body (by simp [hTrim]), hOpened,
      hTrim]
    rfl
  refine ⟨⟨stop, by simp [hNew], hStop⟩, ?_⟩
  rw [Stretch.segment, Stretch.segment, hNew, hRest, takeWhile_terminator hBody hStop,
    takeWhile_terminator hBody hStop]

/-- The stretches with a blank line wherever the first segment changes. -/
def openChanges (lineEnding : Text) (stretches : List Stretch) : List Stretch :=
  openGaps lineEnding (stretches.map fun s => (s, s.segment))

theorem openChanges_cons (lineEnding : Text) (s t : Stretch) (rest : List Stretch) :
    openChanges lineEnding (s :: t :: rest) =
      (if t.segment = s.segment then s else s.opened lineEnding) ::
        openChanges lineEnding (t :: rest) :=
  rfl

/-- Blank lines do not change the first segments. -/
theorem segments_openChanges (lineEnding : Text) {stretches : List Stretch}
    (h : ∀ s ∈ stretches, s.Stops) :
    (openChanges lineEnding stretches).map Stretch.segment = stretches.map Stretch.segment := by
  induction stretches with
  | nil => rfl
  | cons s rest ih =>
    cases rest with
    | nil => rfl
    | cons t rest =>
      have hLater := ih fun u hu => h u (List.mem_cons_of_mem _ hu)
      rw [openChanges_cons, List.map_cons, hLater, List.map_cons (a := s)]
      split
      · rfl
      · rw [(Stretch.opened_body (h s List.mem_cons_self) lineEnding).2]

theorem stops_openChanges {lineEnding : Text} {stretches : List Stretch}
    (h : ∀ s ∈ stretches, s.Stops) : ∀ s ∈ openChanges lineEnding stretches, s.Stops := by
  induction stretches with
  | nil => exact h
  | cons s rest ih =>
    cases rest with
    | nil => exact h
    | cons t rest =>
      rw [openChanges_cons]
      intro u hu
      rcases List.mem_cons.mp hu with rfl | hu
      · split
        · exact h s List.mem_cons_self
        · exact (Stretch.opened_body (h s List.mem_cons_self) lineEnding).1
      · exact ih (fun v hv => h v (List.mem_cons_of_mem _ hv)) u hu

theorem stretchOk_openChanges {lineEnding : Text} {stretches : List Stretch}
    (h : ∀ s ∈ stretches, StretchOk s) : ∀ s ∈ openChanges lineEnding stretches, StretchOk s := by
  induction stretches with
  | nil => exact h
  | cons s rest ih =>
    cases rest with
    | nil => exact h
    | cons t rest =>
      rw [openChanges_cons]
      intro u hu
      have hs := h s List.mem_cons_self
      rcases List.mem_cons.mp hu with rfl | hu
      · split
        · exact hs
        · exact ⟨hs.word, not_use_openUp hs.rest lineEnding⟩
      · exact ih (fun v hv => h v (List.mem_cons_of_mem _ hv)) u hu

/-- A blank line stands wherever the first segment changes. -/
def Spread (stretches : List Stretch) : Prop :=
  stretches.IsChain fun s t => t.segment = s.segment ∨ 2 ≤ lineBreaks s.rest

theorem spread_openChanges (e : LineEnding) {stretches : List Stretch}
    (h : ∀ s ∈ stretches, s.Stops) : Spread (openChanges e.text stretches) := by
  induction stretches with
  | nil => exact .nil
  | cons s rest ih =>
    cases rest with
    | nil => exact .singleton s
    | cons t rest =>
      have hLater := ih fun u hu => h u (List.mem_cons_of_mem _ hu)
      have hSegments := segments_openChanges e.text fun u hu => h u (List.mem_cons_of_mem s hu)
      obtain ⟨t', rest', hNext, hSegment, -⟩ := List.map_eq_cons_iff.mp hSegments
      rw [hNext] at hLater
      rw [openChanges_cons, hNext]
      refine List.isChain_cons_cons.mpr ⟨?_, hLater⟩
      split
      · next hSame => exact .inl (hSegment.trans hSame)
      · refine .inr ?_
        show 2 ≤ lineBreaks (openUp e.text s.rest)
        rw [lineBreaks_openUp e.count_text]
        omega

/-- The number of blank lines that are missing where the first segment changes. -/
def missingLines (stretches : List Stretch) : Nat :=
  openings (stretches.map fun s => (s, s.segment))

theorem missingLines_cons (s t : Stretch) (rest : List Stretch) :
    missingLines (s :: t :: rest) = missingLines (t :: rest) +
      if t.segment ≠ s.segment ∧ lineBreaks s.rest < 2 then 1 else 0 :=
  rfl

theorem missingLines_of_spread {stretches : List Stretch} (h : Spread stretches) :
    missingLines stretches = 0 := by
  induction stretches with
  | nil => rfl
  | cons s rest ih =>
    cases rest with
    | nil => rfl
    | cons t rest =>
      obtain ⟨hHere, hLater⟩ := List.isChain_cons_cons.mp h
      rw [missingLines_cons, ih hLater, if_neg]
      rintro ⟨hOther, hFew⟩
      have hTwo := hHere.resolve_left hOther
      omega

/-- Blank lines that are there already are left alone. -/
theorem openChanges_of_spread (lineEnding : Text) {stretches : List Stretch}
    (h : Spread stretches) : openChanges lineEnding stretches = stretches := by
  induction stretches with
  | nil => rfl
  | cons s rest ih =>
    cases rest with
    | nil => rfl
    | cons t rest =>
      obtain ⟨hHere, hLater⟩ := List.isChain_cons_cons.mp h
      rw [openChanges_cons, ih hLater]
      split
      · rfl
      · next hOther => rw [Stretch.opened, openUp_of_le (hHere.resolve_left hOther)]

/-- The stretches begin with the same first segment and end with as many line breaks. -/
def Stretch.Like (s s' : Stretch) : Prop :=
  s'.segment = s.segment ∧ lineBreaks s'.rest = lineBreaks s.rest

theorem Spread.like {stretches stretches' : List Stretch} (h : Spread stretches)
    (hLike : List.Forall₂ Stretch.Like stretches stretches') : Spread stretches' := by
  induction hLike with
  | nil => exact .nil
  | @cons s s' rest rest' hs hRest ih =>
    cases hRest with
    | nil => exact .singleton s'
    | @cons t t' rest rest' ht hMore =>
      obtain ⟨hHere, hLater⟩ := List.isChain_cons_cons.mp h
      refine List.isChain_cons_cons.mpr ⟨?_, ih hLater⟩
      rwa [hs.1, ht.1, hs.2]

/-- The tokens are cut at every `use`, and every import ends in its own stretch. -/
structure Stretched (ts front : List Token) (stretches : List Stretch) : Prop where
  tokens : ts = front ++ stretches.flatMap Stretch.tokens
  front : ∀ t ∈ front, t.kind ≠ .useWord
  each : ∀ s ∈ stretches, StretchOk s
  stops : ∀ s ∈ stretches, s.Stops

/-- The tokens tell where they are cut. -/
theorem Stretched.unique {ts front front' : List Token} {stretches stretches' : List Stretch}
    (h : Stretched ts front stretches) (h' : Stretched ts front' stretches') :
    front = front' ∧ stretches = stretches' := by
  have hNext {as bs cs ds : List Token} {a c : Token} (hEq : as ++ a :: bs = cs ++ c :: ds)
      (has : ∀ t ∈ as, t.kind ≠ .useWord) (ha : a.kind = .useWord)
      (hcs : ∀ t ∈ cs, t.kind ≠ .useWord) (hc : c.kind = .useWord) : as = cs := by
    have hTake := congrArg (List.takeWhile (·.kind != .useWord)) hEq
    rwa [List.takeWhile_append_of_pos fun t ht => by simpa using has t ht,
      List.takeWhile_append_of_pos fun t ht => by simpa using hcs t ht,
      List.takeWhile_cons_of_neg (by simp [ha]), List.takeWhile_cons_of_neg (by simp [hc]),
      List.append_nil, List.append_nil] at hTake
  have hNone {front front' : List Token} {s : Stretch} {rest : List Stretch} (hs : StretchOk s)
      (hFront : ∀ t ∈ front, t.kind ≠ .useWord) :
      front ≠ front' ++ (s :: rest).flatMap Stretch.tokens := by
    rintro rfl
    exact hFront s.word (by simp [Stretch.tokens]) hs.word
  obtain ⟨rfl, hFront, hEach, -⟩ := h
  obtain ⟨hTokens, hFront', hEach', -⟩ := h'
  -- the rest of a stretch is the front of what follows
  induction stretches generalizing front front' stretches' with
  | nil =>
    rw [List.flatMap_nil, List.append_nil] at hTokens
    cases stretches' with
    | nil => exact ⟨by simpa using hTokens, rfl⟩
    | cons s' rest' => exact absurd hTokens (hNone (hEach' s' List.mem_cons_self) hFront)
  | cons s rest ih =>
    have hs := hEach s List.mem_cons_self
    cases stretches' with
    | nil =>
      rw [List.flatMap_nil, List.append_nil] at hTokens
      exact absurd hTokens.symm (hNone hs hFront')
    | cons s' rest' =>
      have hs' := hEach' s' List.mem_cons_self
      simp only [List.flatMap_cons, Stretch.tokens, List.cons_append] at hTokens
      obtain rfl := hNext hTokens hFront hs.word hFront' hs'.word
      obtain ⟨hWord, hLater⟩ := List.cons.inj (List.append_cancel_left hTokens)
      obtain ⟨hRest, rfl⟩ := ih hs.rest (fun t ht => hEach t (List.mem_cons_of_mem _ ht)) hLater
        hs'.rest fun t ht => hEach' t (List.mem_cons_of_mem _ ht)
      obtain rfl : s = s' := by
        obtain ⟨word, rest⟩ := s
        obtain ⟨word', rest'⟩ := s'
        exact congr (congrArg Stretch.mk hWord) hRest
      exact ⟨rfl, rfl⟩

section BlankLines

variable {layout : Layout} {ts front : List Token} {stretches : List Stretch}

theorem Stretched.insertBlankLines (h : Stretched ts front stretches) (layout : Layout) :
    insertBlankLines layout ts = .ok (missingLines stretches,
      front ++ (openChanges layout.lineEnding.text stretches).flatMap Stretch.tokens) := by
  have hZip : stretches.zip (stretches.map Stretch.segment) =
      stretches.map fun s => (s, s.segment) := by
    simpa using List.zip_map' (f := id) (g := Stretch.segment) (l := stretches)
  have hAdded := insertBlankLines_stretches layout h.front h.each
    (segments_stretches h.stops front)
  rwa [hZip, ← h.tokens] at hAdded

theorem Stretched.opened (h : Stretched ts front stretches) (lineEnding : Text) :
    Stretched (front ++ (openChanges lineEnding stretches).flatMap Stretch.tokens) front
      (openChanges lineEnding stretches) :=
  ⟨rfl, h.front, stretchOk_openChanges h.each, stops_openChanges h.stops⟩

/-- Blank lines have been inserted wherever they are due. -/
theorem Stretched.spread (h : Stretched ts front stretches) {added : Nat} {spaced : List Token}
    (hBlank : UseOrder.insertBlankLines layout ts = .ok (added, spaced)) {front' : List Token}
    {stretches' : List Stretch} (h' : Stretched spaced front' stretches') : Spread stretches' := by
  rw [h.insertBlankLines layout, Except.ok.injEq, Prod.mk.injEq] at hBlank
  have hNew := h.opened layout.lineEnding.text
  rw [hBlank.2] at hNew
  rw [← (hNew.unique h').2]
  exact spread_openChanges layout.lineEnding h.stops

theorem Stretched.insertBlankLines_of_spread (h : Stretched ts front stretches)
    (hSpread : Spread stretches) (layout : Layout) :
    UseOrder.insertBlankLines layout ts = .ok (0, ts) := by
  rw [h.insertBlankLines layout, missingLines_of_spread hSpread, openChanges_of_spread _ hSpread,
    ← h.tokens]

end BlankLines

/-- Every import of cells ends inside its stretch. -/
theorem Cell.stops_stretches {tail : List Token} (hStop : tail.head?.any Token.isTerminator = true)
    {cells : List Cell} (hEnds : ∀ c ∈ cells, ∀ gap ∈ c.gap?, EndsStatement gap) (word : Token)
    (body : List Token) : ∀ s ∈ Cell.stretches tail word body cells, s.Stops := by
  induction cells generalizing word body with
  | nil =>
    intro s hs
    obtain rfl : s = ⟨word, body ++ tail⟩ := by simpa [Cell.stretches] using hs
    cases tail with
    | nil => simp at hStop
    | cons stop tail => exact ⟨stop, by simp, by simpa using hStop⟩
  | cons c cs ih =>
    have hLater := @ih fun d hd => hEnds d (List.mem_cons_of_mem _ hd)
    rw [Cell.stretches]
    split
    · next gap next space hLead =>
      obtain ⟨stop, more, rfl, hFirst, -⟩ :=
        hEnds c List.mem_cons_self gap (by simp [Cell.gap?, hLead])
      intro s hs
      rcases List.mem_cons.mp hs with rfl | hs
      · exact ⟨stop, by simp, hFirst⟩
      · exact hLater next _ s hs
    · exact hLater word _

section Cells

variable {tail : List Token}

theorem stretched_cells {c : Cell} {cs : List Cell} (hCells : CellsOk (c :: cs))
    {gap space : List Token} {word : Token} (hLead : c.lead = .start gap word space)
    (hTail : ∀ t ∈ tail, t.kind ≠ .useWord) (hStop : tail.head?.any Token.isTerminator = true) :
    Stretched ((c :: cs).flatMap Cell.tokens ++ tail) gap
      (Cell.stretches tail word (space ++ (c.qualifier ++ c.core ++ c.after)) cs) := by
  have hc := hCells.each c List.mem_cons_self
  have hOk := hc.lead
  rw [hLead] at hOk
  have hEach : ∀ d ∈ cs, CellOk d := fun d hd => hCells.each d (List.mem_cons_of_mem _ hd)
  refine ⟨?_, hOk.1,
    Cell.stretchOk_stretches hTail hEach hOk.2.1 (not_use_of_isBody (hc.isBody_start hLead)),
    Cell.stops_stretches hStop hCells.endsStatement_of_mem word _⟩
  rw [Cell.tokens_cons_start hLead, Cell.tokens_stretches]

theorem exists_stretched {cells : List Cell} (hCells : CellsOk cells)
    (hStart : cells.head?.all Cell.isStart = true) (hTail : ∀ t ∈ tail, t.kind ≠ .useWord)
    (hStop : tail.head?.any Token.isTerminator = true) :
    ∃ front stretches, Stretched (cells.flatMap Cell.tokens ++ tail) front stretches := by
  cases cells with
  | nil => exact ⟨tail, [], by simp, hTail, by simp, by simp⟩
  | cons c cs =>
    obtain ⟨gap, word, space, hLead⟩ := Cell.lead_of_isStart (by simpa using hStart)
    exact ⟨_, _, stretched_cells hCells hLead hTail hStop⟩

/-- Stretches whose imports are written alike. -/
theorem Stretch.like_of_text {word word' : Token} {body body' gap gap' : List Token}
    (hBody : ∀ t ∈ body, t.isBody = true) (hBody' : ∀ t ∈ body', t.isBody = true)
    (hText : textOf body' = textOf body) (hGap : gap.head?.any Token.isTerminator = true)
    (hGap' : gap'.head?.any Token.isTerminator = true)
    (hBreaks : lineBreaks gap' = lineBreaks gap) :
    Stretch.Like ⟨word, body ++ gap⟩ ⟨word', body' ++ gap'⟩ := by
  have hTake {body gap : List Token} (hBody : ∀ t ∈ body, t.isBody = true)
      (hGap : gap.head?.any Token.isTerminator = true) :
      (body ++ gap).takeWhile (fun t => !t.isTerminator) = body ∧
        lineBreaks (body ++ gap) = lineBreaks gap := by
    cases gap with
    | nil => simp at hGap
    | cons stop more =>
      have hStop : stop.isTerminator = true := by simpa using hGap
      refine ⟨takeWhile_terminator (fun t ht => (Token.isBody_iff.mp (hBody t ht)).1) hStop,
        lineBreaks_append_of_ne_nil body ?_⟩
      simp [trimEnd_cons (not_space_of_terminator hStop)]
  obtain ⟨hOld, hOldBreaks⟩ := hTake hBody hGap
  obtain ⟨hNew, hNewBreaks⟩ := hTake hBody' hGap'
  refine ⟨?_, ?_⟩
  · rw [Stretch.segment, Stretch.segment, hOld, hNew, hText]
  · simp only [hOldBreaks, hNewBreaks, hBreaks]

theorem Cell.like_stretches (hStop : tail.head?.any Token.isTerminator = true) {cs ds : List Cell}
    (h : List.Forall₂ Cell.ReadAs cs ds) (hOk : ∀ c ∈ cs, CellOk c)
    (hEnds : ∀ c ∈ cs, ∀ gap ∈ c.gap?, EndsStatement gap) (word : Token) {body body' : List Token}
    (hBody : ∀ t ∈ body, t.isBody = true) (hBody' : ∀ t ∈ body', t.isBody = true)
    (hText : textOf body' = textOf body) :
    List.Forall₂ Stretch.Like (Cell.stretches tail word body cs)
      (Cell.stretches tail word body' ds) := by
  have hHead {gap : List Token} (hGap : EndsStatement gap) :
      gap.head?.any Token.isTerminator = true := by
    obtain ⟨stop, more, rfl, hStop, -⟩ := hGap
    simpa using hStop
  -- `body` gathers a statement until the `use` of the next one ends its stretch
  induction h generalizing word body body' with
  | nil => exact .cons (Stretch.like_of_text hBody hBody' hText hStop hStop rfl) .nil
  | @cons c d cs ds hd hRest ih =>
    have hc := hOk c List.mem_cons_self
    have hdOk := hd.resembles.ok hc
    have hLater := @ih (fun e he => hOk e (List.mem_cons_of_mem _ he))
      fun e he => hEnds e (List.mem_cons_of_mem _ he)
    have hGaps := hEnds c List.mem_cons_self
    have hLead := hd.lead
    generalize hOld : c.lead = old at hLead
    generalize hNew : d.lead = new at hLead
    cases hLead with
    | @start gap gap' next space hJoined =>
      have hGap := hGaps gap (by simp [Cell.gap?, hOld])
      simp only [Cell.stretches, hOld, hNew]
      refine .cons (Stretch.like_of_text hBody hBody' hText (hHead hGap)
        (hHead (hJoined.endsStatement hGap)) hJoined.lineBreaks_eq) (hLater next ?_ ?_ ?_)
      · simpa using hc.isBody_start hOld
      · simpa using hdOk.isBody_start hNew
      · simp only [textOf_append, hd.qualifier, hd.core.textOf_eq, hd.after]
    | comma space =>
      have hJoin {body : List Token} {e : Cell} (hBody : ∀ t ∈ body, t.isBody = true)
          (he : ∀ t ∈ e.tokens, t.isBody = true) : ∀ t ∈ body ++ e.tokens, t.isBody = true :=
        fun t ht => (List.mem_append.mp ht).elim (hBody t) (he t)
      simp only [Cell.stretches, hOld, hNew]
      refine hLater word (hJoin hBody (hc.isBody_comma hOld))
        (hJoin hBody' (hdOk.isBody_comma hNew)) ?_
      rw [textOf_append, textOf_append, hText, hd.textOf_eq]

/-- Cells that are read as others have stretches like theirs. -/
theorem exists_stretched_readAs {cs ds : List Cell} (h : List.Forall₂ Cell.ReadAs cs ds)
    (hOk : CellsOk cs) (hStart : cs.head?.all Cell.isStart = true)
    (hTail : ∀ t ∈ tail, t.kind ≠ .useWord) (hStop : tail.head?.any Token.isTerminator = true) :
    ∃ front ss front' ss', Stretched (cs.flatMap Cell.tokens ++ tail) front ss ∧
      Stretched (ds.flatMap Cell.tokens ++ tail) front' ss' ∧ List.Forall₂ Stretch.Like ss ss' := by
  cases h with
  | nil =>
    have hNone : Stretched ([].flatMap Cell.tokens ++ tail) tail [] :=
      ⟨by simp, hTail, by simp, by simp⟩
    exact ⟨tail, [], tail, [], hNone, hNone, .nil⟩
  | @cons c d cs ds hd hRest =>
    have hdsOk : CellsOk (d :: ds) :=
      hOk.resembles (.cons hd.resembles (hRest.imp fun _ _ he => he.resembles))
    have hc := hOk.each c List.mem_cons_self
    have hdOk := hdsOk.each d List.mem_cons_self
    obtain ⟨gap, word, space, hOld⟩ := Cell.lead_of_isStart (by simpa using hStart)
    obtain ⟨gap', hNew⟩ : ∃ gap', d.lead = .start gap' word space := by
      have hLead := hd.lead
      rw [hOld] at hLead
      generalize d.lead = new at hLead ⊢
      cases hLead with
      | @start _ gap' _ _ hJoined => exact ⟨gap', rfl⟩
    refine ⟨_, _, _, _, stretched_cells hOk hOld hTail hStop,
      stretched_cells hdsOk hNew hTail hStop,
      Cell.like_stretches hStop hRest (fun e he => hOk.each e (List.mem_cons_of_mem _ he))
        hOk.endsStatement_of_mem word (hc.isBody_start hOld) (hdOk.isBody_start hNew) ?_⟩
    simp only [textOf_append, hd.qualifier, hd.core.textOf_eq, hd.after]

end Cells

/-! ## Records in their own slots -/

/-- The tokens of a qualifier write its text. -/
theorem textOf_qualifierTokens {r : Record} {word : TokenKind}
    (h : r.kind.qualifierKind? = some word) :
    textOf (qualifierTokens r) = r.qualifier.getD (r.kind.label.toList ++ [' ']) := by
  have hSplit (text : Text) :
      Text.stripEnd text ++ text.drop (Text.stripEnd text).length = text := by
    have hStart : Text.stripEnd text <+: text := by
      refine ⟨(text.reverse.takeWhile isWhite).reverse, ?_⟩
      rw [Text.stripEnd, Text.trimEndBy, ← List.reverse_append, List.takeWhile_append_dropWhile,
        List.reverse_reverse]
    exact List.prefix_iff_eq_append.mp hStart
  unfold qualifierTokens
  rw [h]
  generalize r.qualifier.getD (r.kind.label.toList ++ [' ']) = text
  simp only [textOf_cons]
  split
  · next hEmpty =>
    have hNil : text.drop (Text.stripEnd text).length = [] := by simpa using hEmpty
    have hWhole := hSplit text
    rw [hNil] at hWhole
    simpa using hWhole
  · simpa using hSplit text

/-- The qualifier that was written for a record is written for it again. -/
theorem qualifierTokens_written {r s : Record} (hKind : s.kind = r.kind)
    (hText : r.kind ≠ .classKind → s.qualifier = some (textOf (qualifierTokens r))) :
    qualifierTokens s = qualifierTokens r := by
  cases hWord : r.kind.qualifierKind? with
  | none => simp [qualifierTokens, hKind, hWord]
  | some word =>
    have hNot : r.kind ≠ .classKind := by
      intro hClass
      rw [hClass] at hWord
      simp [ImportKind.qualifierKind?] at hWord
    have hText := hText hNot
    rw [textOf_qualifierTokens hWord] at hText
    simp only [qualifierTokens, hKind, hText, Option.getD_some]

/-- The cell holds its record as it is written. -/
structure Cell.Placed (settings : Settings) (c : Cell) : Prop where
  arranged : c.arranged settings = c.core
  qualifier : c.isStart = true → ∀ offset, qualifierTokens (c.record settings offset) = c.qualifier

theorem Cell.placed_place {settings : Settings} {c : Cell} {r : Record} (hr : RecordOk settings r)
    (layout : Layout) (current : Option OpenStatement) :
    (c.place layout current r).Placed settings := by
  constructor
  · rw [Cell.arranged, Cell.place_grouped, Cell.place_core]
    split
    · next hGroup => exact hr.arranged hGroup
    · rfl
  · intro hStart offset
    have hQualifier : (c.place layout current r).qualifier = qualifierTokens r := by
      unfold Cell.place at hStart ⊢
      split
      · rfl
      · next space hLead =>
        simp only [hLead] at hStart ⊢
        split
        · next hAccepts => simp [hAccepts, Cell.isStart] at hStart
        · rfl
    rw [hQualifier]
    refine qualifierTokens_written (by simp [Cell.record]) fun hKind => ?_
    simp [Cell.record, hStart, hQualifier, hKind]

theorem Cell.Placed.congr {settings : Settings} {c d : Cell} (hc : c.Placed settings)
    (hStart : d.isStart = c.isStart) (hKind : d.kind = c.kind)
    (hQualifier : d.qualifier = c.qualifier) (hArranged : d.arranged settings = d.core) :
    d.Placed settings := by
  refine ⟨hArranged, fun hd offset => ?_⟩
  rw [hStart] at hd
  have hWritten := hc.qualifier hd 0
  rw [hQualifier, ← hWritten]
  refine qualifierTokens_written hKind fun hNot => ?_
  have hNot : c.kind ≠ .classKind := hNot
  rw [hWritten]
  simp [Cell.record, hStart, hd, hKind, hQualifier, hNot]

theorem Respaced.placed {lineEnding : Text} {settings : Settings} {c d : Cell}
    (h : Respaced lineEnding c d) (hc : c.Placed settings) : d.Placed settings := by
  have hStart := h.resembles.start
  obtain ⟨lead, -, rfl⟩ := h
  exact hc.congr hStart rfl rfl hc.arranged

theorem Cell.ReadAs.placed {settings : Settings} {c d : Cell} (h : c.ReadAs d) (hOk : CellOk c)
    (hc : c.Placed settings) : d.Placed settings := by
  refine hc.congr h.resembles.start h.kind h.qualifier ?_
  have hArranged := hc.arranged
  have hShape := hOk.shape
  rw [Cell.arranged] at hArranged ⊢
  rw [h.grouped]
  split
  · next hGrouped =>
    rw [if_pos hGrouped] at hArranged hShape
    exact h.core.arrangeGroup_fixed hShape hArranged
  · rfl

/-- A cell that holds its record is left alone when the record is put into its slot. -/
theorem Cell.place_record {settings : Settings} {c : Cell} (hc : CellOk c)
    (hPlaced : c.Placed settings) (layout : Layout) {current : Option OpenStatement} (offset : Nat)
    (hAccepts : c.isStart = false → current.any (·.accepts (c.record settings offset)) = true) :
    c.place layout current (c.record settings offset) = c := by
  have hOk := hc.lead
  have hTokens : (c.record settings offset).tokens = c.core := hPlaced.arranged
  unfold Cell.place
  cases hLead : c.lead with
  | start gap word space =>
    have hQualifier := hPlaced.qualifier (by simp [Cell.isStart, hLead]) offset
    simp only [hQualifier, hTokens]
    rw [← hLead]
    rfl
  | comma space =>
    rw [hLead] at hOk
    simp only [hAccepts (by simp [Cell.isStart, hLead]), if_true, hTokens]
    rw [← hLead, ← hOk.2]
    rfl

/-- A record of a statement may follow its comma. -/
theorem accepts_of_mayFollow {settings : Settings} {b c : Cell} (h : MayFollow b c)
    (hc : c.isStart = false) (indent : Text) (offset : Nat) :
    OpenStatement.accepts ⟨b.kind, b.grouped, indent⟩ (c.record settings offset) = true := by
  unfold MayFollow at h
  unfold Cell.isStart at hc
  cases hLead : c.lead with
  | start gap word space => simp [hLead] at hc
  | comma space =>
    rw [hLead] at h
    simp [OpenStatement.accepts, Cell.record, h]

/-- Cells that hold their records are left alone when the records are put into their slots. -/
theorem Cell.placeAll_records {settings : Settings} (layout : Layout) {cells : List Cell}
    (hOk : CellsOk cells) (hPlaced : ∀ c ∈ cells, c.Placed settings) (offset : Nat)
    {current : Option OpenStatement}
    (hFirst : ∀ c ∈ cells.head?, c.isStart = false →
      ∀ at', current.any (·.accepts (c.record settings at')) = true) :
    Cell.placeAll layout current (cells.zip (Cell.records settings offset cells)) = cells := by
  induction cells generalizing offset current with
  | nil => rfl
  | cons c cs ih =>
    have hc := hOk.each c List.mem_cons_self
    have hHere := Cell.place_record hc (hPlaced c List.mem_cons_self) layout offset
      fun hComma => hFirst c rfl hComma offset
    rw [Cell.records, List.zip_cons_cons, Cell.placeAll, hHere]
    congr 1
    refine ih ⟨fun d hd => hOk.each d (List.mem_cons_of_mem _ hd), hOk.chain.of_cons⟩
      (fun d hd => hPlaced d (List.mem_cons_of_mem _ hd)) _ ?_
    -- a cell behind a comma goes on with the statement of the one before
    intro d hd hComma at'
    cases cs with
    | nil => simp at hd
    | cons e cs =>
      obtain rfl : e = d := by simpa using hd
      exact accepts_of_mayFollow (List.isChain_cons_cons.mp hOk.chain).1 hComma _ at'

theorem Cell.placed_placeAll {settings : Settings} {pairs : List (Cell × Record)}
    (hRecords : ∀ r ∈ pairs.map Prod.snd, RecordOk settings r) (current : Option OpenStatement) :
    ∀ c ∈ Cell.placeAll settings.layout current pairs, c.Placed settings := by
  induction pairs generalizing current with
  | nil => simp [Cell.placeAll]
  | cons pair rest ih =>
    intro c hc
    rcases List.mem_cons.mp hc with rfl | hc
    · exact Cell.placed_place (hRecords pair.2 (by simp)) _ _
    · exact ih (fun r hr => hRecords r (List.mem_cons_of_mem _ hr)) _ c hc

theorem Cell.placed_reorder {settings : Settings} {cells : List Cell} (h : CellsOk cells)
    (offset : Nat) : ∀ c ∈ Cell.reorder settings offset cells, c.Placed settings := by
  apply Cell.placed_placeAll
  rw [Cell.map_snd_zip_order]
  exact Cell.recordOk_order h offset

/-! ## Records in order -/

/-- The order looks at what a record imports and not at where it stands. -/
theorem orderRecords_of_entries {settings : Settings} {rs rs' : List Record}
    (h : rs'.map Record.entry = (orderRecords settings rs).map Record.entry) :
    orderRecords settings rs' = rs' := by
  apply orderRecords_of_pairwise
  refine precedes_pairwise_congr ?_ (orderRecords_pairwise settings rs)
  have hKeys := congrArg (List.map fun entry => (entry.1, entry.2.2)) h
  simpa [List.map_map, Function.comp_def, Record.entry] using hKeys.symm

/-- A reordered block holds the imports of the block in order, also when it is respaced and read
again. -/
theorem entries_reordered {settings : Settings} {lineEnding : Text} {block block' read : List Cell}
    (hCells : CellsOk block) {offset : Nat}
    (hSpaced : List.Forall₂ (Respaced lineEnding) (Cell.reorder settings offset block) block')
    (hRead : List.Forall₂ Cell.ReadAs block' read) (offset' : Nat) :
    (Cell.records settings offset' read).map Record.entry =
      (orderRecords settings (Cell.records settings offset block)).map Record.entry := by
  have hOk := (hCells.reorder settings offset).resembles (hSpaced.imp fun _ _ h => h.resembles)
  rw [entries_readAs hRead hOk.each settings 0, Cell.map_entry_of_mem fun r hr => hr,
    records_respaced hSpaced settings 0, Cell.records_reorder hCells]
  exact (Cell.map_entry_of_mem fun r hr => (orderRecords_perm settings _).mem_iff.mp hr).symm

/-- Cells that hold their own records in order are left alone by reordering. -/
theorem Cell.reorder_of_placed {settings : Settings} {cells : List Cell} (hOk : CellsOk cells)
    (hStart : cells.head?.all Cell.isStart = true) (hPlaced : ∀ c ∈ cells, c.Placed settings)
    {offset : Nat}
    (hOrder : orderRecords settings (Cell.records settings offset cells) =
      Cell.records settings offset cells) :
    Cell.reorder settings offset cells = cells := by
  rw [Cell.reorder, hOrder]
  refine Cell.placeAll_records _ hOk hPlaced offset fun c hc hComma => ?_
  rw [Option.mem_def.mp hc, Option.all_some, hComma] at hStart
  simp at hStart

/-- Reordered and respaced blocks are left alone by reordering when they are read again. -/
theorem reorderBlocks_of_read {settings : Settings} {lineEnding : Text}
    {blocks blocks' read : List (List Cell)} (h : BlocksOk blocks) {offset : Nat}
    (hSpaced : List.Forall₂ (List.Forall₂ (Respaced lineEnding))
      (reorderBlocks settings offset blocks) blocks')
    (hRead : List.Forall₂ (List.Forall₂ Cell.ReadAs) blocks' read) (offset' : Nat) :
    reorderBlocks settings offset' read = read := by
  induction blocks generalizing offset offset' blocks' read with
  | nil =>
    obtain rfl := List.forall₂_nil_left_iff.mp hSpaced
    obtain rfl := List.forall₂_nil_left_iff.mp hRead
    rfl
  | cons block blocks ih =>
    rw [reorderBlocks] at hSpaced
    obtain ⟨block', rest, hBlock, hRest, rfl⟩ := List.forall₂_cons_left_iff.mp hSpaced
    obtain ⟨again, later, hAgain, hLater, rfl⟩ := List.forall₂_cons_left_iff.mp hRead
    have hCells := h.cells.append_left
    have hOk := (hCells.reorder settings offset).resembles (hBlock.imp fun _ _ hc => hc.resembles)
    have hSame := hAgain.imp fun _ _ hc => hc.resembles
    have hStart : again.head?.all Cell.isStart = true := by
      obtain ⟨c, cs, rfl, hc, -⟩ := (((h.each block List.mem_cons_self).reorder settings
        offset).resembles (hBlock.imp fun _ _ hc => hc.resembles)).resembles hSame
      simpa using hc
    -- neither respacing nor reading takes a record out of its slot
    have hPlaced : ∀ e ∈ again, e.Placed settings := by
      intro e he
      obtain ⟨d, hd, hde⟩ := exists_of_forall₂_mem hAgain he
      obtain ⟨c, hc, hcd⟩ := exists_of_forall₂_mem hBlock hd
      exact hde.placed (hOk.each d hd) (hcd.placed (Cell.placed_reorder hCells offset c hc))
    rw [reorderBlocks, ih h.of_cons hRest hLater,
      Cell.reorder_of_placed (hOk.resembles hSame) hStart hPlaced
        (orderRecords_of_entries (entries_reordered hCells hBlock hAgain offset'))]

/-! ## Fixing twice -/

/-- Fixing what fixing gave for blocks changes nothing when it is read again, and counts no
change. -/
theorem fixTokens_settled {settings : Settings} {blocks blocks' read : List (List Cell)}
    {tail : List Token} (h : BlocksOk blocks) (hTail : ∀ t ∈ tail, t.kind ≠ .useWord)
    (hStop : tail.head?.any Token.isTerminator = true) {counts : Counts}
    (hFixed : fixTokens settings (blocks.flatten.flatMap Cell.tokens ++ tail) =
      .ok (counts, blocks'.flatten.flatMap Cell.tokens ++ tail))
    (hSpaced : List.Forall₂ (List.Forall₂ (Respaced settings.layout.lineEnding.text))
      (reorderBlocks settings 0 blocks) blocks')
    (hRead : List.Forall₂ (List.Forall₂ Cell.ReadAs) blocks' read) :
    ∃ again, fixTokens settings (read.flatten.flatMap Cell.tokens ++ tail) =
        .ok (again, read.flatten.flatMap Cell.tokens ++ tail) ∧
      again.slotsChanged = 0 ∧ again.blankLines = 0 := by
  have hOrdered := h.reorder settings 0
  have hBlocks' := hOrdered.respaced hSpaced
  have hOk := hBlocks'.resembles (hRead.imp fun _ _ hBlock => hBlock.imp fun _ _ hc => hc.resembles)
  -- the gaps of the fixed blocks are spread, and reading keeps that
  obtain ⟨front, ss, hOld⟩ := exists_stretched hOrdered.cells hOrdered.head_isStart hTail hStop
  have hBlank := hOld.insertBlankLines settings.layout
  obtain ⟨counts', hFirst, -⟩ := fixTokens_of_insertBlankLines settings h hTail hStop hBlank
  rw [hFixed, Except.ok.injEq, Prod.mk.injEq] at hFirst
  rw [← hFirst.2] at hBlank
  obtain ⟨front', ss', again, ss'', hNew, hAgain, hLike⟩ := exists_stretched_readAs
    (List.rel_flatten hRead) hBlocks'.cells hBlocks'.head_isStart hTail hStop
  have hSecond :=
    hAgain.insertBlankLines_of_spread ((hOld.spread hBlank hNew).like hLike) settings.layout
  have hSame := reorderBlocks_of_read h hSpaced hRead 0
  have hReordered : insertBlankLines settings.layout
      ((reorderBlocks settings 0 read).flatten.flatMap Cell.tokens ++ tail) =
        .ok (0, read.flatten.flatMap Cell.tokens ++ tail) := by
    rw [hSame, hSecond]
  obtain ⟨counts'', hSettled, hSlots, hLines⟩ :=
    fixTokens_of_insertBlankLines settings hOk hTail hStop hReordered
  exact ⟨counts'', hSettled, hSlots.trans (rewrittenSlots_of_reorder hSame), hLines⟩

/-- The tokens that fixing leaves are left alone by fixing, and no change is counted. -/
theorem fixTokens_idempotent (settings : Settings) (source : Text)
    (h : wellFormed (classify (lex source)) = true) :
    ∃ counts fixed again, fixTokens settings (classify (lex source)) = .ok (counts, fixed) ∧
      fixTokens settings fixed = .ok (again, fixed) ∧
      again.slotsChanged = 0 ∧ again.blankLines = 0 := by
  obtain ⟨blocks, tail, counts, blocks', hSource, hBlocks, hTail, hStop, hFixed, hSpaced⟩ :=
    exists_fixed_blocks settings h
  by_cases hNe : blocks = []
  · subst hNe
    obtain rfl := List.forall₂_nil_left_iff.mp hSpaced
    exact ⟨counts, _, _, hFixed, fixTokens_plain settings (by simpa using hTail), rfl, rfl⟩
  · have hOk := (hBlocks.reorder settings 0).respaced hSpaced
    have hRead : List.Forall₂ (List.Forall₂ Cell.ReadAs) blocks' blocks' := by
      refine List.forall₂_same.mpr fun block hBlock => List.forall₂_same.mpr fun c hc => ?_
      exact .refl (hOk.cells.each c (List.mem_flatten.mpr ⟨block, hBlock, hc⟩))
    rw [hSource] at hFixed ⊢
    obtain ⟨again, hSettled⟩ := fixTokens_settled hBlocks hTail (hStop hNe) hFixed hSpaced hRead
    exact ⟨counts, _, again, hFixed, hSettled⟩

/-- Imports by length with the kinds apart: a comma is split, a comment moves with its name, a group
is written anew, and a blank line is added. -/
theorem fixTokens_idempotent_of_kinds :
    let tokens := classify (lex
      "<?php use Z\\Long /* z */, A; use const B\\\x7bC /* c */, B\x7d;\nuse function Z\\f;".toList)
    let settings : Settings :=
      { algorithm := .length
        kindOrder := some ⟨[.constKind, .functionKind, .classKind], by decide⟩ }
    wellFormed tokens = true ∧
      ∃ counts fixed again, fixTokens settings tokens = .ok (counts, fixed) ∧
        fixTokens settings fixed = .ok (again, fixed) ∧
        again.slotsChanged = 0 ∧ again.blankLines = 0 :=
  ⟨by decide +kernel, fixTokens_idempotent _ _ (by decide +kernel)⟩

end UseOrder
