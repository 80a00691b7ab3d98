import Mathlib.Data.List.Forall2
import UseOrder.Proofs.Blocks
import UseOrder.Proofs.Spacing

/-!
# Fixing blocks

What ordering and blank lines do to the tokens of a source text whose imports make up blocks: every
block is reordered for itself, and then some gaps in front of a `use` are opened up
(`fixTokens_blocks`). What comes out is made up of blocks again.
-/

namespace UseOrder

/-! ## Opened gaps -/

theorem joins_append_space {stop : Token} {rest space : List Token} (hSpace : AllSpace space) :
    joins (stop :: rest ++ space) = joins (stop :: rest) := by
  have hQuiet : space.all (fun t => !t.isMeaningful) = true := by
    simpa using hSpace.not_meaningful
  have hNames : space.all (·.kind != .namespaceWord) = true := by
    simpa using fun t ht => (Token.isBody_iff.mp (hSpace.isBody t ht)).2.2.1
  have hReach : reaches (stop :: rest ++ space) = reaches (stop :: rest) := by
    -- behind a close tag only what follows the next open tag counts
    have hDrop : ((rest ++ space).dropWhile (·.kind != .openTag)).drop 1 =
        (rest.dropWhile (·.kind != .openTag)).drop 1 ++
          if (rest.dropWhile (·.kind != .openTag)).isEmpty then [] else space := by
      rw [List.dropWhile_append]
      split
      · next hEmpty =>
        have hNone : space.dropWhile (·.kind != .openTag) = [] := by
          rw [List.dropWhile_eq_nil_iff]
          simpa using fun t ht => (Token.isBody_iff.mp (hSpace.isBody t ht)).2.2.2
        have hNil : rest.dropWhile (·.kind != .openTag) = [] := by simpa using hEmpty
        simp [hNone, hNil]
      · next hEmpty =>
        have hNe : rest.dropWhile (·.kind != .openTag) ≠ [] := by simpa using hEmpty
        obtain ⟨t, ts, hts⟩ := List.exists_cons_of_ne_nil hNe
        simp [hts]
    simp only [reaches, List.cons_append]
    split
    · rw [hDrop, List.all_append]
      split <;> simp [hQuiet]
    · rw [List.all_append, hQuiet, Bool.and_true]
  rw [joins, joins, hReach, List.all_append, hNames, Bool.and_true]

theorem EndsStatement.trimEnd_ne_nil {gap : List Token} (h : EndsStatement gap) :
    trimEnd gap ≠ [] := by
  obtain ⟨stop, rest, rfl, hStop, -⟩ := h
  simp [trimEnd_cons (not_space_of_terminator hStop)]

theorem EndsStatement.openUp {gap : List Token} (h : EndsStatement gap) (lineEnding : Text) :
    EndsStatement (openUp lineEnding gap) ∧ joins (openUp lineEnding gap) = joins gap := by
  obtain ⟨stop, rest, rfl, hStop, hOpen⟩ := h
  have hSplit := trimEnd_append_trailingSpace rest
  have hTrim := trimEnd_cons (not_space_of_terminator hStop) rest
  obtain ⟨space, hSpace, hOpened⟩ := exists_openUp_eq lineEnding (stop :: rest)
  rw [hTrim] at hOpened
  rw [hOpened]
  refine ⟨⟨stop, trimEnd rest ++ space, rfl, hStop, fun hClose => ?_⟩, ?_⟩
  · obtain ⟨t, ht, hTag⟩ := hOpen hClose
    rw [← hSplit, List.mem_append] at ht
    rcases ht with ht | ht
    · exact ⟨t, List.mem_append_left _ ht, hTag⟩
    · exact absurd hTag (Token.isBody_iff.mp ((allSpace_trailing rest).isBody t ht)).2.2.2
  · have hGap : joins (stop :: rest) = joins (stop :: trimEnd rest) := by
      conv_lhs => rw [← hSplit]
      exact joins_append_space (allSpace_trailing rest)
    rw [hGap]
    exact joins_append_space hSpace

theorem not_use_openUp {gap : List Token} (h : ∀ t ∈ gap, t.kind ≠ .useWord) (lineEnding : Text) :
    ∀ t ∈ openUp lineEnding gap, t.kind ≠ .useWord := by
  obtain ⟨space, hSpace, hOpened⟩ := exists_openUp_eq lineEnding gap
  intro t ht
  rw [hOpened, List.mem_append] at ht
  rcases ht with ht | ht
  · exact h t (mem_of_mem_trimEnd ht)
  · exact (Token.isBody_iff.mp (hSpace.isBody t ht)).2.1

/-! ## Respaced cells -/

/-- The gap in front of a statement may have been opened. -/
inductive LeadSpaced (lineEnding : Text) : Lead → Lead → Prop
  | same (lead : Lead) : LeadSpaced lineEnding lead lead
  | opened (gap : List Token) (word : Token) (space : List Token) (ends : EndsStatement gap) :
    LeadSpaced lineEnding (.start gap word space) (.start (openUp lineEnding gap) word space)

/-- The cells are the same, up to a gap that may have been opened. -/
def Respaced (lineEnding : Text) (c d : Cell) : Prop :=
  ∃ lead, LeadSpaced lineEnding c.lead lead ∧ d = { c with lead }

theorem Respaced.refl (lineEnding : Text) (c : Cell) : Respaced lineEnding c c :=
  ⟨c.lead, .same _, rfl⟩

/-! ## Cells that stand in for others -/

/-- The second cell can take the place of the first one: it is parsed back, is of the same kind, and
what leads up to it ends statements and parts sub-groups alike. -/
structure Cell.Resembles (c d : Cell) : Prop where
  ok : CellOk c → CellOk d
  start : d.isStart = c.isStart
  kind : d.kind = c.kind
  grouped : d.grouped = c.grouped
  gap : ∀ gap ∈ d.gap?, ∃ old ∈ c.gap?,
    joins gap = joins old ∧ (EndsStatement old → EndsStatement gap)

theorem Respaced.resembles {lineEnding : Text} {c d : Cell} (h : Respaced lineEnding c d) :
    c.Resembles d := by
  obtain ⟨lead, hLead, rfl⟩ := h
  generalize hOld : c.lead = old at hLead
  cases hLead with
  | same =>
    subst hOld
    exact ⟨id, rfl, rfl, rfl, fun gap hGap => ⟨gap, hGap, rfl, id⟩⟩
  | opened gap word space ends =>
    refine ⟨fun hc => ?_, by simp [Cell.isStart, hOld], rfl, rfl, fun new hNew => ?_⟩
    · have hOk := hc.lead
      rw [hOld] at hOk
      exact ⟨⟨not_use_openUp hOk.1 lineEnding, hOk.2⟩, hc.core, hc.shape, hc.after⟩
    · obtain rfl : openUp lineEnding gap = new := by simpa [Cell.gap?] using hNew
      exact ⟨gap, by simp [Cell.gap?, hOld], (ends.openUp lineEnding).2,
        fun _ => (ends.openUp lineEnding).1⟩

theorem Cell.Resembles.mayFollow {c c' d d' : Cell} (hc : c.Resembles c') (hd : d.Resembles d')
    (h : MayFollow c d) : MayFollow c' d' := by
  have hStart := hd.start
  unfold Cell.isStart at hStart
  unfold MayFollow at h ⊢
  cases hNew : d'.lead with
  | start gap word space =>
    obtain ⟨old, hOld, -, hEnds⟩ := hd.gap gap (by simp [Cell.gap?, hNew])
    cases hLead : d.lead with
    | start gap' word' space' =>
      rw [hLead] at h
      obtain rfl : gap' = old := by simpa [Cell.gap?, hLead] using hOld
      exact hEnds h
    | comma space' => simp [Cell.gap?, hLead] at hOld
  | comma space =>
    cases hLead : d.lead with
    | start gap' word' space' => simp [hNew, hLead] at hStart
    | comma space' =>
      rw [hLead] at h
      exact ⟨by rw [hd.kind, hc.kind, h.1], by rw [hc.grouped, h.2.1], by rw [hd.grouped, h.2.2]⟩

theorem CellsOk.resembles {cs ds : List Cell} (h : CellsOk cs)
    (hSame : List.Forall₂ Cell.Resembles cs ds) : CellsOk ds := by
  induction hSame with
  | nil => exact h
  | @cons c d cs ds hd hRest ih =>
    have hOk := ih ⟨fun e he => h.each e (List.mem_cons_of_mem _ he), h.chain.of_cons⟩
    refine ⟨?_, ?_⟩
    · intro e he
      rcases List.mem_cons.mp he with rfl | he
      · exact hd.ok (h.each c List.mem_cons_self)
      · exact hOk.each e he
    · cases hRest with
      | nil => simp
      | cons hNext _ =>
        exact List.isChain_cons_cons.mpr
          ⟨hd.mayFollow hNext (List.isChain_cons_cons.mp h.chain).1, hOk.chain⟩

theorem BlockOk.resembles {block block' : List Cell} (h : BlockOk block)
    (hSame : List.Forall₂ Cell.Resembles block block') : BlockOk block' := by
  obtain ⟨c, cs, rfl, hc, hJoined⟩ := h
  obtain ⟨d, ds, hd, hds, rfl⟩ := List.forall₂_cons_left_iff.mp hSame
  refine ⟨d, ds, rfl, by rw [hd.start, hc], ?_⟩
  clear hSame
  induction hds with
  | nil => simp
  | @cons e e' es es' he hRest ih =>
    intro f hf gap hGap
    rcases List.mem_cons.mp hf with rfl | hf
    · obtain ⟨old, hOld, hJoins, -⟩ := he.gap gap hGap
      rw [hJoins]
      exact hJoined e List.mem_cons_self old hOld
    · exact ih (fun g hg => hJoined g (List.mem_cons_of_mem _ hg)) f hf gap hGap

theorem SetApart.resembles {blocks blocks' : List (List Cell)} (h : SetApart blocks)
    (hSame : List.Forall₂ (List.Forall₂ Cell.Resembles) blocks blocks') : SetApart blocks' := by
  intro b' hb' d hd gap hGap
  obtain ⟨rest', rfl⟩ := List.head?_eq_some_iff.mp hb'
  obtain ⟨ds, rfl⟩ := List.head?_eq_some_iff.mp hd
  obtain ⟨b, rest, hb, -, rfl⟩ := List.forall₂_cons_right_iff.mp hSame
  obtain ⟨c, cs, hc, -, rfl⟩ := List.forall₂_cons_right_iff.mp hb
  obtain ⟨old, hOld, hJoins, hEnds⟩ := hc.gap gap hGap
  have hApart := h (c :: cs) (by simp) c (by simp) old hOld
  exact ⟨hEnds hApart.1, hJoins.trans hApart.2⟩

/-- Blocks whose cells are stood in for are blocks. -/
theorem BlocksOk.resembles {blocks blocks' : List (List Cell)} (h : BlocksOk blocks)
    (hSame : List.Forall₂ (List.Forall₂ Cell.Resembles) blocks blocks') : BlocksOk blocks' := by
  induction hSame with
  | nil => exact h
  | cons hBlock hRest ih =>
    exact .cons (h.cells.append_left.resembles hBlock)
      ((h.each _ List.mem_cons_self).resembles hBlock) (ih h.of_cons) (h.setApart.resembles hRest)

/-- Opened gaps leave blocks what they are. -/
theorem BlocksOk.respaced {lineEnding : Text} {blocks blocks' : List (List Cell)}
    (h : BlocksOk blocks)
    (hSpaced : List.Forall₂ (List.Forall₂ (Respaced lineEnding)) blocks blocks') :
    BlocksOk blocks' :=
  h.resembles (hSpaced.imp fun _ _ hBlock => hBlock.imp fun _ _ hc => hc.resembles)

theorem records_respaced {lineEnding : Text} {cs ds : List Cell}
    (h : List.Forall₂ (Respaced lineEnding) cs ds) (settings : Settings) (i j : Nat) :
    (Cell.records settings j ds).map Record.item =
      (Cell.records settings i cs).map Record.item := by
  induction h generalizing i j with
  | nil => rfl
  | cons hd _ ih =>
    obtain ⟨lead, -, rfl⟩ := hd
    rw [Cell.records, Cell.records, List.map_cons, List.map_cons, ih]
    rfl

/-! ## Stretches of cells -/

/-- The stretches of cells, from a `use` on; `body` is what follows it before the cells. -/
def Cell.stretches (tail : List Token) (word : Token) (body : List Token) :
    List Cell → List Stretch
  | [] => [⟨word, body ++ tail⟩]
  | c :: cs =>
    match c.lead with
    | .start gap next space =>
      ⟨word, body ++ gap⟩ :: stretches tail next (space ++ c.qualifier ++ c.core ++ c.after) cs
    | .comma _ => stretches tail word (body ++ c.tokens) cs

theorem Cell.tokens_stretches (tail : List Token) (word : Token) (body : List Token)
    (cells : List Cell) :
    (Cell.stretches tail word body cells).flatMap Stretch.tokens =
      word :: (body ++ cells.flatMap Cell.tokens ++ tail) := by
  induction cells generalizing word body with
  | nil => simp [Cell.stretches, Stretch.tokens]
  | cons c cs ih =>
    rw [Cell.stretches]
    split
    · next gap next space hLead => simp [ih, Stretch.tokens, Cell.tokens, hLead, Lead.tokens]
    · simp [ih]

theorem Cell.stretches_ne_nil (tail : List Token) (word : Token) (body : List Token)
    (cells : List Cell) : Cell.stretches tail word body cells ≠ [] := by
  intro hNil
  have hTokens := Cell.tokens_stretches tail word body cells
  simp [hNil] at hTokens

/-- Opening the gaps of stretches opens gaps of cells. -/
theorem Cell.openGaps_stretches (lineEnding : Text) {tail : List Token} {cells : List Cell}
    (hEnds : ∀ c ∈ cells, ∀ gap ∈ c.gap?, EndsStatement gap) (word : Token) (body : List Token)
    {pairs : List (Stretch × Text)}
    (hPairs : pairs.map Prod.fst = Cell.stretches tail word body cells) :
    ∃ cells', List.Forall₂ (Respaced lineEnding) cells cells' ∧
      (openGaps lineEnding pairs).flatMap Stretch.tokens =
        word :: (body ++ cells'.flatMap Cell.tokens ++ tail) := by
  induction cells generalizing word body pairs with
  | nil =>
    obtain ⟨⟨s, a⟩, rfl, hs⟩ := List.map_eq_singleton_iff.mp hPairs
    refine ⟨[], .nil, ?_⟩
    simp only at hs
    simp [openGaps, hs, Stretch.tokens]
  | cons c cs ih =>
    -- a stretch goes up to the next `use`: a cell behind a comma lengthens it, another one ends it
    have hLater := ih fun d hd => hEnds d (List.mem_cons_of_mem _ hd)
    rw [Cell.stretches] at hPairs
    split at hPairs
    · next gap next space hLead =>
      obtain ⟨⟨s, a⟩, pairs, rfl, rfl, hRest⟩ := List.map_eq_cons_iff.mp hPairs
      obtain ⟨cells', hSpaced, hTokens⟩ := hLater next _ hRest
      have hGap : EndsStatement gap := hEnds c List.mem_cons_self gap (by simp [Cell.gap?, hLead])
      obtain ⟨t, b, rest, rfl⟩ : ∃ t b rest, pairs = (t, b) :: rest := by
        cases pairs with
        | nil => exact absurd hRest.symm (Cell.stretches_ne_nil _ _ _ _)
        | cons pair rest => exact ⟨pair.1, pair.2, rest, rfl⟩
      rw [openGaps, List.flatMap_cons, hTokens]
      by_cases hSame : b = a
      · refine ⟨c :: cells', .cons (.refl _ _) hSpaced, ?_⟩
        simp [hSame, Stretch.tokens, Cell.tokens, hLead, Lead.tokens]
      · refine ⟨{ c with lead := .start (openUp lineEnding gap) next space } :: cells',
          .cons ⟨_, hLead ▸ .opened gap next space hGap, rfl⟩ hSpaced, ?_⟩
        have hOpen : openUp lineEnding (body ++ gap) = body ++ openUp lineEnding gap :=
          openUp_append_of_ne_nil lineEnding body hGap.trimEnd_ne_nil
        simp [hSame, hOpen, Stretch.tokens, Cell.tokens, Lead.tokens]
    · next space hLead =>
      obtain ⟨cells', hSpaced, hTokens⟩ := hLater word (body ++ c.tokens) hPairs
      exact ⟨c :: cells', .cons (.refl _ _) hSpaced, by rw [hTokens]; simp⟩

theorem Cell.stretches_getLast? (tail : List Token) (word : Token) (body : List Token)
    (cells : List Cell) :
    ∀ s ∈ (Cell.stretches tail word body cells).getLast?, ∃ front, s.rest = front ++ tail := by
  induction cells generalizing word body with
  | nil =>
    intro s hs
    obtain rfl : (⟨word, body ++ tail⟩ : Stretch) = s := by simpa [Cell.stretches] using hs
    exact ⟨body, rfl⟩
  | cons c cs ih =>
    rw [Cell.stretches]
    split
    · next gap next space hLead =>
      rw [List.getLast?_cons_of_ne_nil (Cell.stretches_ne_nil _ _ _ _)]
      exact ih next _
    · exact ih word _

/-- What a cell holds stands in the body of an import. -/
theorem CellOk.slot_isBody {c : Cell} (hc : CellOk c) :
    ∀ t ∈ c.qualifier ++ c.core ++ c.after, t.isBody = true := by
  have hOk := hc.lead
  intro t ht
  simp only [List.mem_append, or_assoc] at ht
  rcases ht with ht | ht | ht
  · cases hLead : c.lead with
    | start gap word space =>
      rw [hLead] at hOk
      exact hOk.2.2.2.isBody t ht
    | comma space =>
      rw [hLead] at hOk
      simp [hOk.2] at ht
  · exact Token.isBody_of_isInner (hc.core.inner t ht)
  · exact hc.after.isBody t ht

theorem CellOk.isBody_start {c : Cell} (hc : CellOk c) {gap space : List Token} {word : Token}
    (hLead : c.lead = .start gap word space) :
    ∀ t ∈ space ++ (c.qualifier ++ c.core ++ c.after), t.isBody = true := by
  have hOk := hc.lead
  rw [hLead] at hOk
  intro t ht
  rcases List.mem_append.mp ht with ht | ht
  · exact hOk.2.2.1.isBody t ht
  · exact hc.slot_isBody t ht

theorem CellOk.isBody_comma {c : Cell} (hc : CellOk c) {space : List Token}
    (hLead : c.lead = .comma space) : ∀ t ∈ c.tokens, t.isBody = true := by
  have hOk := hc.lead
  rw [hLead] at hOk
  have hTokens : c.tokens = commaToken :: (space ++ (c.qualifier ++ c.core ++ c.after)) := by
    simp [Cell.tokens, hLead, Lead.tokens]
  intro t ht
  rw [hTokens, List.mem_cons, List.mem_append] at ht
  rcases ht with rfl | ht | ht
  · decide
  · exact hOk.1.isBody t ht
  · exact hc.slot_isBody t ht

theorem not_use_of_isBody {ts : List Token} (h : ∀ t ∈ ts, t.isBody = true) :
    ∀ t ∈ ts, t.kind ≠ .useWord :=
  fun t ht => (Token.isBody_iff.mp (h t ht)).2.1

theorem Cell.stretchOk_stretches {tail : List Token} (hTail : ∀ t ∈ tail, t.kind ≠ .useWord)
    {cells : List Cell} (hCells : ∀ c ∈ cells, CellOk c) {word : Token}
    (hWord : word.kind = .useWord) {body : List Token} (hBody : ∀ t ∈ body, t.kind ≠ .useWord) :
    ∀ s ∈ Cell.stretches tail word body cells, StretchOk s := by
  have hAppend : ∀ {xs ys : List Token}, (∀ t ∈ xs, t.kind ≠ .useWord) →
      (∀ t ∈ ys, t.kind ≠ .useWord) → ∀ t ∈ xs ++ ys, t.kind ≠ .useWord := by
    intro xs ys hxs hys t ht
    exact (List.mem_append.mp ht).elim (hxs t) (hys t)
  induction cells generalizing word body with
  | nil =>
    intro s hs
    obtain rfl : s = ⟨word, body ++ tail⟩ := by simpa [Cell.stretches] using hs
    exact ⟨hWord, hAppend hBody hTail⟩
  | cons c cs ih =>
    have hc := hCells c List.mem_cons_self
    have hLater := @ih fun d hd => hCells d (List.mem_cons_of_mem _ hd)
    have hOk := hc.lead
    rw [Cell.stretches]
    cases hLead : c.lead with
    | start gap next space =>
      rw [hLead] at hOk
      intro s hs
      rcases List.mem_cons.mp hs with rfl | hs
      · exact ⟨hWord, hAppend hBody hOk.1⟩
      · exact hLater hOk.2.1 (by simpa using not_use_of_isBody (hc.isBody_start hLead)) s hs
    | comma space =>
      exact hLater hWord (hAppend hBody (not_use_of_isBody (hc.isBody_comma hLead)))

/-! ## The whole work -/

/-- Behind the first cell, every statement begins with a terminator. -/
theorem CellsOk.endsStatement_of_mem {c : Cell} {cs : List Cell} (h : CellsOk (c :: cs)) :
    ∀ d ∈ cs, ∀ gap ∈ d.gap?, EndsStatement gap := by
  intro d hd gap hGap
  obtain ⟨before, after, rfl⟩ := List.append_of_mem hd
  unfold Cell.gap? at hGap
  split at hGap
  · next old word space hLead =>
    obtain rfl : old = gap := by simpa using hGap
    exact @CellsOk.endsStatement (c :: before) after d h (by simp) _ _ _ hLead
  · simp at hGap

theorem BlocksOk.head_isStart {blocks : List (List Cell)} (h : BlocksOk blocks) :
    blocks.flatten.head?.all Cell.isStart = true := by
  cases blocks with
  | nil => rfl
  | cons block blocks =>
    obtain ⟨c, cs, rfl, hc, -⟩ := h.each block List.mem_cons_self
    simpa using hc

theorem forall₂_flatten {α β : Type} {R : α → β → Prop} {xs : List (List α)} {ys : List β}
    (h : List.Forall₂ R xs.flatten ys) :
    ∃ zs, List.Forall₂ (List.Forall₂ R) xs zs ∧ zs.flatten = ys := by
  induction xs generalizing ys with
  | nil =>
    obtain rfl := List.forall₂_nil_left_iff.mp h
    exact ⟨[], .nil, rfl⟩
  | cons x xs ih =>
    have hFirst := List.forall₂_take x.length h
    have hLater := List.forall₂_drop x.length h
    rw [List.flatten_cons, List.take_left] at hFirst
    rw [List.flatten_cons, List.drop_left] at hLater
    obtain ⟨zs, hzs, hFlat⟩ := ih hLater
    exact ⟨ys.take x.length :: zs, .cons hFirst hzs, by
      rw [List.flatten_cons, hFlat, List.take_append_drop]⟩

theorem Cell.tokens_cons_start {c : Cell} {gap space : List Token} {word : Token}
    (hLead : c.lead = .start gap word space) (cs : List Cell) (tail : List Token) :
    (c :: cs).flatMap Cell.tokens ++ tail =
      gap ++ word :: (space ++ (c.qualifier ++ c.core ++ c.after) ++ cs.flatMap Cell.tokens ++
        tail) := by
  simp [Cell.tokens, hLead, Lead.tokens]

/-- Adding blank lines to the tokens of cells opens gaps of cells. -/
theorem insertBlankLines_cells (layout : Layout) {cells : List Cell} {tail : List Token}
    (hCells : CellsOk cells) (hStart : cells.head?.all Cell.isStart = true)
    (hTail : ∀ t ∈ tail, t.kind ≠ .useWord) (hStop : tail.head?.any Token.isTerminator = true) :
    ∃ added cells', List.Forall₂ (Respaced layout.lineEnding.text) cells cells' ∧
      insertBlankLines layout (cells.flatMap Cell.tokens ++ tail) =
        .ok (added, cells'.flatMap Cell.tokens ++ tail) := by
  cases cells with
  | nil =>
    have hAdded := @insertBlankLines_stretches layout tail [] [] hTail (by simp) rfl
    exact ⟨0, [], .nil, by simpa [openGaps, openings] using hAdded⟩
  | cons c cs =>
    have hFirst : c.isStart = true := by simpa using hStart
    obtain ⟨gap, word, space, hLead⟩ := Cell.lead_of_isStart hFirst
    -- the first gap is in front of all stretches, and stays
    have hc := hCells.each c List.mem_cons_self
    have hOk := hc.lead
    rw [hLead] at hOk
    have hEach : ∀ d ∈ cs, CellOk d := fun d hd => hCells.each d (List.mem_cons_of_mem _ hd)
    have hStretches := Cell.stretchOk_stretches hTail hEach hOk.2.1
      (not_use_of_isBody (hc.isBody_start hLead))
    have hTokens := Cell.tokens_stretches tail word (space ++ (c.qualifier ++ c.core ++ c.after)) cs
    obtain ⟨segments, hSegments⟩ := @exists_segments
      (Cell.stretches tail word (space ++ (c.qualifier ++ c.core ++ c.after)) cs) gap (by
        intro s hs
        obtain ⟨front, hRest⟩ := Cell.stretches_getLast? _ _ _ _ s hs
        cases tail with
        | nil => simp at hStop
        | cons stop tail => exact ⟨stop, by simp [hRest], by simpa using hStop⟩)
    have hAdded := insertBlankLines_stretches layout hOk.1 hStretches hSegments
    generalize openings _ = added at hAdded
    have hFst : ((Cell.stretches tail word (space ++ (c.qualifier ++ c.core ++ c.after)) cs).zip
        segments).map Prod.fst =
          Cell.stretches tail word (space ++ (c.qualifier ++ c.core ++ c.after)) cs := by
      apply List.map_fst_zip
      rw [length_of_mapM hSegments, length_usesOf]
    obtain ⟨cs', hSpaced, hOpened⟩ :=
      Cell.openGaps_stretches layout.lineEnding.text hCells.endsStatement_of_mem word _ hFst
    refine ⟨added, c :: cs', .cons (.refl _ _) hSpaced, ?_⟩
    rw [Cell.tokens_cons_start hLead, ← hTokens, hAdded, hOpened, Cell.tokens_cons_start hLead]

/-- Fixing takes three steps: sub-groups are found, ordered from the last to the first, and blank
lines are added to what comes out. -/
theorem exists_steps_of_fixTokens {settings : Settings} {ts fixed : List Token} {counts : Counts}
    (h : fixTokens settings ts = .ok (counts, fixed)) :
    ∃ groups ordered, subGroups ts = .ok groups ∧
      orderSubGroups settings ⟨ts, 0, 0⟩ groups.reverse = .ok ordered ∧
      insertBlankLines settings.layout ordered.tokens = .ok (counts.blankLines, fixed) ∧
      counts.slotsChanged = ordered.slotsChanged := by
  simp only [fixTokens, bind, Except.bind, pure, Except.pure] at h
  split at h
  · cases h
  · next groups hGroups =>
    split at h
    · cases h
    · next ordered hOrdered =>
      split at h
      · cases h
      · next spaced hSpaced =>
        obtain ⟨added, spaced⟩ := spaced
        obtain ⟨rfl, rfl⟩ := Prod.mk.inj (Except.ok.inj h)
        exact ⟨groups, ordered, hGroups, hOrdered, hSpaced, rfl⟩

/-- Fixing the tokens of blocks adds blank lines to the reordered blocks. -/
theorem fixTokens_of_insertBlankLines (settings : Settings) {blocks : List (List Cell)}
    {tail : List Token} (h : BlocksOk blocks) (hTail : ∀ t ∈ tail, t.kind ≠ .useWord)
    (hStop : tail.head?.any Token.isTerminator = true) {added : Nat} {spaced : List Token}
    (hBlank : insertBlankLines settings.layout
      ((reorderBlocks settings 0 blocks).flatten.flatMap Cell.tokens ++ tail) =
        .ok (added, spaced)) :
    ∃ counts, fixTokens settings (blocks.flatten.flatMap Cell.tokens ++ tail) =
        .ok (counts, spaced) ∧
      counts.slotsChanged = rewrittenSlots settings 0 blocks ∧ counts.blankLines = added := by
  have hGroups := subGroups_blocks h hTail
  obtain ⟨count, hOrdered⟩ := orderSubGroups_blocks settings h hStop [] (.inr rfl) 0 0 0
  let runs := (importRuns (blocks.flatten.flatMap Cell.tokens ++ tail)).countP fun run =>
    !run.isEmpty
  refine ⟨⟨runs, (blockGroups 0 0 blocks).length, count, rewrittenSlots settings 0 blocks, added⟩,
    ?_, rfl, rfl⟩
  simp only [List.nil_append, List.length_nil, Nat.zero_add] at hOrdered
  simp only [fixTokens, hGroups, hOrdered, hBlank, bind, Except.bind]
  rfl

/-- Ordering and blank lines turn blocks into their reordered and respaced blocks. -/
theorem fixTokens_blocks (settings : Settings) {blocks : List (List Cell)} {tail : List Token}
    (h : BlocksOk blocks) (hTail : ∀ t ∈ tail, t.kind ≠ .useWord)
    (hStop : tail.head?.any Token.isTerminator = true) :
    ∃ counts blocks', fixTokens settings (blocks.flatten.flatMap Cell.tokens ++ tail) =
        .ok (counts, blocks'.flatten.flatMap Cell.tokens ++ tail) ∧
      List.Forall₂ (List.Forall₂ (Respaced settings.layout.lineEnding.text))
        (reorderBlocks settings 0 blocks) blocks' := by
  have hOrderedOk := h.reorder settings 0
  obtain ⟨added, cells', hSpaced, hBlank⟩ :=
    insertBlankLines_cells settings.layout hOrderedOk.cells hOrderedOk.head_isStart hTail hStop
  obtain ⟨blocks', hBlocks, rfl⟩ := forall₂_flatten hSpaced
  obtain ⟨counts, hFixed, -⟩ := fixTokens_of_insertBlankLines settings h hTail hStop hBlank
  exact ⟨counts, blocks', hFixed, hBlocks⟩

end UseOrder
