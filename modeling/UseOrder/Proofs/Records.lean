import UseOrder.Proofs.Fixing
import UseOrder.Proofs.Source
import UseOrder.Proofs.WellFormed

/-!
# The records after fixing

For every source text with well-formed imports, what is parsed after fixing is what was parsed
before, sub-group by sub-group and in order: no import is lost, doubled, moved to another sub-group
or given another kind.
-/

namespace UseOrder

/-- The records of blocks that follow each other from `offset` on. -/
def blockRecords (settings : Settings) (offset : Nat) : List (List Cell) → List (List Record)
  | [] => []
  | b :: bs =>
    Cell.records settings offset b ::
      blockRecords settings (offset + (b.flatMap Cell.tokens).length) bs

/-- The sub-groups of blocks are parsed to their records. -/
theorem parse_blockGroups (settings : Settings) {blocks : List (List Cell)} {tail : List Token}
    (h : BlocksOk blocks) (hStop : tail.head?.any Token.isTerminator = true) (before : List Token)
    (run : Nat) :
    List.Forall₂ (fun group records => parseStatements settings
        (before ++ blocks.flatten.flatMap Cell.tokens ++ tail) group.uses = .ok records)
      (blockGroups before.length run blocks) (blockRecords settings before.length blocks) := by
  induction blocks generalizing before run with
  | nil => exact .nil
  | cons block blocks ih =>
    obtain ⟨c, cs, rfl, hc, -⟩ := h.each block List.mem_cons_self
    have hAfter := h.setApart.terminated h.of_cons.each hStop
    have hFirst :=
      parseStatements_cells settings h.cells.append_left (by simpa using hc) hAfter before
    have hLater := ih h.of_cons (before ++ (c :: cs).flatMap Cell.tokens)
      (run + namespaces ((c :: cs).flatMap Cell.tokens))
    have hTokens : before ++ ((c :: cs) :: blocks).flatten.flatMap Cell.tokens ++ tail =
        before ++ (c :: cs).flatMap Cell.tokens ++
          (blocks.flatten.flatMap Cell.tokens ++ tail) := by
      simp
    rw [blockGroups, blockRecords, hTokens]
    rw [List.append_assoc, List.length_append] at hLater
    exact .cons hFirst hLater

/-- Reordered and respaced blocks hold the records in order. -/
theorem items_blockRecords {settings : Settings} {lineEnding : Text}
    {blocks blocks' : List (List Cell)} (h : BlocksOk blocks) {offset : Nat}
    (hBlocks : List.Forall₂ (List.Forall₂ (Respaced lineEnding))
      (reorderBlocks settings offset blocks) blocks') (offset' : Nat) :
    List.Forall₂ (fun records records' : List Record =>
        records'.map Record.item = (orderRecords settings records).map Record.item)
      (blockRecords settings offset blocks) (blockRecords settings offset' blocks') := by
  induction blocks generalizing offset offset' blocks' with
  | nil =>
    obtain rfl := List.forall₂_nil_left_iff.mp hBlocks
    exact .nil
  | cons block blocks ih =>
    rw [reorderBlocks] at hBlocks
    obtain ⟨block', rest, hBlock, hRest, rfl⟩ := List.forall₂_cons_left_iff.mp hBlocks
    rw [blockRecords, blockRecords]
    refine .cons ?_ (ih h.of_cons hRest _)
    rw [records_respaced hBlock settings 0, Cell.records_reorder h.cells.append_left]

/-- What a record imports, as it is compared and reported. -/
def Record.entry (r : Record) : ImportKind × Bool × Text :=
  (r.kind, r.grouped, r.path)

/-- The path of a record, told from its tokens. -/
def itemEntry (item : ImportKind × Bool × List Token) : ImportKind × Bool × Text :=
  (item.1, item.2.1, Text.strip (stripComments
    (textOf (if item.2.1 then item.2.2.takeWhile (·.kind != .groupOpen) else item.2.2))))

theorem Cell.entry_record (settings : Settings) (offset : Nat) (c : Cell) :
    (c.record settings offset).entry = itemEntry (c.record settings offset).item := by
  cases hGrouped : c.grouped <;>
    simp [Record.entry, Record.path, Record.item, itemEntry, Cell.record, hGrouped]

theorem Cell.map_entry_of_mem {settings : Settings} {offset : Nat} {cells : List Cell}
    {rs : List Record} (h : ∀ r ∈ rs, r ∈ Cell.records settings offset cells) :
    rs.map Record.entry = (rs.map Record.item).map itemEntry := by
  rw [List.map_map]
  refine List.map_congr_left fun r hr => ?_
  obtain ⟨c, -, at', rfl⟩ := Cell.exists_cell_of_mem_records (h r hr)
  exact c.entry_record settings at'

theorem forall₂_join {α β γ δ : Type} {P : α → β → Prop} {Q : γ → δ → Prop} {R : β → δ → Prop}
    {as : List α} {bs : List β} {cs : List γ} {ds : List δ} (hP : List.Forall₂ P as bs)
    (hQ : List.Forall₂ Q cs ds) (hR : List.Forall₂ R bs ds) :
    List.Forall₂ (fun a c => ∃ b d, P a b ∧ Q c d ∧ R b d) as cs := by
  induction hR generalizing as cs with
  | nil =>
    obtain rfl := List.forall₂_nil_right_iff.mp hP
    obtain rfl := List.forall₂_nil_right_iff.mp hQ
    exact .nil
  | cons hbd _ ih =>
    obtain ⟨a, as, ha, has, rfl⟩ := List.forall₂_cons_right_iff.mp hP
    obtain ⟨c, cs, hc, hcs, rfl⟩ := List.forall₂_cons_right_iff.mp hQ
    exact .cons ⟨_, _, ha, hc, hbd⟩ (ih has hcs)

/-- Without imports there is nothing to do, and nothing is counted. -/
theorem fixTokens_plain (settings : Settings) {ts : List Token}
    (h : ∀ t ∈ ts, t.kind ≠ .useWord) : fixTokens settings ts = .ok (⟨0, 0, 0, 0, 0⟩, ts) := by
  have hGroups := @subGroups_blocks [] .nil ts h
  have hBlank := @insertBlankLines_stretches settings.layout ts [] [] h (by simp) rfl
  have hRuns := importRunsFrom_gap h 0 []
  simp only [List.flatten_nil, List.flatMap_nil, List.nil_append, List.append_nil, blockGroups,
    openGaps, openings, List.zip_nil_left] at hGroups hBlank hRuns
  simp only [fixTokens, hGroups, List.reverse_nil, orderSubGroups, hBlank, bind, Except.bind, pure,
    Except.pure, importRuns, hRuns]
  simp [importRunsFrom, List.countP_replicate]

/-- A text that was handled is what its reworked tokens write, and what is counted are the changes
of this work. -/
theorem fixSource_outcome {settings : Settings} {tokenizer : TokenizerSettings}
    {outcome : ProcessOutcome} {path : Option String} {source : Text} {r : FixResult}
    (hEngine : tokenizer.engine = .builtIn)
    (h : fixSource settings tokenizer outcome path source = .ok r) (hOk : r.ok = true) :
    ∃ counts fixed, fixTokens settings (classify (lex source)) = .ok (counts, fixed) ∧
      r.code = textOf fixed ∧ ∀ counted ∈ r.counts?, counted = counts := by
  rw [fixSource_builtIn hEngine] at h
  split at h
  · split at h
    · obtain rfl := Except.ok.inj h
      exact absurd hOk (by simp [FixResult.ok, FixResult.issues])
    · cases h
    · next counts fixed hFixed =>
      obtain rfl := Except.ok.inj h
      exact ⟨counts, fixed, hFixed, rfl, fun counted hCounted => (Option.some.inj hCounted).symm⟩
  · -- without imports the tokens are not even reworked, which would leave them as they are
    next hNone =>
    obtain rfl := Except.ok.inj h
    have hNoUse : ∀ t ∈ classify (lex source), t.kind ≠ .useWord := by
      simpa [hasKind] using hNone
    exact ⟨_, _, fixTokens_plain settings hNoUse, (textOf_tokens source).symm,
      fun counted hCounted => by cases hCounted⟩

/-- The tokens of a source text with well-formed imports are cut into blocks, and fixing reorders
and respaces these. -/
theorem exists_fixed_blocks (settings : Settings) {source : Text}
    (h : wellFormed (classify (lex source)) = true) :
    ∃ blocks tail counts blocks',
      classify (lex source) = blocks.flatten.flatMap Cell.tokens ++ tail ∧
      BlocksOk blocks ∧ (∀ t ∈ tail, t.kind ≠ .useWord) ∧
      (blocks ≠ [] → tail.head?.any Token.isTerminator = true) ∧
      fixTokens settings (classify (lex source)) =
        .ok (counts, blocks'.flatten.flatMap Cell.tokens ++ tail) ∧
      List.Forall₂ (List.Forall₂ (Respaced settings.layout.lineEnding.text))
        (reorderBlocks settings 0 blocks) blocks' := by
  obtain ⟨blocks, tail, hSource, hBlocks, hTail, hStop⟩ := exists_blocks h
  rw [hSource]
  by_cases hNe : blocks = []
  · subst hNe
    exact ⟨[], tail, _, [], rfl, hBlocks, hTail, hStop, fixTokens_plain settings hTail, .nil⟩
  · obtain ⟨counts, blocks', hFixed, hSpaced⟩ :=
      fixTokens_blocks settings hBlocks hTail (hStop hNe)
    exact ⟨blocks, tail, counts, blocks', rfl, hBlocks, hTail, hStop, hFixed, hSpaced⟩

/-- A source text with well-formed imports is handled. -/
theorem fixSource_wellFormed (settings : Settings) {tokenizer : TokenizerSettings}
    (hEngine : tokenizer.engine = .builtIn) (outcome : ProcessOutcome) (path : Option String)
    {source : Text} (h : wellFormed (classify (lex source)) = true) :
    ∃ r, fixSource settings tokenizer outcome path source = .ok r ∧ r.ok = true := by
  obtain ⟨blocks, tail, counts, blocks', -, -, -, -, hFixed, -⟩ := exists_fixed_blocks settings h
  rw [fixSource_builtIn hEngine, hFixed]
  split <;> exact ⟨_, rfl, rfl⟩

/-- After fixing there are as many sub-groups as before, and each is parsed to the records of the
old one, in order. -/
theorem fixTokens_keeps_records (settings : Settings) (source : Text)
    (h : wellFormed (classify (lex source)) = true) :
    ∃ groups counts fixed groups',
      subGroups (classify (lex source)) = .ok groups ∧
      fixTokens settings (classify (lex source)) = .ok (counts, fixed) ∧
      subGroups fixed = .ok groups' ∧
      List.Forall₂ (fun group group' => ∃ records records',
        parseStatements settings (classify (lex source)) group.uses = .ok records ∧
        parseStatements settings fixed group'.uses = .ok records' ∧
        records'.map Record.item = (orderRecords settings records).map Record.item)
        groups groups' := by
  obtain ⟨blocks, tail, counts, blocks', hSource, hBlocks, hTail, hStop, hFixed, hSpaced⟩ :=
    exists_fixed_blocks settings h
  have hGroups := subGroups_blocks hBlocks hTail
  have hBlocks' := (hBlocks.reorder settings 0).respaced hSpaced
  refine ⟨_, counts, _, _, by rw [hSource, hGroups], hFixed, subGroups_blocks hBlocks' hTail, ?_⟩
  by_cases hNe : blocks = []
  · subst hNe
    obtain rfl := List.forall₂_nil_left_iff.mp hSpaced
    exact .nil
  · rw [hSource]
    exact forall₂_join (parse_blockGroups settings hBlocks (hStop hNe) [] 0)
      (parse_blockGroups settings hBlocks' (hStop hNe) [] 0) (items_blockRecords hBlocks hSpaced 0)

/-- Constants, a group and a function in one sub-group: the comma has to be split. -/
theorem fixTokens_keeps_records_of_kinds :
    wellFormed (classify (lex "<?php use const Z\\B, Y; use A\\\x7bC, B\x7d; use function f;".toList)) = true ∧
    ∃ groups counts fixed groups',
      subGroups (classify (lex
        "<?php use const Z\\B, Y; use A\\\x7bC, B\x7d; use function f;".toList)) = .ok groups ∧
      fixTokens {} (classify (lex
        "<?php use const Z\\B, Y; use A\\\x7bC, B\x7d; use function f;".toList)) =
          .ok (counts, fixed) ∧
      subGroups fixed = .ok groups' ∧
      List.Forall₂ (fun group group' => ∃ records records',
        parseStatements {} (classify (lex
          "<?php use const Z\\B, Y; use A\\\x7bC, B\x7d; use function f;".toList)) group.uses =
            .ok records ∧
        parseStatements {} fixed group'.uses = .ok records' ∧
        records'.map Record.item = (orderRecords {} records).map Record.item) groups groups' :=
  ⟨by decide +kernel, fixTokens_keeps_records {} _ (by decide +kernel)⟩

end UseOrder
