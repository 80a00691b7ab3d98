import UseOrder.Proofs.Fixing
import UseOrder.Proofs.Nesting
import UseOrder.Proofs.Pieces

/-!
# Records in other slots

A record is movable if it is read back wherever it is written: behind a `use`, with its qualifier,
and behind a comma, without one (`Record.Movable`). Behind a `use` its first word may get another
label (`Record.atStart`). When movable records are written into the slots of cells that were read,
the new cells are read again, up to that label: they are split into the same tokens
(`scans_refilled`), and these are given the kinds that `Refilled` says (`labels_refilled`). One
lemma says so of a single cell, the induction over the cells follows from it.
-/

namespace UseOrder

/-! ## Movable records -/

/-- A record that is read back in front of every comma and terminator. Without a qualifier it must
not begin with a word that would be taken for one. -/
structure Record.Movable (r : Record) : Prop where
  solid : Solid r.tokens
  written : Solid (qualifierTokens r ++ r.tokens)
  settled : ∀ t ∈ r.tokens, t.Settled
  announced : (qualifierTokens r = [] ∧ firstQualifies r.tokens = false) ∨
    ∃ q space, qualifierTokens r = q :: space ∧ q.Qualifies ∧ AllSpace space ∧
      (space ++ r.tokens).head?.any (·.kind == .separator) = false

/-- The tokens of a record with the labels that they get behind a `use`. -/
def Record.atStart (r : Record) : List Token :=
  if (qualifierTokens r).isEmpty then announce r.tokens else r.tokens

theorem Record.map_raw_atStart (r : Record) :
    r.atStart.map Token.raw = r.tokens.map Token.raw := by
  unfold Record.atStart
  split
  · exact map_raw_announce r.tokens
  · rfl

theorem Record.Movable.solid_atStart {r : Record} (h : r.Movable) :
    Solid (qualifierTokens r ++ r.atStart) :=
  h.written.raw_congr (by rw [List.map_append, List.map_append, r.map_raw_atStart])

/-- A settled token is no qualifier. -/
theorem Token.Settled.not_qualifier {t : Token} (h : t.Settled) : t.isQualifier = false := by
  cases hQualifier : t.isQualifier with
  | false => rfl
  | true =>
    rw [Token.isQualifier, Bool.or_eq_true, beq_iff_eq, beq_iff_eq] at hQualifier
    have hKind := h.kind
    have hRaw : t.raw = ⟨.ofWord t.content, t.content⟩ := by
      rcases hQualifier with hQualifier | hQualifier <;>
        simp [Token.raw, TokenKind.raw, hQualifier]
    rw [hRaw] at hKind
    rcases ofWord_cases t.content with hWord | hWord | hWord <;>
      rcases hQualifier with hQualifier | hQualifier <;>
        simp [Context.importKind, Token.isPunct, hWord, hQualifier] at hKind

/-- The label of the first word is all that changes at the beginning of an import. -/
theorem reworded_announce {ts : List Token} (h : ∀ t ∈ ts, t.Settled) :
    Reworded ts (announce ts) := by
  induction ts with
  | nil => exact .same []
  | cons t ts ih =>
    unfold announce
    split
    · cases hFound : Context.qualifierKind? t.raw ts with
      | none => exact .same _
      | some kind =>
        obtain ⟨-, hKind, hName, -⟩ := qualifierKind?_of_some hFound
        refine @Reworded.word [] ts t ⟨kind, t.content⟩ (by simp) ?_ ?_ rfl
        · -- a settled word that was split off as a name is labelled a name
          rw [Token.isNameWord_iff, ← (h t List.mem_cons_self).kind]
          simp [Context.importKind, Token.isPunct, hName]
        · rw [Token.isNameWord_iff]
          exact .inr hKind
    · next hQuiet =>
      exact (ih fun u hu => h u (List.mem_cons_of_mem _ hu)).cons (by simpa using hQuiet)

theorem Record.Movable.atStart {r : Record} (h : r.Movable) :
    Reworded r.tokens r.atStart ∧ ∀ t ∈ r.atStart.head?, t.isQualifier = false := by
  have hPlain : ∀ t ∈ r.tokens, t.isQualifier = false :=
    fun t ht => (h.settled t ht).not_qualifier
  unfold Record.atStart
  split
  · next hEmpty =>
    refine ⟨reworded_announce h.settled, announce_head ?_ hPlain⟩
    rcases h.announced with ⟨-, hFirst⟩ | ⟨q, space, hSome, -⟩
    · exact hFirst
    · simp [hSome] at hEmpty
  · exact ⟨.same _, fun t ht => hPlain t (List.mem_of_mem_head? ht)⟩

theorem AllSpace.settled {ts : List Token} (h : AllSpace ts) : ∀ t ∈ ts, t.Settled := by
  intro t ht
  have hKind : t.kind = .whitespace := by simpa [Token.isWhitespace] using h t ht
  have hRaw : t.raw = t := Token.raw_eq_self (by rw [hKind]; rfl)
  constructor
  · rw [hRaw]
    simp [Context.importKind, Token.isPunct, hKind]
  · rw [hRaw]
    simp [Token.isTerminator, Token.isPunct, hKind]

/-- The labels of a movable record at the beginning of an import. -/
theorem Record.Movable.labels {r : Record} (h : r.Movable) {c : Context}
    (hc : c.place = .importStart) {rest : List Token}
    (hNext : rest.head?.any (·.kind == .separator) = false) :
    ∃ c', Labels c (qualifierTokens r ++ r.atStart) rest c' ∧ c'.Agrees c ∧ c'.place ≠ .code := by
  rcases h.announced with ⟨hNone, -⟩ | ⟨q, space, hSome, hq, hSpace, hHead⟩
  · rw [Record.atStart, hNone, List.nil_append]
    exact labels_announce hc h.settled hNext
  · obtain ⟨between, hWord, hAgrees, hPlace⟩ :=
      labels_qualifier hc hq ((head_separator_raw _ hNext).trans hHead)
    have hSettled : ∀ t ∈ space ++ r.tokens, t.Settled := by
      intro t ht
      rcases List.mem_append.mp ht with ht | ht
      · exact hSpace.settled t ht
      · exact h.settled t ht
    obtain ⟨c', hBody, hLater, hLast⟩ := labels_body hPlace hSettled rest
    refine ⟨c', ?_, hLater.trans hAgrees, by simp [hLast]⟩
    rw [Record.atStart, hSome, List.cons_append, ← List.singleton_append, labels_append]
    exact ⟨between, hWord, hBody⟩

/-! ## Refilled cells -/

/-- A new statement where a comma was, up to its record. -/
def splitLead (content : Text) : Lead :=
  .start [⟨.punct, [';']⟩, ⟨.whitespace, content⟩] ⟨.useWord, "use".toList⟩ [oneSpace]

/-- The cell with a movable record in its slot, as it is read. A comma stays, or gives way to a new
statement. -/
inductive Refilled (c : Cell) : Cell → Prop
  | start {gap : List Token} {word : Token} {space : List Token} (r : Record)
      (movable : r.Movable) (lead : c.lead = .start gap word space) :
    Refilled c ⟨.start gap word space, r.kind, r.grouped, qualifierTokens r, r.atStart, c.after⟩
  | comma {space : List Token} (r : Record) (movable : r.Movable) (lead : c.lead = .comma space) :
    Refilled c ⟨.comma space, r.kind, r.grouped, [], r.tokens, c.after⟩
  | split {space : List Token} (content : Text) (r : Record) (movable : r.Movable)
      (lead : c.lead = .comma space) (some : content ≠ [])
      (blank : ∀ d ∈ content, isBlank d = true) :
    Refilled c ⟨splitLead content, r.kind, r.grouped, qualifierTokens r, r.atStart, c.after⟩

/-- Up to the label of its first word the cell is read as the other one. -/
def Cell.Relabelled (c d : Cell) : Prop :=
  c.ReadAs d ∧ d.lead = c.lead

section Placing

variable {layout : Layout} {current : Option OpenStatement} {c : Cell}

theorem Record.ReadAs.place_start {r s : Record} (h : r.ReadAs s) (hs : s.Movable) (lead : Lead)
    (after : List Token) :
    Cell.Relabelled ⟨lead, r.kind, r.grouped, qualifierTokens r, r.tokens, after⟩
      ⟨lead, s.kind, s.grouped, qualifierTokens s, s.atStart, after⟩ :=
  ⟨⟨.refl lead, h.kind, h.grouped, h.qualifierTokens_eq, h.tokens.trans hs.atStart.1, hs.atStart.2,
    rfl⟩, rfl⟩

theorem Record.ReadAs.place_comma {r s : Record} (h : r.ReadAs s) (hs : s.Movable)
    (space after : List Token) :
    Cell.Relabelled ⟨.comma space, r.kind, r.grouped, [], r.tokens, after⟩
      ⟨.comma space, s.kind, s.grouped, [], s.tokens, after⟩ :=
  ⟨⟨.refl _, h.kind, h.grouped, rfl, h.tokens,
    fun t ht => (hs.settled t (List.mem_of_mem_head? ht)).not_qualifier, rfl⟩, rfl⟩

/-- A record that is read as a movable one may be written into every slot. -/
theorem refilled_place {r s : Record} (hs : s.Movable) (hSame : r.ReadAs s)
    (hIndent : ∀ d ∈ c.indent current, isBlank d = true) :
    ∃ d, Refilled c d ∧ (c.place layout current r).Relabelled d := by
  unfold Cell.place
  cases hLead : c.lead with
  | start gap word space => exact ⟨_, .start s hs hLead, hSame.place_start hs _ _⟩
  | comma space =>
    simp only
    split
    · exact ⟨_, .comma s hs hLead, hSame.place_comma hs _ _⟩
    · refine ⟨_, .split _ s hs hLead ?_ ?_, hSame.place_start hs _ _⟩
      · simp [lineEnding_ne_nil]
      · intro d hd
        rcases List.mem_append.mp hd with hd | hd
        · exact layout.lineEnding.text_blank d hd
        · exact hIndent d hd

theorem refilled_placeAll {pairs : List (Cell × Record)}
    (hRecords : ∀ r ∈ pairs.map Prod.snd, ∃ s : Record, s.Movable ∧ r.ReadAs s)
    (hGaps : ∀ c ∈ pairs.map Prod.fst, ∀ gap ∈ c.gap?, ∀ d ∈ gapIndent gap, isBlank d = true)
    (hCurrent : ∀ d ∈ (current.map OpenStatement.indent).getD [], isBlank d = true) :
    ∃ ds, List.Forall₂ Refilled (pairs.map Prod.fst) ds ∧
      List.Forall₂ Cell.Relabelled (Cell.placeAll layout current pairs) ds := by
  induction pairs generalizing current with
  | nil => exact ⟨[], .nil, .nil⟩
  | cons pair rest ih =>
    obtain ⟨c, r⟩ := pair
    -- the indent comes from the gap in front, or from the statement that goes on
    have hIndent : ∀ d ∈ c.indent current, isBlank d = true := by
      have hGap := hGaps c (by simp)
      unfold Cell.indent
      unfold Cell.gap? at hGap
      split
      · next gap word space hLead =>
        rw [hLead] at hGap
        exact hGap gap rfl
      · exact hCurrent
    obtain ⟨s, hs, hSame⟩ := hRecords r (by simp)
    obtain ⟨d, hd, hcd⟩ := @refilled_place layout current c r s hs hSame hIndent
    obtain ⟨ds, hds, hRest⟩ := @ih (some (c.statement current r))
      (fun s hs => hRecords s (by simp_all)) (fun d hd => hGaps d (by simp_all)) hIndent
    exact ⟨d :: ds, .cons hd hds, .cons hcd hRest⟩

end Placing

/-! ## What follows a cell -/

/-- Text that a comma or a terminator begins. -/
structure Parted (y : Text) : Prop where
  ends : endsName y = true
  solid : StartsSolid y

/-- A comma or a terminator, as it is written. -/
def Token.Parts (t : Token) : Prop :=
  t.kind ≠ .separator ∧ ∀ rest, Parted (t.content ++ rest)

theorem parts_comma : commaToken.Parts :=
  ⟨by simp [commaToken], fun rest => ⟨rfl, ',', rest, rfl, by decide⟩⟩

theorem parts_semicolon : (⟨.punct, [';']⟩ : Token).Parts :=
  ⟨by simp, fun rest => ⟨rfl, ';', rest, rfl, by decide⟩⟩

/-- Close tags are written with a question mark and an angle. -/
def TagsWritten (ts : List Token) : Prop :=
  ∀ t ∈ ts, t.kind = .closeTag → ∃ rest, t.content = '?' :: '>' :: rest

theorem TagsWritten.parts {ts : List Token} (h : TagsWritten ts) {t : Token} (ht : t ∈ ts)
    (hStop : t.isTerminator = true) : t.Parts := by
  rcases t.kind_of_isTerminator hStop with hClose | rfl
  · obtain ⟨rest, hContent⟩ := h t ht hClose
    refine ⟨by simp [hClose], fun later => ?_⟩
    rw [hContent]
    exact ⟨rfl, '?', '>' :: rest ++ later, rfl, by decide⟩
  · exact parts_semicolon

/-- The tokens begin with a comma or a terminator. -/
def Parting (ts : List Token) : Prop :=
  ∃ t more, ts = t :: more ∧ t.Parts

theorem Parting.append {ts : List Token} (h : Parting ts) (more : List Token) :
    Parting (ts ++ more) := by
  obtain ⟨t, rest, rfl, ht⟩ := h
  exact ⟨t, rest ++ more, rfl, ht⟩

theorem Parting.parted {ts : List Token} (h : Parting ts) : Parted (textOf ts) := by
  obtain ⟨t, rest, rfl, ht⟩ := h
  exact ht.2 _

theorem Parting.head_separator {ts : List Token} (h : Parting ts) :
    (ts.map Token.raw).head?.any (·.kind == .separator) = false := by
  obtain ⟨t, rest, rfl, ht⟩ := h
  rw [← List.append_nil ((t :: rest).map Token.raw), head_separator_raw _ rfl]
  simpa using ht.1

theorem TagsWritten.parting {ts : List Token} (h : TagsWritten ts)
    (hStop : ts.head?.any Token.isTerminator = true) : Parting ts := by
  cases ts with
  | nil => simp at hStop
  | cons t rest => exact ⟨t, rest, rfl, h.parts List.mem_cons_self (by simpa using hStop)⟩

/-- A cell behind another one begins with a comma or a terminator. -/
theorem MayFollow.parting {b c : Cell} (h : MayFollow b c) (hTags : TagsWritten c.tokens) :
    Parting c.tokens := by
  unfold MayFollow at h
  cases hLead : c.lead with
  | start gap word space =>
    rw [hLead] at h
    obtain ⟨stop, rest, rfl, hStop, -⟩ := h
    refine hTags.parting ?_
    simpa [Cell.tokens, hLead, Lead.tokens] using hStop
  | comma space =>
    refine ⟨commaToken, space ++ c.qualifier ++ c.core ++ c.after, ?_, parts_comma⟩
    simp [Cell.tokens, hLead, Lead.tokens]

/-- What follows the first of some cells. -/
theorem parting_next {c : Cell} {cs : List Cell} (hChain : (c :: cs).IsChain MayFollow)
    {tail : List Token} (hTags : TagsWritten (cs.flatMap Cell.tokens ++ tail))
    (hStop : tail.head?.any Token.isTerminator = true) :
    Parting (cs.flatMap Cell.tokens ++ tail) := by
  cases cs with
  | nil => exact hTags.parting hStop
  | cons d ds =>
    rw [List.flatMap_cons, List.append_assoc] at hTags ⊢
    refine ((List.isChain_cons_cons.mp hChain).1.parting fun t ht => ?_).append _
    exact hTags t (List.mem_append_left _ ht)

/-- A refilled cell begins with the token that the old one began with, or with a semicolon. -/
theorem Refilled.parting {c d : Cell} (h : Refilled c d) (hc : Parting c.tokens) :
    Parting d.tokens := by
  obtain ⟨t, rest, hTokens, ht⟩ := hc
  cases h with
  | @start gap word space r hr hLead =>
    rw [Cell.tokens, hLead, Lead.tokens] at hTokens
    cases gap with
    | nil =>
      obtain rfl : word = t := (List.cons.inj hTokens).1
      exact ⟨word, _, rfl, ht⟩
    | cons u gap =>
      obtain rfl : u = t := (List.cons.inj hTokens).1
      exact ⟨u, _, rfl, ht⟩
  | comma r hr hLead => exact ⟨commaToken, _, rfl, parts_comma⟩
  | split content r hr hLead => exact ⟨_, _, rfl, parts_semicolon⟩

theorem Cell.tokens_ne_nil (c : Cell) : c.tokens ≠ [] := by
  cases hLead : c.lead <;> simp [Cell.tokens, hLead, Lead.tokens]

theorem parting_refilled {cs ds : List Cell} (h : List.Forall₂ Refilled cs ds) {tail : List Token}
    (hOld : Parting (cs.flatMap Cell.tokens ++ tail)) :
    Parting (ds.flatMap Cell.tokens ++ tail) := by
  cases h with
  | nil => exact hOld
  | @cons c d cs ds hd _ =>
    rw [List.flatMap_cons, List.append_assoc] at hOld ⊢
    refine (hd.parting ?_).append _
    obtain ⟨t, more, hTokens, ht⟩ := hOld
    cases hFirst : c.tokens with
    | nil => exact absurd hFirst c.tokens_ne_nil
    | cons u rest =>
      rw [hFirst] at hTokens
      obtain rfl : u = t := (List.cons.inj hTokens).1
      exact ⟨u, rest, rfl, ht⟩

/-! ## Reading refilled cells -/

theorem modeAfter_of_isBody {ts : List Token} (h : ∀ t ∈ ts, t.isBody = true) :
    modeAfter true ts = true := by
  refine modeAfter_of_no_closeTag fun t ht hClose => ?_
  have hNot := (Token.isBody_iff.mp (h t ht)).1
  simp [Token.isTerminator, hClose] at hNot

/-- A `use` is read in code, and code goes on behind it. -/
theorem modeAfter_use {m : Bool} {gap : List Token} {word : Token} {x : Text}
    (h : Scans m (gap ++ [word]) x) (hWord : word.kind = .useWord) :
    modeAfter m (gap ++ [word]) = true := by
  obtain ⟨hMode, -⟩ := (scans_append.mp h).2.1.of_use hWord
  rw [modeAfter_append, hMode]
  simp [nextMode, hWord]

/-- The slot of a cell that was read stands in code. -/
theorem CellOk.code_lead {c : Cell} (hc : CellOk c) {m : Bool} {x : Text}
    (hMode : c.isStart = false → m = true) (h : Scans m c.lead.tokens x) :
    modeAfter m c.lead.tokens = true := by
  have hOk := hc.lead
  unfold Cell.isStart at hMode
  cases hLead : c.lead with
  | start gap word space =>
    rw [hLead] at hOk h
    have hTokens : (Lead.start gap word space).tokens = gap ++ [word] ++ space := by
      simp [Lead.tokens]
    rw [hTokens] at h ⊢
    rw [modeAfter_append, modeAfter_use (scans_append.mp h).1 hOk.2.1,
      modeAfter_of_isBody hOk.2.2.1.isBody]
  | comma space =>
    rw [hLead] at hOk hMode
    obtain rfl := hMode rfl
    exact @modeAfter_of_isBody space hOk.1.isBody

/-- What a cell holds is read in code, and code goes on behind it. -/
theorem CellOk.scans_slot {c : Cell} (hc : CellOk c) {m : Bool} {x : Text}
    (hMode : c.isStart = false → m = true) (h : Scans m c.tokens x) :
    Scans true (c.qualifier ++ c.core) (textOf c.after ++ x) ∧ Spaced c.after ∧
      modeAfter m c.tokens = true := by
  have hShape : c.tokens = c.lead.tokens ++ ((c.qualifier ++ c.core) ++ c.after) := by
    simp [Cell.tokens]
  rw [hShape] at h ⊢
  obtain ⟨hLead, hSlot⟩ := scans_append.mp h
  rw [hc.code_lead hMode hLead] at hSlot
  obtain ⟨hCore, hAfter⟩ := scans_append.mp hSlot
  rw [modeAfter_of_isBody fun t ht => hc.slot_isBody t (List.mem_append_left _ ht)] at hAfter
  refine ⟨hCore, spaced_of_scans hc.after hAfter, ?_⟩
  rw [modeAfter_append, hc.code_lead hMode hLead, modeAfter_of_isBody hc.slot_isBody]

/-- A slot with white space on both sides. -/
theorem readOn_slot {space slot after : List Token} (hSpace : Spaced space) (hSlot : Solid slot)
    (hAfter : Spaced after) {y : Text} (hy : Parted y) : ReadOn (space ++ (slot ++ after)) y := by
  refine (hSpace.readOn ?_).append
    ((hSlot.readOn _ (hAfter.endsName hy.ends)).append (hAfter.readOn hy.solid))
  rw [textOf_append, List.append_assoc]
  exact hSlot.starts.append _

theorem spaced_oneSpace : Spaced [oneSpace] :=
  .inr ⟨' ', [], rfl, by simp [isBlank]⟩

theorem Spaced.head_blank {space : List Token} (h : Spaced space) (hNe : space ≠ []) (y : Text) :
    (textOf space ++ y).head?.any isBlank = true := by
  rcases h with rfl | ⟨c, cs, rfl, hBlank⟩
  · exact absurd rfl hNe
  · simpa using hBlank c (by simp)

/-- The new words of a split statement. -/
theorem readOn_newUse {content : Text} (hNe : content ≠ [])
    (hBlank : ∀ d ∈ content, isBlank d = true) {y : Text} (hy : y.head?.any isBlank = true) :
    ReadOn [⟨.punct, [';']⟩, ⟨.whitespace, content⟩, ⟨.useWord, "use".toList⟩] y := by
  have hSemicolon (z : Text) : ReadOn [⟨.punct, [';']⟩] z :=
    ⟨⟨⟨.mark ';' (by decide) (by decide) (by decide) (by decide) (by decide), rfl⟩, trivial⟩, rfl⟩
  have hWord : Lexical (Token.raw ⟨.useWord, "use".toList⟩) :=
    .word 'u' "se".toList (by decide) (List.all_eq_true.mp (by decide))
  have hUse : ReadOn [⟨.useWord, "use".toList⟩] y :=
    ⟨⟨readsIn_use rfl hWord (by simpa using hy), trivial⟩, rfl⟩
  refine (hSemicolon _).append ((readOn_space hNe hBlank ?_).append hUse)
  exact ⟨'u', "se".toList ++ y, rfl, by decide⟩

/-- White space behind every `use`. -/
def Cell.UseSpaced (c : Cell) : Prop :=
  ∀ gap word space, c.lead = .start gap word space → space ≠ []

/-- A refilled cell is read in front of a comma or a terminator. -/
theorem Refilled.scans {c d : Cell} (h : Refilled c d) (hc : CellOk c) (hSpaced : c.UseSpaced)
    {m : Bool} {x y : Text} (hMode : c.isStart = false → m = true) (hOld : Scans m c.tokens x)
    (hy : Parted y) : Scans m d.tokens y ∧ modeAfter m d.tokens = true := by
  have hOk := hc.lead
  -- the white space of the cell is one token at most, since it was read
  have hAfter := (hc.scans_slot hMode hOld).2.1
  unfold Cell.isStart at hMode
  cases h with
  | @start gap word space r hr hLead =>
    rw [hLead] at hOk
    have hShape : c.tokens = gap ++ [word] ++ (space ++ (c.qualifier ++ c.core ++ c.after)) := by
      simp [Cell.tokens, hLead, Lead.tokens]
    have hTokens : Cell.tokens ⟨.start gap word space, r.kind, r.grouped, qualifierTokens r,
        r.atStart, c.after⟩ =
          gap ++ [word] ++ (space ++ ((qualifierTokens r ++ r.atStart) ++ c.after)) := by
      simp [Cell.tokens, Lead.tokens]
    rw [hShape, scans_append] at hOld
    have hCode := modeAfter_use hOld.1 hOk.2.1
    rw [hCode] at hOld
    have hSpace := spaced_of_scans hOk.2.2.1 (scans_append.mp hOld.2).1
    have hSlot := readOn_slot hSpace hr.solid_atStart hAfter hy
    rw [hTokens, scans_append, hCode]
    refine ⟨⟨scans_use hOld.1 hOk.2.1 ?_, hSlot.scans⟩, by rw [modeAfter_append, hCode, hSlot.mode]⟩
    rw [textOf_append, List.append_assoc]
    exact hSpace.head_blank (hSpaced _ _ _ hLead) _
  | @comma space r hr hLead =>
    rw [hLead] at hOk hMode
    obtain rfl := hMode rfl
    have hShape : c.tokens = [commaToken] ++ (space ++ (c.qualifier ++ c.core ++ c.after)) := by
      simp [Cell.tokens, hLead, Lead.tokens]
    have hTokens : Cell.tokens ⟨.comma space, r.kind, r.grouped, [], r.tokens, c.after⟩ =
        [commaToken] ++ (space ++ (r.tokens ++ c.after)) := by
      simp [Cell.tokens, Lead.tokens]
    rw [hShape, scans_append] at hOld
    have hSpace := spaced_of_scans hOk.1 (scans_append.mp hOld.2).1
    have hNew := (readOn_comma _).append (readOn_slot hSpace hr.solid hAfter hy)
    rw [hTokens]
    exact ⟨hNew.scans, hNew.mode⟩
  | @split space content r hr hLead hNe hBlank =>
    rw [hLead] at hMode
    obtain rfl := hMode rfl
    have hTokens : Cell.tokens ⟨splitLead content, r.kind, r.grouped, qualifierTokens r, r.atStart,
        c.after⟩ = [⟨.punct, [';']⟩, ⟨.whitespace, content⟩, ⟨.useWord, "use".toList⟩] ++
          ([oneSpace] ++ ((qualifierTokens r ++ r.atStart) ++ c.after)) := by
      simp [Cell.tokens, splitLead, Lead.tokens]
    have hNew := (readOn_newUse hNe hBlank (by
      rw [textOf_append, List.append_assoc]
      exact spaced_oneSpace.head_blank (by simp) _)).append
        (readOn_slot spaced_oneSpace hr.solid_atStart hAfter hy)
    rw [hTokens]
    exact ⟨hNew.scans, hNew.mode⟩

/-- Refilled cells are split into their tokens. -/
theorem scans_refilled {cells cells' : List Cell} (h : List.Forall₂ Refilled cells cells')
    (hOk : CellsOk cells) (hSpaced : ∀ c ∈ cells, c.UseSpaced) {tail : List Token}
    (hTags : TagsWritten (cells.flatMap Cell.tokens ++ tail))
    (hStop : cells ≠ [] → tail.head?.any Token.isTerminator = true) {m : Bool}
    (hMode : ∀ c ∈ cells.head?, c.isStart = false → m = true) {x : Text}
    (hOld : Scans m (cells.flatMap Cell.tokens) x) :
    Scans m (cells'.flatMap Cell.tokens) (textOf tail) ∧
      modeAfter m (cells'.flatMap Cell.tokens) = modeAfter m (cells.flatMap Cell.tokens) := by
  induction h generalizing m with
  | nil => exact ⟨trivial, rfl⟩
  | @cons c d cs ds hd hRest ih =>
    have hc := hOk.each c List.mem_cons_self
    -- what follows the cell still parts it from the next name
    have hNext := parting_refilled hRest
      (parting_next hOk.chain (fun t ht => hTags t (by simp_all)) (hStop (by simp)))
    have hText : Parted (textOf (ds.flatMap Cell.tokens) ++ textOf tail) := by
      rw [← textOf_append]
      exact hNext.parted
    rw [List.flatMap_cons, scans_append] at hOld
    have hFirst := hMode c rfl
    have hCode := (hc.scans_slot hFirst hOld.1).2.2
    obtain ⟨hScans, hCode'⟩ := hd.scans hc (hSpaced c List.mem_cons_self) hFirst hOld.1 hText
    rw [hCode] at hOld
    obtain ⟨hLater, hLast⟩ := ih ⟨fun e he => hOk.each e (List.mem_cons_of_mem _ he),
        hOk.chain.of_cons⟩ (fun e he => hSpaced e (List.mem_cons_of_mem _ he))
      (fun t ht => hTags t (by simp_all)) (fun _ => hStop (by simp)) (fun _ _ _ => rfl) hOld.2
    rw [List.flatMap_cons, List.flatMap_cons, scans_append, modeAfter_append, modeAfter_append,
      hCode, hCode']
    exact ⟨⟨hScans, hLater⟩, hLast⟩

/-! ## Labelling refilled cells -/

/-- Whether a namespace declaration is going on behind a token. -/
def declaringAfter (pending : Bool) (t : Token) : Bool :=
  if t.kind == .namespaceWord then true
  else if Context.isOpeningBrace t || t.isPunct [';'] then false
  else pending

/-- A gap declares a namespace and leaves the declaration open. -/
def leavesDeclaration (gap : List Token) : Bool :=
  gap.foldl declaringAfter false

theorem step_pending {pending : Bool} {c : Context} {t : Token} {rest : List Token}
    (h : c.pendingNamespace = pending) (hc : c.place = .code ∨ t.raw.isTerminator = true)
    (hKind : (c.step t.raw rest).1 = t.kind) :
    (c.step t.raw rest).2.pendingNamespace = declaringAfter pending t := by
  rw [(step_agrees_track hc hKind).pendingNamespace]
  simp only [Context.track, declaringAfter, isOpeningBrace_of_step hc hKind,
    isPunct_of_step hc hKind, h]
  cases hWord : t.kind == .namespaceWord with
  | true => rfl
  | false =>
    cases hOpen : Context.isOpeningBrace t with
    | true => rfl
    | false =>
      cases hClose : t.isPunct "\x7d".toList with
      | true =>
        -- a closing brace is no semicolon
        have hNot : t.isPunct [';'] = false := by
          simp only [Token.isPunct, Bool.and_eq_true, beq_iff_eq] at hClose
          simp [Token.isPunct, hClose.2]
        simp [hNot]
      | false => cases hEnd : t.isPunct [';'] <;> cases pending <;> simp [h]

/-- Inside an import that stands where imports may stand, and no namespace declaration going on. -/
structure Context.Within (c : Context) : Prop where
  place : c.place ≠ .code
  depth : c.depth = c.importDepth
  pending : c.pendingNamespace = false

theorem Context.Within.congr {c c' : Context} (h : c.Within) (hAgrees : c'.Agrees c)
    (hPlace : c'.place ≠ .code) : c'.Within :=
  ⟨hPlace, by rw [hAgrees.depth, hAgrees.importDepth, h.depth],
    hAgrees.pendingNamespace.trans h.pending⟩

/-- Where two passes stand in front of a lead: both at the same place of code, or both inside
imports, and then a new statement begins with a terminator. -/
inductive Meets (lead : Lead) (c c' : Context) : Prop
  | code (same : c' = c) (place : c.place = .code) (pending : c.pendingNamespace = false)
      (start : ∃ gap word space, lead = .start gap word space)
  | within (within : c.Within) (place : c'.place ≠ .code) (agrees : c'.Agrees c)
      (ends : ∀ gap word space, lead = .start gap word space →
        ∃ t more, gap = t :: more ∧ t.isTerminator = true)

/-- A gap that begins with a terminator is labelled alike from contexts that agree. -/
theorem Labels.gap_ends {c c' atUse : Context} {gap rest rest' : List Token}
    (h : Labels c gap rest atUse) (hAgrees : c'.Agrees c)
    (hEnds : ∃ t more, gap = t :: more ∧ t.isTerminator = true)
    (hUse : ∀ t ∈ gap, t.kind ≠ .useWord)
    (hNext : nextKind rest = nextKind rest') :
    Labels c' gap rest' atUse := by
  obtain ⟨t, more, rfl, ht⟩ := hEnds
  have hRaw : t.raw.isTerminator = true := by
    rw [h.raw_isTerminator t List.mem_cons_self, ht]
  have hFirst : Labels c [t] (more.map Token.raw ++ rest)
      (c.step t.raw (more.map Token.raw ++ rest)).2 :=
    ⟨h.1, rfl⟩
  have hPlace := hFirst.place_gap (.inr ⟨t, [], rfl, ht⟩) fun u hu => hUse u (by simp_all)
  have hStep := step_terminator hAgrees hRaw (more.map Token.raw ++ rest')
    (more.map Token.raw ++ rest)
  rw [labels_cons, hStep]
  exact ⟨h.1, (h.2.gap hPlace (fun u hu => hUse u (List.mem_cons_of_mem _ hu)) hNext).2⟩

/-- The gap in front of a `use` is labelled alike by both passes. -/
theorem Labels.gap_meets {c c' atUse : Context} {gap space rest rest' : List Token} {word : Token}
    (hMeets : Meets (.start gap word space) c c') (h : Labels c gap rest atUse)
    (hUse : ∀ t ∈ gap, t.kind ≠ .useWord)
    (hNext : nextKind rest = nextKind rest') :
    Labels c' gap rest' atUse := by
  cases hMeets with
  | code same place =>
    rw [same]
    exact (h.gap place hUse hNext).2
  | within within place agrees ends =>
    exact h.gap_ends agrees (ends gap word space rfl) hUse hNext

/-- Behind a gap and its `use` the pass is within an import. -/
theorem Labels.within_use {c c' atUse inside : Context} {gap space rest : List Token} {word : Token}
    (hMeets : Meets (.start gap word space) c c') (hGap : leavesDeclaration gap = false)
    (h : Labels c gap ([word].map Token.raw ++ rest) atUse) (hUse : ∀ t ∈ gap, t.kind ≠ .useWord)
    (hWord : word.kind = .useWord) (hInside : Labels atUse [word] rest inside) :
    inside.Within ∧ inside.place = .importStart ∧ ∀ rest', Labels atUse [word] rest' inside := by
  have hEnters : c.pendingNamespace = false ∧
      (c.place = .code ∨ ∃ t more, gap = t :: more ∧ t.isTerminator = true) := by
    cases hMeets with
    | code same place pending => exact ⟨pending, .inl place⟩
    | within within place agrees ends => exact ⟨within.pending, .inr (ends gap word space rfl)⟩
  have hPending : atUse.pendingNamespace = leavesDeclaration gap :=
    h.gap_foldl (R := fun p c => c.pendingNamespace = p) step_pending hEnters.1 hEnters.2 hUse
  obtain ⟨hImports, hPlace, hAgrees, hAny⟩ := hInside.use (h.place_gap hEnters.2 hUse) hWord
  refine ⟨⟨by simp [hPlace], ?_, ?_⟩, hPlace, hAny⟩
  · rw [hAgrees.depth, hAgrees.importDepth, hImports.depth]
  · rw [hAgrees.pendingNamespace, hPending, hGap]

/-- A comma inside an import. -/
theorem labels_comma {c : Context} (hc : c.place ≠ .code) (rest : List Token) :
    ∃ c', Labels c [commaToken] rest c' ∧ c'.Agrees c ∧ c'.place = .importBody := by
  have hRaw : commaToken.raw = commaToken := rfl
  have hInside : commaToken.isTerminator = false := by decide
  obtain ⟨hAgrees, -⟩ := step_import_agrees hc hInside rest
  obtain ⟨hKind, hPlace⟩ := step_of_import hc hInside rest
  refine ⟨_, ⟨?_, rfl⟩, hAgrees, hPlace⟩
  rw [List.map_nil, List.nil_append, hRaw, hKind]
  cases c.place == .importStart <;> rfl

/-- A new statement in the middle of an import is labelled as it is written. -/
theorem labels_splitLead {c : Context} (hc : c.Within) (content : Text) (rest : List Token) :
    ∃ c', Labels c (splitLead content).tokens rest c' ∧ c'.Agrees c ∧ c'.place = .importStart := by
  let code : Context := { c with place := .code, previous := some ⟨.punct, [';']⟩ }
  let inside : Context :=
    { code with place := .importStart, previous := some ⟨.useWord, "use".toList⟩ }
  have hSemicolon (more : List Token) : Labels c [⟨.punct, [';']⟩] more code := by
    have hStep : c.step ⟨.punct, [';']⟩ more = (.punct, code) := by
      rw [step_code (.inr rfl), codeKind_plain c (by simp) (by simp)]
      simp only [Context.track, hc.pending]
      rfl
    rw [labels_cons]
    exact ⟨congrArg Prod.fst hStep, congrArg Prod.snd hStep⟩
  have hUse (more : List Token) : Labels code [⟨.useWord, "use".toList⟩] more inside := by
    have hStep := step_use (c := code) ⟨rfl, rfl, rfl, hc.depth⟩
      (t := ⟨.useWord, "use".toList⟩) rfl more
    rw [labels_cons]
    exact ⟨congrArg Prod.fst hStep, congrArg Prod.snd hStep⟩
  refine ⟨inside, ?_, ⟨rfl, rfl, rfl⟩, rfl⟩
  show Labels c ([⟨.punct, [';']⟩] ++ ([⟨.whitespace, content⟩] ++
    ([⟨.useWord, "use".toList⟩] ++ [oneSpace]))) rest inside
  rw [labels_append]
  refine ⟨code, hSemicolon _, ?_⟩
  rw [labels_append]
  refine ⟨code, labels_space code (AllSpace.singleton content) _, ?_⟩
  rw [labels_append]
  exact ⟨inside, hUse _, labels_space inside (AllSpace.singleton _) _⟩

theorem Labels.body_of_isBody {c c' : Context} {ts rest : List Token} (h : Labels c ts rest c')
    (hts : ∀ t ∈ ts, t.isBody = true) (hc : c.place ≠ .code) : c'.Agrees c ∧ c'.place ≠ .code :=
  h.body hc fun t ht => by
    rw [h.raw_isTerminator t ht]
    exact (Token.isBody_iff.mp (hts t ht)).1

theorem AllSpace.head_separator {ts : List Token} (h : AllSpace ts) {rest : List Token}
    (hRest : rest.head?.any (·.kind == .separator) = false) :
    (ts.map Token.raw ++ rest).head?.any (·.kind == .separator) = false := by
  rw [head_separator_raw ts hRest]
  cases ts with
  | nil => rfl
  | cons t more =>
    have ht := h t List.mem_cons_self
    rw [Token.isWhitespace, beq_iff_eq] at ht
    simp [ht]

section Labelling

variable {c : Cell} {r : Record} {before before' behind : Context} {rest rest' : List Token}

/-- The old statement up to the end of its first cell. -/
theorem CellOk.labels_start (hc : CellOk c) {gap space : List Token} {word : Token}
    (hLead : c.lead = .start gap word space) (hGap : leavesDeclaration gap = false)
    (hMeets : Meets c.lead before before') (hOld : Labels before c.tokens rest behind) :
    ∃ inside : Context, inside.Within ∧ inside.place = .importStart ∧ behind.Agrees inside ∧
      behind.place ≠ .code ∧
      Labels inside (space ++ (c.qualifier ++ c.core ++ c.after)) rest behind ∧
      ∀ later, Labels before' (gap ++ [word]) later inside := by
  have hOk := hc.lead
  rw [hLead] at hOk hMeets
  have hShape : c.tokens = gap ++ ([word] ++ (space ++ (c.qualifier ++ c.core ++ c.after))) := by
    simp [Cell.tokens, hLead, Lead.tokens]
  rw [hShape, labels_append] at hOld
  obtain ⟨atUse, hGapOld, hOld⟩ := hOld
  rw [labels_append] at hOld
  obtain ⟨inside, hWordOld, hOld⟩ := hOld
  rw [List.map_append, List.append_assoc] at hGapOld
  obtain ⟨hWithin, hPlace, hWord⟩ :=
    Labels.within_use hMeets hGap hGapOld hOk.1 hOk.2.1 hWordOld
  obtain ⟨hAgrees, hBehind⟩ := hOld.body_of_isBody (hc.isBody_start hLead) hWithin.place
  refine ⟨inside, hWithin, hPlace, hAgrees, hBehind, hOld, fun later => ?_⟩
  rw [labels_append]
  refine ⟨atUse, hGapOld.gap_meets hMeets hOk.1 ?_, hWord later⟩
  -- the next meaningful token is the `use` in both texts
  have hMeaning : word.raw.isMeaningful = true := by
    rw [word.raw_isMeaningful]
    exact isMeaningful_of_use hOk.2.1
  simp [nextKind, hMeaning]

/-- The old comma and its name. -/
theorem CellOk.labels_comma (hc : CellOk c) {space : List Token} (hLead : c.lead = .comma space)
    (hMeets : Meets c.lead before before') (hOld : Labels before c.tokens rest behind) :
    before.Within ∧ before'.place ≠ .code ∧ before'.Agrees before ∧ behind.Agrees before ∧
      behind.place ≠ .code := by
  rw [hLead] at hMeets
  cases hMeets with
  | code same place pending start =>
    obtain ⟨gap, word, other, hNot⟩ := start
    cases hNot
  | within within place agrees ends =>
    exact ⟨within, place, agrees, hOld.body_of_isBody (hc.isBody_comma hLead) within.place⟩

/-- The slot of a statement's first record, with white space on both sides. -/
theorem Record.Movable.labels_slot (hr : r.Movable) {inside : Context}
    (hPlace : inside.place = .importStart) {space after : List Token} (hSpace : AllSpace space)
    (hAfter : AllSpace after) (hNext : rest'.head?.any (·.kind == .separator) = false) :
    ∃ behind', Labels inside (space ++ ((qualifierTokens r ++ r.atStart) ++ after)) rest' behind' ∧
      behind'.Agrees inside ∧ behind'.place ≠ .code := by
  obtain ⟨behind', hRecord, hAgrees, hLast⟩ := hr.labels hPlace (hAfter.head_separator hNext)
  refine ⟨behind', ?_, hAgrees, hLast⟩
  rw [labels_append]
  refine ⟨inside, labels_space inside hSpace _, ?_⟩
  rw [labels_append]
  exact ⟨behind', hRecord, labels_space behind' hAfter _⟩

/-- A refilled cell is given its labels. -/
theorem Refilled.labels {d : Cell} (h : Refilled c d) (hc : CellOk c)
    (hGap : ∀ gap ∈ c.gap?, leavesDeclaration gap = false) (hMeets : Meets c.lead before before')
    (hOld : Labels before c.tokens rest behind)
    (hNext : rest'.head?.any (·.kind == .separator) = false) :
    ∃ behind', Labels before' d.tokens rest' behind' ∧ behind.Within ∧ behind'.place ≠ .code ∧
      behind'.Agrees behind := by
  have hOk := hc.lead
  cases h with
  | @start gap word space r hr hLead =>
    -- the labels up to the `use` do not look at the slot
    rw [hLead] at hOk
    obtain ⟨inside, hWithin, hPlace, hAgrees, hBehind, -, hUse⟩ :=
      hc.labels_start hLead (hGap gap (by simp [Cell.gap?, hLead])) hMeets hOld
    obtain ⟨behind', hSlot, hAgrees', hPlace'⟩ :=
      hr.labels_slot hPlace hOk.2.2.1 hc.after hNext
    refine ⟨behind', ?_, hWithin.congr hAgrees hBehind, hPlace', hAgrees'.trans hAgrees.symm⟩
    have hTokens : Cell.tokens ⟨.start gap word space, r.kind, r.grouped, qualifierTokens r,
        r.atStart, c.after⟩ =
          gap ++ [word] ++ (space ++ ((qualifierTokens r ++ r.atStart) ++ c.after)) := by
      simp [Cell.tokens, Lead.tokens]
    rw [hTokens, labels_append]
    exact ⟨inside, hUse _, hSlot⟩
  | @comma space r hr hLead =>
    -- behind a comma no label hangs on what comes next
    rw [hLead] at hOk
    obtain ⟨hWithin, hPlace, hAgrees, hBehind, hLast⟩ := hc.labels_comma hLead hMeets hOld
    have hSettled : ∀ t ∈ space ++ (r.tokens ++ c.after), t.Settled := by
      intro t ht
      simp only [List.mem_append] at ht
      rcases ht with ht | ht | ht
      · exact hOk.1.settled t ht
      · exact hr.settled t ht
      · exact hc.after.settled t ht
    obtain ⟨comma, hComma, hCommaAgrees, hCommaPlace⟩ := UseOrder.labels_comma hPlace
      ((space ++ (r.tokens ++ c.after)).map Token.raw ++ rest')
    obtain ⟨behind', hRecord, hAgrees', hPlace'⟩ := labels_body hCommaPlace hSettled rest'
    refine ⟨behind', ?_, hWithin.congr hBehind hLast, by simp [hPlace'],
      (hAgrees'.trans hCommaAgrees).trans (hAgrees.trans hBehind.symm)⟩
    have hTokens : Cell.tokens ⟨.comma space, r.kind, r.grouped, [], r.tokens, c.after⟩ =
        [commaToken] ++ (space ++ (r.tokens ++ c.after)) := by
      simp [Cell.tokens, Lead.tokens]
    rw [hTokens, labels_append]
    exact ⟨comma, hComma, hRecord⟩
  | @split space content r hr hLead hNe hBlank =>
    -- the old cell went on inside its import, the new one ends it and begins another
    obtain ⟨hWithin, hPlace, hAgrees, hBehind, hLast⟩ := hc.labels_comma hLead hMeets hOld
    obtain ⟨inside, hNew, hInside, hStart⟩ := labels_splitLead (hWithin.congr hAgrees hPlace)
      content (((qualifierTokens r ++ r.atStart) ++ c.after).map Token.raw ++ rest')
    obtain ⟨behind', hSlot, hAgrees', hPlace'⟩ :=
      hr.labels_slot hStart AllSpace.nil hc.after hNext
    refine ⟨behind', ?_, hWithin.congr hBehind hLast, hPlace',
      (hAgrees'.trans hInside).trans (hAgrees.trans hBehind.symm)⟩
    have hTokens : Cell.tokens ⟨splitLead content, r.kind, r.grouped, qualifierTokens r, r.atStart,
        c.after⟩ = (splitLead content).tokens ++ ((qualifierTokens r ++ r.atStart) ++ c.after) := by
      simp [Cell.tokens]
    rw [hTokens, labels_append]
    exact ⟨inside, hNew, hSlot⟩

end Labelling

/-- A cell behind another one is met inside an import. -/
theorem Meets.next {b c : Cell} {behind behind' : Context} (hFollows : MayFollow b c)
    (hWithin : behind.Within) (hPlace : behind'.place ≠ .code) (hAgrees : behind'.Agrees behind) :
    Meets c.lead behind behind' := by
  refine .within hWithin hPlace hAgrees fun gap word space hLead => ?_
  unfold MayFollow at hFollows
  rw [hLead] at hFollows
  obtain ⟨stop, more, hGap, hStop, -⟩ := hFollows
  exact ⟨stop, more, hGap, hStop⟩

/-- Refilled cells are given their labels. -/
theorem labels_refilled {cells cells' : List Cell} (h : List.Forall₂ Refilled cells cells')
    (hOk : CellsOk cells)
    (hGaps : ∀ c ∈ cells, ∀ gap ∈ c.gap?, leavesDeclaration gap = false) {tail : List Token}
    (hTags : TagsWritten (cells.flatMap Cell.tokens ++ tail))
    (hStop : tail.head?.any Token.isTerminator = true) (hNe : cells ≠ [])
    {before before' behind : Context} (hMeets : ∀ c ∈ cells.head?, Meets c.lead before before')
    (hOld : Labels before (cells.flatMap Cell.tokens) (tail.map Token.raw) behind) :
    ∃ behind', Labels before' (cells'.flatMap Cell.tokens) (tail.map Token.raw) behind' ∧
      behind.Within ∧ behind'.place ≠ .code ∧ behind'.Agrees behind := by
  induction h generalizing before before' with
  | nil => exact absurd rfl hNe
  | @cons c d cs ds hd hRest ih =>
    have hc := hOk.each c List.mem_cons_self
    have hNext := parting_refilled hRest
      (parting_next hOk.chain (fun t ht => hTags t (by simp_all)) hStop)
    have hHead : ((ds.flatMap Cell.tokens).map Token.raw ++ tail.map Token.raw).head?.any
        (·.kind == .separator) = false := by
      rw [← List.map_append]
      exact hNext.head_separator
    rw [List.flatMap_cons, labels_append] at hOld
    obtain ⟨between, hFirst, hLater⟩ := hOld
    obtain ⟨between', hFirst', hWithin, hPlace, hAgrees⟩ :=
      hd.labels hc (hGaps c List.mem_cons_self) (hMeets c rfl) hFirst hHead
    rw [List.flatMap_cons]
    -- the pass is inside an import behind each cell, also behind the last one
    cases hRest with
    | nil =>
      obtain rfl : between = behind := hLater
      exact ⟨between', by simpa using hFirst', hWithin, hPlace, hAgrees⟩
    | @cons e f es fs he hMore =>
      obtain ⟨behind', hLabels, hLast⟩ := ih
        ⟨fun e he => hOk.each e (List.mem_cons_of_mem _ he), hOk.chain.of_cons⟩
        (fun e he => hGaps e (List.mem_cons_of_mem _ he)) (fun t ht => hTags t (by simp_all))
        (by simp) (by
          intro e' he'
          obtain rfl : e = e' := by simpa using he'
          exact .next (List.isChain_cons_cons.mp hOk.chain).1 hWithin hPlace hAgrees) hLater
      exact ⟨behind', labels_append.mpr ⟨between', hFirst', hLabels⟩, hLast⟩

end UseOrder
