import UseOrder.Proofs.Records
import UseOrder.Proofs.Scanning

/-!
# Cells as they are read again

What is written is not always read back token by token. Behind a comment, the word at the beginning
of a name is taken for a qualifier or for a name, as it stands behind a `use` or behind a comma
(`Reworded`), and a line feed behind an open tag that ends in a carriage return is taken into the
tag (`Joined`). `Cell.ReadAs` says that a cell is another one up to these two things. Such a cell is
parsed to the same import, and takes the place of the other one in every block.
-/

namespace UseOrder

/-! ## The first word of a name -/

/-- A word of a name, whether it is taken for a qualifier or not. -/
def Token.isNameWord (t : Token) : Bool :=
  t.kind == .name || t.isQualifier

theorem Token.isNameWord_iff {t : Token} :
    t.isNameWord = true ↔ t.kind = .name ∨ t.kind = .constWord ∨ t.kind = .functionWord := by
  simp [Token.isNameWord, Token.isQualifier]

theorem Token.isMeaningful_of_isNameWord {t : Token} (h : t.isNameWord = true) :
    t.isMeaningful = true := by
  rw [Token.isNameWord_iff] at h
  rcases h with h | h | h <;> simp [Token.isMeaningful, Token.isWhitespace, Token.isComment, h]

/-- The tokens are the same, up to the label of a word in front of which no other meaningful token
stands. -/
inductive Reworded : List Token → List Token → Prop
  | same (ts : List Token) : Reworded ts ts
  | word {quiet rest : List Token} {w w' : Token} (silent : ∀ t ∈ quiet, t.isMeaningful = false)
      (old : w.isNameWord = true) (new : w'.isNameWord = true) (content : w'.content = w.content) :
    Reworded (quiet ++ w :: rest) (quiet ++ w' :: rest)

namespace Reworded

variable {ts us : List Token}

theorem symm (h : Reworded ts us) : Reworded us ts := by
  cases h with
  | same => exact .same _
  | word hQuiet hOld hNew hContent => exact .word hQuiet hNew hOld hContent.symm

/-- Both changes are made to the same word. -/
theorem trans {vs : List Token} (h : Reworded ts us) (h' : Reworded us vs) : Reworded ts vs := by
  cases h with
  | same => exact h'
  | @word quiet rest w w' hQuiet hOld hNew hContent =>
    generalize hus : quiet ++ w' :: rest = us at h'
    cases h' with
    | same =>
      rw [← hus]
      exact .word hQuiet hOld hNew hContent
    | @word quiet' rest' v v' hQuiet' hOld' hNew' hContent' =>
      have hFront : quiet = quiet' := by
        have hTake := congrArg (List.takeWhile fun t => !t.isMeaningful) hus
        rw [List.takeWhile_append_of_pos fun t ht => by simp [hQuiet t ht],
          List.takeWhile_append_of_pos fun t ht => by simp [hQuiet' t ht],
          List.takeWhile_cons_of_neg (by simp [Token.isMeaningful_of_isNameWord hNew]),
          List.takeWhile_cons_of_neg (by simp [Token.isMeaningful_of_isNameWord hOld'])] at hTake
        simpa using hTake
      subst hFront
      obtain ⟨rfl, rfl⟩ := List.cons.inj (List.append_cancel_left hus)
      exact .word hQuiet hOld hNew' (hContent'.trans hContent)

theorem cons (h : Reworded ts us) {t : Token} (ht : t.isMeaningful = false) :
    Reworded (t :: ts) (t :: us) := by
  cases h with
  | same => exact .same _
  | word hQuiet hOld hNew hContent =>
    rw [← List.cons_append, ← List.cons_append]
    refine .word (fun u hu => ?_) hOld hNew hContent
    rcases List.mem_cons.mp hu with rfl | hu
    · exact ht
    · exact hQuiet u hu

theorem textOf_eq (h : Reworded ts us) : textOf us = textOf ts := by
  cases h with
  | same => rfl
  | word hQuiet hOld hNew hContent => simp [textOf_append, hContent]

theorem raw_eq {w w' : Token} (hOld : w.isNameWord = true) (hNew : w'.isNameWord = true)
    (hContent : w'.content = w.content) : w'.raw = w.raw := by
  rw [Token.isNameWord_iff] at hOld hNew
  rcases hOld with hOld | hOld | hOld <;> rcases hNew with hNew | hNew | hNew <;>
    simp [Token.raw, TokenKind.raw, hOld, hNew, hContent]

theorem map_raw (h : Reworded ts us) : us.map Token.raw = ts.map Token.raw := by
  cases h with
  | same => rfl
  | word hQuiet hOld hNew hContent => simp [raw_eq hOld hNew hContent]

/-- What holds for every word and for every token of the one list holds for the other. -/
theorem forall_mem {p : Token → Prop} (h : Reworded ts us) (hts : ∀ t ∈ ts, p t)
    (hWord : ∀ {w w' : Token}, w.isNameWord = true → w'.isNameWord = true →
      w'.content = w.content → p w → p w') : ∀ u ∈ us, p u := by
  cases h with
  | same => exact hts
  | word hQuiet hOld hNew hContent =>
    intro u hu
    simp only [List.mem_append, List.mem_cons] at hu
    rcases hu with hu | rfl | hu
    · exact hts u (by simp [hu])
    · exact hWord hOld hNew hContent (hts _ (by simp))
    · exact hts u (by simp [hu])

theorem isCore (h : Reworded ts us) (hCore : IsCore ts)
    (hFirst : ∀ t ∈ us.head?, t.isQualifier = false) : IsCore us := by
  refine ⟨h.forall_mem hCore.inner ?_, ?_, ?_⟩
  · intro w w' hOld hNew hContent hInner
    rw [Token.isNameWord_iff] at hNew
    simp only [Token.isInner, Bool.and_eq_true] at hInner
    rcases hNew with hNew | hNew | hNew <;>
      simpa [Token.isInner, Token.isTerminator, Token.isPunct, hNew, hContent] using hInner.2
  · obtain ⟨t, rest, hts, ht, -⟩ := hCore.first
    cases h with
    | same => exact hCore.first
    | @word quiet later w w' hQuiet hOld hNew hContent =>
      cases quiet with
      | nil =>
        rw [Token.isNameWord_iff] at hNew
        refine ⟨w', later, rfl, ?_, hFirst w' rfl⟩
        rcases hNew with hNew | hNew | hNew <;> simp [Token.isWhitespace, hNew]
      | cons q quiet =>
        obtain rfl : q = t := (List.cons.inj hts).1
        exact ⟨q, _, rfl, ht, hFirst q rfl⟩
  · obtain ⟨rest, t, hts, ht⟩ := hCore.last
    cases h with
    | same => exact hCore.last
    | @word quiet later w w' hQuiet hOld hNew hContent =>
      obtain hNil | ⟨init, last, rfl⟩ := List.eq_nil_or_concat later
      · rw [Token.isNameWord_iff] at hNew
        refine ⟨quiet, w', by rw [hNil], ?_⟩
        rcases hNew with hNew | hNew | hNew <;> simp [Token.isWhitespace, hNew]
      · rw [List.concat_eq_append] at hts ⊢
        rw [← List.cons_append, ← List.append_assoc] at hts
        obtain ⟨-, hLast⟩ := List.append_inj' hts rfl
        obtain rfl : last = t := by simpa using hLast
        exact ⟨quiet ++ w' :: init, last, by simp, ht⟩

theorem isName (h : Reworded ts us) (hName : IsName ts) : IsName us := by
  refine h.forall_mem hName fun _ hNew _ _ => ?_
  rw [Token.isNameWord_iff] at hNew
  rcases hNew with hNew | hNew | hNew <;>
    simp [Token.isComma, Token.isPunct, Token.isGroupBrace, hNew]

/-- The word stands in front of the braces of a group. -/
theorem cut {front rest : List Token} {opening : Token} (h : Reworded (front ++ opening :: rest) us)
    (hOpening : opening.kind = .groupOpen) :
    ∃ front', us = front' ++ opening :: rest ∧ Reworded front front' := by
  generalize hts : front ++ opening :: rest = ts at h
  cases h with
  | same => exact ⟨front, hts.symm, .same _⟩
  | @word quiet later w w' hQuiet hOld hNew hContent =>
    have hNot : opening.isNameWord = false := by
      simp [Token.isNameWord, Token.isQualifier, hOpening]
    have hMeaning : opening.isMeaningful = true := by
      simp [Token.isMeaningful, Token.isWhitespace, Token.isComment, hOpening]
    rcases List.append_eq_append_iff.mp hts with ⟨as, rfl, hRest⟩ | ⟨as, rfl, hRest⟩
    · -- the brace is none of the quiet tokens, and not the word
      cases as with
      | nil =>
        obtain rfl : opening = w := (List.cons.inj hRest).1
        simp [hNot] at hOld
      | cons a as =>
        obtain rfl : opening = a := (List.cons.inj hRest).1
        have hQuiet := hQuiet opening (by simp)
        simp [hMeaning] at hQuiet
    · cases as with
      | nil =>
        obtain rfl : w = opening := (List.cons.inj hRest).1
        simp [hNot] at hOld
      | cons a as =>
        obtain ⟨rfl, rfl⟩ := List.cons.inj hRest
        exact ⟨quiet ++ w' :: as, by simp, .word hQuiet hOld hNew hContent⟩

theorem not_groupBrace (h : Reworded ts us) (hts : ∀ t ∈ ts, t.isGroupBrace = false) :
    ∀ u ∈ us, u.isGroupBrace = false := by
  refine h.forall_mem hts fun _ hNew _ _ => ?_
  rw [Token.isNameWord_iff] at hNew
  rcases hNew with hNew | hNew | hNew <;> simp [Token.isGroupBrace, hNew]

theorem not_groupBrace_front {front front' inside back : List Token} (h : Reworded front front')
    (hBraces : ∀ t ∈ front ++ inside ++ back, t.isGroupBrace = false) :
    ∀ t ∈ front' ++ inside ++ back, t.isGroupBrace = false := by
  intro t ht
  rw [List.append_assoc, List.mem_append] at ht
  rcases ht with ht | ht
  · exact h.not_groupBrace (fun u hu => hBraces u (by simp [hu])) t ht
  · exact hBraces t (by simpa [or_assoc] using Or.inr ht)

theorem isGroup (h : Reworded ts us) (hGroup : IsGroup ts) : IsGroup us := by
  obtain ⟨front, opening, inside, closing, back, rfl, hOpening, hClosing, hBraces, hBack⟩ := hGroup
  obtain ⟨front', rfl, hFront⟩ := h.cut hOpening
  exact ⟨front', opening, inside, closing, back, rfl, hOpening, hClosing,
    hFront.not_groupBrace_front hBraces, hBack⟩

theorem append (h : Reworded ts us) (rest : List Token) : Reworded (ts ++ rest) (us ++ rest) := by
  cases h with
  | same => exact .same _
  | word hQuiet hOld hNew hContent =>
    rw [List.append_assoc, List.append_assoc, List.cons_append, List.cons_append]
    exact .word hQuiet hOld hNew hContent

/-- Putting the names of a group in order does not touch the word. -/
theorem arrangeGroup (h : Reworded ts us) (hGroup : IsGroup ts) (settings : Settings) :
    Reworded (arrangeGroup settings ts) (arrangeGroup settings us) := by
  obtain ⟨front, opening, inside, closing, back, rfl, hOpening, hClosing, hBraces, -⟩ := hGroup
  obtain ⟨front', rfl, hFront⟩ := h.cut hOpening
  rw [arrangeGroup_eq settings hOpening hClosing hBraces,
    arrangeGroup_eq settings hOpening hClosing (hFront.not_groupBrace_front hBraces)]
  exact hFront.append _

theorem arrangeGroup_fixed (h : Reworded ts us) (hGroup : IsGroup ts) {settings : Settings}
    (hFixed : UseOrder.arrangeGroup settings ts = ts) : UseOrder.arrangeGroup settings us = us := by
  obtain ⟨front, opening, inside, closing, back, rfl, hOpening, hClosing, hBraces, -⟩ := hGroup
  obtain ⟨front', rfl, hFront⟩ := h.cut hOpening
  rw [arrangeGroup_eq settings hOpening hClosing hBraces] at hFixed
  rw [arrangeGroup_eq settings hOpening hClosing (hFront.not_groupBrace_front hBraces)]
  rw [List.append_cancel_left hFixed]

/-- The path of a group is written alike. -/
theorem textOf_path (h : Reworded ts us) :
    textOf (us.takeWhile (·.kind != .groupOpen)) =
      textOf (ts.takeWhile (·.kind != .groupOpen)) := by
  cases h with
  | same => rfl
  | @word quiet rest w w' hQuiet hOld hNew hContent =>
    have hFront : ∀ t ∈ quiet, (t.kind != .groupOpen) = true := fun t ht => by
      have hQuiet := hQuiet t ht
      simp only [Token.isMeaningful, Token.isWhitespace, Token.isComment] at hQuiet
      cases hKind : t.kind <;> simp_all
    have hWord : ∀ {w : Token}, w.isNameWord = true → (w.kind != .groupOpen) = true := by
      intro w hw
      rw [Token.isNameWord_iff] at hw
      rcases hw with hw | hw | hw <;> simp [hw]
    rw [List.takeWhile_append_of_pos hFront, List.takeWhile_append_of_pos hFront,
      List.takeWhile_cons, List.takeWhile_cons, hWord hOld, hWord hNew]
    simp [textOf_append, hContent]

theorem itemEntry_eq (h : Reworded ts us) (kind : ImportKind) (grouped : Bool) :
    itemEntry (kind, grouped, us) = itemEntry (kind, grouped, ts) := by
  cases grouped
  · simp [itemEntry, h.textOf_eq]
  · simp [itemEntry, h.textOf_path]

end Reworded

/-! ## Line feeds behind open tags -/

/-- The gaps are the same, up to a line feed at the beginning of the last white space, which belongs
to the open tag in front of it if that ends in a carriage return. -/
inductive Joined : List Token → List Token → Prop
  | same (gap : List Token) : Joined gap gap
  | tag {front : List Token} {content rest : Text} (ends : content.getLast? = some '\r')
      (more : rest ≠ []) :
    Joined (front ++ [⟨.openTag, content⟩, ⟨.whitespace, '\n' :: rest⟩])
      (front ++ [⟨.openTag, content ++ ['\n']⟩, ⟨.whitespace, rest⟩])

/-- Whether a gap joins statements is told by the kinds of its tokens. -/
theorem joins_congr {gap gap' : List Token} (h : gap'.map Token.kind = gap.map Token.kind) :
    joins gap' = joins gap := by
  have hAll (p : TokenKind → Bool) {ts us : List Token}
      (hKinds : us.map Token.kind = ts.map Token.kind) :
      us.all (fun t => p t.kind) = ts.all fun t => p t.kind := by
    have hMap := congrArg (fun kinds => kinds.all p) hKinds
    simpa [List.all_map, Function.comp_def] using hMap
  have hQuiet {ts us : List Token} (hKinds : us.map Token.kind = ts.map Token.kind) :
      us.all (fun t => !t.isMeaningful) = ts.all fun t => !t.isMeaningful :=
    hAll (fun kind => !Token.isMeaningful ⟨kind, []⟩) hKinds
  have hReach : reaches gap' = reaches gap := by
    match gap, gap', h with
    | [], [], _ => rfl
    | stop :: rest, stop' :: rest', h =>
      obtain ⟨hStop, hRest⟩ := List.cons.inj h
      rw [reaches, reaches, hStop]
      split
      · refine hQuiet ?_
        have hDrop := congrArg (fun kinds => (kinds.dropWhile (· != .openTag)).drop 1) hRest
        simpa [List.dropWhile_map, Function.comp_def] using hDrop
      · exact hQuiet hRest
  rw [joins, joins, hReach, hAll (· != .namespaceWord) h]

/-- The line breaks behind an open tag, together with its own one. -/
theorem lineBreaks_tag (front : List Token) (tag space : Text) :
    lineBreaks (front ++ [⟨.openTag, tag⟩, ⟨.whitespace, space⟩]) =
      space.count '\n' + if tag.getLast? == some '\n' then 1 else 0 := by
  have hTrim : trimEnd (front ++ [⟨.openTag, tag⟩, ⟨.whitespace, space⟩]) =
      front ++ [⟨.openTag, tag⟩] := by
    simp [trimEnd, Token.isWhitespace]
  have hSpace : trailingSpace (front ++ [⟨.openTag, tag⟩, ⟨.whitespace, space⟩]) =
      [⟨.whitespace, space⟩] := by
    simp [trailingSpace, Token.isWhitespace]
  rw [lineBreaks, hTrim, hSpace]
  simp [opensLine]

/-- A gap begins with a terminator, so something stands in front of an open tag in it. -/
theorem EndsStatement.before_openTag {front rest : List Token} {content : Text}
    (h : EndsStatement (front ++ ⟨.openTag, content⟩ :: rest)) :
    ∃ stop later, front = stop :: later ∧ stop.isTerminator = true := by
  obtain ⟨stop, later, hGap, hStop, -⟩ := h
  cases front with
  | nil =>
    obtain rfl : _ = stop := (List.cons.inj hGap).1
    simp [Token.isTerminator, Token.isPunct] at hStop
  | cons t front =>
    obtain rfl : t = stop := (List.cons.inj hGap).1
    exact ⟨t, front, rfl, hStop⟩

namespace Joined

variable {gap gap' : List Token}

theorem textOf_eq (h : Joined gap gap') : textOf gap' = textOf gap := by
  cases h <;> simp [textOf_append]

theorem map_kind (h : Joined gap gap') : gap'.map Token.kind = gap.map Token.kind := by
  cases h <;> simp

theorem endsStatement (h : Joined gap gap') (hEnds : EndsStatement gap) : EndsStatement gap' := by
  cases h with
  | same => exact hEnds
  | @tag front content rest hReturn hMore =>
    obtain ⟨stop, later, rfl, hStop⟩ := hEnds.before_openTag
    exact ⟨stop, _, rfl, hStop, fun _ => ⟨⟨.openTag, content ++ ['\n']⟩, by simp, rfl⟩⟩

theorem not_use (h : Joined gap gap') (hUse : ∀ t ∈ gap, t.kind ≠ .useWord) :
    ∀ t ∈ gap', t.kind ≠ .useWord := by
  cases h with
  | same => exact hUse
  | tag hReturn hMore =>
    intro t ht
    simp only [List.mem_append, List.mem_cons, List.not_mem_nil, or_false] at ht
    rcases ht with ht | rfl | rfl
    · exact hUse t (by simp [ht])
    · simp
    · simp

/-- The line feed counts on either side. -/
theorem lineBreaks_eq (h : Joined gap gap') : lineBreaks gap' = lineBreaks gap := by
  cases h with
  | same => rfl
  | @tag front content rest hReturn hMore =>
    rw [lineBreaks_tag, lineBreaks_tag]
    simp [hReturn]

end Joined

/-! ## Records and cells -/

/-- The first record is read as the second one. -/
structure Record.ReadAs (r s : Record) : Prop where
  kind : s.kind = r.kind
  grouped : s.grouped = r.grouped
  qualifier : s.qualifier = r.qualifier
  tokens : Reworded r.tokens s.tokens

theorem Record.ReadAs.qualifierTokens_eq {r s : Record} (h : r.ReadAs s) :
    qualifierTokens s = qualifierTokens r := by
  rw [UseOrder.qualifierTokens, UseOrder.qualifierTokens, h.kind, h.qualifier]

/-- The lead as it is read. -/
inductive Lead.ReadAs : Lead → Lead → Prop
  | start {gap gap' : List Token} (word : Token) (space : List Token) (joined : Joined gap gap') :
    ReadAs (.start gap word space) (.start gap' word space)
  | comma (space : List Token) : ReadAs (.comma space) (.comma space)

theorem Lead.ReadAs.refl (lead : Lead) : lead.ReadAs lead := by
  cases lead with
  | start gap word space => exact .start word space (.same gap)
  | comma space => exact .comma space

/-- The first cell is read as the second one. -/
structure Cell.ReadAs (c d : Cell) : Prop where
  lead : c.lead.ReadAs d.lead
  kind : d.kind = c.kind
  grouped : d.grouped = c.grouped
  qualifier : d.qualifier = c.qualifier
  core : Reworded c.core d.core
  first : ∀ t ∈ d.core.head?, t.isQualifier = false
  after : d.after = c.after

namespace Cell.ReadAs

variable {c d : Cell}

theorem refl (hc : CellOk c) : c.ReadAs c := by
  refine ⟨.refl c.lead, rfl, rfl, rfl, .same c.core, fun t ht => ?_, rfl⟩
  obtain ⟨first, rest, hCore, -, hFirst⟩ := hc.core.first
  rw [hCore, List.head?_cons, Option.mem_some_iff] at ht
  exact ht ▸ hFirst

theorem resembles (h : c.ReadAs d) : c.Resembles d := by
  have hLead := h.lead
  refine ⟨fun hc => ⟨?_, h.core.isCore hc.core h.first, ?_, ?_⟩, ?_, h.kind, h.grouped, ?_⟩
  · have hOk := hc.lead
    rw [h.kind, h.qualifier]
    generalize c.lead = old at hLead hOk
    generalize d.lead = new at hLead
    cases hLead with
    | start word space hJoined => exact ⟨hJoined.not_use hOk.1, hOk.2⟩
    | comma space => exact hOk
  · have hShape := hc.shape
    rw [h.grouped]
    cases hGrouped : c.grouped <;> rw [hGrouped] at hShape
    · exact h.core.isName hShape
    · exact h.core.isGroup hShape
  · rw [h.after]
    exact hc.after
  · unfold Cell.isStart
    generalize c.lead = old at hLead
    generalize d.lead = new at hLead
    cases hLead <;> rfl
  · unfold Cell.gap?
    generalize c.lead = old at hLead
    generalize d.lead = new at hLead
    cases hLead with
    | @start gap gap' word space hJoined =>
      intro new hNew
      obtain rfl : gap' = new := by simpa using hNew
      exact ⟨gap, rfl, joins_congr hJoined.map_kind, hJoined.endsStatement⟩
    | comma space => simp

theorem textOf_eq (h : c.ReadAs d) : textOf d.tokens = textOf c.tokens := by
  have hLead : textOf d.lead.tokens = textOf c.lead.tokens := by
    have hLead := h.lead
    generalize c.lead = old at hLead
    generalize d.lead = new at hLead
    cases hLead with
    | start word space hJoined => simp [Lead.tokens, textOf_append, hJoined.textOf_eq]
    | comma space => rfl
  simp only [Cell.tokens, textOf_append, hLead, h.qualifier, h.core.textOf_eq, h.after]

/-- Names in braces are put in order alike. -/
theorem arranged (h : c.ReadAs d) (hc : CellOk c) (settings : Settings) :
    Reworded (c.arranged settings) (d.arranged settings) := by
  have hShape := hc.shape
  rw [Cell.arranged, Cell.arranged, h.grouped]
  split
  · next hGrouped =>
    rw [if_pos hGrouped] at hShape
    exact h.core.arrangeGroup hShape settings
  · exact h.core

theorem record (h : c.ReadAs d) (hc : CellOk c) (settings : Settings) (offset : Nat) :
    (c.record settings offset).ReadAs (d.record settings offset) := by
  refine ⟨h.kind, h.grouped, ?_, h.arranged hc settings⟩
  simp only [Cell.record, h.resembles.start, h.kind, h.qualifier]

/-- Both cells hold the same import. -/
theorem entry_record (h : c.ReadAs d) (hc : CellOk c) (settings : Settings) (i j : Nat) :
    (d.record settings j).entry = (c.record settings i).entry := by
  have hItem (e : Cell) (k : Nat) :
      (e.record settings k).item = (e.kind, e.grouped, e.arranged settings) := rfl
  rw [Cell.entry_record, Cell.entry_record, hItem, hItem, h.kind, h.grouped]
  exact (h.arranged hc settings).itemEntry_eq c.kind c.grouped

end Cell.ReadAs

theorem textOf_readAs {cs ds : List Cell} (h : List.Forall₂ Cell.ReadAs cs ds) :
    textOf (ds.flatMap Cell.tokens) = textOf (cs.flatMap Cell.tokens) := by
  induction h with
  | nil => rfl
  | cons hd _ ih => rw [List.flatMap_cons, List.flatMap_cons, textOf_append, textOf_append, ih,
      hd.textOf_eq]

theorem entries_readAs {cs ds : List Cell} (h : List.Forall₂ Cell.ReadAs cs ds)
    (hOk : ∀ c ∈ cs, CellOk c) (settings : Settings) (i j : Nat) :
    (Cell.records settings j ds).map Record.entry =
      (Cell.records settings i cs).map Record.entry := by
  induction h generalizing i j with
  | nil => rfl
  | @cons c d cs ds hd _ ih =>
    rw [Cell.records, Cell.records, List.map_cons, List.map_cons,
      hd.entry_record (hOk c List.mem_cons_self) settings i j,
      ih fun e he => hOk e (List.mem_cons_of_mem _ he)]

end UseOrder
