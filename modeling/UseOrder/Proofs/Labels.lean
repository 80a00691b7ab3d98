import UseOrder.Proofs.Scanning

/-!
# Relabelling pieces

`Labels c ts rest c'` says that the pass over the tokens, standing at context `c` in front of `ts`
with `rest` behind, gives the tokens of `ts` the kinds that they have and then stands at `c'`. Of
what came before a terminator only the depths and a pending namespace declaration are remembered
behind it (`Context.Agrees`), and inside an import these do not change. So the tokens between two
imports are labelled as they were, whatever has become of the imports themselves.
-/

namespace UseOrder

/-- The pass from `c` over `ts`, with `rest` behind, gives the kinds that are there and ends in
`c'`. -/
def Labels (c : Context) : List Token → List Token → Context → Prop
  | [], _, c' => c = c'
  | t :: ts, rest, c' =>
    (c.step t.raw (ts.map Token.raw ++ rest)).1 = t.kind ∧
      Labels (c.step t.raw (ts.map Token.raw ++ rest)).2 ts rest c'

@[simp] theorem labels_nil {c c' : Context} {rest : List Token} : Labels c [] rest c' ↔ c = c' :=
  Iff.rfl

theorem labels_cons {c c' : Context} {t : Token} {ts rest : List Token} :
    Labels c (t :: ts) rest c' ↔ (c.step t.raw (ts.map Token.raw ++ rest)).1 = t.kind ∧
      Labels (c.step t.raw (ts.map Token.raw ++ rest)).2 ts rest c' :=
  Iff.rfl

theorem labels_append {c c' : Context} {as bs rest : List Token} :
    Labels c (as ++ bs) rest c' ↔
      ∃ between, Labels c as (bs.map Token.raw ++ rest) between ∧ Labels between bs rest c' := by
  induction as generalizing c with
  | nil => simp
  | cons t as ih => simp [labels_cons, ih, and_assoc]

/-- Tokens that keep their labels are what relabelling gives. -/
theorem Labels.classifyFrom {c c' : Context} {ts rest : List Token} (h : Labels c ts rest c') :
    classifyFrom c (ts.map Token.raw ++ rest) = ts ++ classifyFrom c' rest := by
  induction ts generalizing c with
  | nil =>
    obtain rfl : c = c' := h
    rfl
  | cons t ts ih =>
    rw [List.map_cons, List.cons_append, classifyFrom_cons, ih h.2, h.1]
    rfl

theorem exists_labels {c : Context} {ts rest later : List Token}
    (h : classifyFrom c (ts.map Token.raw ++ rest) = ts ++ later) :
    ∃ c', Labels c ts rest c' ∧ classifyFrom c' rest = later := by
  induction ts generalizing c with
  | nil => exact ⟨c, rfl, h⟩
  | cons t ts ih =>
    rw [List.map_cons, List.cons_append, classifyFrom_cons, List.cons_append, List.cons.injEq] at h
    obtain ⟨c', hLabels, hLater⟩ := ih h.2
    exact ⟨c', ⟨congrArg Token.kind h.1, hLabels⟩, hLater⟩

/-! ## Steps outside imports -/

/-- Contexts that agree on what is remembered behind a terminator. -/
structure Context.Agrees (c c' : Context) : Prop where
  depth : c.depth = c'.depth
  importDepth : c.importDepth = c'.importDepth
  pendingNamespace : c.pendingNamespace = c'.pendingNamespace

theorem Context.Agrees.refl (c : Context) : c.Agrees c :=
  ⟨rfl, rfl, rfl⟩

theorem Context.Agrees.trans {a b c : Context} (h : a.Agrees b) (h' : b.Agrees c) : a.Agrees c :=
  ⟨h.depth.trans h'.depth, h.importDepth.trans h'.importDepth,
    h.pendingNamespace.trans h'.pendingNamespace⟩

theorem Context.Agrees.symm {a b : Context} (h : a.Agrees b) : b.Agrees a :=
  ⟨h.depth.symm, h.importDepth.symm, h.pendingNamespace.symm⟩

theorem Context.remember_agrees (c : Context) (t : Token) : (c.remember t).Agrees c := by
  unfold Context.remember
  split <;> exact ⟨rfl, rfl, rfl⟩

theorem step_code {c : Context} {t : Token} (h : c.place = .code ∨ t.isTerminator = true)
    (rest : List Token) :
    c.step t rest = ((c.codeKind t rest).1,
      ({ c.track t (c.codeKind t rest).1 with place := (c.codeKind t rest).2 } : Context).remember
        ⟨(c.codeKind t rest).1, t.content⟩) := by
  have hPlace : (c.place != .code && !t.isTerminator) = false := by
    rcases h with h | h <;> simp [h]
  rw [Context.step, hPlace]
  rfl

theorem codeKind_plain (c : Context) {t : Token} (hUse : t.kind ≠ .useWord)
    (hNamespace : t.kind ≠ .namespaceWord) (rest : List Token) :
    c.codeKind t rest = (t.kind, .code) := by
  simp [Context.codeKind, hUse, hNamespace]

/-- The step at a terminator forgets everything else. -/
theorem step_terminator {c c' : Context} (h : c.Agrees c') {t : Token} (ht : t.isTerminator = true)
    (rest rest' : List Token) : c.step t rest = c'.step t rest' := by
  have hKind : t.kind ≠ .useWord ∧ t.kind ≠ .namespaceWord ∧ t.isMeaningful = true := by
    rcases t.kind_of_isTerminator ht with hClose | rfl
    · simp [Token.isMeaningful, Token.isWhitespace, Token.isComment, hClose]
    · decide
  rw [step_code (.inr ht), step_code (.inr ht), codeKind_plain c hKind.1 hKind.2.1,
    codeKind_plain c' hKind.1 hKind.2.1]
  obtain ⟨previous, depth, importDepth, pending, place⟩ := c
  obtain ⟨previous', depth', importDepth', pending', place'⟩ := c'
  obtain ⟨rfl, rfl, rfl⟩ := h
  simp only [Context.remember, Context.track, hKind.2.2, if_true]
  repeat' split
  all_goals rfl

/-- The kind of the next meaningful token. -/
def nextKind (ts : List Token) : Option TokenKind :=
  (ts.find? Token.isMeaningful).map Token.kind

theorem nextKind_append (as bs : List Token) :
    nextKind (as ++ bs) = (nextKind as).or (nextKind bs) := by
  simp [nextKind, List.find?_append, Option.map_or]

theorem isRelativeName_congr {rest rest' : List Token} (h : nextKind rest = nextKind rest') :
    Context.isRelativeName rest = Context.isRelativeName rest' := by
  have hAny (ts : List Token) :
      Context.isRelativeName ts = (nextKind ts).any (· == .separator) := by
    rw [Context.isRelativeName, nextKind, Option.any_map]
  rw [hAny, hAny, h]

/-- Outside imports, a step looks ahead to the next meaningful token at most. -/
theorem step_congr {c : Context} (hc : c.place = .code) (t : Token) {rest rest' : List Token}
    (h : nextKind rest = nextKind rest') : c.step t rest = c.step t rest' := by
  have hRelative := isRelativeName_congr h
  have hKind : c.codeKind t rest = c.codeKind t rest' := by
    rw [Context.codeKind, Context.codeKind, hRelative]
  rw [step_code (.inl hc), step_code (.inl hc), hKind]

/-- A step looks at the next token and at the next meaningful token. -/
theorem step_ahead (c : Context) (t : Token) {rest rest' : List Token}
    (hHead : rest.head? = rest'.head?)
    (hNext : nextKind rest = nextKind rest') : c.step t rest = c.step t rest' := by
  have hRelative := isRelativeName_congr hNext
  have hQualifier : Context.qualifierKind? t rest = Context.qualifierKind? t rest' := by
    rw [Context.qualifierKind?, Context.qualifierKind?, hHead]
  rw [Context.step, Context.step, Context.importKind, Context.importKind, hQualifier,
    Context.codeKind, Context.codeKind, hRelative]

theorem Labels.ahead {c c' : Context} {ts rest rest' : List Token} (h : Labels c ts rest c')
    (hHead : rest.head? = rest'.head?)
    (hNext : nextKind rest = nextKind rest') : Labels c ts rest' c' := by
  induction ts generalizing c with
  | nil => exact h
  | cons t ts ih =>
    have hStep : c.step t.raw (ts.map Token.raw ++ rest) =
        c.step t.raw (ts.map Token.raw ++ rest') := by
      refine step_ahead c t.raw ?_ ?_
      · rw [List.head?_append, List.head?_append, hHead]
      · rw [nextKind_append, nextKind_append, hNext]
    rw [labels_cons, hStep] at h
    exact ⟨h.1, ih h.2⟩

/-- The pass does not stop at white space. -/
theorem step_space (c : Context) {t : Token} (ht : t.isWhitespace = true) (rest : List Token) :
    c.step t rest = (.whitespace, c) := by
  obtain ⟨kind, content⟩ := t
  obtain rfl : kind = .whitespace := by simpa [Token.isWhitespace] using ht
  obtain ⟨previous, depth, importDepth, pending, place⟩ := c
  cases place <;> rfl

theorem labels_space (c : Context) {ts : List Token} (h : AllSpace ts) (rest : List Token) :
    Labels c ts rest c := by
  induction ts with
  | nil => rfl
  | cons t ts ih =>
    have ht : t.isWhitespace = true := h t List.mem_cons_self
    have hKind : t.kind = .whitespace := by simpa [Token.isWhitespace] using ht
    rw [labels_cons, Token.raw_eq_self (by rw [hKind]; rfl), step_space c ht]
    exact ⟨hKind.symm, ih fun u hu => h u (List.mem_cons_of_mem _ hu)⟩

/-- Outside imports, tokens that begin no import are labelled alike if a meaningful token of the
same kind comes next. -/
theorem Labels.gap {c c' : Context} {ts rest rest' : List Token} (h : Labels c ts rest c')
    (hc : c.place = .code) (hUse : ∀ t ∈ ts, t.kind ≠ .useWord)
    (hNext : nextKind rest = nextKind rest') :
    c'.place = .code ∧ Labels c ts rest' c' := by
  induction ts generalizing c with
  | nil =>
    obtain rfl : c = c' := h
    exact ⟨hc, rfl⟩
  | cons t ts ih =>
    have hAhead : nextKind (ts.map Token.raw ++ rest) = nextKind (ts.map Token.raw ++ rest') := by
      rw [nextKind_append, nextKind_append, hNext]
    have hStep := step_congr hc t.raw hAhead
    rw [labels_cons] at h ⊢
    rw [← hStep]
    -- only a `use` leaves the code around imports
    have hPlace : (c.step t.raw (ts.map Token.raw ++ rest)).2.place = .code := by
      have hNot := hUse t List.mem_cons_self
      obtain ⟨hKind, hPlace⟩ := step_of_code (.inl hc) (ts.map Token.raw ++ rest)
      rw [← h.1, hKind] at hNot
      rw [hPlace]
      unfold Context.codeKind at hNot ⊢
      repeat' split
      all_goals first | rfl | skip
      all_goals simp_all
    obtain ⟨hLast, hLabels⟩ := ih h.2 hPlace fun u hu => hUse u (List.mem_cons_of_mem _ hu)
    exact ⟨hLast, h.1, hLabels⟩

/-- Where a `use` begins an import. -/
structure Context.Imports (c : Context) : Prop where
  code : c.place = .code
  naming : c.afterNaming = false
  closure : c.previous.any (·.isPunct [')']) = false
  depth : c.depth = c.importDepth

/-- The step at the `use` of an import, whatever follows. -/
theorem step_use {c : Context} (h : c.Imports) {t : Token} (ht : t.kind = .useWord)
    (rest : List Token) :
    c.step t rest =
      (.useWord, { c with place := .importStart, previous := some ⟨.useWord, t.content⟩ }) := by
  have hKind : c.codeKind t rest = (.useWord, .importStart) := by
    simp [Context.codeKind, ht, h.naming, h.closure, h.depth]
  rw [step_code (.inl h.code), hKind]
  have hTrack : c.track t .useWord = c := by
    simp [Context.track, Context.isOpeningBrace, Token.isPunct, ht]
  rw [hTrack]
  rfl

theorem imports_of_step {c : Context} (hc : c.place = .code) {t : Token} {rest : List Token}
    (h : (c.step t rest).1 = .useWord) : c.Imports ∧ t.kind = .useWord := by
  rw [step_code (.inl hc)] at h
  simp only [Context.codeKind] at h
  split at h
  · next hUse =>
    split at h
    · simp at h
    · next hNaming =>
      split at h
      · simp at h
      · next hClosure =>
        split at h
        · simp at h
        · next hDepth =>
          exact ⟨⟨hc, by simpa using hNaming, by simpa using hClosure, by simpa using hDepth⟩,
            by simpa using hUse⟩
  · next hUse =>
    split at h
    · split at h <;> simp at h
    · rw [beq_iff_eq] at hUse
      exact absurd h hUse

/-- The `use` of an import is labelled so whatever follows it. -/
theorem Labels.use {c c' : Context} {word : Token} {rest : List Token} (h : Labels c [word] rest c')
    (hc : c.place = .code) (hWord : word.kind = .useWord) :
    c.Imports ∧ c'.place = .importStart ∧ c'.Agrees c ∧ ∀ rest', Labels c [word] rest' c' := by
  obtain ⟨hKind, hNext⟩ := labels_cons.mp h
  obtain ⟨hImports, hRaw⟩ := imports_of_step hc (hKind.trans hWord)
  rw [step_use hImports hRaw, labels_nil] at hNext
  subst hNext
  refine ⟨hImports, rfl, ⟨rfl, rfl, rfl⟩, fun rest' => ?_⟩
  rw [labels_cons, step_use hImports hRaw, hWord]
  exact ⟨rfl, rfl⟩

/-! ## Steps inside imports -/

theorem step_import {c : Context} (hc : c.place ≠ .code) {t : Token} (ht : t.isTerminator = false)
    (rest : List Token) :
    c.step t rest = (Context.importKind (c.place == .importStart) t rest,
      ({ c with place := if t.isMeaningful then .importBody else c.place } : Context).remember
        ⟨Context.importKind (c.place == .importStart) t rest, t.content⟩) := by
  have hPlace : (c.place != .code && !t.isTerminator) = true := by simp [hc, ht]
  rw [Context.step, if_pos hPlace]

/-- Inside an import, what is remembered behind its terminator does not change. -/
theorem step_import_agrees {c : Context} (hc : c.place ≠ .code) {t : Token}
    (ht : t.isTerminator = false) (rest : List Token) :
    (c.step t rest).2.Agrees c ∧ (c.step t rest).2.place ≠ .code := by
  rw [step_import hc ht]
  refine ⟨(Context.remember_agrees _ _).trans ⟨rfl, rfl, rfl⟩, ?_⟩
  rw [Context.remember_place]
  simp only
  split
  · simp
  · exact hc

theorem Labels.body {c c' : Context} {ts rest : List Token} (h : Labels c ts rest c')
    (hc : c.place ≠ .code) (hStop : ∀ t ∈ ts, t.raw.isTerminator = false) :
    c'.Agrees c ∧ c'.place ≠ .code := by
  induction ts generalizing c with
  | nil =>
    obtain rfl : c = c' := h
    exact ⟨.refl c, hc⟩
  | cons t ts ih =>
    obtain ⟨hAgrees, hPlace⟩ :=
      step_import_agrees hc (hStop t List.mem_cons_self) (ts.map Token.raw ++ rest)
    obtain ⟨hLater, hLast⟩ := ih h.2 hPlace fun u hu => hStop u (List.mem_cons_of_mem _ hu)
    exact ⟨hLater.trans hAgrees, hLast⟩

/-- A token that may stand in an import with the kind it has there, unless it comes first and is
taken for a qualifier. -/
structure Token.Settled (t : Token) : Prop where
  kind : Context.importKind false t.raw [] = t.kind
  inside : t.raw.isTerminator = false

theorem importKind_eq {first : Bool} {t : Token} {rest : List Token}
    (h : first = false ∨ t.isMeaningful = false ∨ Context.qualifierKind? t rest = none)
    (rest' : List Token) : Context.importKind first t rest = Context.importKind false t rest' := by
  simp only [Context.importKind]
  rcases h with rfl | h | h
  · rfl
  · simp [h]
  · simp [h]

/-- Behind the first meaningful token of an import, labels do not depend on their surroundings. -/
theorem labels_body {c : Context} (hc : c.place = .importBody) {ts : List Token}
    (h : ∀ t ∈ ts, t.Settled) (rest : List Token) :
    ∃ c', Labels c ts rest c' ∧ c'.Agrees c ∧ c'.place = .importBody := by
  induction ts generalizing c with
  | nil => exact ⟨c, rfl, .refl c, hc⟩
  | cons t ts ih =>
    have ht := h t List.mem_cons_self
    have hCode : c.place ≠ .code := by simp [hc]
    obtain ⟨hAgrees, -⟩ := step_import_agrees hCode ht.inside (ts.map Token.raw ++ rest)
    obtain ⟨hKind, hPlace⟩ := step_of_import hCode ht.inside (ts.map Token.raw ++ rest)
    have hBody : (c.step t.raw (ts.map Token.raw ++ rest)).2.place = .importBody := by
      rw [hPlace, hc]
      split <;> rfl
    obtain ⟨c', hLabels, hLater, hLast⟩ := ih hBody fun u hu => h u (List.mem_cons_of_mem _ hu)
    refine ⟨c', ⟨?_, hLabels⟩, hLater.trans hAgrees, hLast⟩
    rw [hKind, hc, ← ht.kind]
    exact importKind_eq (.inl rfl) []

/-- The tokens with the labels that they get at the beginning of an import, where the first
meaningful one may be taken for a qualifier. -/
def announce : List Token → List Token
  | [] => []
  | t :: ts =>
    if t.isMeaningful then ⟨(Context.qualifierKind? t.raw ts).getD t.kind, t.content⟩ :: ts
    else t :: announce ts

theorem head_separator_raw (ts : List Token) {rest : List Token}
    (hNext : rest.head?.any (·.kind == .separator) = false) :
    (ts.map Token.raw ++ rest).head?.any (·.kind == .separator) =
      ts.head?.any (·.kind == .separator) := by
  cases ts with
  | nil => simpa using hNext
  | cons t ts =>
    rw [Bool.eq_iff_iff]
    simp [Token.raw, @TokenKind.raw_eq_iff t.kind .separator rfl]

theorem qualifierKind?_raw {t : Token} {ts rest : List Token}
    (hNext : rest.head?.any (·.kind == .separator) = false) :
    Context.qualifierKind? t (ts.map Token.raw ++ rest) = Context.qualifierKind? t ts := by
  rw [Context.qualifierKind?, Context.qualifierKind?, head_separator_raw ts hNext]

/-- A word that is taken for a qualifier was split off as a name. -/
theorem qualifierKind?_of_some {t : Token} {rest : List Token} {kind : TokenKind}
    (h : Context.qualifierKind? t rest = some kind) :
    Context.qualifierKind? t [] = some kind ∧ (kind = .constWord ∨ kind = .functionWord) ∧
      t.kind = .name ∧ rest.head?.any (·.kind == .separator) = false := by
  have hOpen := h
  rw [Context.qualifierKind?] at hOpen
  split at hOpen
  · next hName =>
    simp only [Bool.and_eq_true, beq_iff_eq, Bool.not_eq_true'] at hName
    refine ⟨(@qualifierKind?_raw t [] rest hName.2).symm.trans h, ?_, hName⟩
    generalize lower t.content = word at hOpen
    simp only at hOpen
    split at hOpen
    · exact .inl (Option.some.inj hOpen).symm
    · split at hOpen
      · exact .inr (Option.some.inj hOpen).symm
      · simp at hOpen
  · simp at hOpen

theorem TokenKind.ofWord_of_raw {content : Text} {kind : TokenKind}
    (h : TokenKind.raw content kind = .name) : TokenKind.ofWord content = .name := by
  cases kind <;> first | exact h | simp [TokenKind.raw] at h

/-- A label that is a qualifier's does not change what the token was split off as. -/
theorem raw_announced (t : Token) (ts : List Token) :
    Token.raw ⟨(Context.qualifierKind? t.raw ts).getD t.kind, t.content⟩ = t.raw := by
  cases hFound : Context.qualifierKind? t.raw ts with
  | none => rfl
  | some kind =>
    obtain ⟨-, hKind, hName, -⟩ := qualifierKind?_of_some hFound
    have hWord : TokenKind.ofWord t.content = .name := TokenKind.ofWord_of_raw hName
    have hRaw : t.raw = ⟨.name, t.content⟩ := by
      rw [← hName]
      rfl
    rw [hRaw]
    rcases hKind with rfl | rfl <;> simp [Token.raw, TokenKind.raw, hWord]

theorem map_raw_announce (ts : List Token) : (announce ts).map Token.raw = ts.map Token.raw := by
  induction ts with
  | nil => rfl
  | cons t ts ih =>
    unfold announce
    split
    · rw [List.map_cons, List.map_cons, raw_announced]
    · rw [List.map_cons, List.map_cons, ih]

/-- The first token would be taken for a qualifier at the beginning of an import. -/
def firstQualifies : List Token → Bool
  | [] => false
  | t :: ts => (Context.qualifierKind? t.raw ts).isSome

theorem firstQualifies_congr {ts us : List Token} (h : us.map Token.raw = ts.map Token.raw) :
    firstQualifies us = firstQualifies ts := by
  match ts, us, h with
  | [], [], _ => rfl
  | t :: ts, u :: us, h =>
    obtain ⟨hFirst, hLater⟩ := List.cons.inj h
    have hRaw (t : Token) (ts : List Token) :
        Context.qualifierKind? t ts = Context.qualifierKind? t (ts.map Token.raw) := by
      simpa using (@qualifierKind?_raw t ts [] rfl).symm
    rw [firstQualifies, firstQualifies, hRaw, hRaw t.raw, hFirst, hLater]

/-- A list that does not begin with a qualifier's word does not begin with a qualifier. -/
theorem announce_head {ts : List Token} (h : firstQualifies ts = false)
    (hPlain : ∀ t ∈ ts, t.isQualifier = false) :
    ∀ t ∈ (announce ts).head?, t.isQualifier = false := by
  cases ts with
  | nil => simp [announce]
  | cons t ts =>
    have ht := hPlain t List.mem_cons_self
    have hNone : Context.qualifierKind? t.raw ts = none := by simpa [firstQualifies] using h
    rw [announce, hNone]
    split <;> simpa using ht

/-- At the beginning of an import the first meaningful token may get another label. -/
theorem labels_announce {c : Context} (hc : c.place = .importStart) {ts : List Token}
    (h : ∀ t ∈ ts, t.Settled) {rest : List Token}
    (hNext : rest.head?.any (·.kind == .separator) = false) :
    ∃ c', Labels c (announce ts) rest c' ∧ c'.Agrees c ∧ c'.place ≠ .code := by
  induction ts generalizing c with
  | nil => exact ⟨c, rfl, .refl c, by simp [hc]⟩
  | cons t ts ih =>
    have ht := h t List.mem_cons_self
    have hLater : ∀ u ∈ ts, u.Settled := fun u hu => h u (List.mem_cons_of_mem _ hu)
    have hCode : c.place ≠ .code := by simp [hc]
    obtain ⟨hAgrees, -⟩ := step_import_agrees hCode ht.inside (ts.map Token.raw ++ rest)
    obtain ⟨hKind, hPlace⟩ := step_of_import hCode ht.inside (ts.map Token.raw ++ rest)
    rw [t.raw_isMeaningful] at hPlace
    cases hMeaning : t.isMeaningful with
    | true =>
      rw [hMeaning, if_pos rfl] at hPlace
      obtain ⟨c', hLabels, hLaterAgrees, hLast⟩ := labels_body hPlace hLater rest
      refine ⟨c', ?_, hLaterAgrees.trans hAgrees, by simp [hLast]⟩
      rw [announce, if_pos hMeaning, labels_cons, raw_announced]
      refine ⟨?_, hLabels⟩
      -- a brace is no word, and every other token keeps its label unless it is a qualifier
      rw [hKind, hc, ← ht.kind, ← qualifierKind?_raw hNext]
      cases hFound : Context.qualifierKind? t.raw (ts.map Token.raw ++ rest) with
      | none => exact importKind_eq (.inr (.inr hFound)) []
      | some kind =>
        have hName := (qualifierKind?_of_some hFound).2.2.1
        simp [Context.importKind, Token.isPunct, hName, t.raw_isMeaningful, hMeaning, hFound]
    | false =>
      rw [hMeaning] at hPlace
      obtain ⟨c', hLabels, hLaterAgrees, hLast⟩ := ih (hPlace.trans hc) hLater
      refine ⟨c', ?_, hLaterAgrees.trans hAgrees, hLast⟩
      rw [announce, hMeaning, if_neg (by simp), labels_cons, map_raw_announce]
      refine ⟨?_, hLabels⟩
      rw [hKind, ← ht.kind]
      exact importKind_eq (.inr (.inl (by rw [t.raw_isMeaningful, hMeaning]))) []

/-- The word is taken for the qualifier that it is, unless a separator follows. -/
def Token.Qualifies (t : Token) : Prop :=
  Context.qualifierKind? t.raw [] = some t.kind

theorem Token.Qualifies.name {t : Token} (h : t.Qualifies) : t.raw.kind = .name := by
  unfold Token.Qualifies Context.qualifierKind? at h
  split at h
  · next hName =>
    rw [Bool.and_eq_true, beq_iff_eq] at hName
    exact hName.1
  · simp at h

/-- The qualifier of an import. -/
theorem labels_qualifier {c : Context} (hc : c.place = .importStart) {q : Token} (hq : q.Qualifies)
    {rest : List Token} (hNext : rest.head?.any (·.kind == .separator) = false) :
    ∃ c', Labels c [q] rest c' ∧ c'.Agrees c ∧ c'.place = .importBody := by
  have hName := hq.name
  have hInside : q.raw.isTerminator = false := by
    simp [Token.isTerminator, Token.isPunct, hName]
  have hMeaning : q.raw.isMeaningful = true := by
    simp [Token.isMeaningful, Token.isWhitespace, Token.isComment, hName]
  have hCode : c.place ≠ .code := by simp [hc]
  obtain ⟨hAgrees, -⟩ := step_import_agrees hCode hInside rest
  obtain ⟨hKind, hPlace⟩ := step_of_import hCode hInside rest
  rw [hMeaning, if_pos rfl] at hPlace
  refine ⟨_, ⟨?_, rfl⟩, hAgrees, hPlace⟩
  have hFound : Context.qualifierKind? q.raw rest = some q.kind := by
    rw [← hq]
    exact @qualifierKind?_raw _ [] _ hNext
  rw [List.map_nil, List.nil_append, hKind, hc]
  simp [Context.importKind, Token.isPunct, hName, hMeaning, hFound]

end UseOrder
