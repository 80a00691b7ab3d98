import UseOrder.Proofs.Frame
import UseOrder.Proofs.Labels

/-!
# Imports inside imports

Between the `use` of an import and its terminator the pass over the tokens leaves the words `use`
and `namespace` as they are, so a segment of a name that is spelled like a keyword keeps the kind of
the keyword (`kind_iff_keyword`). Imports do not nest exactly if no import holds such a segment
(`neverNested_iff`). Then every import is reported once, no run starts inside an import, and blank
lines leave the bodies of imports alone (`insertBlankLines_bodies`).

`Passes` follows the pass over a whole text from import to import: where it stands at each `use`,
and how it labels what comes before and behind.
-/

namespace UseOrder

/-! ## The pass over the regions of a text -/

/-- The pass goes over regions: it labels every gap, finds an import at every `use`, and labels
every body. `last` is what follows the regions. -/
inductive Passes (last : List Token) : Context → List Region → Prop
  | nil (c : Context) : Passes last c []
  | cons {c atUse inside behind : Context} {r : Region} {rs : List Region}
      (enters : c.place = .code ∨ ∃ t more, r.gap = t :: more ∧ t.isTerminator = true)
      (gap : Labels c r.gap ((r.word :: (r.body ++ regionTokens rs last)).map Token.raw) atUse)
      (imports : atUse.Imports)
      (inside_place : inside.place ≠ .code)
      (body : Labels inside r.body ((regionTokens rs last).map Token.raw) behind)
      (agrees : behind.Agrees atUse)
      (later : Passes last behind rs) : Passes last c (r :: rs)

/-- A token that keeps its label ends a statement if and only if it does so before relabelling. -/
theorem Labels.raw_isTerminator {c c' : Context} {ts rest : List Token} (h : Labels c ts rest c') :
    ∀ t ∈ ts, t.raw.isTerminator = t.isTerminator := by
  induction ts generalizing c with
  | nil => simp
  | cons t ts ih =>
    intro u hu
    rcases List.mem_cons.mp hu with rfl | hu
    · have hStep := Relabels.step c u.raw (ts.map Token.raw ++ rest)
      rw [h.1] at hStep
      exact hStep.isTerminator.symm
    · exact ih h.2 u hu

/-- Behind a gap the pass stands in code again. -/
theorem Labels.place_gap {c c' : Context} {gap rest : List Token} (h : Labels c gap rest c')
    (hc : c.place = .code ∨ ∃ t more, gap = t :: more ∧ t.isTerminator = true)
    (hUse : ∀ t ∈ gap, t.kind ≠ .useWord) : c'.place = .code := by
  rcases hc with hc | ⟨t, more, rfl, ht⟩
  · exact (h.gap hc hUse rfl).1
  · have hRaw : t.raw.isTerminator = true := by
      rw [h.raw_isTerminator t List.mem_cons_self, ht]
    have hNext : (c.step t.raw (more.map Token.raw ++ rest)).2.place = .code := by
      have hKind : t.raw.kind ≠ .useWord ∧ t.raw.kind ≠ .namespaceWord := by
        rcases t.raw.kind_of_isTerminator hRaw with hClose | hMark
        · simp [hClose]
        · simp [hMark]
      rw [(step_of_code (.inr hRaw) _).2, codeKind_plain c hKind.1 hKind.2]
    exact (h.2.gap hNext (fun u hu => hUse u (List.mem_cons_of_mem _ hu)) rfl).1

/-- Outside imports, relabelling makes no punctuation mark and takes none away. -/
theorem isPunct_of_step {c : Context} {t : Token} {rest : List Token}
    (hc : c.place = .code ∨ t.raw.isTerminator = true) (h : (c.step t.raw rest).1 = t.kind)
    (text : Text) : t.raw.isPunct text = t.isPunct text := by
  have hPunct : t.raw.kind = .punct ↔ t.kind = .punct := by
    rw [← h, (step_of_code hc rest).1, Context.codeKind]
    repeat' split
    all_goals simp_all
  rw [Bool.eq_iff_iff]
  simp only [Token.isPunct, Bool.and_eq_true, beq_iff_eq, hPunct]
  rfl

/-- Outside imports, a token does to the depths what tracking says. -/
theorem step_agrees_track {c : Context} {t : Token} {rest : List Token}
    (hc : c.place = .code ∨ t.raw.isTerminator = true) (h : (c.step t.raw rest).1 = t.kind) :
    (c.step t.raw rest).2.Agrees (c.track t.raw t.kind) := by
  rw [step_code hc] at h ⊢
  rw [← h]
  exact (Context.remember_agrees _ _).trans ⟨rfl, rfl, rfl⟩

theorem isOpeningBrace_of_step {c : Context} {t : Token} {rest : List Token}
    (hc : c.place = .code ∨ t.raw.isTerminator = true) (h : (c.step t.raw rest).1 = t.kind) :
    Context.isOpeningBrace t.raw = Context.isOpeningBrace t := by
  simp only [Context.isOpeningBrace, isPunct_of_step hc h]

/-- What every token outside imports keeps of the context, a gap keeps. -/
theorem Labels.gap_foldl {σ : Type} {f : σ → Token → σ} {R : σ → Context → Prop}
    (hStep : ∀ {s : σ} {c : Context} {t : Token} {rest : List Token}, R s c →
      c.place = .code ∨ t.raw.isTerminator = true → (c.step t.raw rest).1 = t.kind →
        R (f s t) (c.step t.raw rest).2)
    {s : σ} {c c' : Context} {gap rest : List Token} (h : R s c) (hLabels : Labels c gap rest c')
    (hc : c.place = .code ∨ ∃ t more, gap = t :: more ∧ t.isTerminator = true)
    (hUse : ∀ t ∈ gap, t.kind ≠ .useWord) : R (gap.foldl f s) c' := by
  induction gap generalizing s c with
  | nil =>
    obtain rfl : c = c' := hLabels
    exact h
  | cons t gap ih =>
    have hFirst : c.place = .code ∨ t.raw.isTerminator = true := by
      refine hc.imp_right ?_
      rintro ⟨u, more, hEq, hu⟩
      obtain ⟨rfl, rfl⟩ := List.cons.inj hEq
      rw [hLabels.raw_isTerminator t List.mem_cons_self, hu]
    -- behind the first token the pass stands in code, whatever it was
    have hOne : Labels c [t] (gap.map Token.raw ++ rest)
        (c.step t.raw (gap.map Token.raw ++ rest)).2 :=
      ⟨hLabels.1, rfl⟩
    have hPlace := hOne.place_gap
      (hc.imp_right fun ⟨u, more, hEq, hu⟩ => ⟨u, [], by simp [(List.cons.inj hEq).1], hu⟩)
      (fun u hu => hUse u (by simp at hu; simp [hu]))
    exact ih (hStep h hFirst hLabels.1) hLabels.2 (.inl hPlace)
      fun u hu => hUse u (List.mem_cons_of_mem _ hu)

theorem passes_of_framed {last : List Token} {regions : List Region} (hFramed : Framed last regions)
    (hBody : ∀ r ∈ regions, ∀ t ∈ r.body, t.isTerminator = false) {c : Context}
    (hc : c.place = .code ∨ ∀ t ∈ (regionTokens regions last).head?, t.isTerminator = true)
    (h : classifyFrom c ((regionTokens regions last).map Token.raw) = regionTokens regions last) :
    Passes last c regions := by
  induction hFramed generalizing c with
  | nil hLast => exact .nil c
  | @cons r rs hGap hWord hStop hLater ih =>
    have hShape : regionTokens (r :: rs) last =
        r.gap ++ ([r.word] ++ (r.body ++ regionTokens rs last)) := by
      simp [regionTokens, Region.tokens]
    rw [hShape] at h hc
    rw [List.map_append] at h
    obtain ⟨atUse, hLabels, h⟩ := exists_labels h
    have hEnters : c.place = .code ∨ ∃ t more, r.gap = t :: more ∧ t.isTerminator = true := by
      refine hc.imp_right fun hFirst => ?_
      cases hEq : r.gap with
      | nil =>
        -- a `use` ends no statement
        have hNot := hFirst r.word (by simp [hEq])
        simp [Token.isTerminator, Token.isPunct, hWord] at hNot
      | cons t more => exact ⟨t, more, rfl, hFirst t (by simp [hEq])⟩
    have hCode := hLabels.place_gap hEnters hGap
    rw [List.map_append] at h
    obtain ⟨inside, hUse, h⟩ := exists_labels h
    obtain ⟨hImports, hPlace, hAgrees, -⟩ := hUse.use hCode hWord
    rw [List.map_append] at h
    obtain ⟨behind, hInside, h⟩ := exists_labels h
    have hNot : inside.place ≠ .code := by simp [hPlace]
    have hStill := hInside.body hNot fun t ht => by
      rw [hInside.raw_isTerminator t ht]
      exact hBody r List.mem_cons_self t ht
    exact .cons hEnters hLabels hImports hNot hInside (hStill.1.trans hAgrees)
      (ih (fun s hs => hBody s (List.mem_cons_of_mem _ hs)) (.inr hStop) h)

/-- The pass over a source text. -/
theorem passes_source (source : Text) :
    Passes (outermost (classify (lex source))).2 {} (outermost (classify (lex source))).1 := by
  refine passes_of_framed (framed_outermost _) (body_outermost _) (.inl rfl) ?_
  rw [regionTokens_outermost, map_raw_classify]
  rfl

/-! ## Words inside imports -/

/-- A word that is spelled like `use` or `namespace`, whatever kind it was given. -/
def Token.isKeyword (t : Token) : Bool :=
  t.raw.kind == .useWord || t.raw.kind == .namespaceWord

/-- A token that starts an import or declares a namespace. -/
def Token.opensScope (t : Token) : Bool :=
  t.kind == .useWord || t.kind == .namespaceWord

/-- Relabelling makes no keyword out of another token. -/
theorem Relabels.eq_keyword {t : Token} {kind : TokenKind} (h : Relabels t kind)
    (hKind : kind = .useWord ∨ kind = .namespaceWord) : t.kind = kind := by
  cases h with
  | same => rfl
  | _ => simp at hKind

/-- Inside an import a keyword keeps its kind. -/
theorem importKind_keyword {first : Bool} {t : Token} {rest : List Token}
    (h : t.kind = .useWord ∨ t.kind = .namespaceWord) :
    Context.importKind first t rest = t.kind := by
  have hPunct : ∀ text, t.isPunct text = false := by
    intro text
    rcases h with h | h <;> simp [Token.isPunct, h]
  have hNone : Context.qualifierKind? t rest = none := by
    rcases h with h | h <;> simp [Context.qualifierKind?, h]
  simp [Context.importKind, hPunct, hNone]

/-- Inside an import, exactly the words that are spelled like a keyword have the kind of one. -/
theorem Labels.kind_iff_keyword {c c' : Context} {body rest : List Token}
    (h : Labels c body rest c') (hc : c.place ≠ .code)
    (hBody : ∀ t ∈ body, t.isTerminator = false) :
    ∀ t ∈ body, t.opensScope = t.isKeyword := by
  induction body generalizing c with
  | nil => simp
  | cons t body ih =>
    have hInside : t.raw.isTerminator = false := by
      rw [h.raw_isTerminator t List.mem_cons_self]
      exact hBody t List.mem_cons_self
    have hPlace := (step_import_agrees hc hInside (body.map Token.raw ++ rest)).2
    intro u hu
    rcases List.mem_cons.mp hu with rfl | hu
    · have hStep := Relabels.step c u.raw (body.map Token.raw ++ rest)
      rw [h.1] at hStep
      have hKind := (step_of_import hc hInside (body.map Token.raw ++ rest)).1
      rw [h.1] at hKind
      rw [Bool.eq_iff_iff]
      simp only [Token.opensScope, Token.isKeyword, Bool.or_eq_true, beq_iff_eq]
      constructor
      · intro hu
        rwa [hStep.eq_keyword hu]
      · intro hu
        rwa [hKind, importKind_keyword hu]
    · exact ih h.2 hPlace (fun v hv => hBody v (List.mem_cons_of_mem _ hv)) u hu

theorem Passes.kind_iff_keyword {last : List Token} {c : Context} {regions : List Region}
    (h : Passes last c regions) (hBody : ∀ r ∈ regions, ∀ t ∈ r.body, t.isTerminator = false) :
    ∀ r ∈ regions, ∀ t ∈ r.body, t.opensScope = t.isKeyword := by
  induction h with
  | nil c => simp
  | @cons c atUse inside behind r rs enters gap imports inside_place body agrees later ih =>
    intro s hs
    rcases List.mem_cons.mp hs with rfl | hs
    · exact body.kind_iff_keyword inside_place (hBody s List.mem_cons_self)
    · exact ih (fun s hs => hBody s (List.mem_cons_of_mem _ hs)) s hs

/-! ## Imports that do not nest -/

/-- Neither a `use` nor a namespace declaration stands between a `use` and its terminator. -/
def NeverNested (ts : List Token) : Prop :=
  ∀ before word body rest, ts = before ++ word :: (body ++ rest) → word.kind = .useWord →
    (∀ t ∈ body, t.isTerminator = false) → ∀ t ∈ body, t.opensScope = false

theorem not_use_of_opensScope {t : Token} (h : t.opensScope = false) : t.kind ≠ .useWord := by
  rintro hUse
  simp [Token.opensScope, hUse] at h

/-- The part of a text up to a terminator is no longer than the part without terminators. -/
theorem mem_of_append_eq {body rest inner later : List Token} (h : body ++ rest = inner ++ later)
    (hBody : ∀ t ∈ body, t.isTerminator = false)
    (hStop : ∀ t ∈ later.head?, t.isTerminator = true) : ∀ t ∈ body, t ∈ inner := by
  rcases List.append_eq_append_iff.mp h with ⟨more, rfl, -⟩ | ⟨more, rfl, rfl⟩
  · exact fun t ht => List.mem_append_left _ ht
  · cases more with
    | nil => simp
    | cons u more =>
      have hEnd := hStop u (by simp)
      rw [hBody u (by simp)] at hEnd
      exact absurd hEnd (by simp)

/-- Regions whose bodies open nothing do not nest. -/
theorem Framed.neverNested {last : List Token} {regions : List Region} (hFramed : Framed last regions)
    (h : ∀ r ∈ regions, ∀ t ∈ r.body, t.opensScope = false) :
    NeverNested (regionTokens regions last) := by
  induction hFramed with
  | nil hLast =>
    intro before word body rest hShape hWord
    exact absurd hWord (hLast word (by simp [regionTokens] at hShape; simp [hShape]))
  | @cons r rs hGap hUse hStop hLater ih =>
    have hInner := h r List.mem_cons_self
    intro before word body rest hShape hWord hBody
    have hTokens : before ++ word :: (body ++ rest) =
        r.gap ++ r.word :: (r.body ++ regionTokens rs last) := by
      rw [← hShape]
      simp [regionTokens, Region.tokens]
    by_cases hFirst : ∃ t ∈ before, (t.kind == .useWord) = true
    · -- the word stands behind the first region
      obtain ⟨front, first, back, rfl, hKind, hFront⟩ := exists_first hFirst
      have hSplit : front ++ first :: (back ++ word :: (body ++ rest)) =
          r.gap ++ r.word :: (r.body ++ regionTokens rs last) := by
        rw [← hTokens]
        simp
      obtain ⟨-, -, hBehind⟩ := first_use_unique (fun t ht => by simpa using hFront t ht) hGap
        (by simpa using hKind) hUse hSplit
      rcases List.append_eq_append_iff.mp hBehind with ⟨more, hMore, hRest⟩ | ⟨more, -, hRest⟩
      · cases more with
        | nil =>
          exact ih (fun s hs => h s (List.mem_cons_of_mem _ hs)) [] word body rest hRest.symm hWord
            hBody
        | cons u more =>
          obtain rfl := (List.cons.inj hRest).1
          exact absurd hWord (not_use_of_opensScope (hInner word (by simp [hMore])))
      · exact ih (fun s hs => h s (List.mem_cons_of_mem _ hs)) more word body rest hRest hWord hBody
    · have hFront : ∀ t ∈ before, t.kind ≠ .useWord := by
        intro t ht hKind
        exact hFirst ⟨t, ht, by simp [hKind]⟩
      obtain ⟨-, -, hBehind⟩ := first_use_unique hFront hGap hWord hUse hTokens
      exact fun t ht => hInner t (mem_of_append_eq hBehind hBody hStop t ht)

/-- Imports do not nest exactly if no import holds a word that is spelled like a keyword. -/
theorem neverNested_iff (source : Text) :
    NeverNested (classify (lex source)) ↔
      ∀ r ∈ (outermost (classify (lex source))).1, ∀ t ∈ r.body, t.isKeyword = false := by
  have hFramed := framed_outermost (classify (lex source))
  have hBody := body_outermost (classify (lex source))
  have hKeyword := (passes_source source).kind_iff_keyword hBody
  have hTokens := regionTokens_outermost (classify (lex source))
  constructor
  · intro hNever r hr t ht
    obtain ⟨before, after, hSplit⟩ := List.append_of_mem hr
    rw [← hKeyword r hr t ht]
    rw [hSplit, regionTokens_split] at hTokens
    exact hNever _ _ _ _ hTokens.symm (hFramed.word_of_mem r hr) (hBody r hr) t ht
  · intro hNone
    rw [← hTokens]
    exact hFramed.neverNested fun r hr t ht => (hKeyword r hr t ht).trans (hNone r hr t ht)

/-! ## What follows if imports do not nest -/

/-- The positions of the `use` words of regions from `offset` on. -/
def regionStarts (offset : Nat) : List Region → List Int
  | [] => []
  | r :: rs => ((offset + r.gap.length : Nat) : Int) :: regionStarts (offset + r.tokens.length) rs

/-- Imports that do not nest are reported once each, and runs start in gaps only. -/
theorem importRunsFrom_regions {last : List Token} {regions : List Region}
    (hFramed : Framed last regions) (h : ∀ r ∈ regions, ∀ t ∈ r.body, t.opensScope = false)
    (i : Nat) :
    (importRunsFrom i (regionTokens regions last)).flatten = regionStarts i regions ∧
      (importRunsFrom i (regionTokens regions last)).length =
        namespaces (regions.flatMap Region.gap ++ last) + 1 := by
  -- region by region: the gap may open runs, the `use` joins the run behind it, the body adds nothing
  induction hFramed generalizing i with
  | nil hLast =>
    have hGap := importRunsFrom_gap hLast i []
    rw [List.append_nil] at hGap
    simp [regionTokens, hGap, importRunsFrom, regionStarts, namespaces]
  | @cons r rs hGap hUse hStop hLater ih =>
    have hInner := h r List.mem_cons_self
    have hPlain : ∀ t ∈ r.body, t.kind ≠ .useWord := fun t ht => not_use_of_opensScope (hInner t ht)
    have hNone : r.body.countP (·.kind == .namespaceWord) = 0 := by
      rw [List.countP_eq_zero]
      intro t ht
      have hScope := hInner t ht
      simp only [Token.opensScope, Bool.or_eq_false_iff] at hScope
      simp [hScope.2]
    obtain ⟨hFlat, hLength⟩ := ih (fun s hs => h s (List.mem_cons_of_mem _ hs))
      (i + r.gap.length + 1 + r.body.length)
    have hShape : regionTokens (r :: rs) last =
        r.gap ++ r.word :: (r.body ++ regionTokens rs last) := by
      simp [regionTokens, Region.tokens]
    obtain ⟨run, runs, hRuns, hWord⟩ :=
      importRunsFrom_use hUse (i + r.gap.length) (r.body ++ regionTokens rs last)
    rw [importRunsFrom_gap hPlain, hNone, List.replicate_zero, List.nil_append] at hRuns
    have hNext : i + r.gap.length + 1 + r.body.length = i + r.tokens.length := by
      simp only [Region.tokens, List.length_append, List.length_cons]
      omega
    rw [hRuns] at hFlat hLength
    rw [hShape, importRunsFrom_gap hGap, hWord]
    constructor
    · rw [List.flatten_append, List.flatten_replicate_nil, List.nil_append, List.flatten_cons,
        List.cons_append, ← List.flatten_cons, hFlat, hNext, regionStarts]
    · simp only [List.length_append, List.length_replicate, List.length_cons, namespaces,
        List.flatMap_cons, List.countP_append] at hLength ⊢
      omega

/-- Where imports do not nest, blank lines keep the bodies of imports as they are. -/
theorem Loosened.bodies {e : LineEnding} {last body out : List Token} {regions : List Region}
    (hFramed : Framed last regions) (hInner : ∀ r ∈ regions, ∀ t ∈ r.body, t.kind ≠ .useWord)
    (hBody : ∀ t ∈ body, t.kind ≠ .useWord)
    (h : Loosened e.text (body ++ regionTokens regions last) out)
    (hStop : ∀ t ∈ (regionTokens regions last).head?, t.isTerminator = true) :
    ∃ regions', out = body ++ regionTokens regions' last ∧
      List.Forall₂ (fun r r' => RegionKept e.text r r' ∧ r'.body = r.body) regions regions' := by
  -- region by region; `body` is what the region in front of them holds, and its `use` is passed
  induction hFramed generalizing body out with
  | nil hLast =>
    refine ⟨[], ?_, .nil⟩
    generalize hts : body ++ regionTokens [] last = ts at h
    cases h with
    | last hPlain => rfl
    | @use piece piece' more more' next hPiece hNext hOpened hLater =>
      have hMem : next ∈ body ++ last := by
        simp only [regionTokens, List.flatMap_nil, List.nil_append] at hts
        simp [hts]
      rcases List.mem_append.mp hMem with hMem | hMem
      · exact absurd hNext (hBody next hMem)
      · exact absurd hNext (hLast next hMem)
  | @cons r rs hGap hWord hEnd hLater ih =>
    have hTrim := Region.trimEnd_gap_ne_nil hWord hStop
    generalize hts : body ++ regionTokens (r :: rs) last = ts at h
    have hShape : ts = (body ++ r.gap) ++ r.word :: (r.body ++ regionTokens rs last) := by
      rw [← hts]
      simp [regionTokens, Region.tokens]
    cases h with
    | last hPlain => exact absurd hWord (hPlain r.word (by simp [hShape]))
    | @use piece piece' more more' next hPiece hNext hOpened hMore =>
      have hFront : ∀ t ∈ body ++ r.gap, t.kind ≠ .useWord := by
        intro t ht
        rcases List.mem_append.mp ht with ht | ht
        · exact hBody t ht
        · exact hGap t ht
      obtain ⟨rfl, rfl, rfl⟩ := first_use_unique hPiece hFront hNext hWord hShape
      obtain ⟨regions', rfl, hKept⟩ := ih (fun s hs => hInner s (List.mem_cons_of_mem _ hs))
        (hInner r List.mem_cons_self) hMore hEnd
      rcases hOpened with rfl | rfl
      · exact ⟨⟨r.gap, r.word, r.body⟩ :: regions', by simp [regionTokens, Region.tokens],
          .cons ⟨⟨.inl rfl, rfl⟩, rfl⟩ hKept⟩
      · refine ⟨⟨openUp e.text r.gap, r.word, r.body⟩ :: regions', ?_,
          .cons ⟨⟨gapKept_openUp e r.gap, rfl⟩, rfl⟩ hKept⟩
        rw [openUp_append_of_ne_nil e.text body hTrim]
        simp [regionTokens, Region.tokens]

/-- Blank lines in a text whose imports do not nest. -/
theorem insertBlankLines_bodies {layout : Layout} {last out : List Token} {regions : List Region}
    {added : Nat} (hFramed : Framed last regions)
    (hInner : ∀ r ∈ regions, ∀ t ∈ r.body, t.kind ≠ .useWord)
    (h : insertBlankLines layout (regionTokens regions last) = .ok (added, out)) :
    ∃ regions', out = regionTokens regions' last ∧
      List.Forall₂ (fun r r' => RegionKept layout.lineEnding.text r r' ∧ r'.body = r.body)
        regions regions' := by
  rcases insertBlankLines_loosened h with ⟨-, rfl⟩ | ⟨front, word, rest, rest', hts, hFront, hWord,
    rfl, hLoosened⟩
  · exact ⟨regions, rfl, List.forall₂_same.mpr fun r _ => ⟨⟨.inl rfl, rfl⟩, rfl⟩⟩
  · obtain ⟨body, rs, rfl, rfl, hLater, hEnd⟩ := hFramed.exists_first_region hts hFront hWord
    obtain ⟨regions', rfl, hKept⟩ := hLoosened.bodies hLater
      (fun s hs => hInner s (List.mem_cons_of_mem _ hs)) (hInner _ List.mem_cons_self) hEnd
    exact ⟨⟨front, word, body⟩ :: regions', by simp [regionTokens, Region.tokens],
      .cons ⟨⟨.inl rfl, rfl⟩, rfl⟩ hKept⟩

/-! ## Source texts -/

/-- Imports do not nest exactly if none of them holds a word that is spelled like a keyword. If so,
every import is reported once and in order, runs start outside imports only, and blank lines leave
the bodies of imports alone. -/
theorem imports_nested_only_by_keyword (source : Text) :
    let ts := classify (lex source)
    let regions := (outermost ts).1
    let last := (outermost ts).2
    (NeverNested ts ↔ ∀ r ∈ regions, ∀ t ∈ r.body, t.isKeyword = false) ∧
      (NeverNested ts →
        (importRuns ts).flatten = regionStarts 0 regions ∧
        (importRuns ts).length = namespaces (regions.flatMap Region.gap ++ last) + 1 ∧
        ∀ layout added out, insertBlankLines layout ts = .ok (added, out) →
          ∃ regions', out = regionTokens regions' last ∧
            List.Forall₂ (fun r r' => RegionKept layout.lineEnding.text r r' ∧ r'.body = r.body)
              regions regions') := by
  refine ⟨neverNested_iff source, fun hNever => ?_⟩
  have hFramed := framed_outermost (classify (lex source))
  have hTokens := regionTokens_outermost (classify (lex source))
  have hInner : ∀ r ∈ (outermost (classify (lex source))).1, ∀ t ∈ r.body, t.opensScope = false := by
    intro r hr t ht
    rw [(passes_source source).kind_iff_keyword (body_outermost _) r hr t ht]
    exact (neverNested_iff source).mp hNever r hr t ht
  obtain ⟨hFlat, hLength⟩ := importRunsFrom_regions hFramed hInner 0
  rw [hTokens] at hFlat hLength
  refine ⟨hFlat, hLength, fun layout added out h => ?_⟩
  rw [← hTokens] at h
  exact insertBlankLines_bodies hFramed (fun r hr t ht => not_use_of_opensScope (hInner r hr t ht)) h

/-- Two imports behind a namespace declaration, with a qualifier and a group. -/
theorem imports_nested_only_by_keyword_of_two :
    let ts := classify (lex "<?php namespace N; use function A\\f; use B\\\x7bD, C\x7d;".toList)
    NeverNested ts ∧ (importRuns ts).flatten = regionStarts 0 (outermost ts).1 := by
  have hNever : NeverNested
      (classify (lex "<?php namespace N; use function A\\f; use B\\\x7bD, C\x7d;".toList)) :=
    (imports_nested_only_by_keyword _).1.mpr (by decide +kernel)
  exact ⟨hNever, ((imports_nested_only_by_keyword _).2 hNever).1⟩

/-- A segment of a name that is spelled like a keyword is taken for another import. -/
theorem keyword_segment_nests :
    ¬ NeverNested (classify (lex "<?php\nuse Foo\\Use\\Bar;\n".toList)) := by
  intro hNever
  have hKeyword := (neverNested_iff _).mp hNever
  revert hKeyword
  decide +kernel

end UseOrder
