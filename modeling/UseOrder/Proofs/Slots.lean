import UseOrder.Import.Plan
import UseOrder.Proofs.Covering
import UseOrder.Proofs.Ordering

/-!
# Where slots and edits lie

For any statement, well formed or not: the slots of its records lie between the `use` and the
terminator, one behind the other, with something meaningful between two of them
(`parseStatement_slots`). An edit that is planned for a slot stays behind all that
(`planSlot_edit`), so the edits of a statement follow each other and stay inside it.
-/

namespace UseOrder

/-- A token that counts, at a position. -/
def MeaningfulAt (ts : List Token) (p : Nat) (t : Token) : Prop :=
  ts[p]? = some t ∧ t.isMeaningful = true

/-- Something meaningful stands behind the position `stop` and in front of `start`. -/
def Parts (ts : List Token) (stop start : Int) : Prop :=
  ∃ p t, MeaningfulAt ts p t ∧ stop ≤ p ∧ (p : Int) < start

/-! ## Slots of a statement -/

/-- Slots lie between two positions, one behind the other. -/
structure SlotsWithin (ts : List Token) (low high : Int) (slots : List Record) : Prop where
  bounds : ∀ r ∈ slots, low ≤ r.start ∧ r.start ≤ r.last + 1 ∧ r.last + 1 ≤ high
  chain : slots.IsChain fun a b => Parts ts (a.last + 1) b.start

/-- The slots of a statement lie between its `use` and its terminator, one behind the other. -/
theorem parseStatement_slots {settings : Settings} {before body after : List Token} {word : Token}
    {records : List Record} (hBody : ∀ t ∈ body, t.isTerminator = false)
    (hAfter : after.head?.any Token.isTerminator = true)
    (h : parseStatement settings (before ++ word :: (body ++ after)) before.length = .ok records) :
    SlotsWithin (before ++ word :: (body ++ after)) (before.length + 1)
      (before ++ word :: body).length records := by
  have hCovers := parseStatement_covers hBody hAfter h
  have hEnd : ((before ++ word :: body).length : Int) = before.length + 1 + body.length := by
    simp only [List.length_append, List.length_cons]
    omega
  refine ⟨fun r hr => hEnd ▸ hCovers.bounds r hr, ?_⟩
  refine (hCovers.chain (standsAt_body before body after word)).imp fun a b hab => ?_
  obtain ⟨k, t, hk, hLow, hHigh, hComma⟩ := hab.comma
  exact ⟨k, t, ⟨hk, by rw [eq_commaToken hComma]; decide⟩, by omega, hHigh⟩

/-! ## Edits for slots -/

theorem lastIndex?_max {p : Token → Bool} {ts : List Token} {k : Nat} {t : Token}
    (hToken : ts[k]? = some t) (ht : p t = true) : ∃ i, lastIndex? p ts = some i ∧ k ≤ i := by
  obtain ⟨hk, hGet⟩ := List.getElem?_eq_some_iff.mp hToken
  have hReverse : ts.reverse[ts.length - 1 - k]? = some t := by
    rw [List.getElem?_reverse (by omega), ← hToken]
    congr 1
    omega
  obtain ⟨hBack, hGetBack⟩ := List.getElem?_eq_some_iff.mp hReverse
  cases hFind : ts.reverse.findIdx? p with
  | none =>
    rw [List.findIdx?_eq_none_iff] at hFind
    have hNot := hFind t (List.mem_of_getElem? hReverse)
    rw [ht] at hNot
    exact absurd hNot (by simp)
  | some j =>
    obtain ⟨hj, -, hFirst⟩ := List.findIdx?_eq_some_iff_getElem.mp hFind
    refine ⟨ts.length - 1 - j, by rw [lastIndex?, hFind]; rfl, ?_⟩
    by_contra hLess
    have hEarly : ts.length - 1 - k < j := by omega
    have hNot := hFirst _ hEarly
    rw [hGetBack, ht] at hNot
    exact hNot rfl

/-- The search backward ends at the last meaningful token, so all others stand before it. -/
theorem previousMeaningful_max {ts : List Token} {k : Int} {p : Nat} {t : Token}
    {found : Option Int} (h : previousMeaningful ts k = .ok found) (ht : MeaningfulAt ts p t)
    (hBefore : (p : Int) < k) : ∃ i : Nat, found = some (i : Int) ∧ p ≤ i := by
  rw [previousMeaningful, if_neg (by omega)] at h
  split at h
  · exact absurd h (by simp)
  · obtain rfl := Except.ok.inj h
    have hTake : (ts.take k.toNat)[p]? = some t := by
      rw [List.getElem?_take_of_lt (by omega)]
      exact ht.1
    obtain ⟨i, hLast, hp⟩ := lastIndex?_max hTake ht.2
    exact ⟨i, by rw [hLast]; rfl, hp⟩

theorem previousMeaningful_lt {ts : List Token} {k i : Int}
    (h : previousMeaningful ts k = .ok (some i)) : 0 ≤ i ∧ i < k := by
  rw [previousMeaningful] at h
  split at h
  · exact absurd h (by simp)
  · split at h
    · exact absurd h (by simp)
    · obtain ⟨j, hLast, hj⟩ := Option.map_eq_some_iff.mp (Except.ok.inj h)
      obtain ⟨n, hFind, hn⟩ := Option.map_eq_some_iff.mp hLast
      obtain ⟨hLength, -⟩ := List.findIdx?_eq_some_iff_getElem.mp hFind
      rw [List.length_reverse, List.length_take] at hLength
      rw [List.length_take] at hn
      rw [← hj, Int.ofNat_eq_natCast]
      omega

theorem lastIndex?_at {p : Token → Bool} {ts : List Token} {n : Nat}
    (h : lastIndex? p ts = some n) : ∃ t, ts[n]? = some t ∧ p t = true := by
  obtain ⟨j, hFind, rfl⟩ := Option.map_eq_some_iff.mp h
  obtain ⟨hj, ht, -⟩ := List.findIdx?_eq_some_iff_getElem.mp hFind
  rw [List.length_reverse] at hj
  refine ⟨_, List.getElem?_eq_getElem (by omega), ?_⟩
  rwa [List.getElem_reverse] at ht

/-- The search backward ends at a meaningful token, if there is one to end at. -/
theorem exists_previous {ts : List Token} {k : Int} {p : Nat} {t : Token} (hk : k ≤ ts.length)
    (ht : MeaningfulAt ts p t) (hp : (p : Int) < k) :
    ∃ (i : Nat) (u : Token), previousMeaningful ts k = .ok (some (i : Int)) ∧
      MeaningfulAt ts i u ∧ p ≤ i ∧ (i : Int) < k := by
  have hFound : previousMeaningful ts k =
      .ok ((lastIndex? Token.isMeaningful (ts.take k.toNat)).map Int.ofNat) := by
    rw [previousMeaningful, if_neg (by omega), if_neg (by omega)]
  obtain ⟨i, hSome, hi⟩ := previousMeaningful_max hFound ht hp
  obtain ⟨n, hLast, hn⟩ := Option.map_eq_some_iff.mp hSome
  obtain rfl : n = i := Int.ofNat.inj hn
  obtain ⟨u, hAt, hMeaning⟩ := lastIndex?_at hLast
  rw [hSome] at hFound
  have hLess := (previousMeaningful_lt hFound).2
  rw [List.getElem?_take_of_lt (by omega)] at hAt
  exact ⟨n, u, hFound, ⟨hAt, hMeaning⟩, hi, hLess⟩

/-- An edit for a slot ends with it, and begins behind all that is meaningful in front of it; only a
comma may be taken in. -/
structure EditOf (ts : List Token) (slot : Record) (e : Edit) : Prop where
  start_le : e.start ≤ slot.start
  stop_eq : e.stop = slot.last + 1
  behind : ∀ p t, MeaningfulAt ts p t → (p : Int) < slot.start →
    (p : Int) ≤ e.start ∧ (t.isComma = false → (p : Int) < e.start)

theorem tokenAt_natCast {ts : List Token} {i : Nat} {t : Token} :
    tokenAt ts i = .ok t ↔ ts[i]? = some t := by
  have hNonneg : ¬ ((i : Int) < 0) := by omega
  simp only [tokenAt, hNonneg, if_false, Int.toNat_natCast]
  cases ts[i]? <;> simp

theorem startStatement_edit {ts : List Token} {useAt : Option Int} {slot record : Record}
    {e : Edit} {statement : OpenStatement}
    (h : startStatement ts useAt slot record = .ok (e, statement)) : EditOf ts slot e := by
  have hEdit : e = ⟨slot.start, slot.last + 1, qualifierTokens record ++ record.tokens⟩ := by
    cases useAt with
    | none => exact (Prod.mk.inj (Except.ok.inj h)).1.symm
    | some i =>
      simp only [startStatement, bind, Except.bind, pure, Except.pure] at h
      split at h
      · cases h
      · exact (Prod.mk.inj (Except.ok.inj h)).1.symm
  subst hEdit
  exact ⟨le_refl _, rfl, fun p t _ hp => ⟨le_of_lt hp, fun _ => hp⟩⟩

theorem continueStatement_edit {layout : Layout} {ts : List Token} {current : Option OpenStatement}
    {commaAt : Int} {slot record : Record} (hComma : commaAt < slot.start)
    (hBehind : ∀ p t, MeaningfulAt ts p t → (p : Int) < slot.start →
      (p : Int) ≤ commaAt ∧ (t.isComma = false → (p : Int) < commaAt)) :
    EditOf ts slot (continueStatement layout current commaAt slot record).1 := by
  simp only [continueStatement]
  split
  · exact ⟨le_refl _, rfl, fun p t _ hp => ⟨le_of_lt hp, fun _ => hp⟩⟩
  · exact ⟨le_of_lt hComma, rfl, hBehind⟩

/-- The token in front of a slot is the meaningful one nearest to it. -/
theorem tokenBefore_nearest {ts : List Token} {slot : Record} {i : Int} {t : Token}
    (h : tokenBefore ts slot = .ok (some (i, t))) :
    ∃ n : Nat, i = n ∧ ts[n]? = some t ∧ i < slot.start ∧
      ∀ (p : Nat) (u : Token), MeaningfulAt ts p u → (p : Int) < slot.start → p ≤ n := by
  simp only [tokenBefore, bind, Except.bind, pure, Except.pure] at h
  split at h
  · cases h
  · next previous hPrevious =>
    cases previous with
    | none => cases h
    | some j =>
      simp only at h
      split at h
      · cases h
      · next hToken =>
        obtain ⟨rfl, rfl⟩ := Prod.mk.inj (Option.some.inj (Except.ok.inj h))
        obtain ⟨hNonneg, hBefore⟩ := previousMeaningful_lt hPrevious
        obtain ⟨n, rfl⟩ := Int.eq_ofNat_of_zero_le hNonneg
        refine ⟨n, rfl, tokenAt_natCast.mp hToken, hBefore, fun p u hu hp => ?_⟩
        obtain ⟨m, hSome, hm⟩ := previousMeaningful_max hPrevious hu hp
        have hCast := Option.some.inj hSome
        omega

theorem planSlot_edit {layout : Layout} {ts : List Token} {current : Option OpenStatement}
    {slot record : Record} {e : Edit} {statement : OpenStatement}
    (h : planSlot layout ts current slot record = .ok (e, statement)) : EditOf ts slot e := by
  simp only [planSlot, bind, Except.bind, pure, Except.pure] at h
  split at h
  · cases h
  · next found hFound =>
    split at h
    · exact startStatement_edit h
    · next i t =>
      split at h
      · next hComma =>
        -- the edit reaches back to the comma, and no meaningful token is behind that
        obtain ⟨n, rfl, hToken, hBefore, hNearest⟩ := tokenBefore_nearest hFound
        obtain ⟨rfl, -⟩ := Prod.mk.inj (Except.ok.inj h)
        refine continueStatement_edit hBefore fun p u hu hp => ?_
        have hLast := hNearest p u hu hp
        refine ⟨by omega, fun hNot => ?_⟩
        rcases Nat.lt_or_eq_of_le hLast with hLess | rfl
        · omega
        · obtain rfl : t = u := Option.some.inj (hToken.symm.trans hu.1)
          rw [hComma] at hNot
          cases hNot
      · exact startStatement_edit h

theorem planFrom_edits {layout : Layout} {ts : List Token} {current : Option OpenStatement}
    {pairs : List (Record × Record)} {edits : List Edit}
    (h : planFrom layout ts current pairs = .ok edits) :
    List.Forall₂ (EditOf ts) (pairs.map Prod.fst) edits := by
  induction pairs generalizing current edits with
  | nil =>
    obtain rfl := Except.ok.inj h
    exact .nil
  | cons pair pairs ih =>
    simp only [planFrom, bind, Except.bind, pure, Except.pure] at h
    split at h
    · cases h
    · next planned hPlanned =>
      split at h
      · cases h
      · next later hLater =>
        obtain rfl := Except.ok.inj h
        exact .cons (planSlot_edit hPlanned) (ih hLater)

theorem planRecords_edits {settings : Settings} {ts : List Token} {records : List Record}
    {edits : List Edit} (h : planRecords settings ts records = .ok edits) :
    List.Forall₂ (EditOf ts) records edits := by
  have hLength := (orderRecords_perm settings records).length_eq
  have hEdits := planFrom_edits h
  rwa [List.map_fst_zip hLength.ge] at hEdits

/-! ## Slots and edits of a sub-group -/

/-- A terminator stands between two positions. -/
def Divided (ts : List Token) (u v : Int) : Prop :=
  ∃ k t, ts[k]? = some t ∧ t.isTerminator = true ∧ u < (k : Nat) ∧ ((k : Nat) : Int) < v

/-- There is a `use` at the position. -/
def UseAt (ts : List Token) (u : Int) : Prop :=
  ∃ n : Nat, u = n ∧ ∃ t, ts[n]? = some t ∧ t.kind = .useWord

/-- A slot lies inside a statement. -/
def InStatement (ts : List Token) (uses : List Int) (start stop : Int) : Prop :=
  ∃ u e : Nat, (u : Int) ∈ uses ∧ StatementAt ts u e ∧ (u : Int) < start ∧ stop ≤ e

/-- A statement that is read has a terminator. -/
theorem exists_statement {settings : Settings} {ts : List Token} {u : Int} {records : List Record}
    (hUse : UseAt ts u) (h : parseStatement settings ts u = .ok records) :
    ∃ before word body stop after, ts = before ++ word :: (body ++ stop :: after) ∧
      u = (before.length : Nat) ∧ word.kind = .useWord ∧ (∀ t ∈ body, t.isTerminator = false) ∧
      stop.isTerminator = true := by
  obtain ⟨n, rfl, word, hToken, hWord⟩ := hUse
  obtain ⟨before, rest, rfl, rfl⟩ := exists_split hToken
  by_cases hStop : ∃ t ∈ rest, t.isTerminator = true
  · obtain ⟨body, stop, after, rfl, hStop, hBody⟩ := exists_first hStop
    exact ⟨before, word, body, stop, after, rfl, rfl, hWord, hBody, hStop⟩
  · have hNone := findIdx?_terminator_eq_none hStop
    simp only [parseStatement, tokensAfter_append, hNone, bind, Except.bind] at h
    cases h

theorem parseStatement_at {settings : Settings} {ts : List Token} {u : Nat}
    {records : List Record} (hUse : UseAt ts u) (h : parseStatement settings ts u = .ok records) :
    ∃ stop, StatementAt ts u stop ∧ SlotsWithin ts (u + 1) (stop : Nat) records := by
  obtain ⟨before, word, body, stop, after, rfl, hu, hWord, hBody, hStop⟩ := exists_statement hUse h
  obtain rfl : u = before.length := by omega
  exact ⟨(before ++ word :: body).length, statementAt_append hWord hBody hStop,
    parseStatement_slots hBody (by simpa using hStop) h⟩

/-- The slots of a sub-group lie inside its statements, one behind the other. -/
theorem parseStatements_slots {settings : Settings} {ts : List Token} {uses : List Int}
    {records : List Record} (hUses : ∀ u ∈ uses, UseAt ts u) (hDivided : uses.Pairwise (Divided ts))
    (h : parseStatements settings ts uses = .ok records) :
    (∀ r ∈ records, InStatement ts uses r.start (r.last + 1) ∧ r.start ≤ r.last + 1) ∧
      records.IsChain fun a b => Parts ts (a.last + 1) b.start := by
  induction uses generalizing records with
  | nil =>
    obtain rfl := Except.ok.inj h
    exact ⟨by simp, by simp⟩
  | cons u uses ih =>
    obtain ⟨first, later, hFirst, hLater, rfl⟩ := parseStatements_cons_iff.mp h
    obtain ⟨hAhead, hLaterDivided⟩ := List.pairwise_cons.mp hDivided
    have hUse := hUses u List.mem_cons_self
    obtain ⟨n, rfl⟩ : ∃ n : Nat, u = n := ⟨_, hUse.choose_spec.1⟩
    obtain ⟨stop, hStatement, hSlots⟩ := parseStatement_at hUse hFirst
    obtain ⟨hInside, hChain⟩ :=
      ih (fun v hv => hUses v (List.mem_cons_of_mem _ hv)) hLaterDivided hLater
    refine ⟨?_, List.isChain_append.mpr ⟨hSlots.chain, hChain, ?_⟩⟩
    · intro r hr
      rcases List.mem_append.mp hr with hr | hr
      · obtain ⟨hLow, hOrder, hHigh⟩ := hSlots.bounds r hr
        exact ⟨⟨n, stop, List.mem_cons_self, hStatement, by omega, hHigh⟩, hOrder⟩
      · obtain ⟨⟨v, e, hv, hRest⟩, hOrder⟩ := hInside r hr
        exact ⟨⟨v, e, List.mem_cons_of_mem _ hv, hRest⟩, hOrder⟩
    · -- the `use` of the statement that holds the next slot parts it from those before
      intro a ha b hb
      have hLast := (hSlots.bounds a (List.mem_of_mem_getLast? ha)).2.2
      obtain ⟨⟨v, e, hv, hNext, hStart, -⟩, -⟩ := hInside b (List.mem_of_mem_head? hb)
      obtain ⟨k, t, hk, hTerm, hLow, hHigh⟩ := hAhead v hv
      obtain ⟨word, hWord, hKind⟩ := hNext.word
      have hStop : stop ≤ k := by
        by_contra hLess
        have hNot := hStatement.inside k t (by omega) (by omega) hk
        rw [hTerm] at hNot
        exact absurd hNot (by simp)
      exact ⟨v, word, ⟨hWord, isMeaningful_of_use hKind⟩, by omega, hStart⟩

theorem exists_of_forall₂_mem {α β : Type} {R : α → β → Prop} {as : List α} {bs : List β} {b : β}
    (h : List.Forall₂ R as bs) (hb : b ∈ bs) : ∃ a ∈ as, R a b := by
  induction h with
  | nil => simp at hb
  | cons hab _ ih =>
    rcases List.mem_cons.mp hb with rfl | hb
    · exact ⟨_, List.mem_cons_self, hab⟩
    · obtain ⟨a, ha, hR⟩ := ih hb
      exact ⟨a, List.mem_cons_of_mem _ ha, hR⟩

/-- The edits of a sub-group lie inside its statements, one behind the other. -/
theorem EditOf.within {ts : List Token} {uses : List Int} {slots : List Record}
    {edits : List Edit} (hEdits : List.Forall₂ (EditOf ts) slots edits)
    (hSlots : ∀ r ∈ slots, InStatement ts uses r.start (r.last + 1) ∧ r.start ≤ r.last + 1)
    (hChain : slots.IsChain fun a b => Parts ts (a.last + 1) b.start) :
    (∀ e ∈ edits, InStatement ts uses e.start e.stop ∧ e.start ≤ e.stop) ∧
      edits.Pairwise fun a b => a.stop ≤ b.start := by
  have hInside : ∀ e ∈ edits, InStatement ts uses e.start e.stop ∧ e.start ≤ e.stop := by
    -- an edit may start in front of its slot, but not in front of the `use`, which is no comma
    intro e he
    obtain ⟨slot, hSlot, hEdit⟩ := exists_of_forall₂_mem hEdits he
    obtain ⟨⟨u, stop, hu, hStatement, hLow, hHigh⟩, hOrder⟩ := hSlots slot hSlot
    obtain ⟨word, hWord, hKind⟩ := hStatement.word
    have hComma : word.isComma = false := by simp [Token.isComma, Token.isPunct, hKind]
    have hStart := (hEdit.behind u word ⟨hWord, isMeaningful_of_use hKind⟩ hLow).2 hComma
    have hStartLe := hEdit.start_le
    have hStopEq := hEdit.stop_eq
    exact ⟨⟨u, stop, hu, hStatement, hStart, by omega⟩, by omega⟩
  have hNeighbours : edits.IsChain fun a b => a.stop ≤ b.start ∧ b.start ≤ b.stop := by
    clear hSlots
    induction hEdits with
    | nil => simp
    | cons hEdit hEdits ih =>
      have hLater := ih hChain.of_cons fun e he => hInside e (List.mem_cons_of_mem _ he)
      cases hEdits with
      | nil => simp
      | @cons next d _ _ hNext _ =>
        -- what parts the slots is a meaningful token, and no edit reaches back over one
        obtain ⟨p, t, ht, hBehind, hBefore⟩ := (List.isChain_cons_cons.mp hChain).1
        have hNextStart := (hNext.behind p t ht hBefore).1
        have hStopEq := hEdit.stop_eq
        exact List.isChain_cons_cons.mpr ⟨⟨by omega, (hInside d (by simp)).2⟩, hLater⟩
  have hTrans : IsTrans Edit fun a b => a.stop ≤ b.start ∧ b.start ≤ b.stop :=
    ⟨fun a b c hab hbc => ⟨by omega, hbc.2⟩⟩
  exact ⟨hInside, (List.isChain_iff_pairwise.mp hNeighbours).imp And.left⟩

end UseOrder
