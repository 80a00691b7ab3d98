import Mathlib.Data.List.Forall2
import UseOrder.Proofs.Neighbours
import UseOrder.Proofs.Records
import UseOrder.Proofs.Slots

/-!
# What the ordering of imports leaves alone

A scan from left to right cuts tokens into regions: each is an import from its `use` up to and
without its terminator, with the gap in front of it. Nothing is asked of the imports: they may be
malformed, and hold further `use` words. Every edit falls into the body of a region
(`fits_of_statement`), so edits keep gaps and words (`splice_fits`, `applyInOrder_fits`). Blank
lines touch white space at the end of gaps and otherwise stay inside bodies (`Loosened.regions`).
-/

namespace UseOrder

/-! ## Regions -/

/-- An import up to and without its terminator, and the gap in front of it. -/
structure Region where
  gap : List Token
  word : Token
  body : List Token
deriving DecidableEq, Repr

/-- The tokens of a region. -/
def Region.tokens (r : Region) : List Token :=
  r.gap ++ r.word :: r.body

/-- The tokens of regions and of what follows them. -/
def regionTokens (regions : List Region) (last : List Token) : List Token :=
  regions.flatMap Region.tokens ++ last

/-- The outermost imports, and what follows them. -/
def outermost (ts : List Token) : List Region × List Token :=
  match _h : ts.dropWhile (·.kind != .useWord) with
  | [] => ([], ts)
  | word :: rest =>
    let (regions, last) := outermost (rest.dropWhile (!·.isTerminator))
    (⟨ts.takeWhile (·.kind != .useWord), word, rest.takeWhile (!·.isTerminator)⟩ :: regions, last)
termination_by ts.length
decreasing_by
  have hDrop := (List.dropWhile_sublist (l := rest) (!·.isTerminator)).length_le
  have hRest := (List.dropWhile_sublist (l := ts) (·.kind != .useWord)).length_le
  rw [_h, List.length_cons] at hRest
  omega

theorem regionTokens_outermost (ts : List Token) :
    regionTokens (outermost ts).1 (outermost ts).2 = ts := by
  fun_induction outermost ts with
  | case1 ts h => rfl
  | case2 ts word rest h regions last hLater ih =>
    rw [hLater] at ih
    have hTake := List.takeWhile_append_dropWhile (p := (·.kind != .useWord)) (l := ts)
    have hBody := List.takeWhile_append_dropWhile (p := (!·.isTerminator)) (l := rest)
    rw [h] at hTake
    simp only [regionTokens, List.flatMap_cons, Region.tokens, List.append_assoc,
      List.cons_append] at ih ⊢
    rw [ih, hBody, hTake]

/-- The regions are cut at the first terminator behind each `use`: gaps hold no `use`, and what
follows a region begins with a terminator. -/
inductive Framed (last : List Token) : List Region → Prop
  | nil (h : ∀ t ∈ last, t.kind ≠ .useWord) : Framed last []
  | cons {r : Region} {rs : List Region} (gap : ∀ t ∈ r.gap, t.kind ≠ .useWord)
      (word : r.word.kind = .useWord)
      (stop : ∀ t ∈ (regionTokens rs last).head?, t.isTerminator = true)
      (later : Framed last rs) : Framed last (r :: rs)

/-- The regions have the same gaps and the same words; bodies may differ. -/
def SameFrame (regions regions' : List Region) : Prop :=
  List.Forall₂ (fun r r' => r'.gap = r.gap ∧ r'.word = r.word) regions regions'

theorem SameFrame.refl (regions : List Region) : SameFrame regions regions :=
  List.forall₂_same.mpr fun _ _ => ⟨rfl, rfl⟩

theorem SameFrame.trans {as bs cs : List Region} (hab : SameFrame as bs) (hbc : SameFrame bs cs) :
    SameFrame as cs := by
  induction hab generalizing cs with
  | nil => exact hbc
  | cons h hs ih =>
    cases hbc with
    | cons g gs => exact .cons ⟨g.1.trans h.1, g.2.trans h.2⟩ (ih gs)

theorem SameFrame.head?_eq {regions regions' : List Region} (h : SameFrame regions regions')
    (last : List Token) :
    (regionTokens regions' last).head? = (regionTokens regions last).head? := by
  cases h with
  | nil => rfl
  | @cons r r' rs rs' hr hrs =>
    simp only [regionTokens, List.flatMap_cons, Region.tokens, hr.1, hr.2]
    cases r.gap <;> rfl

theorem Framed.of_sameFrame {last : List Token} {regions regions' : List Region}
    (hFramed : Framed last regions) (h : SameFrame regions regions') : Framed last regions' := by
  induction hFramed generalizing regions' with
  | nil hLast =>
    cases h
    exact .nil hLast
  | cons gap word stop later ih =>
    cases h with
    | cons hr hrs =>
      exact .cons (by rwa [hr.1]) (by rwa [hr.2]) (by rwa [SameFrame.head?_eq hrs]) (ih hrs)

theorem Framed.word_of_mem {last : List Token} {regions : List Region} (h : Framed last regions) :
    ∀ r ∈ regions, r.word.kind = .useWord := by
  induction h with
  | nil hLast => simp
  | cons hGap hUse hStop hLater ih =>
    intro s hs
    rcases List.mem_cons.mp hs with rfl | hs
    · exact hUse
    · exact ih s hs

theorem Framed.last {last : List Token} {regions : List Region} (h : Framed last regions) :
    ∀ t ∈ last, t.kind ≠ .useWord := by
  induction h with
  | nil h => exact h
  | cons _ _ _ _ ih => exact ih

/-- A scan finds regions that are cut at the first terminators. -/
theorem framed_outermost (ts : List Token) : Framed (outermost ts).2 (outermost ts).1 := by
  fun_induction outermost ts with
  | case1 ts h =>
    refine .nil fun t ht => ?_
    have hNone := List.dropWhile_eq_nil_iff.mp h t ht
    simpa using hNone
  | case2 ts word rest h regions last hLater ih =>
    have hTokens := regionTokens_outermost (rest.dropWhile (!·.isTerminator))
    rw [hLater] at ih hTokens
    refine .cons ?_ ?_ ?_ ih
    · intro t ht
      simpa using List.mem_takeWhile_imp ht
    · have hHead := List.head?_dropWhile_not (·.kind != .useWord) ts
      rw [h] at hHead
      simpa using hHead
    · intro t ht
      rw [hTokens] at ht
      have hHead := List.head?_dropWhile_not (!·.isTerminator) rest
      rw [Option.mem_def.mp ht] at hHead
      simpa using hHead

/-- A body ends in front of the first terminator. -/
theorem body_outermost (ts : List Token) :
    ∀ r ∈ (outermost ts).1, ∀ t ∈ r.body, t.isTerminator = false := by
  fun_induction outermost ts with
  | case1 ts h => simp
  | case2 ts word rest h regions last hLater ih =>
    rw [hLater] at ih
    intro r hr
    rcases List.mem_cons.mp hr with rfl | hr
    · intro t ht
      simpa using List.mem_takeWhile_imp ht
    · exact ih r hr

theorem regionTokens_split (before : List Region) (r : Region) (after : List Region)
    (last : List Token) :
    regionTokens (before ++ r :: after) last =
      (before.flatMap Region.tokens ++ r.gap) ++ r.word :: (r.body ++ regionTokens after last) := by
  simp [regionTokens, Region.tokens]

/-! ## Edits inside regions -/

/-- The edit falls into the body of one of the regions, the first of which starts at `offset`. -/
def FitsIn (e : Edit) (offset : Nat) : List Region → Prop
  | [] => False
  | r :: rs =>
    ((offset + r.gap.length + 1 : Nat) ≤ e.start ∧ e.stop ≤ (offset + r.tokens.length : Nat)) ∨
      FitsIn e (offset + r.tokens.length) rs

theorem FitsIn.offset_lt {e : Edit} {offset : Nat} {regions : List Region}
    (h : FitsIn e offset regions) : (offset : Int) < e.start := by
  induction regions generalizing offset with
  | nil => exact h.elim
  | cons r rs ih =>
    rcases h with h | h
    · omega
    · have := ih h
      omega

theorem exists_range {ts : List Token} {start stop : Nat} (hOrder : start ≤ stop)
    (hStop : stop ≤ ts.length) :
    ∃ front old back, ts = front ++ old ++ back ∧ front.length = start ∧
      front.length + old.length = stop := by
  refine ⟨ts.take start, (ts.take stop).drop start, ts.drop stop, ?_, by simp; omega, by simp; omega⟩
  have hFront : ts.take start = (ts.take stop).take start := by
    rw [List.take_take, Nat.min_eq_left hOrder]
  rw [hFront, List.take_append_drop, List.take_append_drop]

/-- Writing into the body of the first region changes nothing else. The body keeps what stands in
front of the edit, and does not get shorter if nothing is replaced. -/
theorem splice_body {r : Region} {e : Edit} (before new rest : List Token) (hOrder : e.start ≤ e.stop)
    (hLow : (before.length + r.gap.length + 1 : Nat) ≤ e.start)
    (hHigh : e.stop ≤ (before.length + r.tokens.length : Nat)) :
    ∃ body, splice (before ++ r.tokens ++ rest) e.start e.stop new =
        .ok (before ++ (Region.mk r.gap r.word body).tokens ++ rest) ∧
      e.start ≤ (before.length + r.gap.length + 1 + body.length : Nat) ∧
      (e.start = e.stop → r.body.length ≤ body.length) := by
  have hSize : r.tokens.length = r.gap.length + 1 + r.body.length := by
    simp only [Region.tokens, List.length_append, List.length_cons]
    omega
  have hRange : (e.start - (before.length + r.gap.length + 1 : Nat)).toNat ≤
      (e.stop - (before.length + r.gap.length + 1 : Nat)).toNat := by omega
  obtain ⟨front, old, back, hBody, hFront, hOld⟩ := @exists_range r.body _ _ hRange (by omega)
  refine ⟨front ++ new ++ back, ?_, ?_, ?_⟩
  · have hTokens : before ++ r.tokens ++ rest =
        (before ++ r.gap ++ r.word :: front) ++ old ++ (back ++ rest) := by
      simp [Region.tokens, hBody]
    have hStart : e.start = (before ++ r.gap ++ r.word :: front).length := by
      simp only [List.length_append, List.length_cons]
      omega
    have hStop : e.stop =
        ((before ++ r.gap ++ r.word :: front).length + old.length : Nat) := by
      simp only [List.length_append, List.length_cons]
      omega
    rw [hTokens, hStart, hStop, splice_append]
    simp [Region.tokens]
  · simp only [List.length_append]
    omega
  · intro hInsert
    rw [hBody]
    simp only [List.length_append]
    omega

/-- Writing into a region keeps all gaps and words. An edit further in front still fits, if the
text that it replaces is not touched or only made longer. -/
theorem splice_fits {e : Edit} {regions : List Region} (before last new : List Token)
    (hOrder : e.start ≤ e.stop) (hFits : FitsIn e before.length regions) :
    ∃ regions', splice (before ++ regionTokens regions last) e.start e.stop new =
        .ok (before ++ regionTokens regions' last) ∧ SameFrame regions regions' ∧
      ∀ d : Edit, FitsIn d before.length regions → d.start ≤ e.start →
        (d.stop ≤ e.start ∨ e.start = e.stop) → FitsIn d before.length regions' := by
  induction regions generalizing before with
  | nil => exact hFits.elim
  | cons r rs ih =>
    have hTokens (s : Region) (ss : List Region) : before ++ regionTokens (s :: ss) last =
        (before ++ s.tokens) ++ regionTokens ss last := by simp [regionTokens]
    rcases hFits with ⟨hLow, hHigh⟩ | hFits
    · -- the edit is in this region: an edit in a later one does not start in front of it
      obtain ⟨body, hSplice, hKept, hGrown⟩ :=
        splice_body before new (regionTokens rs last) hOrder hLow hHigh
      refine ⟨⟨r.gap, r.word, body⟩ :: rs, ?_, .cons ⟨rfl, rfl⟩ (SameFrame.refl rs), ?_⟩
      · rw [hTokens, hTokens, hSplice]
      · intro d hd hBefore hApart
        rcases hd with ⟨hdLow, hdHigh⟩ | hd
        · refine .inl ⟨hdLow, ?_⟩
          simp only [Region.tokens, List.length_append, List.length_cons] at hdHigh ⊢
          rcases hApart with hApart | hInsert
          · omega
          · have hLength := hGrown hInsert
            omega
        · have hFar := hd.offset_lt
          omega
    · rw [← List.length_append] at hFits
      obtain ⟨rs', hSplice, hFrame, hOther⟩ := ih (before ++ r.tokens) hFits
      refine ⟨r :: rs', ?_, .cons ⟨rfl, rfl⟩ hFrame, ?_⟩
      · rw [hTokens, hTokens, hSplice]
      · intro d hd hBefore hApart
        refine hd.imp_right fun hd => ?_
        rw [← List.length_append] at hd ⊢
        exact hOther d hd hBefore hApart

theorem take_of_splice {ts new result : List Token} {start stop : Int} {m : Nat}
    (h : splice ts start stop new = .ok result) (hm : (m : Int) ≤ start) :
    result.take m = ts.take m := by
  rw [splice] at h
  split at h
  · next hRange =>
    obtain rfl := Except.ok.inj h
    rw [List.append_assoc, List.take_append_of_le_length (by simp; omega), List.take_take,
      Nat.min_eq_left (by omega)]
  · cases h

/-- The edits can be applied one after the other: each leaves those to come where they are, or
lengthens what they replace. -/
def Sequenced (edits : List Edit) : Prop :=
  edits.Pairwise fun e d => d.start ≤ e.start ∧ (d.stop ≤ e.start ∨ e.start = e.stop)

theorem applyInOrder_fits {edits : List Edit} {regions : List Region} (last : List Token)
    (changed : Nat) (hSequenced : Sequenced edits)
    (hEdits : ∀ e ∈ edits, FitsIn e 0 regions ∧ e.start ≤ e.stop) :
    ∃ regions' count, applyInOrder (regionTokens regions last) changed edits =
        ⟨regionTokens regions' last, .ok count⟩ ∧ SameFrame regions regions' ∧
      ∀ m : Nat, (∀ e ∈ edits, (m : Int) ≤ e.start) →
        (regionTokens regions' last).take m = (regionTokens regions last).take m := by
  -- the edits come from the last to the first, so one that is done leaves room for those to come
  induction edits generalizing regions changed with
  | nil => exact ⟨regions, changed, rfl, SameFrame.refl _, fun _ _ => rfl⟩
  | cons e edits ih =>
    obtain ⟨hAhead, hLater⟩ := List.pairwise_cons.mp hSequenced
    have hRest : ∀ d ∈ edits, FitsIn d 0 regions ∧ d.start ≤ d.stop :=
      fun d hd => hEdits d (List.mem_cons_of_mem _ hd)
    obtain ⟨hFits, hOrder⟩ := hEdits e List.mem_cons_self
    rw [applyInOrder]
    split
    · obtain ⟨regions', count, hApplied, hFrame, hTake⟩ := ih changed hLater hRest
      exact ⟨regions', count, hApplied, hFrame,
        fun m hm => hTake m fun d hd => hm d (List.mem_cons_of_mem _ hd)⟩
    · obtain ⟨regions₁, hSplice, hFrame₁, hOther⟩ := splice_fits [] last e.tokens hOrder hFits
      simp only [List.nil_append] at hSplice
      have hFits₁ : ∀ d ∈ edits, FitsIn d 0 regions₁ ∧ d.start ≤ d.stop :=
        fun d hd => ⟨hOther d (hRest d hd).1 (hAhead d hd).1 (hAhead d hd).2, (hRest d hd).2⟩
      obtain ⟨regions₂, count, hApplied, hFrame₂, hTake⟩ := ih (changed + 1) hLater hFits₁
      refine ⟨regions₂, count, ?_, hFrame₁.trans hFrame₂, fun m hm => ?_⟩
      · rw [hSplice]
        exact hApplied
      · rw [hTake m fun d hd => hm d (List.mem_cons_of_mem _ hd),
          take_of_splice hSplice (hm e List.mem_cons_self)]

theorem sequenced_mergeSort {edits : List Edit} (hOrder : ∀ e ∈ edits, e.start ≤ e.stop)
    (h : edits.Pairwise fun a b => a.stop ≤ b.start) :
    Sequenced (edits.mergeSort fun a b => decide (b.start ≤ a.start)) := by
  have hPerm := List.mergeSort_perm edits fun a b => decide (b.start ≤ a.start)
  have hApart : (edits.mergeSort fun a b => decide (b.start ≤ a.start)).Pairwise
      fun a b => a.stop ≤ b.start ∨ b.stop ≤ a.start :=
    (hPerm.pairwise_iff fun hab => hab.symm).mpr (h.imp Or.inl)
  have hSorted : (edits.mergeSort fun a b => decide (b.start ≤ a.start)).Pairwise
      fun a b => decide (b.start ≤ a.start) = true :=
    List.pairwise_mergeSort (fun a b c hab hbc => by simp only [decide_eq_true_eq] at *; omega)
      (fun a b => by simp only [Bool.or_eq_true, decide_eq_true_eq]; omega) edits
  refine (hSorted.and hApart).imp_of_mem fun {e d} he _ hed => ?_
  have hStart : d.start ≤ e.start := of_decide_eq_true hed.1
  have heOrder := hOrder e (hPerm.mem_iff.mp he)
  exact ⟨hStart, by rcases hed.2 with h | h <;> omega⟩

/-! ## Statements inside regions -/

/-- A statement does not go beyond a terminator behind its `use`. -/
theorem StatementAt.stop_le {front rest : List Token} {u stop : Nat}
    (h : StatementAt (front ++ rest) u stop) (hUse : u < front.length)
    (hEnd : ∀ t ∈ rest.head?, t.isTerminator = true) : stop ≤ front.length := by
  by_contra hBeyond
  obtain ⟨s, hs, -⟩ := h.stop
  obtain ⟨hSize, -⟩ := List.getElem?_eq_some_iff.mp hs
  cases rest with
  | nil =>
    rw [List.append_nil] at hSize
    omega
  | cons t rest =>
    have hAt : (front ++ t :: rest)[front.length]? = some t := by simp
    have hNot := h.inside _ t hUse (by omega) hAt
    rw [hEnd t (by simp)] at hNot
    exact absurd hNot (by simp)

/-- A statement stays inside the region that holds its `use`. -/
theorem fits_of_statement {regions : List Region} {last : List Token} (before : List Token)
    (hFramed : Framed last regions) {u stop : Nat}
    (hStatement : StatementAt (before ++ regionTokens regions last) u stop)
    (hBefore : before.length ≤ u) {e : Edit} (hStart : (u : Int) < e.start)
    (hStop : e.stop ≤ stop) : FitsIn e before.length regions := by
  -- region by region, until the one that the `use` is in
  induction hFramed generalizing before with
  | nil hLast =>
    obtain ⟨t, ht, hKind⟩ := hStatement.word
    rw [List.getElem?_append_right hBefore] at ht
    exact absurd hKind (hLast t (List.mem_of_getElem? ht))
  | @cons r rs hGap hWord hEnd hLater ih =>
    have hTokens : before ++ regionTokens (r :: rs) last =
        (before ++ r.tokens) ++ regionTokens rs last := by simp [regionTokens]
    rw [hTokens] at hStatement
    by_cases hFar : (before ++ r.tokens).length ≤ u
    · have hFits := ih (before ++ r.tokens) hStatement hFar
      rw [List.length_append] at hFits
      exact .inr hFits
    · refine .inl ⟨?_, ?_⟩
      · -- the gap holds no `use`
        obtain ⟨t, ht, hKind⟩ := hStatement.word
        by_contra hInGap
        have hGapAt : r.gap[u - before.length]? = some t := by
          rw [List.append_assoc, List.getElem?_append_right hBefore, Region.tokens,
            List.append_assoc, List.getElem?_append_left (by omega)] at ht
          exact ht
        exact hGap t (List.mem_of_getElem? hGapAt) hKind
      · have hLast := hStatement.stop_le (not_le.mp hFar) hEnd
        rw [List.length_append] at hLast
        omega

/-! ## Sub-groups -/

/-- The edits of a sub-group can be applied: they keep all gaps and words, and everything in front
of its imports. -/
theorem applyEdits_frame {settings : Settings} {ts : List Token} {uses : List Int}
    {records : List Record} {edits : List Edit} {regions : List Region} {last : List Token}
    (hFramed : Framed last regions) (hTokens : ts = regionTokens regions last)
    (hUses : ∀ u ∈ uses, UseAt ts u) (hDivided : uses.Pairwise (Divided ts))
    (hRecords : parseStatements settings ts uses = .ok records)
    (hEdits : planRecords settings ts records = .ok edits) :
    ∃ regions' count, applyEdits ts edits = ⟨regionTokens regions' last, .ok count⟩ ∧
      SameFrame regions regions' ∧
      ∀ m : Nat, (∀ u ∈ uses, (m : Int) ≤ u) → (regionTokens regions' last).take m = ts.take m := by
  obtain ⟨hSlots, hChain⟩ := parseStatements_slots hUses hDivided hRecords
  obtain ⟨hInside, hPairwise⟩ := EditOf.within (planRecords_edits hEdits) hSlots hChain
  have hSequenced := sequenced_mergeSort (fun e he => (hInside e he).2) hPairwise
  have hFits : ∀ e ∈ edits.mergeSort fun a b => decide (b.start ≤ a.start),
      FitsIn e 0 regions ∧ e.start ≤ e.stop := by
    intro e he
    obtain ⟨⟨u, stop, hu, hStatement, hStart, hStop⟩, hOrder⟩ :=
      hInside e (List.mem_mergeSort.mp he)
    rw [hTokens] at hStatement
    exact ⟨fits_of_statement [] hFramed hStatement (Nat.zero_le _) hStart hStop, hOrder⟩
  obtain ⟨regions', count, hApplied, hFrame, hTake⟩ := applyInOrder_fits last 0 hSequenced hFits
  rw [applyEdits, hTokens]
  refine ⟨regions', count, hApplied, hFrame, fun m hm => hTake m fun e he => ?_⟩
  obtain ⟨⟨u, stop, hu, -, hStart, -⟩, -⟩ := hInside e (List.mem_mergeSort.mp he)
  have := hm u hu
  omega

/-- Ordering a sub-group keeps all gaps and words, and everything in front of its imports. -/
theorem orderSubGroup_frame {settings : Settings} {p next : Progress} {group : SubGroup}
    {regions : List Region} {last : List Token} (hFramed : Framed last regions)
    (hTokens : p.tokens = regionTokens regions last)
    (hUses : ∀ u ∈ group.uses, UseAt p.tokens u)
    (hDivided : group.uses.Pairwise (Divided p.tokens))
    (h : orderSubGroup settings p group = .ok next) :
    ∃ regions', next.tokens = regionTokens regions' last ∧ SameFrame regions regions' ∧
      ∀ m : Nat, (∀ u ∈ group.uses, (m : Int) ≤ u) → next.tokens.take m = p.tokens.take m := by
  simp only [orderSubGroup, bind, Except.bind, pure, Except.pure] at h
  split at h
  · cases h
  · next records hRecords =>
    split at h
    · cases h
    · next edits hEdits =>
      obtain ⟨regions', count, hApplied, hFrame, hTake⟩ :=
        applyEdits_frame hFramed hTokens hUses hDivided hRecords hEdits
      rw [hApplied] at h
      obtain rfl := Except.ok.inj h
      exact ⟨regions', rfl, hFrame, hTake⟩

theorem UseAt.of_take {ts ts' : List Token} {u : Int} (h : UseAt ts u)
    (hTake : ts'.take (u + 1).toNat = ts.take (u + 1).toNat) : UseAt ts' u := by
  obtain ⟨n, rfl, t, ht, hKind⟩ := h
  refine ⟨n, rfl, t, ?_, hKind⟩
  rw [← List.getElem?_take_of_lt (show n < ((n : Int) + 1).toNat by omega), hTake,
    List.getElem?_take_of_lt (by omega), ht]

theorem Divided.of_take {ts ts' : List Token} {u v : Int} (h : Divided ts u v)
    (hTake : ts'.take (v + 1).toNat = ts.take (v + 1).toNat) : Divided ts' u v := by
  obtain ⟨k, t, hk, hTerm, hLow, hHigh⟩ := h
  refine ⟨k, t, ?_, hTerm, hLow, hHigh⟩
  rw [← List.getElem?_take_of_lt (show k < (v + 1).toNat by omega), hTake,
    List.getElem?_take_of_lt (by omega), hk]

/-- Sub-groups that are still to be ordered, the last one first. Their positions are those of `ts`;
up to the place `extent u` behind an import at `u`, nothing has changed yet. -/
structure Pending (ts : List Token) (extent : Int → Nat) (current : List Token)
    (groups : List SubGroup) : Prop where
  use : ∀ g ∈ groups, ∀ u ∈ g.uses, UseAt ts u ∧ (u + 1).toNat ≤ extent u
  kept : ∀ g ∈ groups, ∀ u ∈ g.uses, current.take (extent u) = ts.take (extent u)
  divided : ∀ g ∈ groups, g.uses.Pairwise (Divided ts)
  order : groups.Pairwise fun g g' => ∀ u ∈ g.uses, ∀ v ∈ g'.uses, (extent v : Int) ≤ u

theorem take_eq_of_le {ts ts' : List Token} {m n : Nat} (h : ts'.take n = ts.take n)
    (hmn : m ≤ n) : ts'.take m = ts.take m := by
  rw [← Nat.min_eq_left hmn, ← List.take_take, h, List.take_take]

/-- The imports of the next sub-group are where they were. -/
theorem Pending.head {ts current : List Token} {extent : Int → Nat} {g : SubGroup}
    {groups : List SubGroup} (h : Pending ts extent current (g :: groups)) :
    (∀ u ∈ g.uses, UseAt current u) ∧ g.uses.Pairwise (Divided current) := by
  have hTake : ∀ u ∈ g.uses, current.take (u + 1).toNat = ts.take (u + 1).toNat := fun u hu =>
    take_eq_of_le (h.kept g List.mem_cons_self u hu) (h.use g List.mem_cons_self u hu).2
  exact ⟨fun u hu => (h.use g List.mem_cons_self u hu).1.of_take (hTake u hu),
    (h.divided g List.mem_cons_self).imp_of_mem fun _ hv huv => huv.of_take (hTake _ hv)⟩

/-- Work that keeps everything in front of the next sub-group leaves the others pending. -/
theorem Pending.step {ts current next : List Token} {extent : Int → Nat} {g : SubGroup}
    {groups : List SubGroup} (h : Pending ts extent current (g :: groups))
    (hFront : ∀ m : Nat, (∀ u ∈ g.uses, (m : Int) ≤ u) → next.take m = current.take m) :
    Pending ts extent next groups := by
  obtain ⟨hAhead, hLater⟩ := List.pairwise_cons.mp h.order
  refine ⟨fun g' hg' => h.use g' (List.mem_cons_of_mem _ hg'), fun g' hg' v hv => ?_,
    fun g' hg' => h.divided g' (List.mem_cons_of_mem _ hg'), hLater⟩
  rw [hFront _ fun u hu => hAhead g' hg' u hu v hv, h.kept g' (List.mem_cons_of_mem _ hg') v hv]

/-- Ordering sub-groups, from the last to the first, keeps all gaps and words. -/
theorem orderSubGroups_frame {settings : Settings} {ts : List Token} {extent : Int → Nat}
    {groups : List SubGroup} {p next : Progress} {regions : List Region} {last : List Token}
    (hFramed : Framed last regions) (hTokens : p.tokens = regionTokens regions last)
    (hPending : Pending ts extent p.tokens groups)
    (h : orderSubGroups settings p groups = .ok next) :
    ∃ regions', next.tokens = regionTokens regions' last ∧ SameFrame regions regions' := by
  induction groups generalizing p regions with
  | nil =>
    obtain rfl := Except.ok.inj h
    exact ⟨regions, hTokens, SameFrame.refl _⟩
  | cons g groups ih =>
    simp only [orderSubGroups, bind, Except.bind] at h
    split at h
    · cases h
    · next q hq =>
      obtain ⟨hUses, hDivided⟩ := hPending.head
      obtain ⟨regions₁, hTokens₁, hFrame₁, hFront⟩ :=
        orderSubGroup_frame hFramed hTokens hUses hDivided hq
      obtain ⟨regions₂, hTokens₂, hFrame₂⟩ :=
        ih (hFramed.of_sameFrame hFrame₁) hTokens₁ (hPending.step hFront) h
      exact ⟨regions₂, hTokens₂, hFrame₁.trans hFrame₂⟩

/-! ## Where sub-groups lie -/

/-- The terminator of a statement stands in front of the statement that follows. -/
theorem divided_of_follows {source : Text} {u v : Int} (hUse : UseAt (classify (lex source)) u)
    (h : follows (classify (lex source)) u v = .ok true) : Divided (classify (lex source)) u v := by
  obtain ⟨n, rfl, word, hToken, hWord⟩ := hUse
  obtain ⟨before, rest, hSplit, rfl⟩ := exists_split hToken
  by_cases hStop : ∃ t ∈ rest, t.isTerminator = true
  · obtain ⟨body, stop, after, rfl, hStop, hBody⟩ := exists_first hStop
    obtain ⟨start, -, hBehind, hFollows⟩ := @exists_resumed before body after word stop hBody hStop
    -- the search starts at or behind the terminator, and what it finds lies further on
    have hStart := hBehind (not_openTag_of_statement hSplit hWord hBody)
    rw [hSplit] at h ⊢
    have hLess : start < v := by
      rw [hFollows] at h
      cases hFound : nextMeaningful (before ++ word :: (body ++ stop :: after)) start with
      | error fault => simp [hFound, Except.map] at h
      | ok found =>
        obtain rfl : found = some v := by simpa [hFound, Except.map] using h
        exact lt_of_nextWhere hFound
    refine ⟨(before ++ word :: body).length, stop, ?_, hStop, ?_, by omega⟩
    · rw [← List.cons_append, ← List.append_assoc, List.getElem?_append_right (le_refl _)]
      simp
    · simp only [List.length_append, List.length_cons]
      omega
  · have hNone := findIdx?_terminator_eq_none hStop
    rw [hSplit] at h
    simp only [follows, statementEnd, nextWhere_append, hNone, bind, Except.bind] at h
    cases h

theorem Divided.lt {ts : List Token} {u v : Int} (h : Divided ts u v) : u < v := by
  obtain ⟨k, t, -, -, hLow, hHigh⟩ := h
  omega

theorem Divided.trans {ts : List Token} {u v w : Int} (huv : Divided ts u v)
    (hvw : Divided ts v w) : Divided ts u w := by
  have hLess := hvw.lt
  obtain ⟨k, t, hk, hTerm, hLow, hHigh⟩ := huv
  exact ⟨k, t, hk, hTerm, hLow, by omega⟩

/-- A run is cut into parts, each of statements with terminators between them. -/
theorem splitRun_parts {source : Text} {run : List Int} {parts : List (List Int)}
    (hUses : ∀ u ∈ run, UseAt (classify (lex source)) u)
    (h : splitRun (classify (lex source)) run = .ok parts) :
    parts.flatten = run ∧ ∀ part ∈ parts,
      part ≠ [] ∧ part.Pairwise (Divided (classify (lex source))) := by
  induction run generalizing parts with
  | nil =>
    obtain rfl := Except.ok.inj h
    exact ⟨rfl, by simp⟩
  | cons u run ih =>
    cases run with
    | nil =>
      obtain rfl := Except.ok.inj h
      exact ⟨rfl, by simp⟩
    | cons v rest =>
      obtain ⟨joined, group, others, hJoined, hGroups, rfl⟩ := splitRun_cons_cons h
      obtain ⟨hFlatten, hParts⟩ := ih (fun w hw => hUses w (List.mem_cons_of_mem _ hw)) hGroups
      cases joined with
      | true =>
        -- the part begins with the next statement, so what divides that from `u` is enough
        obtain ⟨hNe, hGroup⟩ := hParts group List.mem_cons_self
        obtain ⟨w, more, rfl⟩ := List.exists_cons_of_ne_nil hNe
        obtain ⟨rfl, -⟩ := List.cons.inj hFlatten
        have hNext := divided_of_follows (hUses u List.mem_cons_self) hJoined
        rw [if_pos rfl]
        refine ⟨by simp [← hFlatten], fun part hPart => ?_⟩
        rcases List.mem_cons.mp hPart with rfl | hPart
        · refine ⟨by simp, List.pairwise_cons.mpr ⟨fun x hx => ?_, hGroup⟩⟩
          rcases List.mem_cons.mp hx with rfl | hx
          · exact hNext
          · exact hNext.trans ((List.pairwise_cons.mp hGroup).1 x hx)
        · exact hParts part (List.mem_cons_of_mem _ hPart)
      | false =>
        rw [if_neg (by simp)]
        refine ⟨by rw [List.flatten_cons, hFlatten]; rfl, fun part hPart => ?_⟩
        rcases List.mem_cons.mp hPart with rfl | hPart
        · simp
        · exact hParts part hPart

theorem subGroupsFrom_uses {source : Text} {n : Nat} {runs : List (List Int)}
    {groups : List SubGroup} (hUses : ∀ u ∈ runs.flatten, UseAt (classify (lex source)) u)
    (h : subGroupsFrom (classify (lex source)) n runs = .ok groups) :
    groups.flatMap SubGroup.uses = runs.flatten ∧
      ∀ g ∈ groups, g.uses ≠ [] ∧ g.uses.Pairwise (Divided (classify (lex source))) := by
  induction runs generalizing n groups with
  | nil =>
    obtain rfl := Except.ok.inj h
    exact ⟨rfl, by simp⟩
  | cons run runs ih =>
    obtain ⟨parts, later, hSplit, hLater, rfl⟩ := subGroupsFrom_cons_iff.mp h
    obtain ⟨hFlatten, hParts⟩ := splitRun_parts (fun u hu => hUses u (by simp [hu])) hSplit
    obtain ⟨hRest, hGroups⟩ := ih
      (fun u hu => hUses u (List.mem_append.mpr (.inr hu))) hLater
    refine ⟨?_, fun g hg => ?_⟩
    · rw [List.flatMap_append, hRest, List.flatten_cons, ← hFlatten]
      simp [List.flatMap_def, Function.comp_def]
    · rcases List.mem_append.mp hg with hg | hg
      · obtain ⟨part, hPart, rfl⟩ := List.mem_map.mp hg
        exact hParts part hPart
      · exact hGroups g hg

theorem usesOf_pairwise (offset : Nat) (stretches : List Stretch) :
    (usesOf offset stretches).Pairwise (· < ·) ∧ ∀ u ∈ usesOf offset stretches, (offset : Int) ≤ u := by
  induction stretches generalizing offset with
  | nil => simp [usesOf]
  | cons s stretches ih =>
    obtain ⟨hPairwise, hLow⟩ := ih (offset + s.tokens.length)
    have hSize : 0 < s.tokens.length := by simp [Stretch.tokens]
    refine ⟨List.pairwise_cons.mpr ⟨fun u hu => ?_, hPairwise⟩, fun u hu => ?_⟩
    · have := hLow u hu
      omega
    · rcases List.mem_cons.mp hu with rfl | hu
      · exact le_refl _
      · have := hLow u hu
        omega

/-- The positions of imports, run by run, are increasing, and there is a `use` at each. -/
theorem importRuns_uses (ts : List Token) :
    (importRuns ts).flatten.Pairwise (· < ·) ∧ ∀ u ∈ (importRuns ts).flatten, UseAt ts u := by
  obtain ⟨front, stretches, rfl, hFront, hStretches⟩ := exists_stretches ts
  have hUses := flatten_importRuns hFront hStretches
  rw [hUses]
  refine ⟨(usesOf_pairwise _ _).1, fun u hu => ?_⟩
  obtain ⟨before, s, after, rfl, rfl⟩ := mem_usesOf hu
  refine ⟨_, rfl, s.word, ?_, (hStretches s (by simp)).word⟩
  have hTokens : front ++ (before ++ s :: after).flatMap Stretch.tokens =
      (front ++ before.flatMap Stretch.tokens) ++
        s.word :: (s.rest ++ after.flatMap Stretch.tokens) := by
    simp [Stretch.tokens]
  rw [hTokens, ← List.length_append, List.getElem?_append_right (le_refl _)]
  simp

/-- At first all sub-groups are pending, if no import reaches up to the next one. -/
theorem pending_subGroups {source : Text} {groups : List SubGroup} {extent : Int → Nat}
    (hGroups : subGroups (classify (lex source)) = .ok groups)
    (hExtent : ∀ u, UseAt (classify (lex source)) u → (u + 1).toNat ≤ extent u ∧
      ∀ v, UseAt (classify (lex source)) v → u < v → (extent u : Int) ≤ v) :
    Pending (classify (lex source)) extent (classify (lex source)) groups.reverse := by
  obtain ⟨hIncreasing, hUses⟩ := importRuns_uses (classify (lex source))
  obtain ⟨hFlat, hDivided⟩ := subGroupsFrom_uses hUses hGroups
  have hUse : ∀ g ∈ groups, ∀ u ∈ g.uses, UseAt (classify (lex source)) u := by
    intro g hg u hu
    refine hUses u ?_
    rw [← hFlat]
    exact List.mem_flatMap.mpr ⟨g, hg, hu⟩
  rw [← hFlat, List.pairwise_flatMap] at hIncreasing
  refine ⟨fun g hg u hu => ?_, fun _ _ _ _ => rfl,
    fun g hg => (hDivided g (List.mem_reverse.mp hg)).2, List.pairwise_reverse.mpr ?_⟩
  · have hu := hUse g (List.mem_reverse.mp hg) u hu
    exact ⟨hu, (hExtent u hu).1⟩
  · refine hIncreasing.2.imp_of_mem fun {g g'} hg hg' hLess u hu v hv => ?_
    exact (hExtent v (hUse g hg v hv)).2 u (hUse g' hg' u hu) (hLess v hv u hu)

/-- Ordering all sub-groups keeps all gaps and words. -/
theorem orderSubGroups_outermost {settings : Settings} {source : Text} {groups : List SubGroup}
    {next : Progress} (hGroups : subGroups (classify (lex source)) = .ok groups)
    (h : orderSubGroups settings ⟨classify (lex source), 0, 0⟩ groups.reverse = .ok next) :
    ∃ regions, next.tokens = regionTokens regions (outermost (classify (lex source))).2 ∧
      SameFrame (outermost (classify (lex source))).1 regions := by
  have hPending := @pending_subGroups source groups (fun u => (u + 1).toNat) hGroups
    fun u hu => ⟨le_refl _, fun v hv huv => by
      obtain ⟨n, rfl, -⟩ := hu
      omega⟩
  exact orderSubGroups_frame (framed_outermost _) (regionTokens_outermost _).symm hPending h

/-! ## Blank lines -/

/-- Some ends of what stands before a `use` have been opened up; what follows the last one is as it
was. -/
inductive Loosened (lineEnding : Text) : List Token → List Token → Prop
  | last {rest : List Token} (h : ∀ t ∈ rest, t.kind ≠ .useWord) : Loosened lineEnding rest rest
  | use {piece piece' rest rest' : List Token} {word : Token}
      (plain : ∀ t ∈ piece, t.kind ≠ .useWord) (word_use : word.kind = .useWord)
      (opened : piece' = piece ∨ piece' = openUp lineEnding piece)
      (later : Loosened lineEnding rest rest') :
      Loosened lineEnding (piece ++ word :: rest) (piece' ++ word :: rest')

theorem loosened_openGaps (lineEnding : Text) {s : Stretch} {a : Text}
    {pairs : List (Stretch × Text)}
    (h : ∀ r ∈ ((s, a) :: pairs).map Prod.fst, StretchOk r) :
    ∃ rest', (openGaps lineEnding ((s, a) :: pairs)).flatMap Stretch.tokens = s.word :: rest' ∧
      Loosened lineEnding (s.rest ++ (pairs.map Prod.fst).flatMap Stretch.tokens) rest' := by
  induction pairs generalizing s a with
  | nil =>
    refine ⟨s.rest, by simp [openGaps, Stretch.tokens], ?_⟩
    have hLast := @Loosened.last lineEnding _ (h s (by simp)).rest
    simpa using hLast
  | cons pair pairs ih =>
    obtain ⟨t, b⟩ := pair
    obtain ⟨rest', hGaps, hLoosened⟩ := ih fun r hr => h r (List.mem_cons_of_mem _ hr)
    have hTokens : s.rest ++ (((t, b) :: pairs).map Prod.fst).flatMap Stretch.tokens =
        s.rest ++ t.word :: (t.rest ++ (pairs.map Prod.fst).flatMap Stretch.tokens) := by
      simp [Stretch.tokens]
    have hPlain := (h s (by simp)).rest
    have hUse := (h t (by simp)).word
    rw [openGaps, List.flatMap_cons, hGaps, hTokens]
    split
    · exact ⟨_, rfl, .use hPlain hUse (.inl rfl) hLoosened⟩
    · exact ⟨_, rfl, .use hPlain hUse (.inr rfl) hLoosened⟩

theorem insertBlankLines_loosened {layout : Layout} {ts ts' : List Token} {added : Nat}
    (h : insertBlankLines layout ts = .ok (added, ts')) :
    ((∀ t ∈ ts, t.kind ≠ .useWord) ∧ ts' = ts) ∨
      ∃ front word rest rest', ts = front ++ word :: rest ∧ (∀ t ∈ front, t.kind ≠ .useWord) ∧
        word.kind = .useWord ∧ ts' = front ++ word :: rest' ∧
        Loosened layout.lineEnding.text rest rest' := by
  obtain ⟨front, stretches, rfl, hFront, hStretches⟩ := exists_stretches ts
  have hUses := flatten_importRuns hFront hStretches
  -- nothing is written unless the segments of all imports are found
  obtain ⟨segments, hSegments⟩ : ∃ segments, (usesOf front.length stretches).mapM
      (leadingSegment (front ++ stretches.flatMap Stretch.tokens)) = .ok segments := by
    simp only [insertBlankLines, hUses, bind, Except.bind] at h
    split at h
    · cases h
    · exact ⟨_, ‹_›⟩
  have hInserted := insertBlankLines_stretches layout hFront hStretches hSegments
  have hLength : segments.length = stretches.length := by
    rw [length_of_mapM hSegments, length_usesOf]
  rw [hInserted] at h
  obtain ⟨-, rfl⟩ := Prod.mk.inj (Except.ok.inj h)
  cases stretches with
  | nil => exact .inl ⟨by simpa using hFront, by simp [openGaps]⟩
  | cons s stretches =>
    obtain ⟨a, segments, rfl⟩ := List.exists_cons_of_length_eq_add_one hLength
    have hFst : (stretches.zip segments).map Prod.fst = stretches :=
      List.map_fst_zip (by simpa using hLength.ge)
    obtain ⟨rest', hGaps, hLoosened⟩ := @loosened_openGaps layout.lineEnding.text s a
      (stretches.zip segments) (by simpa [hFst] using hStretches)
    rw [hFst] at hLoosened
    refine .inr ⟨front, s.word, _, rest', by simp [Stretch.tokens], hFront,
      (hStretches s List.mem_cons_self).word, ?_, hLoosened⟩
    rw [List.zip_cons_cons, hGaps]

/-! ## Gaps -/

/-- White space at the end of a gap may be replaced, or put there, to make two line breaks: line
endings are written, and what was there is kept behind them or goes. -/
def GapKept (lineEnding : Text) (gap gap' : List Token) : Prop :=
  gap' = gap ∨ ∃ space : Token, gap' = trimEnd gap ++ [space] ∧
    Opening lineEnding (textOf (trailingSpace gap)) space ∧ lineBreaks gap' = 2

theorem gapKept_openUp (e : LineEnding) (gap : List Token) :
    GapKept e.text gap (openUp e.text gap) := by
  rcases openUp_cases e.text gap with ⟨-, hSame⟩ | ⟨hLess, space, hOpened, hSpace⟩
  · exact .inl hSame
  · refine .inr ⟨space, hOpened, hSpace, ?_⟩
    rw [lineBreaks_openUp e.count_text]
    omega

theorem GapKept.blankSpaced {e : LineEnding} {gap gap' : List Token} (h : GapKept e.text gap gap')
    (hBlank : BlankSpaced gap) : BlankSpaced gap' := by
  rcases h with rfl | ⟨space, rfl, hSpace, -⟩
  · exact hBlank
  · exact hBlank.opening hSpace

theorem first_use_unique {a b c d : List Token} {x y : Token} (ha : ∀ t ∈ a, t.kind ≠ .useWord)
    (hb : ∀ t ∈ b, t.kind ≠ .useWord) (hx : x.kind = .useWord) (hy : y.kind = .useWord)
    (h : a ++ x :: c = b ++ y :: d) : a = b ∧ x = y ∧ c = d := by
  induction a generalizing b with
  | nil =>
    cases b with
    | nil => simpa using h
    | cons t b =>
      obtain ⟨rfl, -⟩ := List.cons.inj h
      exact absurd hx (hb _ List.mem_cons_self)
  | cons s a ih =>
    cases b with
    | nil =>
      obtain ⟨rfl, -⟩ := List.cons.inj h
      exact absurd hy (ha _ List.mem_cons_self)
    | cons t b =>
      obtain ⟨rfl, hRest⟩ := List.cons.inj h
      obtain ⟨rfl, hxy, hcd⟩ := ih (fun u hu => ha u (List.mem_cons_of_mem _ hu))
        (fun u hu => hb u (List.mem_cons_of_mem _ hu)) hRest
      exact ⟨rfl, hxy, hcd⟩

/-- Blank lines keep a gap that begins with a terminator, up to white space at its end. -/
theorem Loosened.cut {e : LineEnding} {ts ts' body gap rest : List Token} {word : Token}
    (h : Loosened e.text ts ts') (hts : ts = body ++ gap ++ word :: rest)
    (hGap : ∀ t ∈ gap, t.kind ≠ .useWord) (hWord : word.kind = .useWord)
    (hTrim : trimEnd gap ≠ []) :
    ∃ body' gap' rest', ts' = body' ++ gap' ++ word :: rest' ∧ GapKept e.text gap gap' ∧
      Loosened e.text rest rest' := by
  induction h generalizing body with
  | last hPlain => exact absurd hWord (hPlain word (by simp [hts]))
  | @use piece piece' more more' next hPiece hNext hOpened hLater ih =>
    -- the next `use` is one of the body, or `word`
    by_cases hBody : ∃ t ∈ body, (t.kind == .useWord) = true
    · obtain ⟨front, t, back, rfl, ht, hFront⟩ := exists_first hBody
      have hShape : piece ++ next :: more = front ++ t :: (back ++ gap ++ word :: rest) := by
        simp [hts]
      obtain ⟨rfl, rfl, hMore⟩ := first_use_unique hPiece
        (fun u hu => by simpa using hFront u hu) hNext (by simpa using ht) hShape
      obtain ⟨body', gap', rest', rfl, hKept, hRest⟩ := ih hMore
      exact ⟨piece' ++ next :: body', gap', rest', by simp, hKept, hRest⟩
    · have hPlain : ∀ t ∈ body ++ gap, t.kind ≠ .useWord := by
        intro t ht
        rcases List.mem_append.mp ht with ht | ht
        · exact fun hKind => hBody ⟨t, ht, by simp [hKind]⟩
        · exact hGap t ht
      obtain ⟨rfl, rfl, rfl⟩ := first_use_unique hPiece hPlain hNext hWord hts
      rcases hOpened with rfl | rfl
      · exact ⟨body, gap, _, rfl, .inl rfl, hLater⟩
      · exact ⟨body, openUp e.text gap, _, by rw [openUp_append_of_ne_nil e.text body hTrim],
          gapKept_openUp e gap, hLater⟩

/-- Blank lines keep what follows the last import. -/
theorem Loosened.tail {lineEnding : Text} {ts ts' body last : List Token}
    (h : Loosened lineEnding ts ts') (hts : ts = body ++ last)
    (hLast : ∀ t ∈ last, t.kind ≠ .useWord) : ∃ body', ts' = body' ++ last := by
  induction h generalizing body with
  | last hPlain => exact ⟨body, hts⟩
  | @use piece piece' more more' next hPiece hNext hOpened hLater ih =>
    by_cases hBody : ∃ t ∈ body, (t.kind == .useWord) = true
    · obtain ⟨front, t, back, rfl, ht, hFront⟩ := exists_first hBody
      have hShape : piece ++ next :: more = front ++ t :: (back ++ last) := by simp [hts]
      obtain ⟨rfl, rfl, hMore⟩ := first_use_unique hPiece
        (fun u hu => by simpa using hFront u hu) hNext (by simpa using ht) hShape
      obtain ⟨body', rfl⟩ := ih hMore
      exact ⟨piece' ++ next :: body', by simp⟩
    · have hMem : next ∈ body ++ last := by simp [← hts]
      rcases List.mem_append.mp hMem with hMem | hMem
      · exact absurd ⟨next, hMem, by simp [hNext]⟩ hBody
      · exact absurd hNext (hLast next hMem)

/-- A region after the work: the same `use`, and the same gap up to white space at its end. -/
def RegionKept (lineEnding : Text) (r r' : Region) : Prop :=
  GapKept lineEnding r.gap r'.gap ∧ r'.word = r.word

/-- A gap that begins with the terminator of the region before is more than white space. -/
theorem Region.trimEnd_gap_ne_nil {r : Region} {rs : List Region} {last : List Token}
    (hWord : r.word.kind = .useWord)
    (hStop : ∀ t ∈ (regionTokens (r :: rs) last).head?, t.isTerminator = true) :
    trimEnd r.gap ≠ [] := by
  cases hFirst : r.gap with
  | nil =>
    have hNot := hStop r.word (by simp [regionTokens, Region.tokens, hFirst])
    simp [Token.isTerminator, Token.isPunct, hWord] at hNot
  | cons t rest =>
    have ht := hStop t (by simp [regionTokens, Region.tokens, hFirst])
    simp [trimEnd_cons (not_space_of_terminator ht)]

/-- The first `use` of all is that of the first region. -/
theorem Framed.exists_first_region {last front rest : List Token} {regions : List Region} {word : Token}
    (h : Framed last regions) (hTokens : regionTokens regions last = front ++ word :: rest)
    (hFront : ∀ t ∈ front, t.kind ≠ .useWord) (hWord : word.kind = .useWord) :
    ∃ body rs, regions = ⟨front, word, body⟩ :: rs ∧ rest = body ++ regionTokens rs last ∧
      Framed last rs ∧ ∀ t ∈ (regionTokens rs last).head?, t.isTerminator = true := by
  cases h with
  | nil hLast =>
    rw [regionTokens, List.flatMap_nil, List.nil_append] at hTokens
    exact absurd hWord (hLast word (by simp [hTokens]))
  | @cons r rs hGap hUse hEnd hLater =>
    have hShape : front ++ word :: rest = r.gap ++ r.word :: (r.body ++ regionTokens rs last) := by
      rw [← hTokens]
      simp [regionTokens, Region.tokens]
    obtain ⟨rfl, rfl, rfl⟩ := first_use_unique hFront hGap hWord hUse hShape
    exact ⟨r.body, rs, rfl, rfl, hLater, hEnd⟩

theorem Loosened.regions {e : LineEnding} {last body out : List Token} {regions : List Region}
    (hFramed : Framed last regions) (h : Loosened e.text (body ++ regionTokens regions last) out)
    (hStop : ∀ t ∈ (regionTokens regions last).head?, t.isTerminator = true) :
    ∃ body' regions', out = body' ++ regionTokens regions' last ∧
      List.Forall₂ (RegionKept e.text) regions regions' := by
  induction hFramed generalizing body out with
  | nil hLast =>
    obtain ⟨body', rfl⟩ := h.tail rfl hLast
    exact ⟨body', [], rfl, .nil⟩
  | @cons r rs hGap hWord hEnd hLater ih =>
    have hTrim := Region.trimEnd_gap_ne_nil hWord hStop
    have hShape : body ++ regionTokens (r :: rs) last =
        body ++ r.gap ++ r.word :: (r.body ++ regionTokens rs last) := by
      simp [regionTokens, Region.tokens]
    obtain ⟨body', gap', rest', rfl, hKept, hRest⟩ := h.cut hShape hGap hWord hTrim
    obtain ⟨inner, regions', rfl, hRegions⟩ := ih hRest hEnd
    exact ⟨body', ⟨gap', r.word, inner⟩ :: regions', by simp [regionTokens, Region.tokens],
      .cons ⟨hKept, rfl⟩ hRegions⟩

theorem insertBlankLines_regions {layout : Layout} {last out : List Token}
    {regions : List Region} {added : Nat} (hFramed : Framed last regions)
    (h : insertBlankLines layout (regionTokens regions last) = .ok (added, out)) :
    ∃ regions', out = regionTokens regions' last ∧
      List.Forall₂ (RegionKept layout.lineEnding.text) regions regions' := by
  rcases insertBlankLines_loosened h with ⟨-, rfl⟩ | ⟨front, word, rest, rest', hts, hFront, hWord,
    rfl, hLoosened⟩
  · exact ⟨regions, rfl, List.forall₂_same.mpr fun r _ => ⟨.inl rfl, rfl⟩⟩
  · -- the gap in front of the first `use` stays, and each later one is behind a terminator
    obtain ⟨body, rs, rfl, rfl, hLater, hEnd⟩ := hFramed.exists_first_region hts hFront hWord
    obtain ⟨body', regions', rfl, hRegions⟩ := hLoosened.regions hLater hEnd
    exact ⟨⟨front, word, body'⟩ :: regions', by simp [regionTokens, Region.tokens],
      .cons ⟨.inl rfl, rfl⟩ hRegions⟩

/-! ## The whole work -/

theorem SameFrame.kept {lineEnding : Text} {as bs cs : List Region} (hab : SameFrame as bs)
    (hbc : List.Forall₂ (RegionKept lineEnding) bs cs) :
    List.Forall₂ (RegionKept lineEnding) as cs := by
  induction hab generalizing cs with
  | nil => exact hbc
  | cons h hs ih =>
    cases hbc with
    | cons g gs => exact .cons ⟨h.1 ▸ g.1, g.2.trans h.2⟩ (ih gs)

theorem fixTokens_regions {settings : Settings} {source : Text} {counts : Counts}
    {fixed : List Token} (h : fixTokens settings (classify (lex source)) = .ok (counts, fixed)) :
    ∃ regions, fixed = regionTokens regions (outermost (classify (lex source))).2 ∧
      List.Forall₂ (RegionKept settings.layout.lineEnding.text)
        (outermost (classify (lex source))).1 regions := by
  obtain ⟨groups, ordered, hGroups, hOrdered, hSpaced, -⟩ := exists_steps_of_fixTokens h
  obtain ⟨regions, hTokens, hFrame⟩ := orderSubGroups_outermost hGroups hOrdered
  rw [hTokens] at hSpaced
  obtain ⟨regions', hOut, hKept⟩ :=
    insertBlankLines_regions ((framed_outermost _).of_sameFrame hFrame) hSpaced
  exact ⟨regions', hOut, hFrame.kept hKept⟩

/-- All white space of a source text is made of blanks. -/
theorem blankSpaced_source (source : Text) : BlankSpaced (classify (lex source)) := by
  intro t ht hWhite
  have hKind : t.kind = .whitespace := by simpa [Token.isWhitespace] using hWhite
  rw [Token.isBlankSpace, hWhite, Bool.true_and]
  exact List.all_eq_true.mpr (isBlank_of_mem_source ht hKind)

theorem mem_of_mem_gap {ts : List Token} {r : Region} {t : Token} (hr : r ∈ (outermost ts).1)
    (ht : t ∈ r.gap) : t ∈ ts := by
  rw [← regionTokens_outermost ts]
  exact List.mem_append_left _ (List.mem_flatMap.mpr ⟨r, hr, List.mem_append_left _ ht⟩)

theorem blankSpaced_gaps {e : LineEnding} {regions regions' : List Region}
    (h : List.Forall₂ (RegionKept e.text) regions regions')
    (hBlank : ∀ r ∈ regions, BlankSpaced r.gap) : ∀ r ∈ regions', BlankSpaced r.gap := by
  induction h with
  | nil => simp
  | cons hKept _ ih =>
    obtain ⟨hFirst, hLater⟩ := List.forall_mem_cons.mp hBlank
    exact List.forall_mem_cons.mpr ⟨hKept.1.blankSpaced hFirst, ih hLater⟩

/-- Code outside imports is reproduced. The text is cut into the outermost imports and the gaps
between them. In the tokens that are written there are as many imports, each begins with the same
`use`, what follows the last one is the same, and so is every gap up to white space directly in
front of a `use`, which may have become two line breaks and is made of blanks as before. -/
theorem fixSource_keeps_gaps (settings : Settings) (tokenizer : TokenizerSettings)
    (hEngine : tokenizer.engine = .builtIn) (outcome : ProcessOutcome) (path : Option String)
    (source : Text) (r : FixResult)
    (h : fixSource settings tokenizer outcome path source = .ok r) (hOk : r.ok = true) :
    let regions := (outermost (classify (lex source))).1
    let last := (outermost (classify (lex source))).2
    source = textOf (regionTokens regions last) ∧
      ∃ counts regions',
        fixTokens settings (classify (lex source)) = .ok (counts, regionTokens regions' last) ∧
        r.code = textOf (regionTokens regions' last) ∧
        List.Forall₂ (RegionKept settings.layout.lineEnding.text) regions regions' ∧
        ∀ r' ∈ regions', BlankSpaced r'.gap := by
  refine ⟨by rw [regionTokens_outermost, textOf_tokens], ?_⟩
  obtain ⟨counts, fixed, hFixed, hCode, -⟩ := fixSource_outcome hEngine h hOk
  obtain ⟨regions', rfl, hKept⟩ := fixTokens_regions hFixed
  refine ⟨counts, regions', hFixed, hCode, hKept, blankSpaced_gaps hKept fun s hs t ht => ?_⟩
  exact blankSpaced_source source t (mem_of_mem_gap hs ht)

/-- A blank line is put between two imports that share a line. -/
theorem fixSource_keeps_gaps_of_two :
    let source := "<?php\nuse B\\C; use A\\D;\nf();".toList
    let regions := (outermost (classify (lex source))).1
    let last := (outermost (classify (lex source))).2
    ∃ r, fixSource {} ⟨.builtIn, "php", .whole 30⟩ .notFound none source = .ok r ∧ r.ok = true ∧
      source = textOf (regionTokens regions last) ∧ ∃ counts regions',
        fixTokens {} (classify (lex source)) = .ok (counts, regionTokens regions' last) ∧
        r.code = textOf (regionTokens regions' last) ∧
        List.Forall₂ (RegionKept LineEnding.lf.text) regions regions' ∧
        ∀ r' ∈ regions', BlankSpaced r'.gap := by
  intro source regions last
  obtain ⟨r, h, hOk⟩ := @fixSource_wellFormed {} ⟨.builtIn, "php", .whole 30⟩ rfl .notFound none
    source (by decide +kernel)
  exact ⟨r, h, hOk, fixSource_keeps_gaps {} _ rfl _ _ source r h hOk⟩

end UseOrder
