import UseOrder.Proofs.Nesting

/-!
# Where imports stand

A stack of the open braces, run over the tokens outside imports, records which of them belong to a
namespace: the first one behind the word `namespace`, if no semicolon comes between. The pass over
the tokens has two numbers instead of the stack. They fit it (`Braces.Fits`), so an import only ever
stands outside all braces or in a brace that a namespace declaration has to do with
(`Braces.Fits.imports`). Where namespaces are declared outside all braces only, that is the body of
a namespace (`Braces.Flat`).
-/

namespace UseOrder

/-- An open brace. -/
inductive Brace
  /-- The brace of a namespace declaration. -/
  | namespaceBody
  /-- Another one, with a namespace declaration that ended in a semicolon directly inside. -/
  | declaring
  | other
deriving DecidableEq, Repr

/-- The brace after a semicolon that ends a namespace declaration. -/
def Brace.declare : Brace → Brace
  | .namespaceBody => .namespaceBody
  | _ => .declaring

/-- The open braces, innermost first, and whether a namespace declaration has started. -/
structure Braces where
  stack : List Brace := []
  pending : Bool := false
deriving DecidableEq, Repr

namespace Braces

/-- What a token outside imports does to the open braces. -/
def next (b : Braces) (t : Token) : Braces :=
  if t.kind == .namespaceWord then { b with pending := true }
  else if Context.isOpeningBrace t then
    { stack := (if b.pending then .namespaceBody else .other) :: b.stack, pending := false }
  else if t.isPunct "\x7d".toList then { b with stack := b.stack.tail }
  else if t.isPunct [';'] && b.pending then
    { stack := b.stack.modifyHead Brace.declare, pending := false }
  else b

/-- The open braces behind some tokens. -/
def run (b : Braces) (ts : List Token) : Braces :=
  ts.foldl next b

theorem run_append (b : Braces) (ts us : List Token) : b.run (ts ++ us) = (b.run ts).run us :=
  List.foldl_append

/-! ## The depths of the pass -/

/-- The depths of a context are those of the open braces: imports may stand outside all of them or
in a brace that a namespace declaration has to do with. -/
structure Fits (b : Braces) (c : Context) : Prop where
  depth : c.depth = b.stack.length
  pending : c.pendingNamespace = b.pending
  importDepth : ∃ above below, b.stack = above ++ below ∧ below.length = c.importDepth ∧
    below.head? ≠ some .other

theorem Fits.congr {b : Braces} {c c' : Context} (h : b.Fits c) (hAgrees : c'.Agrees c) :
    b.Fits c' :=
  ⟨hAgrees.depth.trans h.depth, hAgrees.pendingNamespace.trans h.pending,
    hAgrees.importDepth ▸ h.importDepth⟩

theorem Fits.push {b : Braces} {c : Context} (h : b.Fits c) :
    Fits ⟨(if b.pending then .namespaceBody else .other) :: b.stack, false⟩
      { c with
        depth := c.depth + 1
        importDepth := if c.pendingNamespace then c.depth + 1 else c.importDepth
        pendingNamespace := false } := by
  refine ⟨by simp [h.depth], rfl, ?_⟩
  rw [h.pending]
  cases hPending : b.pending with
  | true => exact ⟨[], .namespaceBody :: b.stack, rfl, by simp [h.depth], by simp⟩
  | false =>
    obtain ⟨above, below, hStack, hLength, hHead⟩ := h.importDepth
    exact ⟨.other :: above, below, by simp [hStack], by simpa using hLength, hHead⟩

theorem Fits.pop {b : Braces} {c : Context} (h : b.Fits c) :
    Fits { b with stack := b.stack.tail }
      { c with
        depth := c.depth - 1
        importDepth := if c.depth == c.importDepth then 0 else c.importDepth } := by
  refine ⟨by simp [h.depth], h.pending, ?_⟩
  obtain ⟨above, below, hStack, hLength, hHead⟩ := h.importDepth
  cases above with
  | nil =>
    -- the innermost brace is the one where imports may stand
    have hSame : (c.depth == c.importDepth) = true := by simp [h.depth, hStack, hLength]
    rw [if_pos hSame]
    exact ⟨b.stack.tail, [], by simp, rfl, by simp⟩
  | cons brace above =>
    have hDeeper : ¬ (c.depth == c.importDepth) = true := by
      simp only [h.depth, hStack, ← hLength, List.length_append, List.length_cons, beq_iff_eq]
      omega
    rw [if_neg hDeeper]
    exact ⟨above, below, by simp [hStack], hLength, hHead⟩

theorem Fits.declare {b : Braces} {c : Context} (h : b.Fits c) :
    Fits ⟨b.stack.modifyHead Brace.declare, false⟩
      { c with importDepth := c.depth, pendingNamespace := false } := by
  refine ⟨by simp [h.depth], rfl, [], b.stack.modifyHead Brace.declare, rfl, by simp [h.depth], ?_⟩
  cases b.stack with
  | nil => simp
  | cons brace stack => cases brace <;> simp [Brace.declare]

/-- One token outside imports. -/
theorem Fits.step {b : Braces} {c : Context} (h : b.Fits c) {t : Token} {rest : List Token}
    (hc : c.place = .code ∨ t.raw.isTerminator = true) (hKind : (c.step t.raw rest).1 = t.kind) :
    (b.next t).Fits (c.step t.raw rest).2 := by
  refine Fits.congr ?_ (step_agrees_track hc hKind)
  simp only [next, Context.track, isOpeningBrace_of_step hc hKind, isPunct_of_step hc hKind]
  split
  · exact ⟨h.depth, rfl, h.importDepth⟩
  · split
    · exact h.push
    · split
      · exact h.pop
      · rw [h.pending]
        split
        · exact h.declare
        · exact h

/-- All tokens of a gap. -/
theorem Fits.gap {b : Braces} {c c' : Context} (h : b.Fits c) {gap rest : List Token}
    (hLabels : Labels c gap rest c')
    (hc : c.place = .code ∨ ∃ t more, gap = t :: more ∧ t.isTerminator = true)
    (hUse : ∀ t ∈ gap, t.kind ≠ .useWord) : (b.run gap).Fits c' :=
  hLabels.gap_foldl (fun hFits hCode hKind => hFits.step hCode hKind) h hc hUse

/-- At an import the innermost brace has to do with a namespace declaration. -/
theorem Fits.imports {b : Braces} {c : Context} (h : b.Fits c) (hc : c.Imports) :
    b.stack.head? ≠ some .other := by
  obtain ⟨above, below, hStack, hLength, hHead⟩ := h.importDepth
  have hAbove : above = [] := by
    have hDepth := hc.depth
    rw [h.depth, hStack, List.length_append, hLength] at hDepth
    exact List.length_eq_zero_iff.mp (by omega)
  rw [hStack, hAbove]
  exact hHead

end Braces

/-- The braces that are open at the imports of a text. -/
theorem Passes.imports {last : List Token} {c : Context} {regions : List Region}
    (h : Passes last c regions) (hFramed : Framed last regions) {b : Braces} (hFits : b.Fits c) :
    ∀ before r after, regions = before ++ r :: after →
      (b.run (before.flatMap Region.gap ++ r.gap)).stack.head? ≠ some .other := by
  induction h generalizing b with
  | nil c => simp
  | @cons c atUse inside behind r rs enters gap imports inside_place body agrees later ih =>
    cases hFramed with
    | cons hGap hUse hStop hLater =>
      have hAtUse := hFits.gap gap enters hGap
      intro before s after hSplit
      cases before with
      | nil =>
        obtain ⟨rfl, -⟩ := List.cons.inj hSplit
        exact hAtUse.imports imports
      | cons first before =>
        obtain ⟨rfl, hRest⟩ := List.cons.inj hSplit
        rw [List.flatMap_cons, List.append_assoc, Braces.run_append]
        exact ih hLater (hAtUse.congr agrees) before s after hRest

/-! ## Namespaces outside braces -/

/-- No brace but the outermost belongs to a namespace, and a declaration that has started stands
outside all braces. -/
structure Braces.Flat (b : Braces) : Prop where
  pending : b.pending = true → b.stack = []
  stack : ∃ others bottom, b.stack = others ++ bottom ∧ (∀ brace ∈ others, brace = .other) ∧
    (bottom = [] ∨ bottom = [.namespaceBody])

theorem Braces.Flat.next {b : Braces} (h : b.Flat) {t : Token}
    (ht : t.kind = .namespaceWord → b.stack = []) : (b.next t).Flat := by
  obtain ⟨others, bottom, hStack, hOthers, hBottom⟩ := h.stack
  unfold Braces.next
  split
  · next hKind => exact ⟨fun _ => ht (by simpa using hKind), h.stack⟩
  · split
    · refine ⟨by simp, ?_⟩
      cases hPending : b.pending with
      | true => exact ⟨[], [.namespaceBody], by simp [h.pending hPending], by simp, .inr rfl⟩
      | false => exact ⟨.other :: others, bottom, by simp [hStack], by simpa using hOthers, hBottom⟩
    · split
      · refine ⟨fun hPending => by simp [h.pending hPending], ?_⟩
        cases others with
        | nil => exact ⟨[], [], by rcases hBottom with rfl | rfl <;> simp [hStack], by simp, .inl rfl⟩
        | cons brace others =>
          exact ⟨others, bottom, by simp [hStack], fun u hu => hOthers u (List.mem_cons_of_mem _ hu),
            hBottom⟩
      · split
        · next hEnd =>
          rw [Bool.and_eq_true] at hEnd
          exact ⟨by simp, [], [], by simp [h.pending hEnd.2], by simp, .inl rfl⟩
        · exact h

/-- The namespaces among some tokens are declared outside all braces. -/
def Braces.declaresOutside (b : Braces) : List Token → Bool
  | [] => true
  | t :: ts => (t.kind != .namespaceWord || b.stack.isEmpty) && (b.next t).declaresOutside ts

theorem Braces.Flat.run {b : Braces} (h : b.Flat) {ts : List Token}
    (hts : b.declaresOutside ts = true) : (b.run ts).Flat := by
  induction ts generalizing b with
  | nil => exact h
  | cons t ts ih =>
    rw [Braces.declaresOutside, Bool.and_eq_true] at hts
    exact ih (h.next fun ht => by simpa [ht] using hts.1) hts.2

theorem Braces.Flat.stack_of_head {b : Braces} (h : b.Flat) (hHead : b.stack.head? ≠ some .other) :
    b.stack = [] ∨ b.stack = [.namespaceBody] := by
  obtain ⟨others, bottom, hStack, hOthers, hBottom⟩ := h.stack
  cases others with
  | nil => simpa [hStack] using hBottom
  | cons brace others =>
    rw [hStack, hOthers brace List.mem_cons_self] at hHead
    exact absurd rfl hHead

/-! ## Source texts -/

/-- Every import of a text stands outside all braces or in a brace that a namespace declaration has
to do with. If all namespaces in front of it are declared outside braces, it stands outside all
braces or directly inside those of a namespace. -/
theorem imports_outside_braces (source : Text) :
    ∀ before r after, (outermost (classify (lex source))).1 = before ++ r :: after →
      let outside := before.flatMap Region.gap ++ r.gap
      let stack := (Braces.run {} outside).stack
      stack.head? ≠ some .other ∧
        (Braces.declaresOutside {} outside = true → stack = [] ∨ stack = [.namespaceBody]) := by
  intro before r after hSplit
  have hFits : Braces.Fits {} {} := ⟨rfl, rfl, [], [], rfl, rfl, by simp⟩
  have hFlat : Braces.Flat {} := ⟨by simp, [], [], rfl, by simp, .inl rfl⟩
  have hHead := (passes_source source).imports (framed_outermost _) hFits before r after hSplit
  exact ⟨hHead, fun hOutside => (hFlat.run hOutside).stack_of_head hHead⟩

/-- An import in the body of a namespace, in front of a class that uses a trait. -/
theorem imports_outside_braces_of_namespace :
    let source := "<?php namespace N \x7b use A; class B \x7b use C; \x7d \x7d".toList
    ∃ r, (outermost (classify (lex source))).1 = [] ++ r :: [] ∧
      Braces.declaresOutside {} r.gap = true ∧
        ((Braces.run {} r.gap).stack = [] ∨ (Braces.run {} r.gap).stack = [.namespaceBody]) := by
  have hOne : ((outermost (classify (lex
      "<?php namespace N \x7b use A; class B \x7b use C; \x7d \x7d".toList))).1.map fun r =>
        Braces.declaresOutside {} r.gap) = [true] := by
    decide +kernel
  obtain ⟨r, hRegions, hOutside⟩ := List.map_eq_singleton_iff.mp hOne
  exact ⟨r, hRegions, hOutside, (imports_outside_braces _ [] r [] hRegions).2 hOutside⟩

/-- The name of a class constant is taken for a namespace declaration, and what follows it in the
body of the class for imports. -/
theorem constant_opens_class_body :
    let source := "<?php\nclass A\n\x7b\n    const NAMESPACE = 'x';\n    use Zed, Abc;\n\x7d\n".toList
    ((outermost (classify (lex source))).1.map fun r => (Braces.run {} r.gap).stack) =
      [[.declaring]] := by
  decide +kernel

end UseOrder
