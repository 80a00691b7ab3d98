import Mathlib.Data.List.TakeWhile
import UseOrder.Import.Spacing
import UseOrder.Proofs.Cell

/-!
# White space at the ends of a list

The parser trims white space from the end of a name and from both ends of a part of a group. A list
is `Trimmed` when there is none to trim. Trimming gives such a list or an empty one, and white
space that is put around such a list is trimmed off again.
-/

namespace UseOrder

@[simp] theorem textOf_nil : textOf [] = [] :=
  rfl

@[simp] theorem textOf_cons (t : Token) (ts : List Token) : textOf (t :: ts) = t.content ++ textOf ts :=
  rfl

@[simp] theorem textOf_append (a b : List Token) : textOf (a ++ b) = textOf a ++ textOf b :=
  List.flatMap_append

theorem textOf_isEmpty {ts : List Token} (h : ∀ t ∈ ts, t.content ≠ []) :
    (textOf ts).isEmpty = ts.isEmpty := by
  cases ts with
  | nil => rfl
  | cons t ts => simp [h t List.mem_cons_self]

theorem AllSpace.nil : AllSpace [] := by
  intro t ht
  simp at ht

theorem AllSpace.append {a b : List Token} (ha : AllSpace a) (hb : AllSpace b) :
    AllSpace (a ++ b) := by
  intro t ht
  rcases List.mem_append.mp ht with h | h
  · exact ha t h
  · exact hb t h

theorem AllSpace.singleton (content : Text) : AllSpace [⟨.whitespace, content⟩] := by
  intro t ht
  rw [List.mem_singleton.mp ht]
  rfl

theorem AllSpace.not_meaningful {ts : List Token} (h : AllSpace ts) :
    ∀ t ∈ ts, t.isMeaningful = false := by
  intro t ht
  simp [Token.isMeaningful, h t ht]

theorem AllSpace.not_comma {ts : List Token} (h : AllSpace ts) :
    ∀ t ∈ ts, t.isComma = false := by
  intro t ht
  have hSpace := h t ht
  simp only [Token.isWhitespace, beq_iff_eq] at hSpace
  simp [Token.isComma, Token.isPunct, hSpace]

theorem AllSpace.not_comment {ts : List Token} (h : AllSpace ts) :
    ∀ t ∈ ts, t.isComment = false := by
  intro t ht
  have hSpace := h t ht
  simp only [Token.isWhitespace, beq_iff_eq] at hSpace
  simp [Token.isComment, hSpace]

theorem Token.not_space_of_meaningful {t : Token} (h : t.isMeaningful = true) :
    t.isWhitespace = false := by
  rw [Token.isMeaningful, Bool.not_eq_true', Bool.or_eq_false_iff] at h
  exact h.1

theorem Token.kind_of_isTerminator {t : Token} (h : t.isTerminator = true) :
    t.kind = .closeTag ∨ t = ⟨.punct, [';']⟩ := by
  rw [Token.isTerminator, Bool.or_eq_true, beq_iff_eq, Token.isPunct, Bool.and_eq_true, beq_iff_eq,
    beq_iff_eq] at h
  refine h.imp_right fun hMark => ?_
  obtain ⟨kind, content⟩ := t
  obtain ⟨hKind, hContent⟩ := hMark
  subst hKind hContent
  rfl

theorem Token.isMeaningful_of_isTerminator {t : Token} (h : t.isTerminator = true) :
    t.isMeaningful = true := by
  rcases t.kind_of_isTerminator h with hClose | rfl
  · simp [Token.isMeaningful, Token.isWhitespace, Token.isComment, hClose]
  · decide

theorem not_space_of_terminator {stop : Token} (h : stop.isTerminator = true) :
    stop.isWhitespace = false :=
  Token.not_space_of_meaningful (Token.isMeaningful_of_isTerminator h)

/-- There is a token at either end that is no white space. -/
structure Trimmed (ts : List Token) : Prop where
  first : ∃ t rest, ts = t :: rest ∧ t.isWhitespace = false
  last : ∃ rest t, ts = rest ++ [t] ∧ t.isWhitespace = false

theorem IsCore.trimmed {ts : List Token} (h : IsCore ts) : Trimmed ts := by
  obtain ⟨t, rest, hts, ht, -⟩ := h.first
  exact ⟨⟨t, rest, hts, ht⟩, h.last⟩

theorem Trimmed.ne_nil {ts : List Token} (h : Trimmed ts) : ts ≠ [] := by
  obtain ⟨t, rest, rfl, -⟩ := h.first
  simp

/-- What is left after dropping white space starts with no white space. -/
theorem not_space_of_dropWhile {ts rest : List Token} {t : Token}
    (h : ts.dropWhile Token.isWhitespace = t :: rest) : t.isWhitespace = false := by
  have hNe : ts.dropWhile Token.isWhitespace ≠ [] := by simp [h]
  have hHead := List.head_dropWhile_not Token.isWhitespace hNe
  simpa [h] using hHead

/-! ## Trimming the end -/

theorem trimEnd_append_space {ts space : List Token} (h : AllSpace space) :
    trimEnd (ts ++ space) = trimEnd ts := by
  have hDrop : (space.reverse ++ ts.reverse).dropWhile Token.isWhitespace =
      ts.reverse.dropWhile Token.isWhitespace := by
    apply List.dropWhile_append_of_pos
    intro t ht
    exact h t (List.mem_reverse.mp ht)
  rw [trimEnd, List.reverse_append, hDrop, trimEnd]

theorem trimEnd_concat {ts : List Token} {t : Token} (h : t.isWhitespace = false) :
    trimEnd (ts ++ [t]) = ts ++ [t] := by
  rw [trimEnd, List.reverse_append, List.reverse_singleton, List.singleton_append,
    List.dropWhile_cons_of_neg (by simp [h])]
  simp

theorem Trimmed.trimEnd_append {core after : List Token} (hCore : Trimmed core)
    (hAfter : AllSpace after) : trimEnd (core ++ after) = core := by
  obtain ⟨rest, t, rfl, ht⟩ := hCore.last
  rw [trimEnd_append_space hAfter, trimEnd_concat ht]

/-- A list is what is left of it after trimming and the white space that was trimmed. -/
theorem trimEnd_append_trailingSpace (ts : List Token) :
    trimEnd ts ++ trailingSpace ts = ts := by
  rw [trimEnd, trailingSpace, ← List.reverse_append, List.takeWhile_append_dropWhile, List.reverse_reverse]

theorem allSpace_trailing (ts : List Token) :
    AllSpace (trailingSpace ts) := by
  intro t ht
  exact List.mem_takeWhile_imp (List.mem_reverse.mp ht)

theorem trimEnd_last {ts : List Token} (h : trimEnd ts ≠ []) :
    ∃ rest t, trimEnd ts = rest ++ [t] ∧ t.isWhitespace = false := by
  have hDrop : ts.reverse.dropWhile Token.isWhitespace ≠ [] := by
    intro hNil
    exact h (by rw [trimEnd, hNil, List.reverse_nil])
  obtain ⟨t, rest, hEq⟩ := List.exists_cons_of_ne_nil hDrop
  exact ⟨rest.reverse, t, by rw [trimEnd, hEq, List.reverse_cons], not_space_of_dropWhile hEq⟩

theorem trimEnd_eq_nil_iff {ts : List Token} : trimEnd ts = [] ↔ AllSpace ts := by
  constructor
  · intro h
    have hSplit := trimEnd_append_trailingSpace ts
    rw [h, List.nil_append] at hSplit
    rw [← hSplit]
    exact allSpace_trailing ts
  · intro h
    exact @trimEnd_append_space [] ts h

/-! ## Trimming both ends -/

theorem trimEnd_append_of_ne_nil (before : List Token) {ts : List Token} (h : trimEnd ts ≠ []) :
    trimEnd (before ++ ts) = before ++ trimEnd ts := by
  obtain ⟨rest, t, hTrim, ht⟩ := trimEnd_last h
  have hSplit := trimEnd_append_trailingSpace ts
  conv_lhs => rw [← hSplit, hTrim, ← List.append_assoc, trimEnd_append_space (allSpace_trailing ts),
    ← List.append_assoc, trimEnd_concat ht]
  rw [hTrim, List.append_assoc]

theorem trimEnd_cons {stop : Token} (hStop : stop.isWhitespace = false) (rest : List Token) :
    trimEnd (stop :: rest) = stop :: trimEnd rest := by
  by_cases hRest : trimEnd rest = []
  · rw [hRest]
    exact Trimmed.trimEnd_append ⟨⟨stop, [], rfl, hStop⟩, ⟨[], stop, rfl, hStop⟩⟩
      (trimEnd_eq_nil_iff.mp hRest)
  · exact trimEnd_append_of_ne_nil [stop] hRest

theorem dropWhile_space_of_first {space rest : List Token} {t : Token} (hSpace : AllSpace space)
    (ht : t.isWhitespace = false) :
    (space ++ t :: rest).dropWhile Token.isWhitespace = t :: rest := by
  rw [List.dropWhile_append_of_pos hSpace, List.dropWhile_cons_of_neg (by simp [ht])]

theorem takeWhile_space_of_first {space rest : List Token} {t : Token} (hSpace : AllSpace space)
    (ht : t.isWhitespace = false) :
    (space ++ t :: rest).takeWhile Token.isWhitespace = space := by
  rw [List.takeWhile_append_of_pos hSpace, List.takeWhile_cons_of_neg (by simp [ht]),
    List.append_nil]

theorem trim_eq_nil_iff {ts : List Token} : trim ts = [] ↔ AllSpace ts := by
  rw [trim, trimEnd_eq_nil_iff]
  refine ⟨fun h => ?_, fun h => ?_⟩
  · rw [← @List.takeWhile_append_dropWhile _ Token.isWhitespace ts]
    exact AllSpace.append (fun t ht => List.mem_takeWhile_imp ht) h
  · exact fun t ht => h t ((List.dropWhile_sublist _).subset ht)

/-- A list is what is left of it after trimming with white space around it. -/
theorem exists_trim (ts : List Token) :
    ∃ before after, ts = before ++ (trim ts ++ after) ∧ AllSpace before ∧ AllSpace after := by
  refine ⟨ts.takeWhile Token.isWhitespace, trailingSpace (ts.dropWhile Token.isWhitespace), ?_,
    fun t ht => List.mem_takeWhile_imp ht, allSpace_trailing _⟩
  rw [trim, trimEnd_append_trailingSpace, List.takeWhile_append_dropWhile]

/-- White space around a trimmed list is trimmed off. -/
theorem Trimmed.trim_spaced {before ts after : List Token} (hts : Trimmed ts)
    (hBefore : AllSpace before) (hAfter : AllSpace after) : trim (before ++ ts ++ after) = ts := by
  have hDrop : (before ++ ts ++ after).dropWhile Token.isWhitespace = ts ++ after := by
    obtain ⟨t, rest, rfl, ht⟩ := hts.first
    rw [List.append_assoc, List.cons_append, dropWhile_space_of_first hBefore ht]
  rw [trim, hDrop, hts.trimEnd_append hAfter]

/-- What is left after trimming is trimmed. -/
theorem trimmed_trim {ts : List Token} (h : trim ts ≠ []) : Trimmed (trim ts) := by
  refine ⟨?_, trimEnd_last h⟩
  have hSplit := trimEnd_append_trailingSpace (ts.dropWhile Token.isWhitespace)
  obtain ⟨t, rest, hEq⟩ := List.exists_cons_of_ne_nil h
  refine ⟨t, rest, hEq, ?_⟩
  rw [trim] at hEq
  rw [hEq, List.cons_append] at hSplit
  exact not_space_of_dropWhile hSplit.symm

theorem mem_of_mem_trimEnd {ts : List Token} {t : Token} (h : t ∈ trimEnd ts) : t ∈ ts := by
  rw [← trimEnd_append_trailingSpace ts]
  exact List.mem_append_left _ h

theorem mem_of_mem_trim {ts : List Token} {t : Token} (h : t ∈ trim ts) : t ∈ ts :=
  (List.dropWhile_sublist _).subset (mem_of_mem_trimEnd h)

end UseOrder
