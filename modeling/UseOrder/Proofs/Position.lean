import UseOrder.Token.Position

/-!
# Positions at the seam of two lists

Every position that the ordering of imports works with is the length of what stands before it. The
lemmas here say what each reading and writing operation does at the seam of `before ++ after`, so
that no later proof has to open the arithmetic of positions.
-/

namespace UseOrder

/-! ## Reading at a seam -/

theorem tokenAt_append (before : List Token) (t : Token) (after : List Token) :
    tokenAt (before ++ t :: after) before.length = .ok t := by
  have hNonneg : ¬ ((before.length : Int) < 0) := by omega
  simp [tokenAt, hNonneg]

theorem tokensAfter_append (before : List Token) (t : Token) (after : List Token) :
    tokensAfter (before ++ t :: after) before.length = .ok after := by
  have hIndex : ((before.length : Int) + 1).toNat = before.length + 1 := by omega
  have hNonneg : (0 : Int) ≤ (before.length : Int) + 1 := by omega
  rw [tokensAfter, if_pos hNonneg, hIndex, List.drop_append]
  simp

theorem nextWhere_append (p : Token → Bool) (before : List Token) (t : Token)
    (after : List Token) :
    nextWhere p (before ++ t :: after) before.length =
      .ok ((after.findIdx? p).map fun k : Nat => (before.length : Int) + 1 + k) := by
  rw [nextWhere, tokensAfter_append, Except.map]
  cases after.findIdx? p <;> rfl

/-- A search finds the first token behind its start that it looks for. -/
theorem nextWhere_first {p : Token → Bool} {before between rest : List Token} {t found : Token}
    (hBetween : ∀ u ∈ between, p u = false) (hFound : p found = true) :
    nextWhere p (before ++ t :: (between ++ found :: rest)) before.length =
      .ok (some ((before ++ t :: between).length : Nat)) := by
  have hPlace : (before.length : Int) + 1 + between.length =
      ((before ++ t :: between).length : Nat) := by
    simp only [List.length_append, List.length_cons]
    omega
  rw [nextWhere_append, List.findIdx?_append, List.findIdx?_eq_none_iff.mpr hBetween, ← hPlace]
  simp [List.findIdx?_cons, hFound]

/-- A search that starts from zero upward stays in range. -/
theorem nextWhere_ok (p : Token → Bool) (ts : List Token) {i : Int} (h : 0 ≤ i) :
    ∃ found, nextWhere p ts i = .ok found := by
  rw [nextWhere, tokensAfter, if_pos (by omega)]
  exact ⟨_, rfl⟩

/-- What a search finds lies above its start. -/
theorem lt_of_nextWhere {p : Token → Bool} {ts : List Token} {i j : Int}
    (h : nextWhere p ts i = .ok (some j)) : i < j := by
  rw [nextWhere] at h
  cases hAfter : tokensAfter ts i with
  | error fault =>
    rw [hAfter] at h
    cases h
  | ok after =>
    rw [hAfter, Except.map] at h
    cases hFind : after.findIdx? p with
    | none =>
      rw [hFind] at h
      cases h
    | some k =>
      rw [hFind] at h
      have hk : i + 1 + (k : Int) = j := Option.some.inj (Except.ok.inj h)
      omega

theorem slice_append (before middle after : List Token) :
    slice (before ++ middle ++ after) before.length (before.length + middle.length : Nat) =
      middle := by
  have hLow : bound (before ++ middle ++ after).length before.length = before.length := by
    simp only [bound, List.length_append]
    split <;> omega
  have hHigh : bound (before ++ middle ++ after).length (before.length + middle.length : Nat) =
      before.length + middle.length := by
    simp only [bound, List.length_append]
    split <;> omega
  rw [slice, hLow, hHigh, ← List.length_append, List.take_left, List.drop_left]

/-! ## Looking back from a seam -/

theorem lastIndex?_append {p : Token → Bool} {before after : List Token} {t : Token}
    (ht : p t = true) (hAfter : ∀ a ∈ after, p a = false) :
    lastIndex? p (before ++ t :: after) = some before.length := by
  have hNone : after.reverse.findIdx? p = none := by
    rw [List.findIdx?_eq_none_iff]
    intro a ha
    exact hAfter a (List.mem_reverse.mp ha)
  have hFind : (before ++ t :: after).reverse.findIdx? p = some after.length := by
    rw [List.reverse_append, List.reverse_cons, List.append_assoc, List.findIdx?_append, hNone]
    simp [List.findIdx?_cons, ht]
  rw [lastIndex?, hFind]
  simp

theorem previousMeaningful_append (before after : List Token) :
    previousMeaningful (before ++ after) before.length =
      .ok ((lastIndex? Token.isMeaningful before).map Int.ofNat) := by
  rw [previousMeaningful]
  by_cases hEmpty : before = []
  · subst hEmpty
    simp [lastIndex?]
  · have hPos : 0 < before.length := List.length_pos_iff.mpr hEmpty
    have hRange : ¬((before ++ after).length : Int) < before.length := by
      rw [List.length_append]
      omega
    rw [if_neg (by omega), if_neg hRange]
    simp

/-! ## Writing at a seam -/

theorem splice_append (before middle after new : List Token) :
    splice (before ++ middle ++ after) before.length (before.length + middle.length : Nat) new =
      .ok (before ++ new ++ after) := by
  have hRange : (0 : Int) ≤ before.length ∧
      (before.length : Int) ≤ (before.length + middle.length : Nat) ∧
      ((before.length + middle.length : Nat) : Int) ≤ (before ++ middle ++ after).length := by
    simp only [List.length_append]
    omega
  rw [splice, if_pos hRange, Int.toNat_natCast, Int.toNat_natCast, ← List.length_append,
    List.drop_left, List.append_assoc before middle after, List.take_left]

end UseOrder
