import Mathlib.Data.Char
import Mathlib.Data.List.Lex
import Mathlib.Data.Prod.Lex
import UseOrder.Proofs.Ordering

/-!
# Sort keys

Each algorithm compares two records in several stages: numbers first, then texts, with letter case
or without. Here every comparison is told by one key in a linear order instead (`ComparesKeys`).
Texts stand in the lexicographic order of their characters, pairs are compared by their first and
then by their second component, and the number of bytes of a text is that of its encoding as a
string. So a comparison says how two keys lie, and the laws of a total preorder follow.
-/

namespace UseOrder

/-! ## Keys -/

/-- The path as words, in lower case unless letter case counts. -/
def pathKey (settings : Settings) (r : Record) : Text :=
  foldCase settings.caseSensitive (alphaKey r)

/-- The number of bytes of the path with its qualifier, and then this text; letter case may be left
out of the text, but never of the number. -/
def sizeKey (settings : Settings) (r : Record) : Nat ×ₗ Text :=
  toLex ((String.ofList (lengthKey r)).utf8ByteSize,
    foldCase settings.caseSensitive (lengthKey r))

/-- The rank of the namespace as a pair of numbers, and then the path. -/
def rankKey (settings : Settings) (r : Record) : (Int ×ₗ Int) ×ₗ Text :=
  toLex (toLex (rankOf settings.priorities settings.barePriority r.path).toPair,
    pathKey settings r)

/-- A comparison of records is that of the keys that the algorithm of the settings asks for. -/
def ComparesKeys (settings : Settings) (cmp : Record → Record → Ordering) : Prop :=
  match settings.algorithm with
  | .alpha => ∀ a b, (cmp a b).Compares (pathKey settings a) (pathKey settings b)
  | .length => ∀ a b, (cmp a b).Compares (sizeKey settings a) (sizeKey settings b)
  | .byNamespace => ∀ a b, (cmp a b).Compares (rankKey settings a) (rankKey settings b)
  | .unsorted => False

/-! ## Comparing texts, numbers and pairs -/

theorem char_lt_iff {c d : Char} : c < d ↔ c.toNat < d.toNat := by
  rw [Char.lt_def, UInt32.lt_iff_toNat_lt]
  rfl

theorem Text.compare_compares (s t : Text) : (Text.compare s t).Compares s t := by
  induction s generalizing t with
  | nil =>
    cases t with
    | nil => rfl
    | cons d t => exact List.nil_lt_cons d t
  | cons c s ih =>
    cases t with
    | nil => exact List.nil_lt_cons c s
    | cons d t =>
      rw [Text.compare]
      split
      · next hLess => exact List.cons_lt_cons_iff.mpr (.inl (char_lt_iff.mpr hLess))
      · split
        · next hMore => exact List.cons_lt_cons_iff.mpr (.inl (char_lt_iff.mpr hMore))
        · -- equal characters leave the decision to the rest
          obtain rfl : c = d := Char.toNat_inj.mp (by omega)
          have hRest := ih t
          cases hCompare : Text.compare s t with
          | lt =>
            rw [hCompare] at hRest
            exact List.cons_lt_cons_iff.mpr (.inr ⟨rfl, hRest⟩)
          | eq =>
            rw [hCompare] at hRest
            exact congrArg (c :: ·) hRest
          | gt =>
            rw [hCompare] at hRest
            exact List.cons_lt_cons_iff.mpr (.inr ⟨rfl, hRest⟩)

theorem compareInt_compares (a b : Int) : (compareInt a b).Compares a b := by
  rw [compareInt]
  split
  · assumption
  · split
    · assumption
    · exact le_antisymm (by omega) (by omega)

theorem compareInt_natCast_compares (m n : Nat) : (compareInt m n).Compares m n := by
  have hInt := compareInt_compares m n
  cases hCompare : compareInt m n <;> rw [hCompare] at hInt
  · exact Int.ofNat_lt.mp hInt
  · exact Int.ofNat_inj.mp hInt
  · exact Int.ofNat_lt.mp hInt

/-- Comparing one after the other compares pairs. -/
theorem compares_then {α β : Type} [LinearOrder α] [LinearOrder β] {first second : Ordering}
    {a a' : α} {b b' : β} (hFirst : first.Compares a a') (hSecond : second.Compares b b') :
    (first.then second).Compares (toLex (a, b)) (toLex (a', b')) := by
  cases first with
  | lt => exact Prod.Lex.toLex_lt_toLex.mpr (.inl hFirst)
  | gt => exact Prod.Lex.toLex_lt_toLex.mpr (.inl hFirst)
  | eq =>
    -- a tie of the first components leaves the decision to the second
    obtain rfl : a = a' := hFirst
    cases second with
    | lt => exact Prod.Lex.toLex_lt_toLex.mpr (.inr ⟨rfl, hSecond⟩)
    | gt => exact Prod.Lex.toLex_lt_toLex.mpr (.inr ⟨rfl, hSecond⟩)
    | eq =>
      obtain rfl : b = b' := hSecond
      rfl

theorem Rank.compare_compares (r s : Rank) :
    (Rank.compare r s).Compares (toLex r.toPair) (toLex s.toPair) := by
  have hPair := compares_then (compareInt_compares r.toPair.1 s.toPair.1)
    (compareInt_compares r.toPair.2 s.toPair.2)
  rw [Rank.compare_eq]
  exact hPair

/-! ## Comparing records -/

theorem byteLength_eq (text : Text) : byteLength text = (String.ofList text).utf8ByteSize := by
  rw [← String.size_toByteArray, String.toByteArray_ofList, List.utf8Encode, List.size_toByteArray]
  rfl

theorem compareAlpha_compares (settings : Settings) (a b : Record) :
    (compareAlpha settings.caseSensitive a b).Compares (pathKey settings a) (pathKey settings b) :=
  Text.compare_compares _ _

theorem compareLength_compares (settings : Settings) (a b : Record) :
    (compareLength settings.caseSensitive a b).Compares (sizeKey settings a)
      (sizeKey settings b) := by
  rw [compareLength, sizeKey, sizeKey, ← byteLength_eq, ← byteLength_eq]
  exact compares_then (compareInt_natCast_compares _ _) (Text.compare_compares _ _)

theorem compareNamespace_compares (settings : Settings) (a b : Record) :
    (compareNamespace settings a b).Compares (rankKey settings a) (rankKey settings b) :=
  compares_then (Rank.compare_compares _ _) (compareAlpha_compares settings a b)

theorem comparator?_comparesKeys {settings : Settings} {cmp : Record → Record → Ordering}
    (h : comparator? settings = some cmp) : ComparesKeys settings cmp := by
  unfold comparator? at h
  unfold ComparesKeys
  cases hAlgorithm : settings.algorithm with
  | alpha =>
    rw [hAlgorithm] at h
    rw [← Option.some.inj h]
    exact compareAlpha_compares settings
  | length =>
    rw [hAlgorithm] at h
    rw [← Option.some.inj h]
    exact compareLength_compares settings
  | byNamespace =>
    rw [hAlgorithm] at h
    rw [← Option.some.inj h]
    exact compareNamespace_compares settings
  | unsorted =>
    rw [hAlgorithm] at h
    cases h

theorem exists_comparator {settings : Settings} (h : settings.algorithm ≠ .unsorted) :
    ∃ cmp, comparator? settings = some cmp := by
  unfold comparator?
  cases hAlgorithm : settings.algorithm with
  | alpha => exact ⟨_, rfl⟩
  | length => exact ⟨_, rfl⟩
  | byNamespace => exact ⟨_, rfl⟩
  | unsorted => exact absurd hAlgorithm h

/-- Settings that sort have a comparison, and it is a total preorder: the other way round it gives
the opposite, it is transitive, and records that compare equal compare alike with every other. It is
the preorder of the key that the algorithm asks for. -/
theorem comparison_orders_keys (settings : Settings) (h : settings.algorithm ≠ .unsorted) :
    ∃ cmp, comparator? settings = some cmp ∧
      (∀ a b, cmp a b = (cmp b a).swap) ∧
      (∀ a b c, (cmp a b).isLE = true → (cmp b c).isLE = true → (cmp a c).isLE = true) ∧
      (∀ a b c, cmp a b = .eq → cmp a c = cmp b c) ∧
      ComparesKeys settings cmp := by
  obtain ⟨cmp, hCmp⟩ := exists_comparator h
  have hTrans : Std.TransCmp cmp := comparator?_transCmp hCmp
  refine ⟨cmp, hCmp, fun a b => Std.OrientedCmp.eq_swap, fun a b c => Std.TransCmp.isLE_trans,
    fun a b c => Std.TransCmp.congr_left, comparator?_comparesKeys hCmp⟩

/-- Two names of as many bytes, one of them with fewer characters. -/
theorem comparison_orders_keys_of_length :
    let settings : Settings := { algorithm := .length }
    let a : Record := { name := "É".toList }
    let b : Record := { name := "Zz".toList }
    settings.algorithm ≠ .unsorted ∧ ∃ cmp, comparator? settings = some cmp ∧ cmp b a = .lt ∧
      cmp a b = .gt ∧ (cmp b a).Compares (sizeKey settings b) (sizeKey settings a) := by
  intro settings a b
  have hSorts : settings.algorithm ≠ .unsorted := by decide
  obtain ⟨cmp, hCmp, hSwap, -, -, hKeys⟩ := comparison_orders_keys settings hSorts
  have hLess : cmp b a = .lt := by
    rw [← Option.some.inj hCmp]
    decide +kernel
  exact ⟨hSorts, cmp, hCmp, hLess, by rw [hSwap, hLess]; rfl, hKeys b a⟩

end UseOrder
