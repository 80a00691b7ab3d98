import Mathlib.Data.List.Nodup
import Mathlib.Data.Prod.Lex
import UseOrder.Import.Order

/-!
# Priorities of prefixes

The rank of a path is found by going through the table of priorities once, with the longest prefix
so far in hand. What is in hand at the end is the entry of the longest prefix of all that begin the
path, or what was there at the start if none is longer (`foldl_longerPrefix`). Two prefixes of one
path that have the same length are equal, so in a table that holds each prefix once this entry is the
only one of its length, and the order of the table does not matter.
-/

namespace UseOrder

/-- The prefix of the entry begins the path, and all others in the table that do so are shorter. -/
structure LongestMatch (table : List (Text × Int)) (path : Text) (entry : Text × Int) : Prop where
  mem : entry ∈ table
  begins : entry.1 <+: path
  longest : ∀ other ∈ table, other.1 <+: path → other = entry ∨ other.1.length < entry.1.length

theorem rankOf_of_separator {path : Text} (h : '\\' ∈ path) (table : List (Text × Int))
    (bare : Option Int) :
    rankOf table bare path = .at (table.foldl (longerPrefix path) (0, 0)).2 := by
  unfold rankOf
  rw [if_pos (by simpa using h)]

theorem rankOf_of_no_separator {path : Text} (h : '\\' ∉ path) (table : List (Text × Int))
    (bare : Option Int) : rankOf table bare path = bare.elim .ahead .at := by
  unfold rankOf
  rw [if_neg (by simpa using h)]
  cases bare <;> rfl

/-! ## One pass over the table -/

theorem longerPrefix_eq (path : Text) (best : Nat × Int) (entry : Text × Int) :
    longerPrefix path best entry =
      if entry.1 <+: path ∧ best.1 < entry.1.length then (entry.1.length, entry.2) else best := by
  simp only [longerPrefix, Bool.and_eq_true, List.isPrefixOf_iff_prefix, decide_eq_true_eq]

/-- After the pass, what was in hand before is still there, if nothing longer begins the path, or it
has given way to an entry that does so, and no entry that begins the path is longer. -/
theorem foldl_longerPrefix (path : Text) (table : List (Text × Int)) (best : Nat × Int) :
    (table.foldl (longerPrefix path) best = best ∧
        ∀ other ∈ table, other.1 <+: path → other.1.length ≤ best.1) ∨
      ∃ entry ∈ table, entry.1 <+: path ∧ best.1 < entry.1.length ∧
        table.foldl (longerPrefix path) best = (entry.1.length, entry.2) ∧
        ∀ other ∈ table, other.1 <+: path → other.1.length ≤ entry.1.length := by
  induction table generalizing best with
  | nil => simp
  | cons entry table ih =>
    rw [List.foldl_cons, longerPrefix_eq]
    split
    · next hLonger =>
      -- the entry is taken in hand, and later ones are measured against it
      rcases ih (entry.1.length, entry.2) with
        ⟨hFold, hRest⟩ | ⟨last, hLast, hBegins, hMore, hFold, hRest⟩
      · exact .inr ⟨entry, List.mem_cons_self, hLonger.1, hLonger.2, hFold,
          List.forall_mem_cons.mpr ⟨fun _ => le_refl _, hRest⟩⟩
      · exact .inr ⟨last, List.mem_cons_of_mem _ hLast, hBegins, hLonger.2.trans hMore, hFold,
          List.forall_mem_cons.mpr ⟨fun _ => le_of_lt hMore, hRest⟩⟩
    · next hShort =>
      -- the entry does not begin the path, or is no longer than what is in hand
      rw [not_and, not_lt] at hShort
      rcases ih best with ⟨hFold, hRest⟩ | ⟨last, hLast, hBegins, hMore, hFold, hRest⟩
      · exact .inl ⟨hFold, List.forall_mem_cons.mpr ⟨hShort, hRest⟩⟩
      · exact .inr ⟨last, List.mem_cons_of_mem _ hLast, hBegins, hMore, hFold,
          List.forall_mem_cons.mpr ⟨fun h => (hShort h).trans (le_of_lt hMore), hRest⟩⟩

/-! ## Tables that hold each prefix once -/

section Table

variable {table : List (Text × Int)} {path : Text}

/-- An entry is the longest match if no other that begins the path is longer. -/
theorem longestMatch_of_le (hDistinct : (table.map Prod.fst).Nodup) {entry : Text × Int}
    (hMem : entry ∈ table) (hBegins : entry.1 <+: path)
    (hMost : ∀ other ∈ table, other.1 <+: path → other.1.length ≤ entry.1.length) :
    LongestMatch table path entry := by
  refine ⟨hMem, hBegins, fun other hOther hPath => ?_⟩
  rcases Nat.lt_or_eq_of_le (hMost other hOther hPath) with hLess | hSame
  · exact .inr hLess
  · -- of two prefixes of the path, the one that is not longer begins the other
    have hPrefix : other.1 = entry.1 :=
      (List.prefix_of_prefix_length_le hPath hBegins hSame.le).eq_of_length hSame
    exact .inl (List.inj_on_of_nodup_map hDistinct hOther hMem hPrefix)

/-- The longest match decides the rank of a path with separators; without a match it is zero. -/
theorem rankOf_cases (hDistinct : (table.map Prod.fst).Nodup) (hSome : ∀ entry ∈ table, entry.1 ≠ [])
    (bare : Option Int) (hPath : '\\' ∈ path) :
    (∃ entry, LongestMatch table path entry ∧ rankOf table bare path = .at entry.2) ∨
      (∀ entry ∈ table, ¬ entry.1 <+: path) ∧ rankOf table bare path = .at 0 := by
  rw [rankOf_of_separator hPath]
  rcases foldl_longerPrefix path table (0, 0) with
    ⟨hFold, hShort⟩ | ⟨entry, hMem, hBegins, -, hFold, hMost⟩
  · -- only an empty prefix could begin the path and not be longer than nothing
    refine .inr ⟨fun entry hMem hBegins => ?_, by rw [hFold]⟩
    exact hSome entry hMem (List.length_eq_zero_iff.mp (Nat.le_zero.mp (hShort entry hMem hBegins)))
  · exact .inl ⟨entry, longestMatch_of_le hDistinct hMem hBegins hMost, by rw [hFold]⟩

theorem LongestMatch.unique {a b : Text × Int} (ha : LongestMatch table path a)
    (hb : LongestMatch table path b) : a = b := by
  rcases hb.longest a ha.mem ha.begins with hSame | hLess
  · exact hSame
  · rcases ha.longest b hb.mem hb.begins with hSame | hMore
    · exact hSame.symm
    · omega

theorem LongestMatch.perm {other : List (Text × Int)} {entry : Text × Int} (hPerm : other.Perm table)
    (h : LongestMatch other path entry) : LongestMatch table path entry :=
  ⟨hPerm.mem_iff.mp h.mem, h.begins, fun e he => h.longest e (hPerm.mem_iff.mpr he)⟩

/-- The order of the table does not matter. -/
theorem rankOf_perm (hDistinct : (table.map Prod.fst).Nodup) (hSome : ∀ entry ∈ table, entry.1 ≠ [])
    (bare : Option Int) (hPath : '\\' ∈ path) {other : List (Text × Int)}
    (hPerm : other.Perm table) : rankOf other bare path = rankOf table bare path := by
  have hDistinct' : (other.map Prod.fst).Nodup := (hPerm.map Prod.fst).nodup_iff.mpr hDistinct
  have hSome' : ∀ entry ∈ other, entry.1 ≠ [] := fun e he => hSome e (hPerm.mem_iff.mp he)
  -- both tables have a longest match, and then the same, or neither has one
  rcases rankOf_cases hDistinct hSome bare hPath with ⟨a, ha, hRank⟩ | ⟨hNone, hRank⟩
  · rcases rankOf_cases hDistinct' hSome' bare hPath with ⟨b, hb, hRank'⟩ | ⟨hNone', -⟩
    · rw [hRank, hRank', (hb.perm hPerm).unique ha]
    · exact absurd ha.begins (hNone' a (hPerm.mem_iff.mpr ha.mem))
  · rcases rankOf_cases hDistinct' hSome' bare hPath with ⟨b, hb, -⟩ | ⟨-, hRank'⟩
    · exact absurd hb.begins (hNone b (hb.perm hPerm).mem)
    · rw [hRank, hRank']

end Table

/-- A path with separators has the priority of the longest prefix in the table that begins it, or
zero if none does, and the order of the table does not matter. A path without separators has the
priority that is set for such names; if none is set, its rank lies below that of every path with
separators, for any table. -/
theorem rankOf_longestMatch {table : List (Text × Int)} (hDistinct : (table.map Prod.fst).Nodup)
    (hSome : ∀ entry ∈ table, entry.1 ≠ []) (bare : Option Int) (path : Text) :
    ('\\' ∈ path →
      ((∃ entry, LongestMatch table path entry ∧ (rankOf table bare path).toPair = (1, entry.2)) ∨
        (∀ entry ∈ table, ¬ entry.1 <+: path) ∧ (rankOf table bare path).toPair = (1, 0)) ∧
      ∀ other : List (Text × Int), other.Perm table →
        (rankOf other bare path).toPair = (rankOf table bare path).toPair) ∧
    ('\\' ∉ path →
      (∀ n, bare = some n → (rankOf table bare path).toPair = (1, n)) ∧
      (bare = none → ∀ (anyTable : List (Text × Int)) (anyBare : Option Int) (anyPath : Text),
        '\\' ∈ anyPath → toLex (rankOf table bare path).toPair <
          toLex (rankOf anyTable anyBare anyPath).toPair)) := by
  refine ⟨fun hPath => ⟨?_, fun other hPerm => ?_⟩, fun hPath => ?_⟩
  · rcases rankOf_cases hDistinct hSome bare hPath with ⟨entry, hEntry, hRank⟩ | ⟨hNone, hRank⟩
    · exact .inl ⟨entry, hEntry, by rw [hRank]; rfl⟩
    · exact .inr ⟨hNone, by rw [hRank]; rfl⟩
  · rw [rankOf_perm hDistinct hSome bare hPath hPerm]
  · rw [rankOf_of_no_separator hPath]
    constructor
    · rintro n rfl
      rfl
    · rintro rfl anyTable anyBare anyPath hAny
      rw [rankOf_of_separator hAny]
      exact Prod.Lex.toLex_lt_toLex.mpr (.inl Int.zero_lt_one)

/-- Three prefixes of which each begins the next, with the longest that matches in the middle. -/
theorem rankOf_longestMatch_of_nested :
    let table : List (Text × Int) :=
      [("App".toList, 3), ("App\\Http\\Kernel".toList, 9), ("App\\Http".toList, -5)]
    let path := "App\\Http\\Request".toList
    (table.map Prod.fst).Nodup ∧ (∀ entry ∈ table, entry.1 ≠ []) ∧
      LongestMatch table path ("App\\Http".toList, -5) ∧
      (rankOf table none path).toPair = (1, -5) ∧
      (rankOf table.reverse none path).toPair = (1, -5) ∧
      toLex (rankOf table none "Request".toList).toPair < toLex (rankOf table none path).toPair := by
  intro table path
  have hDistinct : (table.map Prod.fst).Nodup := by decide
  have hSome : ∀ entry ∈ table, entry.1 ≠ [] := by decide
  have hPath : '\\' ∈ path := by decide
  have hLongest : LongestMatch table path ("App\\Http".toList, -5) :=
    ⟨by decide, by decide, by decide⟩
  obtain ⟨hRank, hOrder⟩ := (rankOf_longestMatch hDistinct hSome none path).1 hPath
  have hFive : (rankOf table none path).toPair = (1, -5) := by
    rcases hRank with ⟨entry, hEntry, hRank⟩ | ⟨hNone, -⟩
    · rw [hRank, hEntry.unique hLongest]
    · exact absurd hLongest.begins (hNone _ hLongest.mem)
  refine ⟨hDistinct, hSome, hLongest, hFive, ?_, ?_⟩
  · rw [hOrder _ (List.reverse_perm table), hFive]
  · obtain ⟨-, hBelow⟩ :=
      (rankOf_longestMatch hDistinct hSome none "Request".toList).2 (by decide)
    exact hBelow rfl table none path hPath

end UseOrder
