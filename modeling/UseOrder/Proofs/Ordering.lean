import Mathlib.Data.List.Perm.Basic
import Mathlib.Data.List.Sort
import UseOrder.Import.Order

/-!
# The order of records

Every comparison of records is a total preorder, because it compares keys: texts by code points,
numbers, or one after the other. From this follow the three facts about `orderRecords` that the
rest relies on: it loses no record and makes none, its result stands in the order `Precedes`, and a
list that stands in that order is left as it is. The order looks at nothing but the kind and the
path of a record, so it survives any change of the other fields.
-/

namespace UseOrder

/-! ## Sorting -/

/-- Sorting leaves elements alone that are in order in any sequence. -/
theorem filter_mergeSort {α : Type} {le : α → α → Bool}
    (hTrans : ∀ a b c, le a b = true → le b c = true → le a c = true)
    (hTotal : ∀ a b, (le a b || le b a) = true) {p : α → Bool}
    (h : ∀ a b, p a = true → p b = true → le a b = true) (l : List α) :
    (l.mergeSort le).filter p = l.filter p := by
  have hLength := ((List.mergeSort_perm l le).filter p).length_eq
  suffices hSublist : (l.filter p).Sublist (l.mergeSort le) by
    have hFiltered := hSublist.filter p
    rw [List.filter_filter] at hFiltered
    simp only [Bool.and_self] at hFiltered
    exact (hFiltered.eq_of_length hLength.symm).symm
  have hPairwise : (l.filter p).Pairwise fun a b => le a b = true :=
    List.pairwise_filter.mpr (List.pairwise_of_forall fun a b => h a b)
  exact List.sublist_mergeSort hTrans hTotal hPairwise List.filter_sublist

theorem mergeSort_pair {α : Type} {le : α → α → Bool} {a b : α} (h : le a b = false) :
    [a, b].mergeSort le = [b, a] := by
  simp [List.mergeSort, h]

/-! ## Comparing texts and numbers -/

/-- Code points, as numbers. -/
def comparePoint (c d : Char) : Ordering :=
  compare c.toNat d.toNat

instance : Std.TransCmp comparePoint where
  eq_swap {c d} := @Std.OrientedCmp.eq_swap Nat compare _ c.toNat d.toNat
  isLE_trans {c d e} := @Std.TransCmp.isLE_trans Nat compare _ c.toNat d.toNat e.toNat

theorem Text.compare_eq_compareLex (s t : Text) :
    Text.compare s t = List.compareLex comparePoint s t := by
  induction s generalizing t with
  | nil => cases t <;> rfl
  | cons c s ih =>
    cases t with
    | nil => rfl
    | cons d t =>
      rw [Text.compare, List.compareLex_cons_cons, ih, comparePoint, Nat.compare_eq_ite_lt]
      split
      · rfl
      · split <;> rfl

instance : Std.TransCmp Text.compare := by
  have hEq : Text.compare = List.compareLex comparePoint := by
    funext s t
    exact Text.compare_eq_compareLex s t
  rw [hEq]
  infer_instance

theorem compareInt_eq (a b : Int) : compareInt a b = compare a b := by
  rw [compareInt, Int.compare_eq_ite_lt]

instance : Std.TransCmp compareInt := by
  have hEq : compareInt = compare := by
    funext a b
    exact compareInt_eq a b
  rw [hEq]
  infer_instance

/-- Comparing by a key is as good as the comparison of keys. -/
theorem transCmp_key {α β : Type} {cmp : β → β → Ordering} [Std.TransCmp cmp] (key : α → β) :
    Std.TransCmp fun a b => cmp (key a) (key b) where
  eq_swap {a b} := @Std.OrientedCmp.eq_swap β cmp _ (key a) (key b)
  isLE_trans {a b c} := @Std.TransCmp.isLE_trans β cmp _ (key a) (key b) (key c)

/-! ## Comparing records -/

instance (caseSensitive : Bool) : Std.TransCmp (compareAlpha caseSensitive) :=
  transCmp_key fun r => foldCase caseSensitive (alphaKey r)

instance (caseSensitive : Bool) : Std.TransCmp (compareLength caseSensitive) := by
  have hSize : Std.TransCmp fun a b : Record =>
      compareInt (byteLength (lengthKey a)) (byteLength (lengthKey b)) :=
    transCmp_key fun r : Record => (byteLength (lengthKey r) : Int)
  have hText : Std.TransCmp fun a b : Record =>
      Text.compare (foldCase caseSensitive (lengthKey a)) (foldCase caseSensitive (lengthKey b)) :=
    transCmp_key fun r : Record => foldCase caseSensitive (lengthKey r)
  exact inferInstanceAs (Std.TransCmp (compareLex _ _))

theorem Rank.compare_eq (a b : Rank) :
    Rank.compare a b =
      compareLex (fun r s => compareInt r.toPair.1 s.toPair.1)
        (fun r s => compareInt r.toPair.2 s.toPair.2) a b := by
  cases a <;> cases b <;> rfl

instance : Std.TransCmp Rank.compare := by
  have hFirst : Std.TransCmp fun r s : Rank => compareInt r.toPair.1 s.toPair.1 :=
    transCmp_key fun r : Rank => r.toPair.1
  have hSecond : Std.TransCmp fun r s : Rank => compareInt r.toPair.2 s.toPair.2 :=
    transCmp_key fun r : Rank => r.toPair.2
  have hEq : Rank.compare = compareLex (fun r s => compareInt r.toPair.1 s.toPair.1)
      (fun r s => compareInt r.toPair.2 s.toPair.2) := by
    funext a b
    exact Rank.compare_eq a b
  rw [hEq]
  infer_instance

instance (settings : Settings) : Std.TransCmp (compareNamespace settings) := by
  have hRank : Std.TransCmp fun a b : Record =>
      Rank.compare (rankOf settings.priorities settings.barePriority a.path)
        (rankOf settings.priorities settings.barePriority b.path) :=
    transCmp_key fun r : Record => rankOf settings.priorities settings.barePriority r.path
  exact inferInstanceAs (Std.TransCmp (compareLex _ (compareAlpha settings.caseSensitive)))

/-- Whatever the settings sort by, it is a total preorder. -/
theorem comparator?_transCmp {settings : Settings} {cmp : Record → Record → Ordering}
    (h : comparator? settings = some cmp) : Std.TransCmp cmp := by
  unfold comparator? at h
  split at h
  · rw [← Option.some.inj h]
    infer_instance
  · rw [← Option.some.inj h]
    infer_instance
  · rw [← Option.some.inj h]
    infer_instance
  · simp at h

/-! ## Sorting records -/

/-- The comparison of the settings does not put `b` in front of `a`. Without a comparison nothing
is put in front of anything. -/
def comesBefore (settings : Settings) (a b : Record) : Bool :=
  match comparator? settings with
  | none => true
  | some cmp => (cmp a b).isLE

theorem comesBefore_total (settings : Settings) (a b : Record) :
    comesBefore settings a b = true ∨ comesBefore settings b a = true := by
  unfold comesBefore
  split
  · exact .inl rfl
  · next cmp hCmp =>
    have hTrans : Std.TransCmp cmp := comparator?_transCmp hCmp
    rw [@Std.OrientedCmp.eq_swap _ cmp _ b a]
    cases cmp a b <;> simp

theorem comesBefore_trans {settings : Settings} {a b c : Record}
    (hab : comesBefore settings a b = true) (hbc : comesBefore settings b c = true) :
    comesBefore settings a c = true := by
  unfold comesBefore at *
  split
  · rfl
  · next cmp hCmp =>
    have hTrans : Std.TransCmp cmp := comparator?_transCmp hCmp
    simp only [hCmp] at hab hbc
    exact Std.TransCmp.isLE_trans hab hbc

theorem sortRecords_eq_mergeSort (settings : Settings) (rs : List Record) :
    sortRecords settings rs = rs.mergeSort (comesBefore settings) := by
  unfold sortRecords
  cases hCmp : comparator? settings with
  | none =>
    -- nothing is out of order, so merging leaves the records alone
    refine (List.mergeSort_of_pairwise (List.pairwise_of_forall fun a b => ?_)).symm
    rw [comesBefore, hCmp]
  | some cmp =>
    have hBefore : comesBefore settings = fun a b => (cmp a b).isLE := by
      funext a b
      rw [comesBefore, hCmp]
    rw [hBefore]

theorem sortRecords_perm (settings : Settings) (rs : List Record) :
    (sortRecords settings rs).Perm rs := by
  rw [sortRecords_eq_mergeSort]
  exact List.mergeSort_perm _ _

theorem sortRecords_pairwise (settings : Settings) (rs : List Record) :
    (sortRecords settings rs).Pairwise fun a b => comesBefore settings a b = true := by
  rw [sortRecords_eq_mergeSort]
  apply List.pairwise_mergeSort
  · intro a b c hab hbc
    exact comesBefore_trans hab hbc
  · intro a b
    exact Bool.or_eq_true_iff.mpr (comesBefore_total settings a b)

theorem sortRecords_of_pairwise {settings : Settings} {rs : List Record}
    (h : rs.Pairwise fun a b => comesBefore settings a b = true) :
    sortRecords settings rs = rs := by
  rw [sortRecords_eq_mergeSort]
  exact List.mergeSort_of_pairwise h

/-! ## Blocks of kinds -/

/-- A list in which what satisfies `p` comes first is cut in two by `p`. -/
theorem filter_append_filter_not {p : Record → Bool} {rs : List Record}
    (h : rs.Pairwise fun a b => p b = true → p a = true) :
    rs.filter p ++ rs.filter (fun r => !p r) = rs := by
  induction rs with
  | nil => rfl
  | cons r rs ih =>
    obtain ⟨hHead, hTail⟩ := List.pairwise_cons.mp h
    cases hp : p r with
    | true => simp [hp, ih hTail]
    | false =>
      have hRest : ∀ b ∈ rs, p b = false := by
        intro b hb
        cases hpb : p b with
        | false => rfl
        | true => simp [hHead b hb hpb] at hp
      have hNone : rs.filter p = [] := by
        simpa [List.filter_eq_nil_iff] using hRest
      have hAll : rs.filter (fun r => !p r) = rs := by
        simpa [List.filter_eq_self] using hRest
      simp [hp, hNone, hAll]

/-- Records without the first kind: the later kinds still find all of theirs. -/
theorem filter_kind_filter_ne {k k' : ImportKind} (h : k' ≠ k) (rs : List Record) :
    (rs.filter fun r => !(r.kind == k)).filter (·.kind == k') = rs.filter (·.kind == k') := by
  rw [List.filter_filter]
  apply List.filter_congr
  intro r _
  by_cases hr : r.kind = k'
  · simp [hr, h]
  · simp [hr]

theorem flatMap_filter_kind_cons {k : ImportKind} {ks : List ImportKind} (hNot : k ∉ ks)
    (rs : List Record) :
    (ks.flatMap fun k' => (rs.filter fun r => !(r.kind == k)).filter (·.kind == k')) =
      ks.flatMap fun k' => rs.filter (·.kind == k') := by
  simp only [List.flatMap]
  congr 1
  apply List.map_congr_left
  intro k' hk'
  have hne : k' ≠ k := by
    rintro rfl
    exact hNot hk'
  exact filter_kind_filter_ne hne rs

theorem kind_mem_of_filter_ne {k : ImportKind} {ks : List ImportKind} {rs : List Record}
    (hAll : ∀ r ∈ rs, r.kind ∈ k :: ks) :
    ∀ r ∈ rs.filter (fun r => !(r.kind == k)), r.kind ∈ ks := by
  intro r hr
  obtain ⟨hr, hne⟩ := List.mem_filter.mp hr
  have hMem := hAll r hr
  simp only [List.mem_cons] at hMem
  exact hMem.resolve_left (by simpa using hne)

/-- Cutting records into blocks by kind loses none, if every kind has a block of its own. -/
theorem flatMap_filter_kind_perm {kinds : List ImportKind} (hNodup : kinds.Nodup)
    {rs : List Record} (hAll : ∀ r ∈ rs, r.kind ∈ kinds) :
    (kinds.flatMap fun k => rs.filter (·.kind == k)).Perm rs := by
  induction kinds generalizing rs with
  | nil =>
    cases rs with
    | nil => exact List.Perm.refl _
    | cons r rs => exact absurd (hAll r List.mem_cons_self) (by simp)
  | cons k ks ih =>
    obtain ⟨hNot, hTail⟩ := List.nodup_cons.mp hNodup
    have hLater := ih hTail (kind_mem_of_filter_ne hAll)
    rw [flatMap_filter_kind_cons hNot] at hLater
    rw [List.flatMap_cons]
    exact (hLater.append_left _).trans (List.filter_append_perm _ rs)

/-- Records that stand in the order of kinds are their own blocks. -/
theorem flatMap_filter_kind_eq {kinds : List ImportKind} (hNodup : kinds.Nodup)
    {rs : List Record} (hAll : ∀ r ∈ rs, r.kind ∈ kinds)
    (hOrder : rs.Pairwise fun a b => kinds.idxOf a.kind ≤ kinds.idxOf b.kind) :
    (kinds.flatMap fun k => rs.filter (·.kind == k)) = rs := by
  induction kinds generalizing rs with
  | nil =>
    cases rs with
    | nil => rfl
    | cons r rs => exact absurd (hAll r List.mem_cons_self) (by simp)
  | cons k ks ih =>
    obtain ⟨hNot, hTail⟩ := List.nodup_cons.mp hNodup
    -- the records of the first kind stand in front of all others
    have hFirst : rs.Pairwise fun a b => (b.kind == k) = true → (a.kind == k) = true := by
      refine hOrder.imp ?_
      intro a b hab hb
      simp only [beq_iff_eq] at hb ⊢
      rw [hb, List.idxOf_cons_self] at hab
      by_contra ha
      rw [List.idxOf_cons_ne _ (Ne.symm ha)] at hab
      omega
    have hOrderRest : (rs.filter fun r => !(r.kind == k)).Pairwise
        fun a b => ks.idxOf a.kind ≤ ks.idxOf b.kind := by
      rw [List.pairwise_filter]
      refine hOrder.imp ?_
      intro a b hab ha hb
      simp only [Bool.not_eq_true', beq_eq_false_iff_ne] at ha hb
      rw [List.idxOf_cons_ne _ (Ne.symm ha), List.idxOf_cons_ne _ (Ne.symm hb)] at hab
      omega
    have hLater := ih hTail (kind_mem_of_filter_ne hAll) hOrderRest
    rw [flatMap_filter_kind_cons hNot] at hLater
    rw [List.flatMap_cons, hLater]
    exact filter_append_filter_not hFirst

/-! ## The order of the settings -/

/-- The order that the settings ask for: by kind, if they say so, and then by the comparison. -/
def Precedes (settings : Settings) (a b : Record) : Prop :=
  match settings.kindOrder with
  | none => comesBefore settings a b = true
  | some order =>
    order.kinds.idxOf a.kind < order.kinds.idxOf b.kind ∨
      a.kind = b.kind ∧ comesBefore settings a b = true

theorem KindOrder.nodup (order : KindOrder) : order.kinds.Nodup :=
  order.complete.nodup_iff.mpr (by decide)

theorem KindOrder.mem (order : KindOrder) (kind : ImportKind) : kind ∈ order.kinds :=
  order.complete.mem_iff.mpr (by cases kind <;> decide)

/-- No record is lost, and none is made. -/
theorem orderRecords_perm (settings : Settings) (rs : List Record) :
    (orderRecords settings rs).Perm rs := by
  unfold orderRecords
  split
  · exact sortRecords_perm settings rs
  · next order _ =>
    have hBlocks : (order.kinds.flatMap fun k =>
        sortRecords settings (rs.filter (·.kind == k))).Perm
          (order.kinds.flatMap fun k => rs.filter (·.kind == k)) :=
      List.Perm.flatMap_left _ fun k _ => sortRecords_perm settings _
    exact hBlocks.trans (flatMap_filter_kind_perm order.nodup fun r _ => order.mem r.kind)

/-- Blocks in the order of kinds stand in a relation that holds inside each block and from one block
to a later one. -/
theorem pairwise_blocks (order : KindOrder) {block : ImportKind → List Record}
    (hKind : ∀ kind, ∀ r ∈ block kind, r.kind = kind) {R : Record → Record → Prop}
    (hInside : ∀ kind, (block kind).Pairwise R)
    (hAcross : ∀ a b, order.kinds.idxOf a.kind < order.kinds.idxOf b.kind → R a b) :
    (order.kinds.flatMap block).Pairwise R := by
  rw [List.pairwise_flatMap]
  refine ⟨fun kind _ => hInside kind, List.pairwise_iff_getElem.mpr ?_⟩
  intro i j hi hj hij a ha b hb
  refine hAcross a b ?_
  rw [hKind _ a ha, hKind _ b hb, order.nodup.idxOf_getElem, order.nodup.idxOf_getElem]
  exact hij

/-- The result stands in the order of the settings. -/
theorem orderRecords_pairwise (settings : Settings) (rs : List Record) :
    (orderRecords settings rs).Pairwise (Precedes settings) := by
  unfold orderRecords Precedes
  cases hOrder : settings.kindOrder with
  | none => exact sortRecords_pairwise settings rs
  | some order =>
    have hKind : ∀ k, ∀ r ∈ sortRecords settings (rs.filter (·.kind == k)), r.kind = k := by
      intro k r hr
      have hMem := (sortRecords_perm settings _).mem_iff.mp hr
      simpa using (List.mem_filter.mp hMem).2
    refine pairwise_blocks order hKind (fun k => ?_) fun a b hLess => .inl hLess
    refine (sortRecords_pairwise settings _).imp_of_mem ?_
    intro a b ha hb hab
    exact .inr ⟨(hKind k a ha).trans (hKind k b hb).symm, hab⟩

/-- Records that stand in the order of the settings are left as they are. -/
theorem orderRecords_of_pairwise {settings : Settings} {rs : List Record}
    (h : rs.Pairwise (Precedes settings)) : orderRecords settings rs = rs := by
  unfold orderRecords
  unfold Precedes at h
  split
  · next hNone =>
    simp only [hNone] at h
    exact sortRecords_of_pairwise h
  · next order hOrder =>
    simp only [hOrder] at h
    -- within a block the kinds agree, so the comparison decides
    have hBlock : ∀ k ∈ order.kinds,
        sortRecords settings (rs.filter (·.kind == k)) = rs.filter (·.kind == k) := by
      intro k _
      apply sortRecords_of_pairwise
      rw [List.pairwise_filter]
      refine h.imp ?_
      intro a b hab ha hb
      simp only [beq_iff_eq] at ha hb
      rcases hab with hlt | ⟨-, hab⟩
      · rw [ha, hb] at hlt
        omega
      · exact hab
    have hKinds : rs.Pairwise fun a b =>
        order.kinds.idxOf a.kind ≤ order.kinds.idxOf b.kind := by
      refine h.imp ?_
      intro a b hab
      rcases hab with hlt | ⟨heq, -⟩
      · omega
      · rw [heq]
    rw [List.flatMap, List.map_congr_left hBlock]
    exact flatMap_filter_kind_eq order.nodup (fun r _ => order.mem r.kind) hKinds

/-! ## What the order looks at -/

theorem comesBefore_congr {settings : Settings} {a a' b b' : Record} (haKind : a.kind = a'.kind)
    (haPath : a.path = a'.path) (hbKind : b.kind = b'.kind) (hbPath : b.path = b'.path) :
    comesBefore settings a b = comesBefore settings a' b' := by
  have hAlpha : ∀ sensitive, compareAlpha sensitive a b = compareAlpha sensitive a' b' := by
    intro sensitive
    rw [compareAlpha, compareAlpha, alphaKey, alphaKey, alphaKey, alphaKey, haPath, hbPath]
  have hLength : ∀ sensitive, compareLength sensitive a b = compareLength sensitive a' b' := by
    intro sensitive
    have ha : lengthKey a = lengthKey a' := by rw [lengthKey, lengthKey, haKind, haPath]
    have hb : lengthKey b = lengthKey b' := by rw [lengthKey, lengthKey, hbKind, hbPath]
    rw [compareLength, compareLength, ha, hb]
  have hNamespace : compareNamespace settings a b = compareNamespace settings a' b' := by
    simp only [compareNamespace, hAlpha, haPath, hbPath]
  unfold comesBefore comparator?
  cases settings.algorithm <;> simp only [hAlpha, hLength, hNamespace]

/-- Two lists of records with the same kinds and paths stand in order together. -/
theorem precedes_pairwise_congr {settings : Settings} {rs rs' : List Record}
    (hSame : rs.map (fun r => (r.kind, r.path)) = rs'.map fun r => (r.kind, r.path))
    (h : rs.Pairwise (Precedes settings)) : rs'.Pairwise (Precedes settings) := by
  have hLength : rs.length = rs'.length := by
    simpa using congrArg List.length hSame
  have hKeys : ∀ i (hi : i < rs.length) (hi' : i < rs'.length),
      rs[i].kind = rs'[i].kind ∧ rs[i].path = rs'[i].path := by
    intro i hi hi'
    have hGet : (rs.map fun r => (r.kind, r.path))[i]? =
        (rs'.map fun r => (r.kind, r.path))[i]? := by
      rw [hSame]
    simpa [List.getElem?_eq_getElem hi, List.getElem?_eq_getElem hi'] using hGet
  rw [List.pairwise_iff_getElem] at h ⊢
  intro i j hi hj hij
  obtain ⟨hiKind, hiPath⟩ := hKeys i (by omega) hi
  obtain ⟨hjKind, hjPath⟩ := hKeys j (by omega) hj
  have hOrder := h i j (by omega) (by omega) hij
  unfold Precedes at hOrder ⊢
  rwa [comesBefore_congr hiKind hiPath hjKind hjPath, hiKind, hjKind] at hOrder

end UseOrder
