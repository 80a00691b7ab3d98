import UseOrder.Proofs.Ordering

/-!
# Ordering records is stable sorting

`StableSorted` says what a list of records has to be, to be another one in the order of the
settings: the same records, in blocks by kind if the settings ask for them, sorted within a block,
and with the old order among records that the settings do not tell apart. There is one such list
only (`eq_of_precedes`), and `orderRecords` gives it. A list in order is its own stable sorting, so
ordering it again changes nothing.
-/

namespace UseOrder

/-! ## Records that are not told apart -/

/-- Two records go to one block: they are of one kind, or the settings mix the kinds. -/
def sameBlock (settings : Settings) (a b : Record) : Bool :=
  settings.kindOrder.isNone || a.kind == b.kind

/-- Two records of one block compare equal. Without a comparison, all records of a block do. -/
def tied (settings : Settings) (a b : Record) : Bool :=
  sameBlock settings a b &&
    match comparator? settings with
    | none => true
    | some cmp => cmp a b == .eq

/-- Tied records are those of a block of which neither is put in front of the other. -/
theorem tied_iff {settings : Settings} {a b : Record} :
    tied settings a b = true ↔ sameBlock settings a b = true ∧
      comesBefore settings a b = true ∧ comesBefore settings b a = true := by
  rw [tied, Bool.and_eq_true]
  refine and_congr_right fun _ => ?_
  unfold comesBefore
  cases hCmp : comparator? settings with
  | none => simp
  | some cmp =>
    have hTrans : Std.TransCmp cmp := comparator?_transCmp hCmp
    simp only [beq_iff_eq]
    rw [@Std.OrientedCmp.eq_swap _ cmp _ b a]
    cases cmp a b <;> simp

theorem sameBlock_refl (settings : Settings) (a : Record) : sameBlock settings a a = true := by
  simp [sameBlock]

theorem tied_refl (settings : Settings) (a : Record) : tied settings a a = true := by
  have hSelf := (comesBefore_total settings a a).elim id id
  exact tied_iff.mpr ⟨sameBlock_refl settings a, hSelf, hSelf⟩

/-- Records that are tied with one are in order in any sequence. -/
theorem comesBefore_of_tied {settings : Settings} {a b c : Record} (hb : tied settings a b = true)
    (hc : tied settings a c = true) : comesBefore settings b c = true :=
  comesBefore_trans (tied_iff.mp hb).2.2 (tied_iff.mp hc).2.1

theorem kind_of_tied {settings : Settings} {order : KindOrder} {a b : Record}
    (hOrder : settings.kindOrder = some order) (h : tied settings a b = true) :
    a.kind = b.kind := by
  simpa [sameBlock, hOrder] using (tied_iff.mp h).1

/-! ## What ordering keeps -/

/-- Sorting leaves records alone that are in order in any sequence. -/
theorem filter_sortRecords {settings : Settings} {p : Record → Bool}
    (h : ∀ a b, p a = true → p b = true → comesBefore settings a b = true) (rs : List Record) :
    (sortRecords settings rs).filter p = rs.filter p := by
  rw [sortRecords_eq_mergeSort]
  refine filter_mergeSort ?_ ?_ h rs
  · intro a b c hab hbc
    exact comesBefore_trans hab hbc
  · intro a b
    exact Bool.or_eq_true_iff.mpr (comesBefore_total settings a b)

/-- Tied records keep their order. -/
theorem filter_orderRecords (settings : Settings) (rs : List Record) (a : Record) :
    (orderRecords settings rs).filter (tied settings a) = rs.filter (tied settings a) := by
  have hSort := @filter_sortRecords settings (tied settings a)
    fun b c hb hc => comesBefore_of_tied hb hc
  unfold orderRecords
  split
  · exact hSort rs
  · next order hOrder =>
    -- all records that are tied with one are of its kind, so they are their own blocks
    have hKinds : (rs.filter (tied settings a)).Pairwise fun b c =>
        order.kinds.idxOf b.kind ≤ order.kinds.idxOf c.kind := by
      refine List.pairwise_filter.mpr (List.pairwise_of_forall fun b c hb hc => ?_)
      rw [← kind_of_tied hOrder hb, ← kind_of_tied hOrder hc]
    have hBlocks := flatMap_filter_kind_eq order.nodup (fun r _ => order.mem r.kind) hKinds
    rw [List.filter_flatMap]
    simp only [hSort]
    simpa only [List.filter_filter, Bool.and_comm] using hBlocks

/-- Records are cut into blocks by kind without loss exactly if every kind has one block. -/
theorem blocks_perm_iff (settings : Settings) (kinds : List ImportKind) :
    (∀ rs, (kinds.flatMap fun kind => sortRecords settings (rs.filter (·.kind == kind))).Perm rs) ↔
      kinds.Perm ImportKind.all := by
  have hSorted (rs : List Record) :
      (kinds.flatMap fun kind => sortRecords settings (rs.filter (·.kind == kind))).Perm
        (kinds.flatMap fun kind => rs.filter (·.kind == kind)) :=
    List.Perm.flatMap_left _ fun kind _ => sortRecords_perm settings _
  constructor
  · intro h
    -- one record of each kind: the blocks hold as many records of a kind as it has blocks
    have hEach := ((hSorted _).symm.trans
      (h (ImportKind.all.map fun kind => { name := [], kind := kind }))).map Record.kind
    have hOne : ∀ kind : ImportKind, (((ImportKind.all.map fun kind : ImportKind =>
        ({ name := [], kind := kind } : Record)).filter (·.kind == kind)).map Record.kind) =
          [kind] := by
      intro kind
      cases kind <;> decide
    rw [List.map_flatMap] at hEach
    simpa [hOne, Function.comp_def] using hEach
  · intro hPerm rs
    have hNodup : kinds.Nodup := hPerm.nodup_iff.mpr (by decide)
    refine (hSorted rs).trans (flatMap_filter_kind_perm hNodup fun r _ => ?_)
    exact hPerm.mem_iff.mpr (by cases r.kind <;> decide)

/-! ## Stable sorting -/

/-- What it takes for a list to be the stable sorting of another one. -/
structure StableSorted (settings : Settings) (rs out : List Record) : Prop where
  /-- No record is lost, and none is made. -/
  perm : out.Perm rs
  /-- The kinds form blocks, in the order of the settings if they give one. -/
  blocks : ∀ order, settings.kindOrder = some order →
    out = order.kinds.flatMap fun kind => out.filter (·.kind == kind)
  /-- Within a block no record compares greater than one behind it. -/
  sorted : ∀ cmp, comparator? settings = some cmp →
    out.Pairwise fun a b => sameBlock settings a b = true → (cmp a b).isLE = true
  /-- Records that compare equal keep their order, and without a comparison whole blocks do. -/
  stable : ∀ a, out.filter (tied settings a) = rs.filter (tied settings a)

theorem Precedes.idxOf_le {settings : Settings} {order : KindOrder} {a b : Record}
    (hOrder : settings.kindOrder = some order) (h : Precedes settings a b) :
    order.kinds.idxOf a.kind ≤ order.kinds.idxOf b.kind := by
  simp only [Precedes, hOrder] at h
  rcases h with hLess | ⟨hKind, -⟩
  · exact hLess.le
  · rw [hKind]

theorem Precedes.comesBefore {settings : Settings} {a b : Record} (h : Precedes settings a b)
    (hBlock : sameBlock settings a b = true) : comesBefore settings a b = true := by
  unfold Precedes at h
  cases hOrder : settings.kindOrder with
  | none => simpa only [hOrder] using h
  | some order =>
    have hKind : a.kind = b.kind := by simpa [sameBlock, hOrder] using hBlock
    simp only [hOrder, hKind, lt_irrefl, false_or] at h
    exact h.2

theorem stableSorted_orderRecords (settings : Settings) (rs : List Record) :
    StableSorted settings rs (orderRecords settings rs) := by
  have hPrecedes := orderRecords_pairwise settings rs
  refine ⟨orderRecords_perm settings rs, fun order hOrder => ?_, fun cmp hCmp => ?_,
    filter_orderRecords settings rs⟩
  · exact (flatMap_filter_kind_eq order.nodup (fun r _ => order.mem r.kind)
      (hPrecedes.imp fun h => h.idxOf_le hOrder)).symm
  · refine hPrecedes.imp fun {a b} h hBlock => ?_
    have hBefore := h.comesBefore hBlock
    rwa [UseOrder.comesBefore, hCmp] at hBefore

/-- Blocks in the order of kinds that are sorted within stand in the order of the settings. -/
theorem StableSorted.precedes {settings : Settings} {rs out : List Record}
    (h : StableSorted settings rs out) : out.Pairwise (Precedes settings) := by
  have hSorted : out.Pairwise fun a b =>
      sameBlock settings a b = true → comesBefore settings a b = true := by
    cases hCmp : comparator? settings with
    | none => exact List.pairwise_of_forall fun a b _ => by rw [comesBefore, hCmp]
    | some cmp => simpa only [comesBefore, hCmp] using h.sorted cmp hCmp
  unfold Precedes
  cases hOrder : settings.kindOrder with
  | none => exact hSorted.imp fun hab => hab (by simp [sameBlock, hOrder])
  | some order =>
    have hKind : ∀ kind, ∀ r ∈ out.filter (·.kind == kind), r.kind = kind := fun kind r hr => by
      simpa using (List.mem_filter.mp hr).2
    rw [h.blocks order hOrder]
    refine pairwise_blocks order hKind (fun kind => ?_) fun a b hLess => .inl hLess
    refine (hSorted.filter _).imp_of_mem ?_
    intro a b ha hb hab
    have hSame : a.kind = b.kind := (hKind kind a ha).trans (hKind kind b hb).symm
    exact .inr ⟨hSame, hab (by simp [sameBlock, hSame])⟩

theorem tied_of_precedes {settings : Settings} {a b : Record} (hab : Precedes settings a b)
    (hba : Precedes settings b a) : tied settings a b = true := by
  have hBlock : sameBlock settings a b = true := by
    cases hOrder : settings.kindOrder with
    | none => simp [sameBlock, hOrder]
    | some order =>
      have hEq := le_antisymm (hab.idxOf_le hOrder) (hba.idxOf_le hOrder)
      simp [sameBlock, (List.idxOf_inj (order.mem a.kind)).mp hEq]
  have hBack : sameBlock settings b a = true := by
    rwa [sameBlock, Bool.beq_comm, ← sameBlock]
  exact tied_iff.mpr ⟨hBlock, hab.comesBefore hBlock, hba.comesBefore hBack⟩

/-- Two lists that stand in the order of the settings, with the same sequences of tied records, are
the same: their first records are tied, and so they are the first of one sequence. -/
theorem eq_of_precedes {settings : Settings} {as bs : List Record}
    (has : as.Pairwise (Precedes settings)) (hbs : bs.Pairwise (Precedes settings))
    (h : ∀ c, as.filter (tied settings c) = bs.filter (tied settings c)) : as = bs := by
  have hMem {as bs : List Record}
      (h : ∀ c, as.filter (tied settings c) = bs.filter (tied settings c)) {a : Record}
      (ha : a ∈ as) : a ∈ bs :=
    (List.mem_filter.mp (h a ▸ List.mem_filter.mpr ⟨ha, tied_refl settings a⟩)).1
  induction as generalizing bs with
  | nil =>
    cases bs with
    | nil => rfl
    | cons b bs => exact absurd (hMem (fun c => (h c).symm) List.mem_cons_self) List.not_mem_nil
  | cons a as ih =>
    cases bs with
    | nil => exact absurd (hMem h List.mem_cons_self) List.not_mem_nil
    | cons b bs =>
      obtain ⟨haFirst, haRest⟩ := List.pairwise_cons.mp has
      obtain ⟨hbFirst, hbRest⟩ := List.pairwise_cons.mp hbs
      have hSame : a = b := by
        by_contra hNe
        -- each of the two stands behind the other in one of the lists, so they are tied
        have hab := haFirst b
          ((List.mem_cons.mp (hMem (fun c => (h c).symm) List.mem_cons_self)).resolve_left
            (Ne.symm hNe))
        have hba := hbFirst a ((List.mem_cons.mp (hMem h List.mem_cons_self)).resolve_left hNe)
        have hFirst := h a
        rw [List.filter_cons_of_pos (tied_refl settings a),
          List.filter_cons_of_pos (tied_of_precedes hab hba)] at hFirst
        exact hNe (List.cons.inj hFirst).1
      subst hSame
      -- taking the common first record away keeps the sequences equal
      refine congrArg (a :: ·) (ih haRest hbRest fun c => ?_)
      have hc := h c
      rw [List.filter_cons, List.filter_cons] at hc
      split at hc
      · exact (List.cons.inj hc).2
      · exact hc

/-- The records in the order that the settings ask for are their stable sorting, and the only one.
So records that are in order stay as they are. An order of kinds loses no record exactly because it
has every kind once. -/
theorem orderRecords_iff_stableSorted (settings : Settings) (rs : List Record) :
    (∀ out, out = orderRecords settings rs ↔ StableSorted settings rs out) ∧
      orderRecords settings (orderRecords settings rs) = orderRecords settings rs ∧
      ∀ kinds : List ImportKind,
        (∀ rs, (kinds.flatMap fun kind =>
          sortRecords settings (rs.filter (·.kind == kind))).Perm rs) ↔
        kinds.Perm ImportKind.all := by
  have hOrdered (rs : List Record) := stableSorted_orderRecords settings rs
  have hUnique {rs out : List Record} (h : StableSorted settings rs out) :
      out = orderRecords settings rs :=
    eq_of_precedes h.precedes (hOrdered rs).precedes fun c =>
      (h.stable c).trans ((hOrdered rs).stable c).symm
  refine ⟨fun out => ⟨fun h => h ▸ hOrdered rs, hUnique⟩, ?_, blocks_perm_iff settings⟩
  have hSelf : StableSorted settings (orderRecords settings rs) (orderRecords settings rs) :=
    ⟨List.Perm.refl _, (hOrdered rs).blocks, (hOrdered rs).sorted, fun _ => rfl⟩
  exact (hUnique hSelf).symm

end UseOrder
