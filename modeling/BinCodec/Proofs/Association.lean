import BinCodec.Proofs.KeyRuns
import BinCodec.Proofs.Likeness
import Mathlib.Data.List.Pairwise

/-!
# A map is what it associates

Entries associate with a key the last value that is given for it, where equal keys are one key
(`Entries.valueAt`). A map that is built from entries has one entry for every key that is given,
under the value associated with it (`Entries.Collected`). Such maps are equal exactly if they are
of one kind and associate equal values with equal keys: a map is compared by its entries in
ascending order, and ascending entries with one association agree one by one
(`forall₂_of_sameAssociation`).
-/

namespace BinCodec

/-! ## Looking up a key -/

section Lookup

variable (cmp : Datum → Datum → Ordering)

/-- The last value that is given for a key or one equal to it. -/
def Entries.valueAt (es : Entries) (k : Datum) : Option Datum :=
  (es.filter fun e => cmp e.1 k == .eq).getLast?.map Prod.snd

/-- The same keys have values, and those are equal. -/
def Entries.SameAssociation (es fs : Entries) : Prop :=
  ∀ k, Option.Rel (fun v w => cmp v w = .eq) (es.valueAt cmp k) (fs.valueAt cmp k)

/-- A map of the given kind holds these entries after collecting the others: one for each key,
with the last of its values, and in ascending order if the map is sorted. -/
structure Entries.Collected (kind : MapKind) (es ms : Entries) : Prop where
  apart : ms.KeysApart cmp
  values : ∀ k, ms.valueAt cmp k = es.valueAt cmp k
  ascending : kind = .sorted → ms.KeysAscend cmp

variable {cmp} {es fs : Entries} {k v : Datum}

theorem Entries.SameAssociation.exists_value (same : es.SameAssociation cmp fs)
    (given : es.valueAt cmp k = some v) : ∃ w, fs.valueAt cmp k = some w ∧ cmp v w = .eq := by
  have related := same k
  rw [given] at related
  cases found : fs.valueAt cmp k with
  | some w =>
    rw [found] at related
    cases related with
    | some value => exact ⟨w, rfl, value⟩
  | none =>
    rw [found] at related
    cases related

theorem mem_of_valueAt (h : es.valueAt cmp k = some v) : ∃ e ∈ es, cmp e.1 k = .eq ∧ e.2 = v := by
  obtain ⟨e, last, value⟩ := Option.map_eq_some_iff.mp h
  obtain ⟨mem, tie⟩ := List.mem_filter.mp (List.mem_of_getLast? last)
  exact ⟨e, mem, beq_iff_eq.mp tie, value⟩

theorem valueAt_cons (e : Datum × Datum) (es : Entries) (k : Datum) :
    Entries.valueAt cmp (e :: es) k =
      (es.valueAt cmp k).or (if cmp e.1 k = .eq then some e.2 else none) := by
  unfold Entries.valueAt
  by_cases tie : cmp e.1 k = .eq
  · rw [List.filter_cons, if_pos (beq_iff_eq.mpr tie), List.getLast?_cons, if_pos tie]
    cases (es.filter fun e => cmp e.1 k == .eq).getLast? <;> rfl
  · rw [List.filter_cons, if_neg (mt beq_iff_eq.mp tie), if_neg tie, Option.or_none]

variable [Std.TransCmp cmp]

theorem Entries.SameAssociation.symm (same : es.SameAssociation cmp fs) :
    fs.SameAssociation cmp es := by
  intro k
  have related := same k
  generalize es.valueAt cmp k = v, fs.valueAt cmp k = w at related
  cases related with
  | some value => exact .some (Std.OrientedCmp.eq_symm value)
  | none => exact .none

theorem Entries.eq_of_tie (apart : es.KeysApart cmp) {e f : Datum × Datum} (he : e ∈ es)
    (hf : f ∈ es) (tie : cmp e.1 f.1 = .eq) : e = f := by
  have symm : Std.Symm fun e f : Datum × Datum => cmp e.1 f.1 ≠ .eq :=
    ⟨fun _ _ ne tie => ne (Std.OrientedCmp.eq_symm tie)⟩
  by_contra ne
  exact apart.forall he hf ne tie

/-- Where keys are apart it does not matter which entry is the last one. -/
theorem valueAt_eq_some_iff (apart : es.KeysApart cmp) :
    es.valueAt cmp k = some v ↔ ∃ e ∈ es, cmp e.1 k = .eq ∧ e.2 = v := by
  refine ⟨mem_of_valueAt, ?_⟩
  rintro ⟨e, he, tie, rfl⟩
  have kept : e ∈ es.filter fun e => cmp e.1 k == .eq :=
    List.mem_filter.mpr ⟨he, beq_iff_eq.mpr tie⟩
  have last := List.getLast?_eq_some_getLast (List.ne_nil_of_mem kept)
  obtain ⟨hf, tie'⟩ := List.mem_filter.mp (List.getLast_mem (List.ne_nil_of_mem kept))
  have same := Entries.eq_of_tie apart hf he
    (Std.TransCmp.eq_trans (beq_iff_eq.mp tie') (Std.OrientedCmp.eq_symm tie))
  rw [Entries.valueAt, last, same]
  rfl

theorem valueAt_congr {l : Datum} (tie : cmp k l = .eq) : es.valueAt cmp k = es.valueAt cmp l := by
  have tied (e : Datum × Datum) : cmp e.1 k = cmp e.1 l := Std.TransCmp.congr_right tie
  unfold Entries.valueAt
  simp only [tied]

theorem valueAt_perm (apart : es.KeysApart cmp) (perm : fs.Perm es) :
    fs.valueAt cmp k = es.valueAt cmp k := by
  apply Option.ext
  intro v
  rw [valueAt_eq_some_iff apart, valueAt_eq_some_iff (apart.perm perm)]
  simp only [perm.mem_iff]

/-- An entry may be dropped if its key is given again. -/
theorem exists_apart (es : Entries) :
    ∃ ms : Entries, ms.KeysApart cmp ∧ ∀ k, ms.valueAt cmp k = es.valueAt cmp k := by
  induction es with
  | nil => exact ⟨[], .nil, fun _ => rfl⟩
  | cons e es ih =>
    obtain ⟨ms, apart, values⟩ := ih
    cases again : ms.valueAt cmp e.1 with
    | some v =>
      refine ⟨ms, apart, ?_⟩
      intro k
      rw [valueAt_cons, ← values]
      split
      · next tie =>
        rw [← valueAt_congr tie, again]
        rfl
      · rw [Option.or_none]
    | none =>
      refine ⟨e :: ms, List.pairwise_cons.mpr ⟨?_, apart⟩, ?_⟩
      · intro f hf tie
        have found := (valueAt_eq_some_iff apart).mpr ⟨f, hf, Std.OrientedCmp.eq_symm tie, rfl⟩
        rw [again] at found
        cases found
      · intro k
        rw [valueAt_cons, valueAt_cons, values]

theorem exists_collected (kind : MapKind) (es : Entries) : ∃ ms, es.Collected cmp kind ms := by
  obtain ⟨ms, apart, values⟩ :
      ∃ ms : Entries, ms.KeysApart cmp ∧ ∀ k, ms.valueAt cmp k = es.valueAt cmp k :=
    exists_apart es
  have arranged := arranged_mergeSort (transCmp_on ‹Std.TransCmp cmp› Prod.fst) ms
  have apart' := apart.perm arranged.perm
  refine ⟨_, apart', ?_, ?_⟩
  · intro k
    rw [valueAt_perm apart arranged.perm, values]
  · intro _
    apply (List.pairwise_and_iff.mpr ⟨arranged.ascending, apart'⟩).imp
    intro e f ⟨le, ne⟩
    exact (Ordering.isLE_iff_eq_lt_or_eq_eq.mp le).resolve_right ne

end Lookup

/-! ## Collected entries -/

section Collected

variable {es ms : Entries}

theorem collected_sorted {keep : Entries → Option (Datum × Datum)}
    (keeps : SortKey.Keeps (fun e : Datum × Datum => e.1.sortKey) Prod.snd keep) (es : Entries) :
    Entries.Collected Datum.compare .sorted es (es.byKey.filterMap keep) := by
  have ascending : Entries.KeysAscend Datum.compare (es.byKey.filterMap keep) := keeps.ascending es
  exact ⟨ascending.apart, fun k => keeps.lastAt_runs es k.sortKey, fun _ => ascending⟩

theorem collected_unordered (es : Entries) :
    Entries.Collected Datum.compare .unordered es es.unordered := by
  let placedKey (e : (Nat × Datum) × Datum) := e.1.2.sortKey
  let strip (e : (Nat × Datum) × Datum) := (e.1.2, e.2)
  let placed : List ((Nat × Datum) × Datum) := es.zipIdx.map fun p => ((p.2, p.1.1), p.1.2)
  let merged := (SortKey.runs placedKey placed).filterMap Entries.firstKeyLastValue
  have keeps : SortKey.Keeps placedKey Prod.snd Entries.firstKeyLastValue :=
    Entries.keeps_firstKeyLastValue fun place : Nat × Datum => place.2.sortKey
  have given : placed.map strip = es := by
    rw [List.map_map]
    exact List.zipIdx_map_fst 0 es
  have ascending : Entries.KeysAscend Datum.compare (merged.map strip) :=
    List.pairwise_map.mpr (keeps.ascending placed)
  have perm : es.unordered.Perm (merged.map strip) := (List.mergeSort_perm merged _).map strip
  have apart := ascending.apart
  refine ⟨apart.perm perm, ?_, fun kinds => by cases kinds⟩
  intro k
  calc
    es.unordered.valueAt Datum.compare k = Entries.valueAt Datum.compare (merged.map strip) k :=
      valueAt_perm apart perm
    _ = SortKey.lastAt placedKey Prod.snd merged k.sortKey := SortKey.lastAt_map strip merged _
    _ = SortKey.lastAt placedKey Prod.snd placed k.sortKey := keeps.lastAt_runs placed _
    _ = SortKey.lastAt (fun e => e.1.sortKey) Prod.snd (placed.map strip) k.sortKey := by
      rw [SortKey.lastAt_map strip]
    _ = es.valueAt Datum.compare k := by
      rw [given]
      rfl

theorem collected_collect (kind : MapKind) (es : Entries) :
    Entries.Collected Datum.compare kind es (kind.collect es) := by
  cases kind with
  | unordered => exact collected_unordered es
  | sorted => exact collected_sorted (SortKey.keeps_getLast _ _) es

end Collected

/-! ## Ascending entries -/

section Ascending

variable {cmp : Datum → Datum → Ordering} [Std.TransCmp cmp] {es fs : Entries} {e f : Datum × Datum}

theorem sameAssociation_of_forall₂
    (h : List.Forall₂ (fun e f => cmp e.1 f.1 = .eq ∧ cmp e.2 f.2 = .eq) es fs) :
    es.SameAssociation cmp fs := by
  induction h with
  | nil => exact fun _ => .none
  | @cons e f es fs first _ ih =>
    intro k
    have tie : cmp e.1 k = cmp f.1 k := Std.TransCmp.congr_left first.1
    have tails := ih k
    rw [valueAt_cons, valueAt_cons, tie]
    generalize Entries.valueAt cmp es k = v, Entries.valueAt cmp fs k = w at tails
    cases tails with
    | some value => exact .some value
    | none =>
      rw [Option.none_or, Option.none_or]
      split
      · exact .some first.2
      · exact .none

theorem isLE_of_valueAt (ascending : Entries.KeysAscend cmp (e :: es)) {k v : Datum}
    (h : Entries.valueAt cmp (e :: es) k = some v) : (cmp e.1 k).isLE := by
  obtain ⟨f, hf, tie, -⟩ := mem_of_valueAt h
  rw [← Std.TransCmp.congr_right tie]
  rcases List.mem_cons.mp hf with rfl | later
  · have self : cmp f.1 f.1 = .eq := Std.ReflCmp.compare_self
    rw [self]
    rfl
  · rw [List.rel_of_pairwise_cons ascending later]
    rfl

theorem valueAt_self (apart : Entries.KeysApart cmp (e :: es)) :
    Entries.valueAt cmp (e :: es) e.1 = some e.2 :=
  (valueAt_eq_some_iff apart).mpr ⟨e, List.mem_cons_self, Std.ReflCmp.compare_self, rfl⟩

theorem valueAt_tail (apart : Entries.KeysApart cmp (e :: es)) {k : Datum} (tie : cmp e.1 k = .eq) :
    es.valueAt cmp k = none := by
  by_contra some
  obtain ⟨v, value⟩ := Option.ne_none_iff_exists'.mp some
  obtain ⟨f, hf, tie', -⟩ := mem_of_valueAt value
  exact List.rel_of_pairwise_cons apart hf
    (Std.TransCmp.eq_trans tie (Std.OrientedCmp.eq_symm tie'))

/-- Ascending entries that make one association agree one by one: the first keys are each the
least, hence equal, and so are the values associated with them. -/
theorem forall₂_of_sameAssociation (ascending : es.KeysAscend cmp) (ascending' : fs.KeysAscend cmp)
    (same : es.SameAssociation cmp fs) :
    List.Forall₂ (fun e f => cmp e.1 f.1 = .eq ∧ cmp e.2 f.2 = .eq) es fs := by
  induction es generalizing fs with
  | nil =>
    cases fs with
    | nil => exact .nil
    | cons f fs =>
      have apart' := ascending'.apart
      obtain ⟨_, missing, -⟩ := same.symm.exists_value (valueAt_self apart')
      cases missing
  | cons e es ih =>
    have apart := ascending.apart
    obtain ⟨w, found, value⟩ := same.exists_value (valueAt_self apart)
    cases fs with
    | nil => cases found
    | cons f fs =>
      have apart' := ascending'.apart
      obtain ⟨v, found', -⟩ := same.symm.exists_value (valueAt_self apart')
      have key : cmp e.1 f.1 = .eq := Std.OrientedCmp.isLE_antisymm
        (isLE_of_valueAt ascending found') (isLE_of_valueAt ascending' found)
      obtain ⟨g, hg, tie, rfl⟩ := mem_of_valueAt found
      obtain rfl := Entries.eq_of_tie apart' hg List.mem_cons_self (Std.TransCmp.eq_trans tie key)
      apply List.Forall₂.cons ⟨key, value⟩
      apply ih ascending.of_cons ascending'.of_cons
      intro k
      by_cases tie : cmp e.1 k = .eq
      · rw [valueAt_tail apart tie, valueAt_tail apart' (Std.TransCmp.congr_left key ▸ tie)]
        exact .none
      · have tails := same k
        rwa [valueAt_cons, valueAt_cons, if_neg tie, if_neg (Std.TransCmp.congr_left key ▸ tie),
          Option.or_none, Option.or_none] at tails

end Ascending

/-! ## Comparing maps -/

section Comparing

variable {ord : ObjectOrder} {r : Comparison} {kind kind' : MapKind} {es fs ms ns : Entries}

theorem Comparison.collection_eq_eq : r.collection kind es kind' fs = .eq ↔ kind = kind' ∧
    List.Forall₂ (fun e f => r.datum e.1 f.1 = .eq ∧ r.datum e.2 f.2 = .eq)
      (r.arranged kind es) (r.arranged kind' fs) := by
  have rank_injective : kind.rank = kind'.rank ↔ kind = kind' := by
    cases kind <;> cases kind' <;> simp [MapKind.rank]
  have entry (e f : Datum × Datum) :
      r.entry e f = .eq ↔ r.datum e.1 f.1 = .eq ∧ r.datum e.2 f.2 = .eq := Ordering.then_eq_eq
  simp only [Comparison.collection_eq, Ordering.then_eq_eq, compareLex_eq_eq, entry,
    Std.LawfulEqCmp.compare_eq_iff_eq, rank_injective]

theorem structural_map : ord.structural.datum (.map kind es) (.map kind' fs) =
    ord.structural.collection kind es kind' fs := by
  rw [ObjectOrder.structural_datum_layer]
  cases kind <;> cases kind' <;> rfl

theorem structural_valueMap {order order' : MapOrder} {c d : Cache} :
    ord.structural.value (.map kind es order c) (.map kind' fs order' d) =
      (Ord.compare (order.rank : Int) order'.rank).then
        (ord.structural.collection kind es kind' fs) := ObjectOrder.structural_value_layer _ _

theorem ascending_arranged (lawful : r.Lawful) (apart : ms.KeysApart r.datum)
    (ascending : kind = .sorted → ms.KeysAscend r.datum) :
    (r.arranged kind ms).KeysAscend r.datum := by
  cases kind with
  | sorted => exact ascending rfl
  | unordered =>
    have trans := lawful.datum
    have sorted := arranged_mergeSort (Comparison.transCmp_entry lawful) ms
    have both := List.pairwise_and_iff.mpr ⟨sorted.ascending, apart.perm sorted.perm⟩
    apply both.imp
    intro e f ⟨le, ne⟩
    unfold Comparison.entry at le
    cases key : r.datum e.1 f.1 with
    | lt => rfl
    | eq => exact absurd key ne
    | gt =>
      rw [key] at le
      cases le

theorem Entries.Collected.valueAt_arranged (lawful : r.Lawful)
    (collected : es.Collected r.datum kind ms) (k : Datum) :
    (r.arranged kind ms).valueAt r.datum k = es.valueAt r.datum k := by
  rw [← collected.values]
  cases kind with
  | sorted => rfl
  | unordered =>
    have trans := lawful.datum
    exact valueAt_perm collected.apart (List.mergeSort_perm _ _)

/-- Maps that collect entries are compared by what the entries associate. -/
theorem collection_eq_iff_sameAssociation (lawful : r.Lawful)
    (left : es.Collected r.datum kind ms) (right : fs.Collected r.datum kind' ns) :
    r.collection kind ms kind' ns = .eq ↔ kind = kind' ∧ es.SameAssociation r.datum fs := by
  have trans := lawful.datum
  have values : (r.arranged kind ms).SameAssociation r.datum (r.arranged kind' ns) ↔
      es.SameAssociation r.datum fs := by
    unfold Entries.SameAssociation
    simp only [left.valueAt_arranged lawful, right.valueAt_arranged lawful]
  rw [Comparison.collection_eq_eq, ← values]
  constructor
  · rintro ⟨kinds, related⟩
    exact ⟨kinds, sameAssociation_of_forall₂ related⟩
  · rintro ⟨kinds, same⟩
    exact ⟨kinds, forall₂_of_sameAssociation
      (ascending_arranged lawful left.apart left.ascending)
      (ascending_arranged lawful right.apart right.ascending) same⟩

theorem map_eq_iff_sameAssociation (lawful : ord.Lawful)
    (left : es.Collected ord.structural.datum kind ms)
    (right : fs.Collected ord.structural.datum kind' ns) :
    ord.structural.datum (.map kind ms) (.map kind' ns) = .eq ↔
      kind = kind' ∧ es.SameAssociation ord.structural.datum fs := by
  rw [structural_map]
  exact collection_eq_iff_sameAssociation
    (ObjectOrder.structural_lawful (ObjectOrder.lawful_cmp lawful)) left right

end Comparing

/-- Whatever order the types of objects have, entries can be collected into a map of either kind,
with one entry for each key. Maps that hold what they collect are equal exactly if they are of one
kind and the entries they collect make one association, however often and in what order the
entries are given. Collecting by sort keys does give such maps, and the entries of a sorted map
strictly ascend by their keys. -/
theorem map_equality_is_association {ord : ObjectOrder} (lawful : ord.Lawful) :
    (∀ (kind : MapKind) (es : Entries), ∃ ms, es.Collected ord.structural.datum kind ms) ∧
    (∀ (kind kind' : MapKind) (es fs ms ns : Entries),
      es.Collected ord.structural.datum kind ms → fs.Collected ord.structural.datum kind' ns →
        (ord.structural.datum (.map kind ms) (.map kind' ns) = .eq ↔
          kind = kind' ∧ es.SameAssociation ord.structural.datum fs)) ∧
    (∀ (kind : MapKind) (es : Entries), es.Collected Datum.compare kind (kind.collect es)) ∧
    (∀ (kind kind' : MapKind) (es fs : Entries),
      (Datum.mapOf kind es).same (.mapOf kind' fs) = true ↔
        kind = kind' ∧ es.SameAssociation Datum.compare fs) ∧
    ∀ es : Entries, (MapKind.sorted.collect es).KeysAscend Datum.compare := by
  have objects := ObjectOrder.lawful_cmp lawful
  have trans := (ObjectOrder.structural_lawful objects).datum
  refine ⟨exists_collected, fun _ _ _ _ _ _ => map_eq_iff_sameAssociation lawful,
    collected_collect, ?_, fun es => (collected_collect .sorted es).ascending rfl⟩
  intro kind kind' es fs
  have collected (kind : MapKind) (es : Entries) :
      es.Collected ObjectOrder.fieldwise.structural.datum kind (kind.collect es) := by
    rw [structural_fieldwise]
    exact collected_collect kind es
  have equal := map_eq_iff_sameAssociation ObjectOrder.lawful_fieldwise (collected kind es)
    (collected kind' fs)
  rw [structural_fieldwise] at equal
  exact beq_iff_eq.trans equal

/-- An unordered map as a key in two layouts, each given more than once, with a last value that is
laid out differently too. -/
theorem map_equality_is_association_relaid :
    let ab : Datum := .map .unordered [(.text "a", .null), (.text "b", .null)]
    let ba : Datum := .map .unordered [(.text "b", .null), (.text "a", .null)]
    (Datum.mapOf .unordered [(ab, .int 1), (.null, .int 2), (ba, ab)]).same
      (.mapOf .unordered [(ba, .int 3), (ab, ba), (.null, .int 2)]) = true := by
  intro ab ba
  have laws := map_equality_is_association ObjectOrder.lawful_fieldwise
  obtain ⟨-, -, -, equal, -⟩ := laws
  apply (equal .unordered .unordered _ _).mpr
  refine ⟨rfl, ?_⟩
  have keys : ab.sortKey = ba.sortKey :=
    congrArg (SortKey.node 14) (ascending_of_perm (.swap _ _ []))
  have same (k : Datum) : ba.compare k = ab.compare k := by
    rw [Datum.compare, ← keys, Datum.compare]
  have alike : ab.compare ba = .eq := by rw [Datum.compare, keys, SortKey.compare_self]
  have apart : ab.compare .null ≠ .eq := by
    intro tie
    cases tie
  intro k
  simp only [valueAt_cons, same]
  by_cases atMap : ab.compare k = .eq
  · have notNull : Datum.null.compare k ≠ .eq := fun tie =>
      apart (Std.TransCmp.eq_trans atMap (Std.OrientedCmp.eq_symm tie))
    simp only [if_pos atMap, if_neg notNull]
    exact Option.rel_some_some.mpr alike
  · simp only [if_neg atMap]
    split
    · exact Option.rel_some_some.mpr rfl
    · exact .none

end BinCodec
