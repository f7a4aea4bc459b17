import BinCodec.Proofs.Nesting
import Mathlib.Tactic.SplitIfs

/-!
# How packing composes

Facts about the packed encoding that do not depend on the bytes of any item. Arranging entries
commutes with mapping them, so a packed map is its header followed by its packed entries in
the order of the arrangement (`packArranged_packEntries`). An emission in parts succeeds
exactly if every part does (`error?_concat`). And what packs at all packs the same under
every configuration that allows objects to be serialized (`pack_of_enabled`).
-/

namespace BinCodec

/-! ## Arrangement -/

section Arrangement

variable {α β : Type}

theorem SortKey.sortOn_map (key : β → SortKey) (f : α → β) (xs : List α) :
    SortKey.sortOn key (xs.map f) = (SortKey.sortOn (fun x => key (f x)) xs).map f := by
  have sorted := List.map_mergeSort (r := fun a b : SortKey × α => (a.1.compare b.1).isLE)
    (s := fun a b : SortKey × β => (a.1.compare b.1).isLE) (f := Prod.map id f)
    (l := xs.map fun x => (key (f x), x)) (fun _ _ _ _ => rfl)
  simp only [List.map_map, Function.comp_def, Prod.map, id] at sorted
  simp only [SortKey.sortOn, SortKey.keyed, List.map_map, Function.comp_def, ← sorted]
  rfl

theorem SortKey.sortOn_perm (key : α → SortKey) (xs : List α) :
    (SortKey.sortOn key xs).Perm xs := by
  have h := (List.mergeSort_perm (xs.map fun x => (key x, x))
    fun a b => (a.1.compare b.1).isLE).map (·.2)
  simpa [SortKey.sortOn, SortKey.keyed, Function.comp_def] using h

theorem SortKey.sortOn_pair (key : α → SortKey) (x y : α) :
    SortKey.sortOn key [x, y] = if ((key x).compare (key y)).isLE then [x, y] else [y, x] := by
  simp only [SortKey.sortOn, SortKey.keyed, List.map_cons, List.map_nil, List.mergeSort]
  split_ifs with h <;> simp [h]

theorem MapOrder.arrange_map (order : MapOrder) (entry : β → Datum × Datum) (f : α → β)
    (xs : List α) :
    order.arrange entry (xs.map f) = (order.arrange (fun x => entry (f x)) xs).map f := by
  cases order with
  | unordered => rfl
  | key => exact SortKey.sortOn_map _ f xs
  | keyValue => exact SortKey.sortOn_map _ f xs

theorem MapOrder.arrange_perm (order : MapOrder) (entry : α → Datum × Datum) (xs : List α) :
    (order.arrange entry xs).Perm xs := by
  cases order with
  | unordered => exact .refl xs
  | key => exact SortKey.sortOn_perm _ xs
  | keyValue => exact SortKey.sortOn_perm _ xs

@[simp] theorem MapOrder.mem_arrange {order : MapOrder} {entry : α → Datum × Datum}
    {xs : List α} {x : α} : x ∈ order.arrange entry xs ↔ x ∈ xs :=
  (order.arrange_perm entry xs).mem_iff

/-- The entries of a map in the order in which they are packed. -/
def MapOrder.entries (order : MapOrder) (entries : Entries) : Entries := order.arrange id entries

/-- What is computed from each entry, in the order in which the entries are packed. -/
def MapOrder.along (order : MapOrder) (entries : Entries) (xs : List β) : List β :=
  (order.arrange (·.1) (entries.zip xs)).map (·.2)

theorem MapOrder.along_map (order : MapOrder) (entries : Entries) (f : Datum × Datum → β) :
    order.along entries (entries.map f) = (order.entries entries).map f := by
  have zipped : entries.zip (entries.map f) = entries.map fun e => (e, f e) := by
    induction entries with
    | nil => rfl
    | cons e es ih => simp [ih]
  rw [MapOrder.along, zipped, MapOrder.arrange_map, List.map_map]
  rfl

theorem MapOrder.along_pair (e f : Datum × Datum) (x y : β) :
    MapOrder.key.along [e, f] [x, y] =
      if (e.1.serverKey.compare f.1.serverKey).isLE then [x, y] else [y, x] := by
  rw [MapOrder.along, List.zip_cons_cons, List.zip_cons_cons, List.zip_nil_left, MapOrder.arrange,
    SortKey.sortOn_pair, apply_ite (List.map _)]
  rfl

/-- Entries that are sorted by the same keys are arranged alike, whatever else is in them. -/
theorem MapOrder.along_congr {order : MapOrder} {es fs : Entries}
    (keys : es.map order.entryKey = fs.map order.entryKey) (xs : List β) :
    order.along es xs = order.along fs xs := by
  -- What is arranged along entries can be arranged along what they are sorted by.
  have keyed (es : Entries) : (es.map order.entryKey).zip xs =
      (es.zip xs).map (Prod.map order.entryKey id) := List.zip_map_left ..
  have unsorted (es : Entries) : (es.zip xs).map (·.2) =
      ((es.map order.entryKey).zip xs).map (·.2) := by
    rw [keyed, List.map_map]
    rfl
  have sorted (es : Entries) :
      (SortKey.sortOn (fun p => order.entryKey p.1) (es.zip xs)).map (·.2) =
        (SortKey.sortOn (·.1) ((es.map order.entryKey).zip xs)).map (·.2) := by
    rw [keyed, SortKey.sortOn_map, List.map_map]
    rfl
  cases order with
  | unordered => exact (unsorted es).trans (keys ▸ (unsorted fs).symm)
  | key => exact (sorted es).trans (keys ▸ (sorted fs).symm)
  | keyValue => exact (sorted es).trans (keys ▸ (sorted fs).symm)

end Arrangement

/-! ## Emissions in parts -/

namespace Emission

@[simp] theorem error?_ofBytes (b : Bytes) : (ofBytes b).error? = none := rfl

@[simp] theorem bytes_ofBytes (b : Bytes) : (ofBytes b).bytes = b := rfl

theorem error?_andThen {a b : Emission} :
    (a.andThen b).error? = none ↔ a.error? = none ∧ b.error? = none := by
  cases ha : a.error? <;> simp [andThen, ha]

theorem bytes_andThen {a b : Emission} (h : a.error? = none) :
    (a.andThen b).bytes = a.bytes ++ b.bytes := by
  simp [andThen, h]

theorem error?_concat {es : List Emission} :
    (concat es).error? = none ↔ ∀ e ∈ es, e.error? = none := by
  induction es with
  | nil => simp [empty]
  | cons e es ih => rw [concat_cons, error?_andThen, ih, List.forall_mem_cons]

theorem bytes_concat {es : List Emission} (h : ∀ e ∈ es, e.error? = none) :
    (concat es).bytes = (es.map Emission.bytes).flatten := by
  induction es with
  | nil => rfl
  | cons e es ih =>
    have hes := List.forall_mem_cons.mp h
    rw [concat_cons, bytes_andThen hes.1, ih hes.2, List.map_cons, List.flatten_cons]

theorem toTraced_eq_ok {e : Emission} {b : Bytes} :
    e.toTraced.result = .ok b ↔ e.error? = none ∧ e.bytes = b := by
  cases h : e.error? <;> simp [toTraced, h]

end Emission

/-! ## Packing -/

theorem packArranged_packEntries (c : Config) (entries : Entries) (order : MapOrder) :
    packArranged entries order (packEntries c entries) =
      (Emission.ofBytes (Pack.orderedMapHeader entries.length order)).andThen
        (.concat ((order.entries entries).map (packEntry c))) := by
  rw [packEntries_eq_map, ← MapOrder.along_map]
  rfl

theorem packArranged_congr {c : Config} {es fs : Entries} {order : MapOrder}
    (keys : es.map order.entryKey = fs.map order.entryKey)
    (packed : es.map (packEntry c) = fs.map (packEntry c)) :
    packArranged es order (packEntries c es) = packArranged fs order (packEntries c fs) := by
  have length : es.length = fs.length := by simpa using congrArg List.length keys
  rw [packEntries_eq_map, packEntries_eq_map, packed]
  change (Emission.ofBytes (Pack.orderedMapHeader es.length order)).andThen
    (.concat (order.along es _)) = (Emission.ofBytes _).andThen (.concat (order.along fs _))
  rw [length, MapOrder.along_congr keys]

/-- A header followed by the parts of a collection succeeds exactly if every part does. -/
theorem error?_collection {α : Type} {header : Bytes} {f : α → Emission} {xs : List α} :
    ((Emission.ofBytes header).andThen (.concat (xs.map f))).error? = none ↔
      ∀ x ∈ xs, (f x).error? = none := by
  rw [Emission.error?_andThen, Emission.error?_concat, List.forall_mem_map]
  exact and_iff_right rfl

theorem bytes_collection {α : Type} {header : Bytes} {f : α → Emission} {xs : List α}
    (h : ∀ x ∈ xs, (f x).error? = none) :
    ((Emission.ofBytes header).andThen (.concat (xs.map f))).bytes =
      header ++ (xs.map fun x => (f x).bytes).flatten := by
  rw [Emission.bytes_andThen (Emission.error?_ofBytes header), Emission.bytes_concat,
    List.map_map]
  · rfl
  · exact List.forall_mem_map.mpr h

theorem error?_packEntry {c : Config} {e : Datum × Datum} :
    (packEntry c e).error? = none ↔ (e.1.pack c).error? = none ∧ (e.2.pack c).error? = none :=
  Emission.error?_andThen

theorem error?_packArranged {c : Config} {entries : Entries} {order : MapOrder} :
    (packArranged entries order (packEntries c entries)).error? = none ↔
      ∀ e ∈ entries, (e.1.pack c).error? = none ∧ (e.2.pack c).error? = none := by
  rw [packArranged_packEntries, error?_collection]
  simp only [MapOrder.entries, MapOrder.mem_arrange, error?_packEntry]

theorem error?_blob {c : Config} {o : Object} :
    (Emission.blob c o).error? = none ↔ c.disableSerializer = false ∧ ∃ b, o.encode = .ok b := by
  unfold Emission.blob Object.serialize
  cases c.disableSerializer <;> cases o.encode <;>
    simp [Emission.ofTraced, Traced.map, Except.map]

theorem packItems_of_enabled {c c' : Config} {items : List Datum} {header : Bytes}
    (ih : ∀ x ∈ items, (x.pack c).error? = none → x.pack c' = x.pack c)
    (h : ((Emission.ofBytes header).andThen (.concat (packItems c items))).error? = none) :
    packItems c' items = packItems c items := by
  rw [packItems_eq_map] at h
  rw [packItems_eq_map, packItems_eq_map]
  exact List.map_congr_left fun x hx => ih x hx (error?_collection.mp h x hx)

theorem packEntries_of_enabled {c c' : Config} {entries : Entries}
    (ih : ∀ e ∈ entries, ((e.1.pack c).error? = none → e.1.pack c' = e.1.pack c) ∧
      ((e.2.pack c).error? = none → e.2.pack c' = e.2.pack c))
    (h : ∀ e ∈ entries, (e.1.pack c).error? = none ∧ (e.2.pack c).error? = none) :
    packEntries c' entries = packEntries c entries := by
  rw [packEntries_eq_map, packEntries_eq_map]
  apply List.map_congr_left
  intro e he
  rw [packEntry, packEntry, (ih e he).1 (h e he).1, (ih e he).2 (h e he).2]

/-- What packs under some configuration packs the same wherever objects may be serialized. -/
theorem pack_of_enabled {c c' : Config} (enabled : c'.disableSerializer = false) :
    (∀ d : Datum, (d.pack c).error? = none → d.pack c' = d.pack c) ∧
      ∀ v : Value, (v.pack c).error? = none → v.pack c' = v.pack c := by
  have blob (o : Object) (h : (Emission.blob c o).error? = none) :
      Emission.blob c' o = Emission.blob c o := by
    simp [Emission.blob, Object.serialize, (error?_blob.mp h).1, enabled]
  apply nested_induction
  case value => exact fun v ih => ih
  case object => exact blob
  case valueBlob => exact fun o _ => blob o
  case list =>
    intro xs ih h
    rw [Datum.pack, Datum.pack, packItems_of_enabled ih h]
  case valueList =>
    intro xs _ ih h
    rw [Value.pack, Value.pack, packItems_of_enabled ih h]
  case valueArray =>
    intro vs _ ih h
    rw [Value.pack, packValues_eq_map] at h
    rw [Value.pack, Value.pack, packValues_eq_map, packValues_eq_map]
    rw [List.map_congr_left fun v hv => ih v hv (error?_collection.mp h v hv)]
  case map =>
    intro kind entries ih h
    rw [Datum.pack, Datum.pack, packEntries_of_enabled ih (error?_packArranged.mp h)]
  case valueMap =>
    intro kind entries order _ ih h
    rw [Value.pack, Value.pack, packEntries_of_enabled ih (error?_packArranged.mp h)]
  case valueEntryList =>
    intro entries order _ ih h
    rw [Value.pack, Value.pack, packEntries_of_enabled ih (error?_packArranged.mp h)]
  all_goals intros; rfl

end BinCodec
