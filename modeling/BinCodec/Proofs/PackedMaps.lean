import BinCodec.Proofs.ServerOrder
import Mathlib.Logic.ExistsUnique

/-!
# Packed maps

A packed map is its header and its entries in the arrangement by the order of keys. That order is
over an order of objects, which is up to their types, so packing is too: `Datum.packBy` packs over
any order of objects, at every depth. Over the order field by field it is the packed encoding
(`packBy_fieldwise`).
-/

namespace BinCodec

/-! ## Packing over an order of objects -/

/-- The entries of a map in the order in which they are packed. -/
def MapOrder.entriesBy (order : MapOrder) (ord : ObjectOrder) (es : Entries) : Entries :=
  es.mergeSort fun e f => (order.compareEntries ord.keyOrder e f).isLE

/-- A map of already packed entries, under its header and sorted by the order of keys. -/
def packArrangedBy (ord : ObjectOrder) (entries : List (Datum × Datum)) (order : MapOrder)
    (packed : List Emission) : Emission :=
  let arranged := (entries.zip packed).mergeSort fun x y =>
    (order.compareEntries ord.keyOrder x.1 y.1).isLE
  (Emission.ofBytes (Pack.orderedMapHeader entries.length order)).andThen
    (Emission.concat (arranged.map (·.2)))

mutual

/-- The packed encoding of a datum whose maps are sorted over an order of objects. -/
def Datum.packBy (ord : ObjectOrder) (c : Config) : Datum → Emission
  | .value v => v.packBy ord c
  | .list items =>
    (Emission.ofBytes (Pack.arrayHeader items.length)).andThen (.concat (packItemsBy ord c items))
  | .map kind entries => packArrangedBy ord entries kind.order (packEntriesBy ord c entries)
  | d => d.pack c

def Value.packBy (ord : ObjectOrder) (c : Config) : Value → Emission
  | .array values _ =>
    (Emission.ofBytes (Pack.arrayHeader values.length)).andThen
      (.concat (packValuesBy ord c values))
  | .list items _ =>
    (Emission.ofBytes (Pack.arrayHeader items.length)).andThen (.concat (packItemsBy ord c items))
  | .map _ entries order _ => packArrangedBy ord entries order (packEntriesBy ord c entries)
  | .entryList entries order _ => packArrangedBy ord entries order (packEntriesBy ord c entries)
  | v => v.pack c

def packItemsBy (ord : ObjectOrder) (c : Config) : List Datum → List Emission
  | [] => []
  | x :: xs => x.packBy ord c :: packItemsBy ord c xs

def packValuesBy (ord : ObjectOrder) (c : Config) : List Value → List Emission
  | [] => []
  | v :: vs => v.packBy ord c :: packValuesBy ord c vs

def packEntriesBy (ord : ObjectOrder) (c : Config) : List (Datum × Datum) → List Emission
  | [] => []
  | (k, v) :: es => (k.packBy ord c).andThen (v.packBy ord c) :: packEntriesBy ord c es

end

def Packable.packBy (ord : ObjectOrder) (c : Config) : Packable → Emission
  | datum d => d.packBy ord c
  | value v => v.packBy ord c

section Members

variable (ord : ObjectOrder) (c : Config)

def packEntryBy (e : Datum × Datum) : Emission := (e.1.packBy ord c).andThen (e.2.packBy ord c)

theorem packItemsBy_eq_map (items : List Datum) :
    packItemsBy ord c items = items.map (Datum.packBy ord c) := by
  induction items with
  | nil => rfl
  | cons x xs ih => rw [packItemsBy, ih, List.map_cons]

theorem packValuesBy_eq_map (values : List Value) :
    packValuesBy ord c values = values.map (Value.packBy ord c) := by
  induction values with
  | nil => rfl
  | cons v vs ih => rw [packValuesBy, ih, List.map_cons]

theorem packEntriesBy_eq_map (entries : Entries) :
    packEntriesBy ord c entries = entries.map (packEntryBy ord c) := by
  induction entries with
  | nil => rfl
  | cons e es ih => rw [packEntriesBy, ih, List.map_cons, packEntryBy]

theorem packArrangedBy_packEntriesBy (es : Entries) (order : MapOrder) :
    packArrangedBy ord es order (packEntriesBy ord c es) =
      (Emission.ofBytes (Pack.orderedMapHeader es.length order)).andThen
        (.concat ((order.entriesBy ord es).map (packEntryBy ord c))) := by
  let withPacked (e : Datum × Datum) := (e, packEntryBy ord c e)
  have zipped : es.zip (packEntriesBy ord c es) = es.map withPacked := by
    rw [packEntriesBy_eq_map, List.map_prod_left_eq_zip]
  have sorted : (order.entriesBy ord es).map withPacked =
      (es.map withPacked).mergeSort fun x y =>
        (order.compareEntries ord.keyOrder x.1 y.1).isLE :=
    List.map_mergeSort fun _ _ _ _ => rfl
  rw [packArrangedBy, zipped, ← sorted, List.map_map]
  rfl

end Members

theorem arranged_entriesBy {ord : ObjectOrder} (objects : Std.TransCmp ord.cmp) (order : MapOrder)
    (es : Entries) : Arranged (order.compareEntries ord.keyOrder) es (order.entriesBy ord es) :=
  arranged_mergeSort (transCmp_compareEntries (transCmp_keyOrder objects) order) es

/-! ## Objects ordered field by field -/

theorem entriesBy_fieldwise (order : MapOrder) (es : Entries) :
    order.entriesBy .fieldwise es = order.entries es := by
  have server : Std.TransCmp Datum.serverCompare := inferInstance
  rw [MapOrder.entriesBy, keyOrder_fieldwise]
  exact ((arranged_iff (transCmp_compareEntries server order)).mp (arranged_entries order es)).symm

theorem packBy_fieldwise (c : Config) :
    (∀ d : Datum, d.packBy .fieldwise c = d.pack c) ∧
      ∀ v : Value, v.packBy .fieldwise c = v.pack c := by
  have items {xs : List Datum} (ih : ∀ x ∈ xs, x.packBy .fieldwise c = x.pack c) :
      packItemsBy .fieldwise c xs = packItems c xs := by
    rw [packItemsBy_eq_map, packItems_eq_map, List.map_congr_left ih]
  have entries {es : Entries} (order : MapOrder)
      (ih : ∀ e ∈ es, e.1.packBy .fieldwise c = e.1.pack c ∧ e.2.packBy .fieldwise c = e.2.pack c) :
      packArrangedBy .fieldwise es order (packEntriesBy .fieldwise c es) =
        packArranged es order (packEntries c es) := by
    have members : (order.entries es).map (packEntryBy .fieldwise c) =
        (order.entries es).map (packEntry c) := by
      apply List.map_congr_left
      intro e he
      obtain ⟨key, value⟩ := ih e (MapOrder.mem_arrange.mp he)
      rw [packEntryBy, packEntry, key, value]
    rw [packArrangedBy_packEntriesBy, packArranged_packEntries, entriesBy_fieldwise, members]
  apply nested_induction
  case value => exact fun v ih => ih
  case list =>
    intro xs ih
    rw [Datum.packBy, items ih, Datum.pack]
  case map =>
    intro kind es ih
    rw [Datum.packBy, entries _ ih, Datum.pack]
  case valueArray =>
    intro vs _ ih
    rw [Value.packBy, packValuesBy_eq_map, List.map_congr_left ih, ← packValues_eq_map, Value.pack]
  case valueList =>
    intro xs _ ih
    rw [Value.packBy, items ih, Value.pack]
  case valueMap =>
    intro kind es order _ ih
    rw [Value.packBy, entries order ih, Value.pack]
  case valueEntryList =>
    intro es order _ ih
    rw [Value.packBy, entries order ih, Value.pack]
  all_goals intros; rfl

theorem Packable.packBy_fieldwise (x : Packable) (c : Config) : x.packBy .fieldwise c = x.pack c := by
  cases x with
  | datum d => exact (BinCodec.packBy_fieldwise c).1 d
  | value v => exact (BinCodec.packBy_fieldwise c).2 v

/-! ## Entries -/

/-- The entries that are packed as a map, and the order they are packed in. -/
def Value.mapEntries? : Value → Option (Entries × MapOrder)
  | .map _ entries order _ | .entryList entries order _ => some (entries, order)
  | _ => none

def Datum.mapEntries? : Datum → Option (Entries × MapOrder)
  | .map kind entries => some (entries, kind.order)
  | .value v => v.mapEntries?
  | _ => none

def Packable.mapEntries? : Packable → Option (Entries × MapOrder)
  | datum d => d.mapEntries?
  | value v => v.mapEntries?

section Maps

variable {x : Packable} {es : Entries} {order : MapOrder}

/-- What is packed as a map is a map or a list of entries, classified or not. -/
theorem Packable.by_mapEntries {P : Packable → Prop} (h : x.mapEntries? = some (es, order))
    (datum : ∀ kind : MapKind, kind.order = order → P (.datum (.map kind es)))
    (lifted : ∀ v, P (.value v) → P (.datum (.value v)))
    (map : ∀ kind cache, P (.value (.map kind es order cache)))
    (entryList : ∀ cache, P (.value (.entryList es order cache))) : P x := by
  have value (v : Value) (h : v.mapEntries? = some (es, order)) : P (.value v) := by
    cases v with
    | map kind entries =>
      cases h
      exact map _ _
    | entryList entries =>
      cases h
      exact entryList _
    | _ => cases h
  cases x with
  | value v => exact value v h
  | datum d =>
    cases d with
    | value v => exact lifted v (value v h)
    | map kind entries =>
      cases h
      exact datum kind rfl
    | _ => cases h

theorem Packable.pack_of_mapEntries (h : x.mapEntries? = some (es, order)) (c : Config) :
    x.pack c = packArranged es order (packEntries c es) := by
  apply Packable.by_mapEntries h
  case datum =>
    rintro kind rfl
    rfl
  case lifted => exact fun v ih => ih
  all_goals intros; rfl

theorem Packable.packBy_of_mapEntries (h : x.mapEntries? = some (es, order)) (ord : ObjectOrder)
    (c : Config) : x.packBy ord c = packArrangedBy ord es order (packEntriesBy ord c es) := by
  apply Packable.by_mapEntries h
  case datum =>
    rintro kind rfl
    rfl
  case lifted => exact fun v ih => ih
  all_goals intros; rfl

theorem bytes_map {ord : ObjectOrder} {c : Config} (h : x.mapEntries? = some (es, order))
    (packs : (x.packBy ord c).error? = none) :
    (x.packBy ord c).bytes = Pack.orderedMapHeader es.length order ++
      ((order.entriesBy ord es).map fun e =>
        (e.1.packBy ord c).bytes ++ (e.2.packBy ord c).bytes).flatten := by
  rw [Packable.packBy_of_mapEntries h, packArrangedBy_packEntriesBy] at packs ⊢
  have entries := error?_collection.mp packs
  rw [bytes_collection entries]
  congr 2
  apply List.map_congr_left
  intro e he
  exact Emission.bytes_andThen (Emission.error?_andThen.mp (entries e he)).1

end Maps

/-- Over any total order of objects the order of keys is a total preorder, so entries have one
arrangement under each map order. The packed encoding of a map over this order, whatever collection
or list it comes from, is its header and its entries in that arrangement: as they are given if the
map is unordered or if they are in order already. For objects ordered field by field this is how the
packed encoding is defined. -/
theorem maps_packed_in_server_order {ord : ObjectOrder} (lawful : ord.Lawful) :
    LawfulOrder ord.keyOrder (fun a b => ord.keyOrder a b == .eq) ∧
    (∀ (order : MapOrder) (es : Entries),
      ∃! fs, Arranged (order.compareEntries ord.keyOrder) es fs) ∧
    ObjectOrder.fieldwise.keyOrder = Datum.serverCompare ∧
    (∀ (x : Packable) (c : Config), x.packBy .fieldwise c = x.pack c) ∧
    ∀ (x : Packable) (es : Entries) (order : MapOrder), x.mapEntries? = some (es, order) →
      ∀ c, (x.packBy ord c).error? = none → ∃ fs,
        (x.packBy ord c).bytes = Pack.orderedMapHeader es.length order ++
          (fs.map fun e => (e.1.packBy ord c).bytes ++ (e.2.packBy ord c).bytes).flatten ∧
        Arranged (order.compareEntries ord.keyOrder) es fs ∧
        (order = .unordered → fs = es) ∧
        ((es.Pairwise fun e f => (order.compareEntries ord.keyOrder e f).isLE) → fs = es) := by
  have objects := ObjectOrder.lawful_cmp lawful
  have keys := transCmp_keyOrder objects
  refine ⟨.of_transCmp keys fun _ _ => beq_iff_eq, ?_, keyOrder_fieldwise,
    Packable.packBy_fieldwise, ?_⟩
  · intro order es
    have trans := transCmp_compareEntries keys order
    exact ⟨_, arranged_mergeSort trans es, fun fs h => (arranged_iff trans).mp h⟩
  · intro x es order h c packs
    have given (ascending : es.Pairwise fun e f => (order.compareEntries ord.keyOrder e f).isLE) :
        order.entriesBy ord es = es := List.mergeSort_of_pairwise ascending
    refine ⟨order.entriesBy ord es, bytes_map h packs, arranged_entriesBy objects order es, ?_,
      given⟩
    rintro rfl
    exact given (List.pairwise_of_forall fun _ _ => rfl)

/-- Keys that tie although one is classified, and bytes before an object, are packed as given. -/
theorem maps_packed_in_server_order_ties :
    let es : Entries := [(.value (.long 1), .text "a"), (.int 1, .text "b"),
      (.value (.segment [9]), .null), (.object ⟨"Point", .integer 7⟩, .null)]
    let x : Packable := .value (.entryList es .key none)
    (x.pack {}).bytes = [0x85, 0xc7, 0x00, 0x01, 0xc0, 0x01, 0xa2, 0x03, 0x61, 0x01, 0xa2, 0x03,
      0x62, 0xa2, 0x04, 0x09, 0xc0, 0xa2, 0x07, 0x07, 0xc0] := by
  intro es x
  obtain ⟨-, -, -, program, packed⟩ := maps_packed_in_server_order ObjectOrder.lawful_fieldwise
  have packs : (x.packBy .fieldwise {}).error? = none := by
    rw [program]
    apply error?_packArranged.mpr
    simp only [es, List.forall_mem_cons]
    exact ⟨⟨rfl, rfl⟩, ⟨rfl, rfl⟩, ⟨rfl, rfl⟩, ⟨rfl, rfl⟩, nofun⟩
  have ascending : es.Pairwise fun e f =>
      (MapOrder.compareEntries .key ObjectOrder.fieldwise.keyOrder e f).isLE := by
    rw [keyOrder_fieldwise]
    decide
  obtain ⟨fs, bytes, -, -, given⟩ := packed x es .key rfl {} packs
  rw [← program, bytes, given ascending]
  rfl

end BinCodec
