import BinCodec.Proofs.CacheCoherence

/-!
# The serializer gate

Whether a value holds an object, which objects packing comes to, and what the serializer makes
of them are decided by recursions of their own. They are tied to one list here: `Value.objects`,
the objects of a value in the order of emission. Its members are the objects inside the value
(`mem_objects`), the gate is closed exactly if it has any (`holdsObject_iff`), and apart from
its bytes packing does what trying these objects in turn does (`effects_pack`).
-/

namespace BinCodec

/-! ## Objects inside -/

mutual

/-- An object is somewhere inside a datum. -/
inductive Datum.Contains (o : Object) : Datum → Prop
  | object : Datum.Contains o (.object o)
  | value {v : Value} (inside : Value.Contains o v) : Datum.Contains o (.value v)
  | item {items : List Datum} {x : Datum} (mem : x ∈ items) (inside : Datum.Contains o x) :
    Datum.Contains o (.list items)
  | mapKey {kind : MapKind} {entries : List (Datum × Datum)} {e : Datum × Datum}
    (mem : e ∈ entries) (inside : Datum.Contains o e.1) : Datum.Contains o (.map kind entries)
  | mapValue {kind : MapKind} {entries : List (Datum × Datum)} {e : Datum × Datum}
    (mem : e ∈ entries) (inside : Datum.Contains o e.2) : Datum.Contains o (.map kind entries)

inductive Value.Contains (o : Object) : Value → Prop
  | blob (cache : Cache) : Value.Contains o (.blob o cache)
  | element {values : List Value} {cache : Cache} {v : Value} (mem : v ∈ values)
    (inside : Value.Contains o v) : Value.Contains o (.array values cache)
  | item {items : List Datum} {cache : Cache} {x : Datum} (mem : x ∈ items)
    (inside : Datum.Contains o x) : Value.Contains o (.list items cache)
  | mapKey {kind : MapKind} {entries : List (Datum × Datum)} {order : MapOrder} {cache : Cache}
    {e : Datum × Datum} (mem : e ∈ entries) (inside : Datum.Contains o e.1) :
    Value.Contains o (.map kind entries order cache)
  | mapValue {kind : MapKind} {entries : List (Datum × Datum)} {order : MapOrder} {cache : Cache}
    {e : Datum × Datum} (mem : e ∈ entries) (inside : Datum.Contains o e.2) :
    Value.Contains o (.map kind entries order cache)
  | entryKey {entries : List (Datum × Datum)} {order : MapOrder} {cache : Cache}
    {e : Datum × Datum} (mem : e ∈ entries) (inside : Datum.Contains o e.1) :
    Value.Contains o (.entryList entries order cache)
  | entryValue {entries : List (Datum × Datum)} {order : MapOrder} {cache : Cache}
    {e : Datum × Datum} (mem : e ∈ entries) (inside : Datum.Contains o e.2) :
    Value.Contains o (.entryList entries order cache)

end

mutual

/-- The objects inside a datum, in the order in which packing comes to them. -/
def Datum.objects : Datum → List Object
  | .object o => [o]
  | .value v => v.objects
  | .list items => (itemObjects items).flatten
  | .map kind entries => (kind.order.along entries (entryObjects entries)).flatten
  | _ => []

def Value.objects : Value → List Object
  | .blob o _ => [o]
  | .array values _ => (valueObjects values).flatten
  | .list items _ => (itemObjects items).flatten
  | .map _ entries order _ => (order.along entries (entryObjects entries)).flatten
  | .entryList entries order _ => (order.along entries (entryObjects entries)).flatten
  | _ => []

def itemObjects : List Datum → List (List Object)
  | [] => []
  | x :: xs => x.objects :: itemObjects xs

def valueObjects : List Value → List (List Object)
  | [] => []
  | v :: vs => v.objects :: valueObjects vs

/-- The objects of each map entry, those of the key before those of the value. -/
def entryObjects : List (Datum × Datum) → List (List Object)
  | [] => []
  | (k, v) :: es => (k.objects ++ v.objects) :: entryObjects es

end

theorem itemObjects_eq_map (items : List Datum) : itemObjects items = items.map Datum.objects := by
  induction items with
  | nil => rfl
  | cons x xs ih => rw [itemObjects, ih, List.map_cons]

theorem valueObjects_eq_map (values : List Value) :
    valueObjects values = values.map Value.objects := by
  induction values with
  | nil => rfl
  | cons v vs ih => rw [valueObjects, ih, List.map_cons]

theorem entryObjects_eq_map (entries : Entries) :
    entryObjects entries = entries.map fun e => e.1.objects ++ e.2.objects := by
  induction entries with
  | nil => rfl
  | cons e es ih => rw [entryObjects, ih, List.map_cons]

theorem mem_itemObjects {items : List Datum} {o : Object} :
    o ∈ (itemObjects items).flatten ↔ ∃ x ∈ items, o ∈ x.objects := by
  rw [itemObjects_eq_map, ← List.flatMap_def, List.mem_flatMap]

theorem mem_valueObjects {values : List Value} {o : Object} :
    o ∈ (valueObjects values).flatten ↔ ∃ v ∈ values, o ∈ v.objects := by
  rw [valueObjects_eq_map, ← List.flatMap_def, List.mem_flatMap]

theorem mem_entryObjects {order : MapOrder} {entries : Entries} {o : Object} :
    o ∈ (order.along entries (entryObjects entries)).flatten ↔
      ∃ e ∈ entries, o ∈ e.1.objects ∨ o ∈ e.2.objects := by
  rw [entryObjects_eq_map, MapOrder.along_map, ← List.flatMap_def, List.mem_flatMap]
  simp only [MapOrder.entries, MapOrder.mem_arrange, List.mem_append]

section Members

variable {o : Object} {items : List Datum} {values : List Value} {entries : Entries}

theorem Datum.contains_list : (Datum.list items).Contains o ↔ ∃ x ∈ items, x.Contains o := by
  constructor
  · intro h
    cases h with
    | item mem inside => exact ⟨_, mem, inside⟩
  · rintro ⟨x, mem, inside⟩
    exact .item mem inside

theorem Datum.contains_map {kind : MapKind} : (Datum.map kind entries).Contains o ↔
    ∃ e ∈ entries, e.1.Contains o ∨ e.2.Contains o := by
  constructor
  · intro h
    cases h with
    | mapKey mem inside => exact ⟨_, mem, .inl inside⟩
    | mapValue mem inside => exact ⟨_, mem, .inr inside⟩
  · rintro ⟨e, mem, inside | inside⟩
    · exact .mapKey mem inside
    · exact .mapValue mem inside

theorem Value.contains_array {cache : Cache} :
    (Value.array values cache).Contains o ↔ ∃ v ∈ values, v.Contains o := by
  constructor
  · intro h
    cases h with
    | element mem inside => exact ⟨_, mem, inside⟩
  · rintro ⟨v, mem, inside⟩
    exact .element mem inside

theorem Value.contains_list {cache : Cache} :
    (Value.list items cache).Contains o ↔ ∃ x ∈ items, x.Contains o := by
  constructor
  · intro h
    cases h with
    | item mem inside => exact ⟨_, mem, inside⟩
  · rintro ⟨x, mem, inside⟩
    exact .item mem inside

theorem Value.contains_map {kind : MapKind} {order : MapOrder} {cache : Cache} :
    (Value.map kind entries order cache).Contains o ↔
      ∃ e ∈ entries, e.1.Contains o ∨ e.2.Contains o := by
  constructor
  · intro h
    cases h with
    | mapKey mem inside => exact ⟨_, mem, .inl inside⟩
    | mapValue mem inside => exact ⟨_, mem, .inr inside⟩
  · rintro ⟨e, mem, inside | inside⟩
    · exact .mapKey mem inside
    · exact .mapValue mem inside

theorem Value.contains_entryList {order : MapOrder} {cache : Cache} :
    (Value.entryList entries order cache).Contains o ↔
      ∃ e ∈ entries, e.1.Contains o ∨ e.2.Contains o := by
  constructor
  · intro h
    cases h with
    | entryKey mem inside => exact ⟨_, mem, .inl inside⟩
    | entryValue mem inside => exact ⟨_, mem, .inr inside⟩
  · rintro ⟨e, mem, inside | inside⟩
    · exact .entryKey mem inside
    · exact .entryValue mem inside

theorem exists_member_congr {α : Type} {p q : α → Prop} {xs : List α} (h : ∀ x ∈ xs, p x ↔ q x) :
    (∃ x ∈ xs, p x) ↔ ∃ x ∈ xs, q x := by
  constructor
  · rintro ⟨x, hx, hp⟩
    exact ⟨x, hx, (h x hx).mp hp⟩
  · rintro ⟨x, hx, hq⟩
    exact ⟨x, hx, (h x hx).mpr hq⟩

end Members

/-- The list of objects has every object that is inside, and no other. -/
theorem mem_objects (o : Object) :
    (∀ d : Datum, o ∈ d.objects ↔ d.Contains o) ∧ ∀ v : Value, o ∈ v.objects ↔ v.Contains o := by
  have entries {es : Entries} (ih : ∀ e ∈ es, (o ∈ e.1.objects ↔ e.1.Contains o) ∧
      (o ∈ e.2.objects ↔ e.2.Contains o)) :=
    exists_member_congr fun e he => or_congr (ih e he).1 (ih e he).2
  apply nested_induction
  case object =>
    intro p
    constructor
    · intro h
      rw [List.mem_singleton.mp h]
      exact .object
    · rintro ⟨⟩
      exact List.mem_singleton.mpr rfl
  case value =>
    intro v ih
    constructor
    · exact fun h => .value (ih.mp h)
    · rintro ⟨inside⟩
      exact ih.mpr ‹_›
  case valueBlob =>
    intro p cache
    constructor
    · intro h
      rw [List.mem_singleton.mp h]
      exact .blob cache
    · rintro ⟨⟩
      exact List.mem_singleton.mpr rfl
  case list =>
    intro items ih
    rw [Datum.objects, mem_itemObjects, Datum.contains_list]
    exact exists_member_congr ih
  case map =>
    intro kind es ih
    rw [Datum.objects, mem_entryObjects, Datum.contains_map]
    exact entries ih
  case valueArray =>
    intro values _ ih
    rw [Value.objects, mem_valueObjects, Value.contains_array]
    exact exists_member_congr ih
  case valueList =>
    intro items _ ih
    rw [Value.objects, mem_itemObjects, Value.contains_list]
    exact exists_member_congr ih
  case valueMap =>
    intro kind es order _ ih
    rw [Value.objects, mem_entryObjects, Value.contains_map]
    exact entries ih
  case valueEntryList =>
    intro es order _ ih
    rw [Value.objects, mem_entryObjects, Value.contains_entryList]
    exact entries ih
  all_goals
    intros
    constructor
    · exact nofun
    · exact nofun

/-! ## The gate -/

section Gate

variable {items : List Datum} {values : List Value} {entries : Entries}

theorem holdsObjectItems_eq_any (items : List Datum) :
    holdsObjectItems items = items.any Datum.holdsObject := by
  induction items with
  | nil => rfl
  | cons x xs ih => rw [holdsObjectItems, ih, List.any_cons]

theorem holdsObjectValues_eq_any (values : List Value) :
    holdsObjectValues values = values.any Value.holdsObject := by
  induction values with
  | nil => rfl
  | cons v vs ih => rw [holdsObjectValues, ih, List.any_cons]

theorem holdsObjectEntries_eq_any (entries : Entries) :
    holdsObjectEntries entries = entries.any fun e => e.1.holdsObject || e.2.holdsObject := by
  induction entries with
  | nil => rfl
  | cons e es ih => rw [holdsObjectEntries, ih, List.any_cons]

theorem holdsObjectItems_iff (ih : ∀ x ∈ items, x.holdsObject = true ↔ ∃ o, x.Contains o) :
    holdsObjectItems items = true ↔ ∃ o, ∃ x ∈ items, x.Contains o := by
  rw [holdsObjectItems_eq_any, List.any_eq_true, exists_member_congr ih]
  constructor
  · rintro ⟨x, hx, o, inside⟩
    exact ⟨o, x, hx, inside⟩
  · rintro ⟨o, x, hx, inside⟩
    exact ⟨x, hx, o, inside⟩

theorem holdsObjectEntries_iff
    (ih : ∀ e ∈ entries, (e.1.holdsObject = true ↔ ∃ o, e.1.Contains o) ∧
      (e.2.holdsObject = true ↔ ∃ o, e.2.Contains o)) :
    holdsObjectEntries entries = true ↔
      ∃ o, ∃ e ∈ entries, e.1.Contains o ∨ e.2.Contains o := by
  have entry : ∀ e ∈ entries, (e.1.holdsObject || e.2.holdsObject) = true ↔
      ∃ o, e.1.Contains o ∨ e.2.Contains o := by
    intro e he
    rw [Bool.or_eq_true, (ih e he).1, (ih e he).2, exists_or]
  rw [holdsObjectEntries_eq_any, List.any_eq_true, exists_member_congr entry]
  constructor
  · rintro ⟨e, he, o, inside⟩
    exact ⟨o, e, he, inside⟩
  · rintro ⟨o, e, he, inside⟩
    exact ⟨e, he, o, inside⟩

/-- The gate sees every object, wherever it is, and nothing else. -/
theorem holdsObject_iff :
    (∀ d : Datum, d.holdsObject = true ↔ ∃ o, d.Contains o) ∧
      ∀ v : Value, v.holdsObject = true ↔ ∃ o, v.Contains o := by
  apply nested_induction
  case object => exact fun o => ⟨fun _ => ⟨o, .object⟩, fun _ => rfl⟩
  case valueBlob => exact fun o cache => ⟨fun _ => ⟨o, .blob cache⟩, fun _ => rfl⟩
  case value =>
    intro v ih
    rw [Datum.holdsObject, ih]
    constructor
    · rintro ⟨o, inside⟩
      exact ⟨o, .value inside⟩
    · rintro ⟨o, inside⟩
      cases inside with
      | value inside => exact ⟨o, inside⟩
  case list =>
    intro items ih
    rw [Datum.holdsObject, holdsObjectItems_iff ih]
    simp only [Datum.contains_list]
  case map =>
    intro kind entries ih
    rw [Datum.holdsObject, holdsObjectEntries_iff ih]
    simp only [Datum.contains_map]
  case valueArray =>
    intro values cache ih
    rw [Value.holdsObject, holdsObjectValues_eq_any, List.any_eq_true, exists_member_congr ih]
    simp only [Value.contains_array]
    constructor
    · rintro ⟨v, hv, o, inside⟩
      exact ⟨o, v, hv, inside⟩
    · rintro ⟨o, v, hv, inside⟩
      exact ⟨v, hv, o, inside⟩
  case valueList =>
    intro items cache ih
    rw [Value.holdsObject, holdsObjectItems_iff ih]
    simp only [Value.contains_list]
  case valueMap =>
    intro kind entries order cache ih
    rw [Value.holdsObject, holdsObjectEntries_iff ih]
    simp only [Value.contains_map]
  case valueEntryList =>
    intro entries order cache ih
    rw [Value.holdsObject, holdsObjectEntries_iff ih]
    simp only [Value.contains_entryList]
  all_goals
    intros
    constructor
    · exact nofun
    · rintro ⟨o, ⟨⟩⟩

end Gate

/-! ## What packing does apart from its bytes -/

namespace Emission

/-- An emission without its bytes: what is logged, and the error. -/
def effects (e : Emission) : Emission := { e with bytes := [] }

theorem effects_andThen (a b : Emission) : (a.andThen b).effects = a.effects.andThen b.effects := by
  cases h : a.error? <;> simp [effects, andThen, h]

theorem effects_concat (es : List Emission) : (concat es).effects = concat (es.map effects) := by
  induction es with
  | nil => rfl
  | cons e es ih => rw [concat_cons, effects_andThen, ih, List.map_cons, concat_cons]

theorem concat_append (es fs : List Emission) :
    concat (es ++ fs) = (concat es).andThen (concat fs) := by
  induction es with
  | nil => rw [List.nil_append, concat_nil, empty_andThen]
  | cons e es ih => rw [List.cons_append, concat_cons, concat_cons, ih, andThen_assoc]

theorem concat_flatten (ess : List (List Emission)) :
    concat ess.flatten = concat (ess.map concat) := by
  induction ess with
  | nil => rfl
  | cons es ess ih => rw [List.flatten_cons, concat_append, ih, List.map_cons, concat_cons]

end Emission

/-- The effects of giving objects to the serializer one after the other, up to the first
failure. -/
def tried (c : Config) (os : List Object) : Emission :=
  .concat (os.map fun o => (Emission.blob c o).effects)

section Effects

variable {c : Config}

theorem tried_append (os ps : List Object) :
    tried c (os ++ ps) = (tried c os).andThen (tried c ps) := by
  rw [tried, List.map_append, Emission.concat_append]
  rfl

theorem tried_flatten (oss : List (List Object)) :
    tried c oss.flatten = .concat (oss.map (tried c)) := by
  rw [tried, List.map_flatten, Emission.concat_flatten, List.map_map]
  rfl

theorem effects_collection {α : Type} {header : Bytes} {f : α → Emission}
    {objects : α → List Object} {xs : List α}
    (ih : ∀ x ∈ xs, (f x).effects = tried c (objects x)) :
    ((Emission.ofBytes header).andThen (.concat (xs.map f))).effects =
      tried c (xs.map objects).flatten := by
  have members : xs.map (Emission.effects ∘ f) = xs.map (tried c ∘ objects) :=
    List.map_congr_left ih
  rw [Emission.effects_andThen, Emission.effects_concat, tried_flatten, List.map_map, List.map_map,
    members]
  exact Emission.empty_andThen _

theorem effects_entries {entries : Entries} {order : MapOrder}
    (ih : ∀ e ∈ entries, (e.1.pack c).effects = tried c e.1.objects ∧
      (e.2.pack c).effects = tried c e.2.objects) :
    (packArranged entries order (packEntries c entries)).effects =
      tried c (order.along entries (entryObjects entries)).flatten := by
  rw [packArranged_packEntries, entryObjects_eq_map, MapOrder.along_map]
  apply effects_collection
  intro e he
  obtain ⟨key, value⟩ := ih e (MapOrder.mem_arrange.mp he)
  rw [packEntry, Emission.effects_andThen, key, value, tried_append]

/-- Apart from its bytes, packing does what trying the objects in turn does. -/
theorem effects_pack (c : Config) :
    (∀ d : Datum, (d.pack c).effects = tried c d.objects) ∧
      ∀ v : Value, (v.pack c).effects = tried c v.objects := by
  have blob (o : Object) : (Emission.blob c o).effects = tried c [o] :=
    (Emission.andThen_empty _).symm
  apply nested_induction
  case value => exact fun v ih => ih
  case object => exact blob
  case valueBlob => exact fun o _ => blob o
  case list =>
    intro items ih
    rw [Datum.pack, Datum.objects, packItems_eq_map, itemObjects_eq_map]
    exact effects_collection ih
  case map => exact fun kind entries ih => effects_entries ih
  case valueArray =>
    intro values _ ih
    rw [Value.pack, Value.objects, packValues_eq_map, valueObjects_eq_map]
    exact effects_collection ih
  case valueList =>
    intro items _ ih
    rw [Value.pack, Value.objects, packItems_eq_map, itemObjects_eq_map]
    exact effects_collection ih
  case valueMap => exact fun kind entries order _ ih => effects_entries ih
  case valueEntryList => exact fun entries order _ ih => effects_entries ih
  all_goals intros; rfl

end Effects

/-! ## First rejections -/

/-- Why the serializer rejects an object, if it does. -/
def Object.rejection? (o : Object) : Option Error :=
  match o.encode with
  | .ok _ => none
  | .error e => some e

/-- The objects that are given to the serializer: those up to the first one that it rejects. -/
def reached : List Object → List Object
  | [] => []
  | o :: os =>
    match o.rejection? with
    | none => o :: reached os
    | some _ => [o]

def firstRejection? (os : List Object) : Option Error := os.findSome? Object.rejection?

theorem tried_of_disabled {c : Config} (disabled : c.disableSerializer = true) (o : Object)
    (os : List Object) :
    tried c (o :: os) = ⟨[], [.refusedObject o.typeName], some .serializerDisabled⟩ := by
  have refused : (Emission.blob c o).effects =
      ⟨[], [.refusedObject o.typeName], some .serializerDisabled⟩ := by
    simp [Emission.blob, Object.serialize, disabled, Traced.map, Except.map, Emission.ofTraced,
      Emission.effects]
  rw [tried, List.map_cons, Emission.concat_cons, refused]
  rfl

theorem effects_blob_of_enabled {c : Config} (enabled : c.disableSerializer = false)
    (o : Object) : (Emission.blob c o).effects = ⟨[], [.serializing o.typeName], o.rejection?⟩ := by
  unfold Emission.blob Object.serialize Object.rejection?
  cases h : o.encode <;>
    simp [enabled, Traced.map, Except.map, Emission.ofTraced, Emission.effects]

theorem tried_of_enabled {c : Config} (enabled : c.disableSerializer = false)
    (os : List Object) : tried c os =
      ⟨[], (reached os).map fun o => .serializing o.typeName, firstRejection? os⟩ := by
  induction os with
  | nil => rfl
  | cons o os ih =>
    change (Emission.blob c o).effects.andThen (tried c os) = _
    rw [effects_blob_of_enabled enabled, ih]
    cases h : o.rejection? <;> simp [Emission.andThen, reached, firstRejection?, h]

theorem rejection?_eq_some {o : Object} {e : Error} :
    o.rejection? = some e ↔ o.encode = .error e := by
  unfold Object.rejection?
  cases o.encode <;> simp

theorem exists_firstRejection? {os : List Object} :
    (∃ e, firstRejection? os = some e) ↔ ∃ o ∈ os, ∃ e, o.encode = .error e := by
  rw [← Option.isSome_iff_exists, firstRejection?, List.findSome?_isSome_iff]
  simp only [Option.isSome_iff_exists, rejection?_eq_some]

/-! ## Packing and estimating behind the gate -/

section Results

variable {c : Config} {v : Value} {e : Error} {b : Bytes} {n : Nat}

theorem result_packed_eq_error :
    (v.packed c).result = .error e ↔ (tried c v.objects).error? = some e := by
  rw [← (effects_pack c).2 v]
  change (match (v.pack c).error? with
    | none => Except.ok (v.pack c).bytes
    | some error => Except.error error) = .error e ↔ (v.pack c).error? = some e
  cases (v.pack c).error? <;> simp

theorem log_packed : (v.packed c).log = (tried c v.objects).log := by
  rw [← (effects_pack c).2 v]
  rfl

theorem result_freshEncoding_eq_error :
    (v.freshEncoding c).result = .error e ↔ (v.packed c).result = .error e := by
  cases v with
  | blob o cache =>
    unfold Value.freshEncoding Value.packed Value.pack Emission.blob Emission.toTraced
      Emission.ofTraced Traced.map
    cases (o.serialize c).result <;> simp [Except.map]
  | _ => exact Iff.rfl

theorem objects_of_fixed (h : v.cache? = none) : v.objects = [] := by
  cases v <;> first | rfl | cases h

theorem estimateSize_of_holdsObject (disabled : c.disableSerializer = true)
    (holds : v.holdsObject = true) :
    (v.estimateSize c).outcome = ⟨.error .serializerDisabled, [.refusedValue v.typeName]⟩ := by
  have cached : ∃ cache, v.cache? = some cache := by
    cases v <;> first | exact ⟨_, rfl⟩ | cases holds
  obtain ⟨cache, h⟩ := cached
  rw [Value.estimateSize_of_cache h]
  simp [Run.map, Value.encodeOnce, Value.encoding, Value.gate, disabled, holds, Traced.map,
    Except.map]

theorem objects_of_not_holdsObject (h : v.holdsObject = false) : v.objects = [] := by
  apply List.eq_nil_iff_forall_not_mem.mpr
  intro o ho
  have holds := (holdsObject_iff.2 v).mpr ⟨o, ((mem_objects o).2 v).mp ho⟩
  rw [h] at holds
  cases holds

theorem packed_of_objects_nil (h : v.objects = []) : ∃ b, v.packed c = ⟨.ok b, []⟩ := by
  have log : (v.packed c).log = [] := by
    rw [log_packed, h]
    rfl
  cases result : (v.packed c).result with
  | ok b => exact ⟨b, congrArg₂ Traced.mk result log⟩
  | error e =>
    rw [result_packed_eq_error, h] at result
    cases result

theorem freshEncoding_of_objects_nil (h : v.objects = []) :
    ∃ b, v.freshEncoding c = ⟨.ok b, []⟩ := by
  cases v with
  | blob o cache => cases h
  | _ => exact packed_of_objects_nil h

theorem encoding_of_open (h : (c.disableSerializer && v.holdsObject) = false) :
    v.encoding c = match v.cache? with
      | some (some b) => .pure b
      | _ => v.freshEncoding c := by
  rw [Value.encoding, Value.gate, h]
  rfl

theorem outcome_estimateSize {cache : Cache} (h : v.cache? = some cache) :
    (v.estimateSize c).outcome = (v.encoding c).map List.length := by
  rw [Value.estimateSize_of_cache h]
  rfl

theorem estimateSize_of_not_holdsObject (h : v.holdsObject = false) :
    ∃ n, (v.estimateSize c).outcome = ⟨.ok n, []⟩ := by
  cases hc : v.cache? with
  | none =>
    obtain ⟨b, -, size⟩ := Value.estimateSize_of_fixed hc
    exact ⟨b.length, by rw [size]; rfl⟩
  | some cache =>
    obtain ⟨b, fresh⟩ := freshEncoding_of_objects_nil (c := c) (objects_of_not_holdsObject h)
    rw [outcome_estimateSize hc, encoding_of_open (by rw [h, Bool.and_false]), hc]
    cases cache with
    | none => exact ⟨b.length, by rw [fresh]; rfl⟩
    | some kept => exact ⟨kept.length, rfl⟩

theorem packed_of_disabled (disabled : c.disableSerializer = true) {o : Object}
    (inside : v.Contains o) : (v.packed c).result = .error .serializerDisabled := by
  have mem : o ∈ v.objects := ((mem_objects o).2 v).mpr inside
  obtain ⟨p, ps, objects⟩ := List.exists_cons_of_ne_nil (List.ne_nil_of_mem mem)
  rw [result_packed_eq_error, objects, tried_of_disabled disabled]

theorem serializerRuns_of_disabled (disabled : c.disableSerializer = true) (v : Value) :
    serializerRuns (v.estimateSize c).outcome.log = 0 ∧ serializerRuns (v.packed c).log = 0 := by
  constructor
  · cases h : v.holdsObject with
    | true =>
      rw [estimateSize_of_holdsObject disabled h]
      rfl
    | false =>
      obtain ⟨n, outcome⟩ := estimateSize_of_not_holdsObject (c := c) h
      rw [outcome]
      rfl
  · rw [log_packed]
    cases v.objects with
    | nil => rfl
    | cons o os =>
      rw [tried_of_disabled disabled]
      rfl

theorem packed_of_not_holdsObject (h : v.holdsObject = false) :
    ∃ b, (v.packed c).result = .ok b ∧
      ∀ c' : Config, c'.disableSerializer = false → (v.packed c').result = .ok b := by
  obtain ⟨b, packs⟩ := packed_of_objects_nil (c := c) (objects_of_not_holdsObject h)
  have result : (v.packed c).result = .ok b := congrArg Traced.result packs
  refine ⟨b, result, ?_⟩
  intro c' enabled
  have succeeds := (Emission.toTraced_eq_ok.mp result).1
  rwa [Value.packed, (pack_of_enabled enabled).2 v succeeds]

/-- The gate is closed exactly to what a disabled serializer keeps from being packed. -/
theorem packed_eq_disabled (disabled : c.disableSerializer = true) :
    (v.packed c).result = .error .serializerDisabled ↔ v.holdsObject = true := by
  constructor
  · intro refused
    by_contra clean
    obtain ⟨b, packs, -⟩ := packed_of_not_holdsObject (c := c) (eq_false_of_ne_true clean)
    rw [refused] at packs
    cases packs
  · intro holds
    obtain ⟨o, inside⟩ := (holdsObject_iff.2 v).mp holds
    exact packed_of_disabled disabled inside

theorem holdsObject_of_pack {w : Value} (same : ∀ c, v.pack c = w.pack c) :
    v.holdsObject = w.holdsObject := by
  have disabled : Config.disableSerializer { disableSerializer := true } = true := rfl
  rw [Bool.eq_iff_iff, ← packed_eq_disabled disabled, ← packed_eq_disabled disabled,
    Value.packed, Value.packed, same]

/-- With the serializer enabled estimating fails as packing does. -/
theorem estimateSize_eq_error (coherent : v.Coherent) (enabled : c.disableSerializer = false) :
    (v.estimateSize c).outcome.result = .error e ↔ (v.packed c).result = .error e := by
  cases hc : v.cache? with
  | none =>
    obtain ⟨b, -, size⟩ := Value.estimateSize_of_fixed hc
    rw [size, result_packed_eq_error, objects_of_fixed hc]
    constructor <;> exact nofun
  | some cache =>
    rw [outcome_estimateSize hc, encoding_of_open (by rw [enabled, Bool.false_and]), hc,
      ← result_freshEncoding_eq_error]
    cases cache with
    | none =>
      change (v.freshEncoding c).result.map List.length = .error e ↔ _
      cases (v.freshEncoding c).result <;> simp [Except.map]
    | some b =>
      rw [holds_iff.mp (coherent.own hc) c enabled]
      constructor <;> exact nofun

/-- The flat encoding of a value: the bytes that its cache is for, or its fixed form. -/
def Value.FlatForm (v : Value) (b : Bytes) : Prop :=
  match v.cache? with
  | none => v.flat? = some b
  | some _ => v.Holds b

theorem flatForm_of_sized (coherent : v.Coherent) (sized : v.Sized c n) :
    ∃ b, b.length = n ∧ v.FlatForm b ∧ (v.estimated c).Writes b := by
  unfold Value.FlatForm
  cases hc : v.cache? with
  | none =>
    obtain ⟨b, flat, size⟩ := Value.estimateSize_of_fixed hc
    rw [Value.Sized, size] at sized
    rw [Value.estimated_of_fixed hc]
    exact ⟨b, Except.ok.inj sized, flat, Value.writes_flat flat⟩
  | some cache =>
    obtain ⟨b, encoded, length, after⟩ := Value.sized_of_cache hc sized
    refine ⟨b, length.symm, ?_, ?_⟩
    · cases cache with
      | none => exact holds_of_encoding hc encoded
      | some kept =>
        rw [Value.encoding_of_filled hc] at encoded
        rw [← Except.ok.inj (Value.result_gate.mp encoded).2]
        exact coherent.own hc
    · rw [after]
      exact Value.writes_flat (Value.flat?_of_cache (Value.cache?_fill hc b))

end Results

/-- The gate is exact, at any time in a run. With the serializer disabled, a value with an object
anywhere inside it is refused by estimating and by packing, whatever is cached, and nothing is
serialized; a value without objects is encoded just as with the serializer enabled. With the
serializer enabled, packing fails exactly if some object inside is rejected, with the error of
the first one in the order of emission, and logs one line for each object up to it; estimating
fails alike, and otherwise returns the length of the flat encoding that is then written. -/
theorem serializer_gate_exact {v : Value} (coherent : v.Coherent) (operations : List Operation)
    (c : Config) :
    let w := v.after operations
    (∀ o, o ∈ w.objects ↔ w.Contains o) ∧
    (c.disableSerializer = true →
      serializerRuns (w.estimateSize c).outcome.log = 0 ∧ serializerRuns (w.packed c).log = 0 ∧
      ((∃ o, w.Contains o) →
        (w.estimateSize c).outcome.result = .error .serializerDisabled ∧
        (w.packed c).result = .error .serializerDisabled) ∧
      ((∀ o, ¬ w.Contains o) → (∃ n, w.Sized c n) ∧ ∃ b, (w.packed c).result = .ok b ∧
        ∀ c' : Config, c'.disableSerializer = false → (w.packed c').result = .ok b)) ∧
    (c.disableSerializer = false →
      ((∃ e, (w.packed c).result = .error e) ↔ ∃ o, w.Contains o ∧ ∃ e, o.encode = .error e) ∧
      (∀ e, (w.packed c).result = .error e ↔ firstRejection? w.objects = some e) ∧
      (w.packed c).log = ((reached w.objects).map fun o => .serializing o.typeName) ∧
      (∀ e, (w.estimateSize c).outcome.result = .error e ↔ (w.packed c).result = .error e) ∧
      ∀ n, w.Sized c n → ∃ b, b.length = n ∧ w.FlatForm b ∧ (w.estimated c).Writes b) := by
  intro w
  have coherent : w.Coherent := coherent.after operations
  have mem (o : Object) : o ∈ w.objects ↔ w.Contains o := (mem_objects o).2 w
  refine ⟨mem, ?_, ?_⟩
  · intro disabled
    obtain ⟨estimating, packing⟩ := serializerRuns_of_disabled disabled w
    refine ⟨estimating, packing, ?_, ?_⟩
    · rintro ⟨o, inside⟩
      have holds := (holdsObject_iff.2 w).mpr ⟨o, inside⟩
      exact ⟨congrArg Traced.result (estimateSize_of_holdsObject disabled holds),
        packed_of_disabled disabled inside⟩
    · intro clean
      have passes : w.holdsObject = false := by
        apply eq_false_of_ne_true
        intro holds
        obtain ⟨o, inside⟩ := (holdsObject_iff.2 w).mp holds
        exact clean o inside
      obtain ⟨n, outcome⟩ := estimateSize_of_not_holdsObject (c := c) passes
      exact ⟨⟨n, congrArg Traced.result outcome⟩, packed_of_not_holdsObject passes⟩
  · intro enabled
    have first (e : Error) :
        (w.packed c).result = .error e ↔ firstRejection? w.objects = some e := by
      rw [result_packed_eq_error, tried_of_enabled enabled]
    refine ⟨?_, first, ?_, fun e => estimateSize_eq_error coherent enabled,
      fun n => flatForm_of_sized coherent⟩
    · simp only [first, exists_firstRejection?, mem]
    · rw [log_packed, tried_of_enabled enabled]

/-- A list that was estimated, with its blob, is refused once the serializer is disabled. -/
theorem serializer_gate_exact_cached :
    let v : Value := .list [.null, .value (.blob ⟨"Point", .integer 7⟩ none)] none
    let w := v.after [.script {}, .estimate {}]
    w.tree.map Value.cache? = [some (some [0x92, 0xc0, 0xa2, 7, 7]), some (some [7])] ∧
      (w.estimateSize { disableSerializer := true }).outcome.result = .error .serializerDisabled ∧
      (w.packed { disableSerializer := true }).result = .error .serializerDisabled := by
  intro v w
  have coherent : v.Coherent := .of_empty rfl
  have inside : w.Contains ⟨"Point", .integer 7⟩ :=
    .item (List.mem_cons_of_mem _ List.mem_cons_self) (.value (.blob _))
  have gate :=
    serializer_gate_exact coherent [.script {}, .estimate {}] { disableSerializer := true }
  obtain ⟨-, -, refused, -⟩ := gate.2.1 rfl
  exact ⟨by rfl, refused ⟨_, inside⟩⟩

end BinCodec
