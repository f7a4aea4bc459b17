import BinCodec.Proofs.FirstFault
import BinCodec.Proofs.PackedMaps
import BinCodec.Proofs.ScriptImage

/-!
# Where taking a script value fails

An input is walked leaf by leaf, depth first, in iteration order and each key before its value
(`Packable.leaves`). The range sentinels offend against the scripting language, objects against a
disabled serializer or by being rejected. The first offence is the error of the whole walk, and
without one every leaf has its script value where it stands (`scripted_eq_verdict`).
-/

namespace BinCodec

/-! ## Leaves -/

mutual

/-- The members of a datum that have no members themselves, in the order of iteration. -/
def Datum.leaves : Datum → List Packable
  | .value v => v.leaves
  | .list items => itemLeaves items
  | .map _ entries => entryLeaves entries
  | d => [.datum d]

def Value.leaves : Value → List Packable
  | .array values _ => valueLeaves values
  | .list items _ => itemLeaves items
  | .map _ entries _ _ | .entryList entries _ _ => entryLeaves entries
  | v => [.value v]

def itemLeaves : List Datum → List Packable
  | [] => []
  | x :: xs => x.leaves ++ itemLeaves xs

def valueLeaves : List Value → List Packable
  | [] => []
  | v :: vs => v.leaves ++ valueLeaves vs

def entryLeaves : List (Datum × Datum) → List Packable
  | [] => []
  | (k, v) :: es => (k.leaves ++ v.leaves) ++ entryLeaves es

end

namespace Packable

def leaves : Packable → List Packable
  | datum d => d.leaves
  | value v => v.leaves

/-- Why an object has no script value under a configuration, whatever is cached for it. -/
def objectOffence? (c : Config) (o : Object) : Option Error :=
  if c.disableSerializer then some .serializerDisabled else o.rejection?

/-- Why a leaf has no script value under a configuration. -/
def offence? (c : Config) : Packable → Option Error
  | datum (.object o) | value (.blob o _) => objectOffence? c o
  | value .infinity => some (.invalidScriptType "INF")
  | value .wildcard => some (.invalidScriptType "wildcard")
  | _ => none

end Packable

/-! ## Images -/

mutual

/-- The script value of a datum that has one: a list with an item for each item and a map with an
entry for each entry, as they are iterated. -/
def Datum.image : Datum → Script
  | .null => .nil
  | .value v => v.image
  | .bytes b | .buffer b => .bytes b .blob
  | .text s | .symbol s => .string (Bytes.ofText s)
  | .uuid id => .string (Bytes.ofText id.toText)
  | .int n => .integer n.toInt64
  | .long n => .integer n
  | .byte n => .integer n.toUInt64.toInt64
  | .char ch => .integer (Int64.ofNat ch.toNat)
  | .double x => .number x
  | .float x => .number x.widen
  | .bool b => .boolean b
  | .list items => .list (itemImages items)
  | .map _ entries => .map (entryImages entries)
  | .object o => .bytes o.serialized .jblob

def Value.image : Value → Script
  -- The sentinels have no script value.
  | .null | .infinity | .wildcard => .nil
  | .bytes b particle => .bytes b particle
  | .segment b => .string b
  | .text s | .geoJson s => .string (Bytes.ofText s)
  | .hll b => .bytes b .hll
  | .int n => .integer n.toInt64
  | .long n => .integer n
  | .byte n => .integer n.toUInt64.toInt64
  | .double x => .number x
  | .float x => .number x.widen
  | .bool b | .boolInt b => .boolean b
  | .array values _ => .list (valueImages values)
  | .list items _ => .list (itemImages items)
  | .map _ entries _ _ | .entryList entries _ _ => .map (entryImages entries)
  | .blob o _ => .bytes o.serialized .jblob

def itemImages : List Datum → List Script
  | [] => []
  | x :: xs => x.image :: itemImages xs

def valueImages : List Value → List Script
  | [] => []
  | v :: vs => v.image :: valueImages vs

def entryImages : List (Datum × Datum) → List (Script × Script)
  | [] => []
  | (k, v) :: es => (k.image, v.image) :: entryImages es

end

def Packable.image : Packable → Script
  | datum d => d.image
  | value v => v.image

/-- The members of a list or an array. -/
def Value.listed? : Value → Option (List Packable)
  | .array values _ => some (values.map .value)
  | .list items _ => some (items.map .datum)
  | _ => none

def Datum.listed? : Datum → Option (List Packable)
  | .value v => v.listed?
  | .list items => some (items.map .datum)
  | _ => none

def Packable.listed? : Packable → Option (List Packable)
  | datum d => d.listed?
  | value v => v.listed?

theorem itemLeaves_eq_flatMap (items : List Datum) :
    itemLeaves items = items.flatMap Datum.leaves := by
  induction items with
  | nil => rfl
  | cons x xs ih => rw [itemLeaves, ih, List.flatMap_cons]

theorem valueLeaves_eq_flatMap (values : List Value) :
    valueLeaves values = values.flatMap Value.leaves := by
  induction values with
  | nil => rfl
  | cons v vs ih => rw [valueLeaves, ih, List.flatMap_cons]

theorem entryLeaves_eq_flatMap (entries : Entries) :
    entryLeaves entries = entries.flatMap fun e => e.1.leaves ++ e.2.leaves := by
  induction entries with
  | nil => rfl
  | cons e es ih => rw [entryLeaves, ih, List.flatMap_cons]

theorem itemImages_eq_map (items : List Datum) : itemImages items = items.map Datum.image := by
  induction items with
  | nil => rfl
  | cons x xs ih => rw [itemImages, ih, List.map_cons]

theorem valueImages_eq_map (values : List Value) : valueImages values = values.map Value.image := by
  induction values with
  | nil => rfl
  | cons v vs ih => rw [valueImages, ih, List.map_cons]

theorem entryImages_eq_map (entries : Entries) :
    entryImages entries = entries.map fun e => (e.1.image, e.2.image) := by
  induction entries with
  | nil => rfl
  | cons e es ih => rw [entryImages, ih, List.map_cons]

section Collections

variable {x : Packable} {xs : List Packable} {es : Entries} {order : MapOrder}

theorem Value.image_of_listed {v : Value} (h : v.listed? = some xs) :
    v.image = .list (xs.map Packable.image) := by
  cases v with
  | array values cache =>
    cases h
    rw [Value.image, valueImages_eq_map, List.map_map]
    rfl
  | list items cache =>
    cases h
    rw [Value.image, itemImages_eq_map, List.map_map]
    rfl
  | _ => cases h

theorem Packable.image_of_listed (h : x.listed? = some xs) :
    x.image = .list (xs.map Packable.image) := by
  cases x with
  | value v => exact Value.image_of_listed h
  | datum d =>
    cases d with
    | value v => exact Value.image_of_listed h
    | list items =>
      cases h
      rw [Packable.image, Datum.image, itemImages_eq_map, List.map_map]
      rfl
    | _ => cases h

theorem Value.image_of_mapEntries {v : Value} (h : v.mapEntries? = some (es, order)) :
    v.image = .map (es.map fun e => (e.1.image, e.2.image)) := by
  rw [← entryImages_eq_map]
  cases v <;> cases h <;> rfl

theorem Packable.image_of_mapEntries (h : x.mapEntries? = some (es, order)) :
    x.image = .map (es.map fun e => (e.1.image, e.2.image)) := by
  cases x with
  | value v => exact Value.image_of_mapEntries h
  | datum d =>
    cases d with
    | value v => exact Value.image_of_mapEntries h
    | map kind entries =>
      cases h
      rw [Packable.image, Datum.image, entryImages_eq_map]
    | _ => cases h

end Collections

/-! ## The first offence -/

section Verdict

variable {α β : Type} {c : Config}

/-- The first offence among some leaves, or else a value. -/
def verdict (c : Config) (leaves : List Packable) (value : β) : Except Error β :=
  match leaves.findSome? (Packable.offence? c) with
  | some e => .error e
  | none => .ok value

theorem verdict_eq_report (leaves : List Packable) (value : β) :
    verdict c leaves value = report (leaves.filterMap (Packable.offence? c)) value := by
  unfold verdict report
  rw [← List.head?_filterMap]
  cases leaves.filterMap (Packable.offence? c) <;> rfl

theorem verdict_append (front back : List Packable) (a : α) (b : β) :
    verdict c (front ++ back) (a, b) =
      (verdict c front a).bind fun a => (verdict c back b).map fun b => (a, b) := by
  simp only [verdict_eq_report, report_map, report_bind, List.filterMap_append]

theorem verdict_map (f : α → β) (leaves : List Packable) (a : α) :
    (verdict c leaves a).map f = verdict c leaves (f a) := by
  rw [verdict_eq_report, verdict_eq_report, report_map]

theorem mapM_eq_verdict {f : α → Except Error β} {leaves : α → List Packable} {image : α → β}
    {xs : List α} (h : ∀ x ∈ xs, f x = verdict c (leaves x) (image x)) :
    xs.mapM f = verdict c (xs.flatMap leaves) (xs.map image) := by
  rw [verdict_eq_report, List.filterMap_flatMap]
  apply mapM_eq_report
  intro x hx
  rw [h x hx, verdict_eq_report]

end Verdict

section Members

variable {c : Config} {items : List Datum} {entries : Entries}

theorem scripted_object (o : Object) : (Datum.object o).scripted c =
    verdict c [.datum (.object o)] (.bytes o.serialized .jblob) := by
  change (o.serialize c).result.map (Script.bytes · .jblob) = _
  unfold verdict Object.serialize Object.serialized
  rw [List.findSome?_singleton, Packable.offence?, Packable.objectOffence?]
  cases c.disableSerializer with
  | true => rfl
  | false =>
    unfold Object.rejection?
    cases o.encode <;> rfl

theorem mapM_items (coherent : (Datum.list items).Coherent)
    (ih : ∀ x ∈ items, x.Coherent → x.scripted c = verdict c x.leaves x.image) :
    (items.mapM (Datum.scripted c)).map Script.list =
      verdict c (itemLeaves items) (.list (itemImages items)) := by
  rw [mapM_eq_verdict fun x hx => ih x hx (coherent_items coherent x hx), verdict_map,
    itemLeaves_eq_flatMap, itemImages_eq_map]

theorem mapM_entries (kind : MapKind) (coherent : (Datum.map kind entries).Coherent)
    (ih : ∀ e ∈ entries, (e.1.Coherent → e.1.scripted c = verdict c e.1.leaves e.1.image) ∧
      (e.2.Coherent → e.2.scripted c = verdict c e.2.leaves e.2.image)) :
    (entries.mapM (scriptedEntry c)).map Script.map =
      verdict c (entryLeaves entries) (.map (entryImages entries)) := by
  have members : ∀ e ∈ entries, scriptedEntry c e =
      verdict c (e.1.leaves ++ e.2.leaves) (e.1.image, e.2.image) := by
    intro e he
    obtain ⟨key, value⟩ := coherent_entries kind coherent e he
    rw [scriptedEntry, (ih e he).1 key, (ih e he).2 value, verdict_append]
  rw [mapM_eq_verdict members, verdict_map, entryLeaves_eq_flatMap, entryImages_eq_map]

theorem scripted_eq_verdict :
    (∀ d : Datum, d.Coherent → d.scripted c = verdict c d.leaves d.image) ∧
      ∀ v : Value, v.Coherent → v.scripted c = verdict c v.leaves v.image := by
  apply nested_induction
  case value => exact fun v ih => ih
  case list =>
    intro items ih coherent
    rw [Datum.scripted_list]
    exact mapM_items coherent ih
  case map =>
    intro kind entries ih coherent
    rw [Datum.scripted_map]
    exact mapM_entries kind coherent ih
  case object => exact fun o _ => scripted_object o
  case valueBlob =>
    intro o cache coherent
    rw [scripted_blob ⟨trivial, fun _ => coherent.own⟩, scripted_object]
    rfl
  case valueArray =>
    intro values cache ih coherent
    rw [Value.scripted_array,
      mapM_eq_verdict fun v hv => ih v hv (coherent_values coherent v hv), verdict_map,
      Value.leaves, Value.image, valueLeaves_eq_flatMap, valueImages_eq_map]
  case valueList =>
    intro items cache ih coherent
    rw [Value.scripted_list]
    exact mapM_items (fun u hu => coherent u (List.mem_cons_of_mem _ hu)) ih
  case valueMap =>
    intro kind entries order cache ih coherent
    rw [Value.scripted_map]
    exact mapM_entries kind (fun u hu => coherent u (List.mem_cons_of_mem _ hu)) ih
  case valueEntryList =>
    intro entries order cache ih coherent
    rw [Value.scripted_entryList]
    exact mapM_entries .unordered (fun u hu => coherent u (List.mem_cons_of_mem _ hu)) ih
  all_goals intros; rfl

end Members

/-- For an input with nothing wrong in its caches, under any configuration: taking its script value
fails exactly if one of its leaves offends, with the error of the first one that does. Otherwise it
gives the image of the input, where every list, at any depth, has the images of its items for items
and every map those of its entries for entries, in the order of iteration. -/
theorem script_fails_at_first_offence {x : Packable} (coherent : x.Coherent) (c : Config) :
    (∀ e, x.scripted c = .error e ↔ ∃ front leaf back, x.leaves = front ++ leaf :: back ∧
      leaf.offence? c = some e ∧ ∀ y ∈ front, y.offence? c = none) ∧
    ((∀ y ∈ x.leaves, y.offence? c = none) → x.scripted c = .ok x.image) ∧
    (∀ (y : Packable) ys, y.listed? = some ys → y.image = .list (ys.map Packable.image)) ∧
    ∀ (y : Packable) es order, y.mapEntries? = some (es, order) →
      y.image = .map (es.map fun e => (e.1.image, e.2.image)) := by
  have scripted : x.scripted c = verdict c x.leaves x.image := by
    cases x with
    | datum d => exact scripted_eq_verdict.1 d coherent
    | value v => exact scripted_eq_verdict.2 v coherent
  refine ⟨?_, ?_, fun _ _ => Packable.image_of_listed, fun _ _ _ => Packable.image_of_mapEntries⟩
  · intro e
    rw [scripted, ← List.findSome?_eq_some_iff]
    unfold verdict
    cases x.leaves.findSome? (Packable.offence? c) <;> simp
  · intro clean
    rw [scripted, verdict, List.findSome?_eq_none_iff.mpr clean]

/-- In a map with a rejected object among the values, a disabled serializer is met at an object
before it whose bytes are cached, and without objects ahead a sentinel in a list that is a key. -/
theorem script_fails_at_first_offence_nested :
    let point : Value := .blob ⟨"Point", .integer 7⟩ (some [0x07])
    let bad : Datum := .object ⟨"Bad", .rejected "no"⟩
    let v : Value := .map .unordered [(.null, .value (.array [.long 1, point] none)),
      (.list [.text "a", .value .wildcard], bad)] .key none
    v.scripted { disableSerializer := true } = .error .serializerDisabled ∧
      v.scripted {} = .error (.invalidScriptType "wildcard") := by
  intro point bad v
  have coherent : (Packable.value v).Coherent := by
    change ∀ u ∈ [v, .array [.long 1, point] none, .long 1, point, .wildcard],
      ∀ b, u.cache? = some (some b) → u.Holds b
    simp [v, point, Value.cache?, Value.Holds]
    rfl
  constructor
  · apply ((script_fails_at_first_offence coherent _).1 _).mpr
    refine ⟨[.datum .null, .value (.long 1)], .value point,
      [.datum (.text "a"), .value .wildcard, .datum bad], rfl, rfl, ?_⟩
    simp [Packable.offence?]
  · apply ((script_fails_at_first_offence coherent _).1 _).mpr
    refine ⟨[.datum .null, .value (.long 1), .value point, .datum (.text "a")],
      .value .wildcard, [.datum bad], rfl, rfl, ?_⟩
    simp only [List.forall_mem_cons]
    exact ⟨rfl, rfl, rfl, rfl, List.forall_mem_nil _⟩

end BinCodec
