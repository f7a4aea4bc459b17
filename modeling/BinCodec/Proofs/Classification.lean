import BinCodec.Proofs.PackedItems
import BinCodec.Proofs.ScriptResults
import BinCodec.Proofs.SerializerGate
import Mathlib.Logic.Relation

/-!
# Classifying first or later

A datum is packed and taken into scripts as it is, or classified first. Both are decided case by
case, and agree (`pack_classify`, `scripted_classify`). Hence parts of a datum may be classified
ahead of the whole: `Datum.Step` classifies one part in place, and neither a step nor any number
of steps can be seen on the wire or in scripts.
-/

namespace BinCodec

/-! ## A whole datum -/

section Whole

variable {c : Config}

theorem Datum.toInt_codePoint (ch : Char) : (Datum.codePoint ch).toInt = ch.toNat := by
  have small : ch.toNat < 2 ^ 31 := by
    rcases ch.valid with h | ⟨-, h⟩
    · exact Nat.lt_trans h (by decide)
    · exact Nat.lt_trans h (by decide)
  exact Int32.toInt_ofNat_of_lt small

theorem Datum.toInt64_codePoint (ch : Char) :
    (Datum.codePoint ch).toInt64 = Int64.ofNat ch.toNat := by
  rw [← Int64.toInt_inj, Int32.toInt_toInt64, Datum.toInt_codePoint, BinCodec.toInt_codePoint]

/-- Packing does not ask whether a datum has been classified, nor how. -/
theorem pack_classify (c c' : Config) (d : Datum) : (d.classify c).pack c' = d.pack c' := by
  cases d with
  | bool b =>
    unfold Datum.classify Value.boolean
    split_ifs <;> rfl
  | char ch =>
    exact congrArg (fun n => Emission.ofBytes (Pack.integer n)) (Datum.toInt_codePoint ch)
  | _ => rfl

/-- An object is refused in its own name and a blob by its gate, with one error. -/
theorem result_serialize (o : Object) :
    ((Value.blob o none).encoding c).result = (o.serialize c).result := by
  rw [Value.encoding_of_empty rfl, Value.freshEncoding, Value.gate]
  cases disabled : c.disableSerializer with
  | false => rfl
  | true => simp [Value.holdsObject, Object.serialize, disabled]

theorem scripted_classify (c c' : Config) (d : Datum) :
    (d.classify c).scripted c' = d.scripted c' := by
  cases d with
  | bool b =>
    unfold Datum.classify Value.boolean
    split_ifs <;> rfl
  | char ch => exact congrArg (fun n => Except.ok (Script.integer n)) (Datum.toInt64_codePoint ch)
  | object o => exact congrArg (Except.map (Script.bytes · .jblob)) (result_serialize o)
  | _ => rfl

end Whole

/-! ## Parts of a datum -/

mutual

/-- One part of a datum is classified in place: the whole, an item of a list or the value of a
map entry, at any depth. Keys are left alone, and so is all that is inside a map sorted by
values. Collections may have anything cached. -/
inductive Datum.Step : Datum → Datum → Prop
  | classify (c : Config) (x : Datum) : Datum.Step x (.value (x.classify c))
  | value {v w : Value} (step : Value.Step v w) : Datum.Step (.value v) (.value w)
  | item {x y : Datum} (front back : List Datum) (step : Datum.Step x y) :
    Datum.Step (.list (front ++ x :: back)) (.list (front ++ y :: back))
  | mapValue {x y : Datum} (kind : MapKind) (front back : List (Datum × Datum)) (key : Datum)
    (step : Datum.Step x y) :
    Datum.Step (.map kind (front ++ (key, x) :: back)) (.map kind (front ++ (key, y) :: back))

inductive Value.Step : Value → Value → Prop
  | element {v w : Value} (front back : List Value) (cache cache' : Cache)
    (step : Value.Step v w) :
    Value.Step (.array (front ++ v :: back) cache) (.array (front ++ w :: back) cache')
  | item {x y : Datum} (front back : List Datum) (cache cache' : Cache) (step : Datum.Step x y) :
    Value.Step (.list (front ++ x :: back) cache) (.list (front ++ y :: back) cache')
  | mapValue {x y : Datum} (kind : MapKind) (front back : List (Datum × Datum)) (key : Datum)
    {order : MapOrder} (keyed : order ≠ .keyValue) (cache cache' : Cache)
    (step : Datum.Step x y) :
    Value.Step (.map kind (front ++ (key, x) :: back) order cache)
      (.map kind (front ++ (key, y) :: back) order cache')
  | entryValue {x y : Datum} (front back : List (Datum × Datum)) (key : Datum)
    {order : MapOrder} (keyed : order ≠ .keyValue) (cache cache' : Cache)
    (step : Datum.Step x y) :
    Value.Step (.entryList (front ++ (key, x) :: back) order cache)
      (.entryList (front ++ (key, y) :: back) order cache')

end

section Parts

variable {c : Config} {x y : Datum} {front back : Entries} {key : Datum} {order : MapOrder}

/-- The entries of a map are arranged by their keys, so that a value may change in place. -/
theorem packArranged_replace (keyed : order ≠ .keyValue) (same : x.pack c = y.pack c) :
    packArranged (front ++ (key, x) :: back) order
        (packEntries c (front ++ (key, x) :: back)) =
      packArranged (front ++ (key, y) :: back) order
        (packEntries c (front ++ (key, y) :: back)) := by
  have entryKey : order.entryKey (key, x) = order.entryKey (key, y) := by
    cases order with
    | unordered | key => rfl
    | keyValue => exact absurd rfl keyed
  apply packArranged_congr
  · rw [List.map_append, List.map_append, List.map_cons, List.map_cons, entryKey]
  · rw [List.map_append, List.map_append, List.map_cons, List.map_cons, packEntry, packEntry, same]

theorem scriptedEntry_replace (key : Datum) (same : x.scripted c = y.scripted c) :
    scriptedEntry c (key, x) = scriptedEntry c (key, y) := scriptedEntry_congr rfl same

theorem order_ne_keyValue (kind : MapKind) : kind.order ≠ .keyValue := by
  cases kind <;> exact nofun

end Parts

mutual

theorem Datum.Step.pack {x y : Datum} (c : Config) : x.Step y → x.pack c = y.pack c
  | .classify c' x => (pack_classify c' c x).symm
  | .value step => step.pack c
  | .item front back step => by
    simp only [Datum.pack, packItems_eq_map, List.map_append, List.map_cons, List.length_append,
      List.length_cons, step.pack c]
  | .mapValue kind front back key step =>
    packArranged_replace (order_ne_keyValue kind) (step.pack c)

theorem Value.Step.pack {v w : Value} (c : Config) : v.Step w → v.pack c = w.pack c
  | .element front back _ _ step => by
    simp only [Value.pack, packValues_eq_map, List.map_append, List.map_cons, List.length_append,
      List.length_cons, step.pack c]
  | .item front back _ _ step => by
    simp only [Value.pack, packItems_eq_map, List.map_append, List.map_cons, List.length_append,
      List.length_cons, step.pack c]
  | .mapValue kind front back key keyed _ _ step => packArranged_replace keyed (step.pack c)
  | .entryValue front back key keyed _ _ step => packArranged_replace keyed (step.pack c)

end

mutual

theorem Datum.Step.scripted {x y : Datum} (c : Config) : x.Step y → x.scripted c = y.scripted c
  | .classify c' x => (scripted_classify c' c x).symm
  | .value step => step.scripted c
  | .item front back step => by
    rw [Datum.scripted_list, Datum.scripted_list, mapM_replace (step.scripted c)]
  | .mapValue kind front back key step => by
    rw [Datum.scripted_map, Datum.scripted_map,
      mapM_replace (scriptedEntry_replace key (step.scripted c))]

theorem Value.Step.scripted {v w : Value} (c : Config) : v.Step w → v.scripted c = w.scripted c
  | .element front back _ _ step => by
    rw [Value.scripted_array, Value.scripted_array, mapM_replace (step.scripted c)]
  | .item front back _ _ step => by
    rw [Value.scripted_list, Value.scripted_list, mapM_replace (step.scripted c)]
  | .mapValue kind front back key _ _ _ step => by
    rw [Value.scripted_map, Value.scripted_map,
      mapM_replace (scriptedEntry_replace key (step.scripted c))]
  | .entryValue front back key _ _ _ step => by
    rw [Value.scripted_entryList, Value.scripted_entryList,
      mapM_replace (scriptedEntry_replace key (step.scripted c))]

end

theorem steps_pack {x y : Datum} (h : Relation.ReflTransGen Datum.Step x y) (c : Config) :
    y.pack c = x.pack c := by
  induction h with
  | refl => rfl
  | tail _ step ih => rw [← step.pack c, ih]

theorem steps_scripted {x y : Datum} (h : Relation.ReflTransGen Datum.Step x y) (c : Config) :
    y.scripted c = x.scripted c := by
  induction h with
  | refl => rfl
  | tail _ step ih => rw [← step.scripted c, ih]

/-! ## Lists of classified items -/

/-- Both values are sent alike: packed, measured, written after that, and taken into scripts
with the same result, be it an error. -/
structure Value.SentAlike (v w : Value) : Prop where
  pack : ∀ c, v.pack c = w.pack c
  size : ∀ c, (v.estimateSize c).outcome.result = (w.estimateSize c).outcome.result
  written : ∀ c, (v.estimated c).write = (w.estimated c).write
  script : ∀ c, v.scripted c = w.scripted c

/-- A collection that has not been estimated. -/
structure Value.Unmeasured (v : Value) : Prop where
  empty : v.cache? = some none
  packs : ∀ c, v.freshEncoding c = v.packed c

section Lists

variable {c : Config} {v w : Value}

theorem write_estimated (empty : v.cache? = some none) :
    (v.estimated c).write = Value.writeCache (v.encoding c).result.toOption := by
  rw [Value.estimated, Value.estimateSize_of_cache empty, Run.map, Value.encodeOnce]
  cases (v.encoding c).result with
  | ok b => exact Value.write_of_cache (Value.cache?_fill empty b)
  | error e => exact Value.write_of_cache empty

theorem Value.Unmeasured.sentAlike (hv : v.Unmeasured) (hw : w.Unmeasured)
    (pack : ∀ c, v.pack c = w.pack c) (script : ∀ c, v.scripted c = w.scripted c) :
    v.SentAlike w := by
  have encoding (c : Config) : (v.encoding c).result = (w.encoding c).result := by
    rw [Value.encoding_of_empty hv.empty, Value.encoding_of_empty hw.empty, hv.packs, hw.packs,
      Value.packed, Value.packed, pack, Value.gate, Value.gate, holdsObject_of_pack pack]
    split_ifs <;> rfl
  constructor
  case pack => exact pack
  case script => exact script
  case size =>
    intro c
    rw [outcome_estimateSize hv.empty, outcome_estimateSize hw.empty]
    exact congrArg (Except.map List.length) (encoding c)
  case written =>
    intro c
    rw [write_estimated hv.empty, write_estimated hw.empty, encoding]

end Lists

/-- It makes no difference when a datum is classified, as a whole or in parts: under every
configuration it packs to the same bytes or fails with the same error, and so it does in scripts.
A list, the array of its classified items and the list of these as data are sent alike. -/
theorem classified_first_or_later :
    (∀ (n : Datum) (c c' : Config),
      (n.classify c).pack c' = n.pack c' ∧ (n.classify c).scripted c' = n.scripted c') ∧
    (∀ n m : Datum, Relation.ReflTransGen Datum.Step n m → ∀ c c' : Config,
      m.pack c' = n.pack c' ∧ (m.classify c).pack c' = n.pack c' ∧
        m.scripted c' = n.scripted c' ∧ (m.classify c).scripted c' = n.scripted c') ∧
    ∀ (items : List Datum) (c : Config),
      (Value.list items none).SentAlike (.array (items.map (Datum.classify c)) none) ∧
      (Value.list items none).SentAlike
        (.list (items.map fun x => .value (x.classify c)) none) := by
  have unmeasured (items : List Datum) : (Value.list items none).Unmeasured := ⟨rfl, fun _ => rfl⟩
  refine ⟨?_, ?_, ?_⟩
  · intro n c c'
    exact ⟨pack_classify c c' n, scripted_classify c c' n⟩
  · intro n m steps c c'
    rw [pack_classify, scripted_classify]
    exact ⟨steps_pack steps c', steps_pack steps c', steps_scripted steps c',
      steps_scripted steps c'⟩
  · intro items c
    constructor
    · apply (unmeasured items).sentAlike ⟨rfl, fun _ => rfl⟩
      · intro c'
        simp only [Value.pack, packItems_eq_map, packValues_eq_map, List.map_map,
          List.length_map, Function.comp_def, pack_classify]
      · intro c'
        rw [Value.scripted_list, Value.scripted_array, List.mapM_map]
        exact congrArg _ (mapM_congr_left fun x _ => (scripted_classify c c' x).symm)
    · apply (unmeasured items).sentAlike (unmeasured _)
      · intro c'
        simp only [Value.pack, packItems_eq_map, List.map_map, List.length_map,
          Function.comp_def, Datum.pack, pack_classify]
      · intro c'
        rw [Value.scripted_list, Value.scripted_list, List.mapM_map]
        exact congrArg _ (mapM_congr_left fun x _ => (scripted_classify c c' x).symm)

/-- A boolean and an object deep inside, the list around them and a character beside them are
classified one after the other. -/
theorem classified_first_or_later_nested :
    let o : Object := ⟨"Point", .integer 7⟩
    let n : Datum := .list [.char 'a', .map .unordered [(.null, .list [.bool true, .object o])]]
    let m : Datum := .list [.value (.int 97),
      .map .unordered [(.null, .value (.list [.value (.bool true), .value (.blob o none)] none))]]
    Relation.ReflTransGen Datum.Step n m ∧
      (∀ c, m.pack c = n.pack c ∧ m.scripted c = n.scripted c) ∧
      (m.pack {}).bytes = [0x92, 97, 0x81, 0xc0, 0x92, 0xc3, 0xa2, 7, 7] ∧
      (m.pack { disableSerializer := true }).error? = some .serializerDisabled := by
  intro o n m
  let items : List Datum := [.value (.bool true), .value (.blob o none)]
  have boolean : (Datum.bool true).Step (.value (.bool true)) :=
    .classify { useBoolBin := true } (.bool true)
  have inMap {x y : Datum} (step : x.Step y) : (Datum.list [.char 'a', .map .unordered
      [(.null, x)]]).Step (.list [.char 'a', .map .unordered [(.null, y)]]) :=
    .item [.char 'a'] [] (.mapValue .unordered [] [] .null step)
  have steps : Relation.ReflTransGen Datum.Step n m :=
    calc
      Relation.ReflTransGen Datum.Step n
          (.list [.char 'a', .map .unordered [(.null, .list [.value (.bool true), .object o])]]) :=
        .single (inMap (.item [] [.object o] boolean))
      Datum.Step _ (.list [.char 'a', .map .unordered [(.null, .list items)]]) :=
        inMap (.item [.value (.bool true)] [] (.classify {} (.object o)))
      Datum.Step _ (.list [.char 'a', .map .unordered [(.null, .value (.list items none))]]) :=
        inMap (.classify {} (.list items))
      Datum.Step _ m := .item [] [_] (.classify {} (.char 'a'))
  refine ⟨steps, ?_, by rfl, by rfl⟩
  intro c
  obtain ⟨pack, -, script, -⟩ := classified_first_or_later.2.1 n m steps c c
  exact ⟨pack, script⟩

end BinCodec
