import BinCodec.Proofs.Likeness
import BinCodec.Proofs.ServerOrder

/-!
# Spellings

Packing forgets which kind of datum an item was: an integer may be spelled as an int or a long, a
list as a list or a classified array. Two data are spellings of one item if their wire trees are
equal, and data of different kinds are never equal, so different keys may be one to the server.
A vocabulary is `Unambiguous` if it has one spelling for each item. In such a vocabulary data that
look the same on the wire are equal (`Unambiguous.determined`).
-/

namespace BinCodec

/-! ## Entries in ascending order -/

theorem ascending_entryKeys {es : Entries} (h : es.KeysAscend Datum.compare) :
    ascending (entryKeys es) = entryKeys es := by
  apply List.mergeSort_of_pairwise
  rw [entryKeys_eq_map, List.pairwise_map]
  apply h.imp
  intro e f lt
  have key : e.1.sortKey.compare f.1.sortKey = .lt := lt
  simp [entrySortKey, SortKey.compare, SortKey.compareAll, key]

theorem sortKey_map (kind : MapKind) (es : Entries) :
    (Datum.map kind es).sortKey = .node (14 + kind.rank) (kind.arrangeKeys (entryKeys es)) := by
  cases kind <;> rfl

theorem arrangeKeys_of_perm {kind : MapKind} {es fs : Entries} (left : kind.Holds es)
    (right : kind.Holds fs) (perm : (entryKeys es).Perm (entryKeys fs)) :
    kind.arrangeKeys (entryKeys es) = kind.arrangeKeys (entryKeys fs) := by
  cases kind with
  | unordered => exact ascending_of_perm perm
  | sorted =>
    rw [MapKind.arrangeKeys, MapKind.arrangeKeys, ← ascending_entryKeys (left.ascending rfl),
      ← ascending_entryKeys (right.ascending rfl), ascending_of_perm perm]

/-! ## Data that look the same -/

def Likeness.onWire : Likeness where
  datum a b := a.wire = b.wire
  value u v := u.wire = v.wire
  object o p := o.serialized = p.serialized

def Value.kind? : Value → Option MapKind
  | .map kind _ _ _ => some kind
  | _ => none

/-- Data of one variant, which for a classified one includes the variant of its value. -/
def Datum.SameVariant : Datum → Datum → Prop
  | .value u, .value v => u.rank = v.rank ∧ u.kind? = v.kind?
  | a, b => a.rank = b.rank

/-- A list of entries is given in the order that it is packed in. -/
def Value.GivenAsPacked : Value → Prop
  | .entryList entries order _ => order.entries entries = entries
  | _ => True

/-- The kind and the entries of a map collection, whether it is classified or not. -/
def Datum.collection? : Datum → Option (MapKind × Entries)
  | .map kind entries | .value (.map kind entries _ _) => some (kind, entries)
  | _ => none

section Wire

variable {es fs : Entries} {order : MapOrder}

theorem items_of_wire {xs ys : List Datum} (h : wireItems xs = wireItems ys) :
    List.Forall₂ (fun x y => x.wire = y.wire) xs ys := by
  rw [wireItems_eq_map, wireItems_eq_map] at h
  exact forall₂_iff_map_eq.mpr h

theorem values_of_wire {us vs : List Value} (h : wireValues us = wireValues vs) :
    List.Forall₂ (fun u v => u.wire = v.wire) us vs := by
  rw [wireValues_eq_map, wireValues_eq_map] at h
  exact forall₂_iff_map_eq.mpr h

theorem entries_of_wire
    (h : order.along es (wireEntries es) = order.along fs (wireEntries fs)) :
    List.Forall₂ (fun e f => e.1.wire = f.1.wire ∧ e.2.wire = f.2.wire)
      (order.entries es) (order.entries fs) := by
  rw [wireEntries_eq_map, wireEntries_eq_map, MapOrder.along_map, MapOrder.along_map] at h
  exact (forall₂_iff_map_eq.mpr h).imp fun _ _ => Prod.mk.inj

theorem entriesMatch_of_wire
    (h : order.along es (wireEntries es) = order.along fs (wireEntries fs)) :
    EntriesMatch (fun a b => a.wire = b.wire) es fs := by
  have arranged (es : Entries) : (order.entries es).Perm es := order.arrange_perm id es
  obtain ⟨gs, related, perm⟩ := List.perm_comp_forall₂ (arranged es).symm (entries_of_wire h)
  exact ⟨gs, related, perm.trans (arranged fs)⟩

theorem byte_eq_of_wire {m n : UInt8} (h : m.toUInt64.toInt64 = n.toUInt64.toInt64) : m = n := by
  have same := congrArg Int64.toInt h
  rw [toInt_byte, toInt_byte] at same
  exact UInt8.toNat_inj.mp (Int.ofNat_inj.mp same)

theorem char_eq_of_wire {c d : Char} (h : Int64.ofNat c.toNat = Int64.ofNat d.toNat) : c = d := by
  have same := congrArg Int64.toInt h
  rw [toInt_codePoint, toInt_codePoint] at same
  exact Char.toNat_inj.mp (Int.ofNat_inj.mp same)

theorem int_eq_of_wire {m n : Int32} (h : m.toInt64 = n.toInt64) : m = n := by
  have same := congrArg Int64.toInt h
  rw [Int32.toInt_toInt64, Int32.toInt_toInt64] at same
  exact Int32.toInt_inj.mp same

/-- Data of one variant that look the same have the same scalars and members that look the same. -/
theorem Datum.matches_of_wire {a b : Datum} :
    a.rank = b.rank → a.wire = b.wire → a.Matches .onWire b := by
  apply Datum.by_kind (a := a) (b := b)
  case ranks => exact fun a b ne same => absurd same ne
  case null => exact fun _ _ => .refl _
  case value => exact fun u v _ h => .value h
  case bytes => exact fun _ _ _ h => matches_of_eq .bytes (Wire.payload.inj h).2
  case buffer => exact fun _ _ _ h => matches_of_eq .buffer (Wire.payload.inj h).2
  case text =>
    exact fun _ _ _ h => matches_of_eq .text (ObjectOrder.ofText_injective (Wire.payload.inj h).2)
  case symbol =>
    exact fun _ _ _ h =>
      matches_of_eq .symbol (ObjectOrder.ofText_injective (Wire.payload.inj h).2)
  case uuid =>
    exact fun _ _ _ h => matches_of_eq .uuid
      (Uuid.eq_of_toText (ObjectOrder.ofText_injective (Wire.payload.inj h).2))
  case int => exact fun _ _ _ h => matches_of_eq .int (int_eq_of_wire (Wire.integer.inj h))
  case long => exact fun _ _ _ h => matches_of_eq .long (Wire.integer.inj h)
  case byte => exact fun _ _ _ h => matches_of_eq .byte (byte_eq_of_wire (Wire.integer.inj h))
  case char => exact fun _ _ _ h => matches_of_eq .char (char_eq_of_wire (Wire.integer.inj h))
  case double => exact fun _ _ _ h => matches_of_eq .double (Wire.double.inj h)
  case float => exact fun _ _ _ h => matches_of_eq .float (Wire.float.inj h)
  case bool => exact fun _ _ _ h => matches_of_eq .bool (Wire.boolean.inj h)
  case list => exact fun _ _ _ h => .list (items_of_wire (Wire.array.inj h))
  case unordered => exact fun _ _ _ h => .map .unordered (entriesMatch_of_wire (Wire.map.inj h).2)
  case sorted => exact fun _ _ _ h => .map .sorted (entriesMatch_of_wire (Wire.map.inj h).2)
  case object => exact fun _ _ _ h => .object (Wire.payload.inj h).2

theorem Value.matches_of_wire {u v : Value} : u.rank = v.rank → u.kind? = v.kind? →
    u.GivenAsPacked → v.GivenAsPacked → u.wire = v.wire → u.Matches .onWire v := by
  apply Value.by_kind (u := u) (v := v)
  case ranks => exact fun u v ne same => absurd same ne
  case null | infinity | wildcard => exact fun _ _ _ _ _ => .refl _
  case bytes =>
    intro a p b q _ _ _ _ h
    obtain ⟨rfl, rfl⟩ := Wire.payload.inj h
    exact .refl _
  case segment => exact fun _ _ _ _ _ _ h => matches_of_eq .segment (Wire.payload.inj h).2
  case hll => exact fun _ _ _ _ _ _ h => matches_of_eq .hll (Wire.payload.inj h).2
  case text =>
    exact fun _ _ _ _ _ _ h =>
      matches_of_eq .text (ObjectOrder.ofText_injective (Wire.payload.inj h).2)
  case geoJson =>
    exact fun _ _ _ _ _ _ h =>
      matches_of_eq .geoJson (ObjectOrder.ofText_injective (Wire.payload.inj h).2)
  case int => exact fun _ _ _ _ _ _ h => matches_of_eq .int (int_eq_of_wire (Wire.integer.inj h))
  case long => exact fun _ _ _ _ _ _ h => matches_of_eq .long (Wire.integer.inj h)
  case byte =>
    exact fun _ _ _ _ _ _ h => matches_of_eq .byte (byte_eq_of_wire (Wire.integer.inj h))
  case double => exact fun _ _ _ _ _ _ h => matches_of_eq .double (Wire.double.inj h)
  case float => exact fun _ _ _ _ _ _ h => matches_of_eq .float (Wire.float.inj h)
  case bool => exact fun _ _ _ _ _ _ h => matches_of_eq .bool (Wire.boolean.inj h)
  case boolInt => exact fun _ _ _ _ _ _ h => matches_of_eq .boolInt (Wire.boolean.inj h)
  case blob => exact fun _ c _ d _ _ _ _ h => .blob c d (Wire.payload.inj h).2
  case array =>
    exact fun _ c _ d _ _ _ _ h => .array c d (values_of_wire (Wire.array.inj h))
  case list => exact fun _ c _ d _ _ _ _ h => .list c d (items_of_wire (Wire.array.inj h))
  case map =>
    intro kind es order c kind' fs order' d _ kinds _ _ h
    obtain ⟨rfl, entries⟩ := Wire.map.inj h
    obtain rfl := Option.some.inj kinds
    exact .map kind order c d (entriesMatch_of_wire entries)
  case entryList =>
    intro es order c fs order' d _ _ hes hfs h
    obtain ⟨rfl, entries⟩ := Wire.map.inj h
    have related := entries_of_wire entries
    rw [show order.entries es = es from hes, show order.entries fs = fs from hfs] at related
    exact .entryList order c d related

end Wire

/-! ## Vocabularies -/

/-- The data that an entry list or a map is made of. -/
def Entries.members (entries : Entries) : List Datum := entries.flatMap fun e => [e.1, e.2]

/-- The data that a value is made of. The members of an array are data as classified ones. -/
def Value.members : Value → List Datum
  | .array values _ => Value.wrapAll values
  | .list items _ => items
  | .map _ entries _ _ | .entryList entries _ _ => Entries.members entries
  | _ => []

def Datum.members : Datum → List Datum
  | .list items => items
  | .map _ entries => Entries.members entries
  | .value v => v.members
  | _ => []

def Datum.object? : Datum → Option Object
  | .object o | .value (.blob o _) => some o
  | _ => none

/-- A vocabulary with one spelling for each item: whatever is inside its data belongs to it, data
that look the same on the wire are of one variant, objects that serialize alike are equal, maps are
as they are built and lists of entries as they are packed. -/
structure Unambiguous (S : Datum → Prop) : Prop where
  members : ∀ d, S d → ∀ m ∈ d.members, S m
  variant : ∀ a b, S a → S b → a.wire = b.wire → a.SameVariant b
  objects : ∀ a b, S a → S b → ∀ o ∈ a.object?, ∀ p ∈ b.object?,
    o.serialized = p.serialized → o.sortKey = p.sortKey
  held : ∀ d, S d → ∀ kind es, d.collection? = some (kind, es) → kind.Holds es
  given : ∀ v, S (.value v) → v.GivenAsPacked

def Likeness.sameKey : Likeness where
  datum a b := a.sortKey = b.sortKey
  value u v := u.sortKey = v.sortKey
  object o p := o.sortKey = p.sortKey

namespace Unambiguous

variable {S : Datum → Prop} {a b : Datum} {u v : Value} {es fs : Entries}

/-- Data and values of a vocabulary that look the same. -/
def lookAlike (S : Datum → Prop) : Likeness where
  datum a b := (S a ∧ S b) ∧ a.wire = b.wire
  value u v := (S (.value u) ∧ S (.value v)) ∧ u.wire = v.wire
  object o p := o.sortKey = p.sortKey

/-! ### Members -/

theorem mem_members {e : Datum × Datum} (he : e ∈ es) :
    e.1 ∈ Entries.members es ∧ e.2 ∈ Entries.members es := by
  constructor <;> exact List.mem_flatMap.mpr ⟨e, he, by simp⟩

theorem alike_items {xs ys : List Datum} (left : ∀ x ∈ xs, S x) (right : ∀ y ∈ ys, S y)
    (same : List.Forall₂ (fun x y => x.wire = y.wire) xs ys) :
    List.Forall₂ (lookAlike S).datum xs ys :=
  forall₂_imp_mem same fun x hx y hy wires => ⟨⟨left x hx, right y hy⟩, wires⟩

theorem alike_entries (left : ∀ x ∈ Entries.members es, S x)
    (right : ∀ y ∈ Entries.members fs, S y)
    (same : List.Forall₂ (fun e f => e.1.wire = f.1.wire ∧ e.2.wire = f.2.wire) es fs) :
    List.Forall₂ (fun e f => (lookAlike S).datum e.1 f.1 ∧ (lookAlike S).datum e.2 f.2) es fs := by
  apply forall₂_imp_mem same
  intro e he f hf ⟨keys, values⟩
  obtain ⟨hk, hv⟩ := mem_members he
  obtain ⟨hk', hv'⟩ := mem_members hf
  exact ⟨⟨⟨left _ hk, right _ hk'⟩, keys⟩, ⟨left _ hv, right _ hv'⟩, values⟩

theorem alike_map (left : ∀ x ∈ Entries.members es, S x) (right : ∀ y ∈ Entries.members fs, S y)
    (same : EntriesMatch (fun a b => a.wire = b.wire) es fs) :
    EntriesMatch (lookAlike S).datum es fs := by
  obtain ⟨gs, related, perm⟩ := same
  have inside : ∀ y ∈ Entries.members gs, S y :=
    fun y hy => right y ((perm.flatMap_right _).mem_iff.mp hy)
  exact ⟨gs, alike_entries left inside related, perm⟩

/-! ### Looking alike -/

theorem matches_datum (h : Unambiguous S) (alike : (lookAlike S).datum a b) :
    a.Matches .onWire b := by
  obtain ⟨⟨ha, hb⟩, same⟩ := alike
  apply Datum.matches_of_wire _ same
  have variant := h.variant a b ha hb same
  unfold Datum.SameVariant at variant
  split at variant
  · rfl
  · exact variant

theorem matches_value (h : Unambiguous S) (alike : (lookAlike S).value u v) :
    u.Matches .onWire v := by
  obtain ⟨⟨hu, hv⟩, same⟩ := alike
  obtain ⟨ranks, kinds⟩ := h.variant _ _ hu hv same
  exact Value.matches_of_wire ranks kinds (h.given u hu) (h.given v hv) same

theorem descends (h : Unambiguous S) : (lookAlike S).Descends where
  datum := by
    intro a b alike
    obtain ⟨ha, hb⟩ := alike.1
    have left := h.members a ha
    have right := h.members b hb
    cases h.matches_datum alike with
    | refl => exact .refl _
    | value same => exact .value ⟨⟨ha, hb⟩, same⟩
    | list items => exact .list (alike_items left right items)
    | map kind entries => exact .map kind (alike_map left right entries)
    | object same => exact .object (h.objects _ _ ha hb _ rfl _ rfl same)
  value := by
    intro u v alike
    obtain ⟨hu, hv⟩ := alike.1
    have left := h.members _ hu
    have right := h.members _ hv
    cases h.matches_value alike with
    | refl => exact .refl _
    | blob c d same => exact .blob c d (h.objects _ _ hu hv _ rfl _ rfl same)
    | array c d values =>
      apply Value.Matches.array
      apply forall₂_imp_mem values
      exact fun u hu v hv same =>
        ⟨⟨left _ (List.mem_map_of_mem hu), right _ (List.mem_map_of_mem hv)⟩, same⟩
    | list c d items => exact .list c d (alike_items left right items)
    | map kind order c d entries => exact .map kind order c d (alike_map left right entries)
    | entryList order c d entries => exact .entryList order c d (alike_entries left right entries)

/-! ### Sort keys -/

theorem itemKeys_congr {xs ys : List Datum} (items : List.Forall₂ Likeness.sameKey.datum xs ys) :
    itemKeys xs = itemKeys ys := by
  rw [itemKeys_eq_map, itemKeys_eq_map]
  exact forall₂_iff_map_eq.mp items

theorem valueKeys_congr {us vs : List Value} (values : List.Forall₂ Likeness.sameKey.value us vs) :
    valueKeys us = valueKeys vs := by
  rw [valueKeys_eq_map, valueKeys_eq_map]
  exact forall₂_iff_map_eq.mp values

theorem entryKeys_congr (entries : List.Forall₂ (fun e f => Likeness.sameKey.datum e.1 f.1 ∧
    Likeness.sameKey.datum e.2 f.2) es fs) : entryKeys es = entryKeys fs := by
  rw [entryKeys_eq_map, entryKeys_eq_map, ← forall₂_iff_map_eq]
  apply entries.imp
  intro e f ⟨key, value⟩
  rw [entrySortKey, entrySortKey, show e.1.sortKey = _ from key, show e.2.sortKey = _ from value]

theorem arrangeKeys_congr {kind : MapKind} (left : kind.Holds es) (right : kind.Holds fs)
    (entries : EntriesMatch Likeness.sameKey.datum es fs) :
    kind.arrangeKeys (entryKeys es) = kind.arrangeKeys (entryKeys fs) := by
  obtain ⟨gs, related, perm⟩ := entries
  apply arrangeKeys_of_perm left right
  rw [entryKeys_congr related, entryKeys_eq_map, entryKeys_eq_map]
  exact perm.map entrySortKey

/-- Data of the vocabulary that look the same have one sort key. -/
theorem determined (h : Unambiguous S) :
    (∀ a b, (lookAlike S).datum a b → a.sortKey = b.sortKey) ∧
      ∀ u v, (lookAlike S).value u v → u.sortKey = v.sortKey := by
  have collections {a b : Datum} {kind : MapKind} {es fs : Entries}
      (ih : ∀ e ∈ es, (lookAlike S).Implies .sameKey e.1 ∧ (lookAlike S).Implies .sameKey e.2)
      (members : S a ∧ S b) (left : a.collection? = some (kind, es))
      (right : b.collection? = some (kind, fs)) (entries : EntriesMatch (lookAlike S).datum es fs) :
      kind.arrangeKeys (entryKeys es) = kind.arrangeKeys (entryKeys fs) :=
    arrangeKeys_congr (h.held a members.1 kind es left) (h.held b members.2 kind fs right)
      (Likeness.Implies.entriesMatch ih entries)
  apply Likeness.Descends.induction (r := .sameKey) h.descends
  case refl | valueRefl => exact fun _ => rfl
  case value => exact fun same => congrArg (fun k => SortKey.node 1 [k]) same
  case list => exact fun items => congrArg (SortKey.node 13) (itemKeys_congr items)
  case map =>
    intro kind es fs ih alike
    cases h.descends.datum alike with
    | refl => rfl
    | map _ entries =>
      change Datum.sortKey _ = Datum.sortKey _
      rw [sortKey_map, sortKey_map, collections ih alike.1 rfl rfl entries]
  case object => exact fun same => congrArg (fun k => SortKey.node 17 [k]) same
  case valueBlob => exact fun _ _ same => congrArg (fun k => SortKey.node 11 [k]) same
  case valueArray => exact fun _ _ values => congrArg (SortKey.node 14) (valueKeys_congr values)
  case valueList => exact fun _ _ items => congrArg (SortKey.node 15) (itemKeys_congr items)
  case valueMap =>
    intro kind es fs order c d ih alike
    cases h.descends.value alike with
    | refl => rfl
    | map _ _ _ _ entries =>
      exact congrArg (fun ks => SortKey.node 16 [.number order.rank, .node kind.rank ks])
        (collections ih alike.1 rfl rfl entries)
  case valueEntryList =>
    intro es fs order _ _ entries
    exact congrArg (fun ks => SortKey.node 17 [.number order.rank, .node 0 ks])
      (entryKeys_congr entries)

end Unambiguous

end BinCodec
