import BinCodec.Proofs.DistinctKeys
import BinCodec.Proofs.ScalarKeys

/-!
# What the place of a key depends on

The order of keys takes back the classification of a key and looks past the spelling of scalars,
but only at the outermost level: what is inside a list or a map is compared as it is spelled. So
the place of a scalar, however it is spelled, is decided by what the server sees of it
(`serverKey_of_scalar`). The place of a list or a map is decided by it as long as what is inside is
from a vocabulary with one spelling for each item (`serverKey_of_wire`, `serverKey_of_wire_map`).
Otherwise what is one key to the server may have several places.
-/

namespace BinCodec

/-! ## Scalars -/

theorem Scalar.compare_self (s : Scalar) : s.compare s = .eq := by
  rw [← compare_content, SortKey.compare_self, Nat.compare_eq_eq.mpr rfl]
  rfl

/-- Scalars of one wire tree have one place, whatever their spelling. -/
theorem serverKey_of_scalar {a b : Datum} (ha : a.IsScalar) (hb : b.IsScalar)
    (same : a.wire = b.wire) : a.serverKey = b.serverKey := by
  obtain ⟨s, countsA, -⟩ := ha.counts
  have tie : a.serverCompare b = .eq := by
    rw [← keyOrder_fieldwise, keyOrder_scalar ha hb countsA (same ▸ countsA)]
    exact s.compare_self
  exact SortKey.eq_of_compare tie

theorem Datum.IsScalar.wire_ne_array {d : Datum} (h : d.IsScalar) (ws : List Wire) :
    d.wire ≠ .array ws := by
  obtain ⟨s, counts, -⟩ := h.counts
  intro tree
  rw [tree] at counts
  cases counts

/-! ## Lists -/

/-- The items of a list, whichever way it is spelled. -/
def Datum.items? : Datum → Option (List Datum)
  | .list items | .value (.list items _) => some items
  | .value (.array values _) => some (Value.wrapAll values)
  | _ => none

theorem wireItems_wrapAll (values : List Value) :
    wireItems (Value.wrapAll values) = wireValues values := by
  rw [wireItems_eq_map, wireValues_eq_map, Value.wrapAll, List.map_map]
  rfl

theorem wire_of_items {d : Datum} {items : List Datum} (h : d.items? = some items) :
    d.wire = .array (wireItems items) ∧ d.serverKey = .node 4 (itemKeys items) := by
  cases d with
  | list items =>
    cases h
    exact ⟨rfl, rfl⟩
  | value v =>
    cases v with
    | list items =>
      cases h
      exact ⟨rfl, rfl⟩
    | array values =>
      cases h
      exact ⟨congrArg Wire.array (wireItems_wrapAll values).symm, rfl⟩
    | _ => cases h
  | _ => cases h

/-! ## Maps -/

theorem wire_of_collection {d : Datum} {kind : MapKind} {es : Entries}
    (h : d.collection? = some (kind, es)) :
    (∃ order, d.wire = .map order (order.along es (wireEntries es))) ∧
      d.serverKey = .node 5 [(Datum.map kind es).sortKey] := by
  cases d with
  | map kind es =>
    cases h
    exact ⟨⟨_, rfl⟩, rfl⟩
  | value v =>
    cases v with
    | map kind es order =>
      cases h
      exact ⟨⟨order, rfl⟩, rfl⟩
    | _ => cases h
  | _ => cases h

/-- Keys that are map collections of a kind, with members from a vocabulary. -/
def Datum.MapOf (kind : MapKind) (S : Datum → Prop) (d : Datum) : Prop :=
  ∃ m : MapEntries, m.kind = kind ∧ d.collection? = some (kind, m.entries) ∧
    ∀ x ∈ Entries.members m.entries, S x

/-! ## Places -/

/-- Keys that are scalars, in any spelling, or lists, in any spelling, with items from a
vocabulary. -/
def Datum.ScalarOrListOf (S : Datum → Prop) (d : Datum) : Prop :=
  d.IsScalar ∨ ∃ items, d.items? = some items ∧ ∀ x ∈ items, S x

section Places

variable {S : Datum → Prop} {a b : Datum}

theorem serverKey_of_wire (h : Unambiguous S) (ha : a.ScalarOrListOf S) (hb : b.ScalarOrListOf S)
    (same : a.wire = b.wire) : a.serverKey = b.serverKey := by
  rcases ha with ha | ⟨xs, hxs, inS⟩ <;> rcases hb with hb | ⟨ys, hys, inS'⟩
  · exact serverKey_of_scalar ha hb same
  · exact absurd (same.trans (wire_of_items hys).1) (ha.wire_ne_array _)
  · exact absurd (same.symm.trans (wire_of_items hxs).1) (hb.wire_ne_array _)
  · obtain ⟨wireA, keyA⟩ := wire_of_items hxs
    obtain ⟨wireB, keyB⟩ := wire_of_items hys
    rw [wireA, wireB] at same
    have alike := Unambiguous.alike_items inS inS' (items_of_wire (Wire.array.inj same))
    rw [keyA, keyB, Unambiguous.itemKeys_congr (alike.imp h.determined.1)]

theorem serverKey_of_wire_map (h : Unambiguous S) {kind : MapKind} (ha : a.MapOf kind S)
    (hb : b.MapOf kind S) (same : a.wire = b.wire) : a.serverKey = b.serverKey := by
  obtain ⟨m, rfl, hm, inS⟩ := ha
  obtain ⟨n, kinds, hn, inS'⟩ := hb
  obtain ⟨⟨order, wireA⟩, keyA⟩ := wire_of_collection hm
  obtain ⟨⟨order', wireB⟩, keyB⟩ := wire_of_collection hn
  rw [wireA, wireB] at same
  obtain ⟨rfl, entries⟩ := Wire.map.inj same
  obtain ⟨gs, alike, perm⟩ := Unambiguous.alike_map inS inS' (entriesMatch_of_wire entries)
  have equal : EntriesMatch Likeness.sameKey.datum m.entries n.entries :=
    ⟨gs, alike.imp fun _ _ both => ⟨h.determined.1 _ _ both.1, h.determined.1 _ _ both.2⟩, perm⟩
  rw [keyA, keyB, sortKey_map, sortKey_map,
    Unambiguous.arrangeKeys_congr m.held (kinds ▸ n.held) equal]

theorem itemKeys_wrapAll (values : List Value) :
    itemKeys (Value.wrapAll values) = (valueKeys values).map fun k => .node 1 [k] := by
  rw [itemKeys_eq_map, valueKeys_eq_map, Value.wrapAll, List.map_map, List.map_map]
  rfl

theorem itemKeys_pairLists {es fs : Entries} (h : entryKeys es = entryKeys fs) :
    itemKeys (Value.pairLists es) = itemKeys (Value.pairLists fs) := by
  rw [entryKeys_eq_map, entryKeys_eq_map, ← forall₂_iff_map_eq] at h
  rw [itemKeys_eq_map, itemKeys_eq_map, Value.pairLists, Value.pairLists, List.map_map,
    List.map_map, ← forall₂_iff_map_eq]
  apply h.imp
  intro e f same
  simpa [entrySortKey, Datum.sortKey, itemKeys] using same

theorem serverKey_value_of_sortKey {u v : Value} (h : u.sortKey = v.sortKey) :
    (Datum.value u).serverKey = (Datum.value v).serverKey := by
  have equal : ObjectOrder.fieldwise.structural.value u v = .eq := by
    rw [structural_fieldwise]
    exact beq_iff_eq.mp (Value.same_iff.mpr h)
  cases Value.matches_of_structural equal with
  | refl => rfl
  | blob | list =>
    simpa [Value.sortKey, Datum.serverKey, Datum.keyForm, Value.toDatum, Datum.plainServerKey]
      using h
  | @array us vs c d _ =>
    have keys : valueKeys us = valueKeys vs := by simpa [Value.sortKey] using h
    change SortKey.node 4 (itemKeys (Value.wrapAll us)) = .node 4 (itemKeys (Value.wrapAll vs))
    rw [itemKeys_wrapAll, itemKeys_wrapAll, keys]
  | @map kind order es fs c d _ =>
    have keys : kind.arrangeKeys (entryKeys es) = kind.arrangeKeys (entryKeys fs) := by
      simpa [Value.sortKey] using h
    change SortKey.node 5 [(Datum.map kind es).sortKey] = .node 5 [(Datum.map kind fs).sortKey]
    rw [sortKey_map, sortKey_map, keys]
  | @entryList order es fs c d _ =>
    have keys : entryKeys es = entryKeys fs := by simpa [Value.sortKey] using h
    change SortKey.node 4 (itemKeys (Value.pairLists es)) =
      .node 4 (itemKeys (Value.pairLists fs))
    rw [itemKeys_pairLists keys]

theorem serverKey_of_sortKey (h : a.sortKey = b.sortKey) : a.serverKey = b.serverKey := by
  have equal : ObjectOrder.fieldwise.structural.datum a b = .eq := by
    rw [structural_fieldwise]
    exact beq_iff_eq.mp (Datum.same_iff.mpr h)
  cases Datum.matches_of_structural equal with
  | refl => rfl
  | value _ =>
    apply serverKey_value_of_sortKey
    simpa [Datum.sortKey] using h
  | list _ => simpa [Datum.sortKey, Datum.serverKey, Datum.keyForm, Datum.plainServerKey] using h
  | map kind _ => exact congrArg (fun k => SortKey.node 5 [k]) h
  | object _ => simpa [Datum.sortKey, Datum.serverKey, Datum.keyForm, Datum.plainServerKey] using h

end Places

/-- Two keys that pack to the same bytes have the same place among all keys if they are from a
vocabulary with one spelling for each item. So do keys with members from such a vocabulary that
are scalars or lists in any spelling, or map collections of one kind, classified or not. -/
theorem place_seen_on_wire {S : Datum → Prop} (unambiguous : Unambiguous S) {a a' : Datum}
    {c c' : Config} (sendable : (Packable.datum a).Sendable c)
    (sendable' : (Packable.datum a').Sendable c') (same : (a.pack c).bytes = (a'.pack c').bytes)
    (spelled : S a ∧ S a' ∨ a.ScalarOrListOf S ∧ a'.ScalarOrListOf S ∨
      ∃ kind, a.MapOf kind S ∧ a'.MapOf kind S) (b : Datum) :
    a.serverCompare b = a'.serverCompare b ∧ b.serverCompare a = b.serverCompare a' := by
  have tree : a.wire = a'.wire := (sendable.bytes_eq_iff sendable').mp same
  have key : a.serverKey = a'.serverKey := by
    rcases spelled with ⟨ha, ha'⟩ | ⟨ha, ha'⟩ | ⟨kind, ha, ha'⟩
    · exact serverKey_of_sortKey (unambiguous.determined.1 a a' ⟨⟨ha, ha'⟩, tree⟩)
    · exact serverKey_of_wire unambiguous ha ha' tree
    · exact serverKey_of_wire_map unambiguous ha ha' tree
  rw [Datum.serverCompare, Datum.serverCompare, Datum.serverCompare, Datum.serverCompare, key]
  exact ⟨rfl, rfl⟩

/-- A list of longs has one place, as it is or classified. -/
theorem place_seen_on_wire_classified :
    (Datum.list [.long 3]).serverCompare (.list [.long 2]) =
      (Datum.value (.list [.long 3] none)).serverCompare (.list [.long 2]) := by
  have fits : (Wire.array [.integer 3]).Fits := by
    apply Wire.Fits.array (by decide)
    simp [Wire.Fits.integer]
  have standard : ∀ x ∈ [Datum.long 3], x.Standard := by simp [Datum.Standard.long]
  have bare : (Packable.datum (.list [.long 3])).Sendable {} := ⟨rfl, fits⟩
  have classified : (Packable.datum (.value (.list [.long 3] none))).Sendable {} := ⟨rfl, fits⟩
  have lists : (Datum.list [.long 3]).ScalarOrListOf Datum.Standard ∧
      (Datum.value (.list [.long 3] none)).ScalarOrListOf Datum.Standard :=
    ⟨.inr ⟨_, rfl, standard⟩, .inr ⟨_, rfl, standard⟩⟩
  exact (place_seen_on_wire unambiguous_standard bare classified rfl (.inr (.inl lists))
    (.list [.long 2])).1

/-- A list of an int and a list of a long pack alike and have different places. -/
theorem place_of_respelled_items :
    ¬ ∀ (a a' b : Datum) (c : Config), c.disableSerializer = false →
      (a.pack c).error? = none → (a'.pack c).error? = none →
      (a.pack c).bytes = (a'.pack c).bytes →
      a.serverCompare b = a'.serverCompare b ∧ b.serverCompare a = b.serverCompare a' := by
  intro placed
  have h := placed (.list [.int 3]) (.list [.long 3]) (.list [.long 2]) {} rfl rfl rfl rfl
  exact absurd h.1 (by decide)

end BinCodec
