import BinCodec.Proofs.Collecting
import BinCodec.Proofs.FlatEncoding
import BinCodec.Proofs.KeyPlacement
import BinCodec.Proofs.SerializerGate

/-!
# Ordered maps have one encoding

Entries whose keys have different places on the server have one arrangement under every map order
but the unordered one, however they are permuted (`entriesBy_of_apart`). Such keys are distinct
in the structural order too, so no collection drops or alters an entry. Hence the encoding of an
ordered map does not tell which collection its entries came from, nor in what sequence they were
given.
-/

namespace BinCodec

/-! ## Entries with their keys apart -/

section Apart

variable {ord : ObjectOrder} {es fs : Entries} {order order' : MapOrder}

/-- Equal keys have one place. -/
theorem Entries.KeysApart.of_server (h : es.KeysApart Datum.serverCompare) :
    es.KeysApart Datum.compare := by
  apply h.imp
  intro e f ne same
  apply ne
  rw [Datum.serverCompare, serverKey_of_sortKey (SortKey.eq_of_compare same)]
  exact SortKey.compare_self _

theorem ascending_entriesBy (objects : Std.TransCmp ord.cmp) (h : es.KeysApart ord.keyOrder)
    (ordered : order ≠ .unordered) : (order.entriesBy ord es).KeysAscend ord.keyOrder := by
  have keys := transCmp_keyOrder objects
  have arranged := arranged_entriesBy objects order es
  have both := List.pairwise_and_iff.mpr ⟨arranged.ascending, h.perm arranged.perm⟩
  apply both.imp
  intro e f ⟨le, ne⟩
  cases order with
  | unordered => exact absurd rfl ordered
  | key =>
    change (ord.keyOrder e.1 f.1).isLE = true at le
    cases cmp : ord.keyOrder e.1 f.1 <;> simp_all
  | keyValue =>
    change ((ord.keyOrder e.1 f.1).then (ord.keyOrder e.2 f.2)).isLE = true at le
    cases cmp : ord.keyOrder e.1 f.1 <;> simp_all

/-- Entries with their keys apart have one arrangement, whatever the order and however they are
permuted. -/
theorem entriesBy_of_apart (objects : Std.TransCmp ord.cmp) (h : es.KeysApart ord.keyOrder)
    (perm : fs.Perm es) (ordered : order ≠ .unordered) (ordered' : order' ≠ .unordered) :
    order.entriesBy ord fs = order'.entriesBy ord es := by
  have keys := transCmp_keyOrder objects
  have members : (order.entriesBy ord fs).Perm (order'.entriesBy ord es) :=
    (arranged_entriesBy objects order fs).perm.trans
      (perm.trans (arranged_entriesBy objects order' es).perm.symm)
  apply members.eq_of_pairwise _ (ascending_entriesBy objects (h.perm perm) ordered)
    (ascending_entriesBy objects h ordered')
  intro e f _ _ lt gt
  rw [Std.OrientedCmp.gt_of_lt lt] at gt
  cases gt

end Apart

/-! ## Sources of entries -/

/-- Where a map value has its entries from: an unordered collection, a sorted one that was built
in one go or filled by insertion, or a list of entries. -/
inductive EntrySource where
  | unordered
  | sorted
  | inserted
  | list

namespace EntrySource

def value (source : EntrySource) (es : Entries) (order : MapOrder) : Value :=
  match source with
  | unordered => (MapEntries.collect .unordered es).toValue order
  | sorted => (MapEntries.collect .sorted es).toValue order
  | inserted => (MapEntries.insertAll es).toValue order
  | list => .entryList es order none

theorem cache?_value (source : EntrySource) (es : Entries) (order : MapOrder) :
    (source.value es order).cache? = some none := by
  cases source <;> rfl

/-- Distinct keys come through every source unaltered. -/
theorem mapEntries?_value (source : EntrySource) {es : Entries} (h : es.KeysApart Datum.compare)
    (order : MapOrder) : ∃ fs : Entries, fs.Perm es ∧
      (source.value es order).mapEntries? = some (fs, order) := by
  cases source with
  | unordered => exact ⟨es.unordered, .of_eq (Entries.unordered_of_apart h), rfl⟩
  | sorted => exact ⟨es.sorted, Entries.sorted_of_apart h, rfl⟩
  | inserted => exact ⟨es.inserted, Entries.inserted_of_apart h, rfl⟩
  | list => exact ⟨es, .refl es, rfl⟩

end EntrySource

/-! ## Map values -/

section Maps

variable {v : Value} {es fs : Entries} {order : MapOrder} {c : Config}

theorem gate_of_mapEntries {α : Type} (h : v.mapEntries? = some (es, order)) (t : Traced α) :
    v.gate c t = (Value.entryList es .key none).gate c t := by
  cases v <;> cases h <;> rfl

theorem gate_of_perm {α : Type} (perm : fs.Perm es) (t : Traced α) :
    (Value.entryList fs .key none).gate c t = (Value.entryList es .key none).gate c t := by
  have holds : holdsObjectEntries fs = holdsObjectEntries es := by
    rw [holdsObjectEntries_eq_any, holdsObjectEntries_eq_any]
    exact perm.any_eq
  simp only [Value.gate, Value.holdsObject, holds]
  rfl

theorem encoding_of_mapEntries (h : v.mapEntries? = some (es, order))
    (empty : v.cache? = some none) : v.encoding c = v.gate c (v.packed c) := by
  rw [Value.encoding_of_empty empty]
  cases v <;> cases h <;> rfl

theorem writes_of_mapEntries (h : v.mapEntries? = some (es, order))
    (empty : v.cache? = some none) {n : Nat} (sized : v.Sized c n) :
    (v.estimated c).Writes (v.pack c).bytes := by
  obtain ⟨b, encoded, -, after⟩ := Value.sized_of_cache empty sized
  rw [encoding_of_mapEntries h empty] at encoded
  have packed : (v.pack c).bytes = b :=
    (Emission.toTraced_eq_ok.mp (Value.result_gate.mp encoded).2).2
  rw [packed, after]
  exact Value.writes_flat (Value.flat?_of_cache (Value.cache?_fill empty b))

/-- The entries of an ordered map, sorted by their keys. -/
def Entries.body (ord : ObjectOrder) (c : Config) (es : Entries) : Emission :=
  .concat ((MapOrder.key.entriesBy ord es).map (packEntryBy ord c))

theorem packBy_of_apart {ord : ObjectOrder} (objects : Std.TransCmp ord.cmp)
    (apart : es.KeysApart ord.keyOrder) (h : v.mapEntries? = some (fs, order)) (perm : fs.Perm es)
    (ordered : order ≠ .unordered) (c : Config) :
    v.packBy ord c =
      (Emission.ofBytes (Pack.orderedMapHeader es.length order)).andThen (es.body ord c) := by
  have canonical : order.entriesBy ord fs = MapOrder.key.entriesBy ord es :=
    entriesBy_of_apart objects apart perm ordered nofun
  have packed : v.packBy ord c = packArrangedBy ord fs order (packEntriesBy ord c fs) :=
    Packable.packBy_of_mapEntries (x := .value v) h ord c
  rw [packed, packArrangedBy_packEntriesBy, perm.length_eq, canonical]
  rfl

theorem orderedMapHeader_andThen (ordered : order ≠ .unordered) (size : Nat) (e : Emission) :
    (Emission.ofBytes (Pack.orderedMapHeader size order)).andThen e =
      ⟨Pack.mapHeader (size + 1) ++ [0xc7, 0x00, order.attributes, 0xc0] ++ e.bytes, e.log,
        e.error?⟩ := by
  cases order with
  | unordered => exact absurd rfl ordered
  | key | keyValue => rfl

end Maps

/-- Entries whose keys are apart have one encoding as an ordered map, up to the attribute of the
order in its header: the bytes, the log and the error of packing are the same over any total order
of objects. For objects ordered field by field so is the outcome of estimating, whichever source
the entries come from, in whatever sequence they were given. What is written after a successful
estimate is the packed encoding. -/
theorem ordered_maps_canonical (es : Entries) (c : Config) :
    (∀ ord : ObjectOrder, ord.Lawful → es.KeysApart ord.keyOrder →
      ∃ (body : Bytes) (log : List Event) (error? : Option Error),
        ∀ (v : Value) (fs : Entries) (order : MapOrder), v.mapEntries? = some (fs, order) →
          fs.Perm es → order ≠ .unordered →
          v.packBy ord c =
            ⟨Pack.mapHeader (es.length + 1) ++ [0xc7, 0x00, order.attributes, 0xc0] ++ body, log,
              error?⟩) ∧
    (es.KeysApart Datum.serverCompare →
      ∃ (body : Bytes) (log : List Event) (error? : Option Error) (size : Traced Nat),
        ∀ (source : EntrySource) (fs : Entries) (order : MapOrder), fs.Perm es →
          order ≠ .unordered →
          let v := source.value fs order
          v.pack c =
            ⟨Pack.mapHeader (es.length + 1) ++ [0xc7, 0x00, order.attributes, 0xc0] ++ body, log,
              error?⟩ ∧
          (v.estimateSize c).outcome = size ∧
          ∀ n, v.Sized c n → (v.estimated c).Writes (v.pack c).bytes) := by
  constructor
  · intro ord lawful apart
    let body := es.body ord c
    refine ⟨body.bytes, body.log, body.error?, ?_⟩
    intro v fs order entries perm ordered
    rw [packBy_of_apart (ObjectOrder.lawful_cmp lawful) apart entries perm ordered,
      orderedMapHeader_andThen ordered]
  · intro apart
    have objects := ObjectOrder.lawful_cmp ObjectOrder.lawful_fieldwise
    let body := es.body .fieldwise c
    let packed := ((Emission.ofBytes (Pack.orderedMapHeader es.length .key)).andThen body).toTraced
    refine ⟨body.bytes, body.log, body.error?,
      ((Value.entryList es .key none).gate c packed).map List.length, ?_⟩
    intro source fs order perm ordered v
    have empty : v.cache? = some none := source.cache?_value fs order
    obtain ⟨gs, perm', entries⟩ :=
      source.mapEntries?_value (apart.perm perm).of_server order
    have pack : v.pack c = ⟨Pack.mapHeader (es.length + 1) ++ [0xc7, 0x00, order.attributes, 0xc0] ++
        body.bytes, body.log, body.error?⟩ := by
      rw [← keyOrder_fieldwise] at apart
      rw [← (packBy_fieldwise c).2, ← orderedMapHeader_andThen ordered]
      exact packBy_of_apart objects apart entries (perm'.trans perm) ordered c
    refine ⟨pack, ?_, fun n sized => writes_of_mapEntries entries empty sized⟩
    -- The attribute is one byte under either order, so the lengths agree.
    have length : (v.packed c).map List.length = packed.map List.length := by
      have key : MapOrder.key ≠ .unordered := nofun
      simp only [Value.packed, pack, packed, orderedMapHeader_andThen key]
      cases body.error? <;> simp [Emission.toTraced, Traced.map, Except.map]
    rw [outcome_estimateSize empty, encoding_of_mapEntries entries empty,
      gate_of_mapEntries entries, gate_of_perm (perm'.trans perm)]
    unfold Value.gate
    split_ifs
    · rfl
    · exact length

/-- A map with a classified key and an object, from a sorted collection under one order and from a
reversed list of entries under the other. -/
theorem ordered_maps_canonical_reversed :
    let es : Entries := [(.value (.long 7), .null), (.text "a", .object ⟨"Point", .integer 7⟩),
      (.double ⟨0⟩, .bool true)]
    ∃ body log error?,
      (EntrySource.sorted.value es .key).pack {} =
        ⟨0x84 :: 0xc7 :: 0x00 :: 1 :: 0xc0 :: body, log, error?⟩ ∧
      (EntrySource.list.value es.reverse .keyValue).pack {} =
        ⟨0x84 :: 0xc7 :: 0x00 :: 3 :: 0xc0 :: body, log, error?⟩ := by
  intro es
  have apart : es.KeysApart Datum.serverCompare := by decide
  obtain ⟨body, log, error?, size, canonical⟩ := (ordered_maps_canonical es {}).2 apart
  refine ⟨body, log, error?, ?_, ?_⟩
  · exact (canonical .sorted es .key (.refl es) nofun).1
  · exact (canonical .list es.reverse .keyValue es.reverse_perm nofun).1

end BinCodec
