import BinCodec.Packer
import BinCodec.Proofs.Packing
import BinCodec.Proofs.WireTree

/-!
# Packed items

Whatever packs leaves one item behind what the packer held before. The item is the written
form of a wire tree, which `Datum.wire` and `Value.wire` read off the input without packing
it (`encode_wire`). So a reader that starts where the item starts finds the tree of the input
and stops where the item stops, and the bytes of an item say neither more nor less than its
tree.
-/

namespace BinCodec

/-- The serialized bytes of an object; none if the serializer rejects it. -/
def Object.serialized (o : Object) : Bytes :=
  match o.encode with
  | .ok b => b
  | .error _ => []

/-! ## Wire trees of data and values -/

mutual

/-- What the server sees of a datum. -/
def Datum.wire : Datum → Wire
  | .null => .nil
  | .value v => v.wire
  | .bytes b => .payload .blob b
  | .text s => .payload .string (Bytes.ofText s)
  | .int n => .integer n.toInt64
  | .long n => .integer n
  | .double x => .double x
  | .float x => .float x
  | .bool b => .boolean b
  | .byte n => .integer n.toUInt64.toInt64
  | .char c => .integer (Int64.ofNat c.toNat)
  | .symbol s => .payload .string (Bytes.ofText s)
  | .uuid id => .payload .string (Bytes.ofText id.toText)
  | .list items => .array (wireItems items)
  | .map kind entries => .map kind.order (kind.order.along entries (wireEntries entries))
  | .buffer b => .payload .blob b
  | .object o => .payload .jblob o.serialized

def Value.wire : Value → Wire
  | .null => .nil
  | .bytes b particle => .payload particle b
  | .segment b => .payload .blob b
  | .byte n => .integer n.toUInt64.toInt64
  | .text s => .payload .string (Bytes.ofText s)
  | .int n => .integer n.toInt64
  | .long n => .integer n
  | .double x => .double x
  | .float x => .float x
  | .bool b => .boolean b
  | .boolInt b => .boolean b
  | .blob o _ => .payload .jblob o.serialized
  | .geoJson s => .payload .geoJson (Bytes.ofText s)
  | .hll b => .payload .blob b
  | .array values _ => .array (wireValues values)
  | .list items _ => .array (wireItems items)
  | .map _ entries order _ => .map order (order.along entries (wireEntries entries))
  | .entryList entries order _ => .map order (order.along entries (wireEntries entries))
  | .infinity => .infinity
  | .wildcard => .wildcard

def wireItems : List Datum → List Wire
  | [] => []
  | x :: xs => x.wire :: wireItems xs

def wireValues : List Value → List Wire
  | [] => []
  | v :: vs => v.wire :: wireValues vs

def wireEntries : List (Datum × Datum) → List (Wire × Wire)
  | [] => []
  | (k, v) :: es => (k.wire, v.wire) :: wireEntries es

end

theorem wireItems_eq_map (items : List Datum) : wireItems items = items.map Datum.wire := by
  induction items with
  | nil => rfl
  | cons x xs ih => rw [wireItems, ih, List.map_cons]

theorem wireValues_eq_map (values : List Value) : wireValues values = values.map Value.wire := by
  induction values with
  | nil => rfl
  | cons v vs ih => rw [wireValues, ih, List.map_cons]

theorem wireEntries_eq_map (entries : Entries) :
    wireEntries entries = entries.map fun e => (e.1.wire, e.2.wire) := by
  induction entries with
  | nil => rfl
  | cons e es ih => rw [wireEntries, ih, List.map_cons]

/-! ## What is packed is the tree -/

theorem toInt_byte (n : UInt8) : n.toUInt64.toInt64.toInt = n.toNat := by
  have small : 2 * n.toUInt64.toNat < 2 ^ 64 := by
    have := n.toNat_lt
    rw [UInt8.toNat_toUInt64]
    omega
  calc
    n.toUInt64.toInt64.toInt = n.toUInt64.toBitVec.toInt := rfl
    _ = n.toUInt64.toNat := BitVec.toInt_eq_toNat_of_lt small
    _ = n.toNat := by rw [UInt8.toNat_toUInt64]

theorem toInt_codePoint (c : Char) : (Int64.ofNat c.toNat).toInt = c.toNat := by
  have h : c.toNat < 2 ^ 32 := c.val.toNat_lt
  rw [Int64.toInt_ofNat_of_lt (by omega)]

section

variable {c : Config}

theorem Emission.bytes_blob {o : Object} (h : (Emission.blob c o).error? = none) :
    (Emission.blob c o).bytes = Pack.payload .jblob o.serialized := by
  obtain ⟨enabled, b, hb⟩ := error?_blob.mp h
  simp [Emission.blob, Object.serialize, Object.serialized, enabled, hb, Emission.ofTraced,
    Traced.map, Except.map]

theorem encode_array {α : Type} {f : α → Emission} {wire : α → Wire} {xs : List α}
    (ih : ∀ x ∈ xs, (f x).error? = none → (wire x).encode = (f x).bytes)
    (h : ((Emission.ofBytes (Pack.arrayHeader xs.length)).andThen
      (.concat (xs.map f))).error? = none) :
    (Wire.array (xs.map wire)).encode =
      ((Emission.ofBytes (Pack.arrayHeader xs.length)).andThen (.concat (xs.map f))).bytes := by
  have parts := error?_collection.mp h
  rw [bytes_collection parts, Wire.encode, Wire.encodeItems_eq_map, List.length_map, List.map_map]
  congr 2
  apply List.map_congr_left
  intro x hx
  exact ih x hx (parts x hx)

theorem encode_map {entries : Entries} {order : MapOrder}
    (ih : ∀ e ∈ entries, ((e.1.pack c).error? = none → e.1.wire.encode = (e.1.pack c).bytes) ∧
      ((e.2.pack c).error? = none → e.2.wire.encode = (e.2.pack c).bytes))
    (h : (packArranged entries order (packEntries c entries)).error? = none) :
    (Wire.map order (order.along entries (wireEntries entries))).encode =
      (packArranged entries order (packEntries c entries)).bytes := by
  have parts := error?_packArranged.mp h
  have packs : ∀ e ∈ order.entries entries, (packEntry c e).error? = none := by
    intro e he
    exact error?_packEntry.mpr (parts e (MapOrder.mem_arrange.mp he))
  rw [packArranged_packEntries, bytes_collection packs, wireEntries_eq_map, MapOrder.along_map,
    Wire.encode, Wire.encodeEntries_eq_map, List.length_map, List.map_map]
  have length : (order.entries entries).length = entries.length :=
    (order.arrange_perm id entries).length_eq
  rw [length]
  congr 2
  apply List.map_congr_left
  intro e he
  have mem : e ∈ entries := MapOrder.mem_arrange.mp he
  rw [packEntry, Emission.bytes_andThen (parts e mem).1, ← (ih e mem).1 (parts e mem).1,
    ← (ih e mem).2 (parts e mem).2]
  rfl

/-- What packs is the written form of its wire tree. -/
theorem encode_wire :
    (∀ d : Datum, (d.pack c).error? = none → d.wire.encode = (d.pack c).bytes) ∧
      ∀ v : Value, (v.pack c).error? = none → v.wire.encode = (v.pack c).bytes := by
  apply nested_induction
  case value => exact fun v ih => ih
  case object => exact fun o h => (Emission.bytes_blob h).symm
  case valueBlob => exact fun o _ h => (Emission.bytes_blob h).symm
  case int =>
    intro n _
    rw [Datum.wire, Wire.encode, n.toInt_toInt64, Datum.pack, Emission.bytes_ofBytes]
  case valueInt =>
    intro n _
    rw [Value.wire, Wire.encode, n.toInt_toInt64, Value.pack, Emission.bytes_ofBytes]
  case byte =>
    intro n _
    rw [Datum.wire, Wire.encode, toInt_byte, Datum.pack, Emission.bytes_ofBytes]
  case valueByte =>
    intro n _
    rw [Value.wire, Wire.encode, toInt_byte, Value.pack, Emission.bytes_ofBytes]
  case char =>
    intro ch _
    rw [Datum.wire, Wire.encode, toInt_codePoint, Datum.pack, Emission.bytes_ofBytes]
  case list =>
    intro items ih h
    rw [Datum.pack, packItems_eq_map] at h ⊢
    rw [Datum.wire, wireItems_eq_map]
    exact encode_array ih h
  case valueList =>
    intro items _ ih h
    rw [Value.pack, packItems_eq_map] at h ⊢
    rw [Value.wire, wireItems_eq_map]
    exact encode_array ih h
  case valueArray =>
    intro values _ ih h
    rw [Value.pack, packValues_eq_map] at h ⊢
    rw [Value.wire, wireValues_eq_map]
    exact encode_array ih h
  case map => exact fun kind entries ih h => encode_map ih h
  case valueMap => exact fun kind entries order _ ih h => encode_map ih h
  case valueEntryList => exact fun entries order _ ih h => encode_map ih h
  all_goals intros; rfl

end

/-! ## Packed items -/

/-- What a packer takes. -/
inductive Packable where
  | datum (d : Datum)
  | value (v : Value)

namespace Packable

def pack (c : Config) : Packable → Emission
  | datum d => d.pack c
  | value v => v.pack c

def wire : Packable → Wire
  | datum d => d.wire
  | value v => v.wire

/-- Packing succeeds, and every count and length fits the 32 bits of its header. -/
structure Sendable (c : Config) (x : Packable) : Prop where
  packs : (x.pack c).error? = none
  fits : x.wire.Fits

theorem encode_wire {c : Config} {x : Packable} (packs : (x.pack c).error? = none) :
    x.wire.encode = (x.pack c).bytes := by
  cases x with
  | datum d => exact BinCodec.encode_wire.1 d packs
  | value v => exact BinCodec.encode_wire.2 v packs

theorem Sendable.encode_wire {c : Config} {x : Packable} (h : x.Sendable c) :
    x.wire.encode = (x.pack c).bytes := Packable.encode_wire h.packs

theorem Sendable.read {c : Config} {x : Packable} (h : x.Sendable c) :
    Wire.read (x.pack c).bytes = some (x.wire, []) := by
  rw [← h.encode_wire, ← List.append_nil x.wire.encode]
  exact Wire.read_encode h.fits []

/-- The bytes of an item say neither more nor less than its tree. -/
theorem Sendable.bytes_eq_iff {c c' : Config} {x y : Packable} (hx : x.Sendable c)
    (hy : y.Sendable c') : (x.pack c).bytes = (y.pack c').bytes ↔ x.wire = y.wire := by
  rw [← hx.encode_wire, ← hy.encode_wire]
  constructor
  · exact Wire.encode_injective hx.fits hy.fits
  · exact congrArg Wire.encode

end Packable

/-- A packer ends up with one item behind what it held. From there a reader finds the wire tree
of the input, whatever follows. Inputs pack to the same bytes exactly if their trees are equal,
and no item is the beginning of a different one. -/
theorem packed_item_read_back {x : Packable} {p : Packer} (h : x.Sendable p.config) :
    (∃ item, (p.append (x.pack p.config)).bytes = p.bytes ++ item ∧
      ∀ rest, Wire.read (((p.append (x.pack p.config)).bytes ++ rest).drop p.bytes.length) =
        some (x.wire, rest)) ∧
    ∀ (y : Packable) (c : Config), y.Sendable c →
      ((x.pack p.config).bytes = (y.pack c).bytes ↔ x.wire = y.wire) ∧
      ((x.pack p.config).bytes <+: (y.pack c).bytes →
        (x.pack p.config).bytes = (y.pack c).bytes) := by
  constructor
  · refine ⟨(x.pack p.config).bytes, p.bytes_append _, ?_⟩
    intro rest
    rw [p.bytes_append, List.append_assoc, List.drop_left, ← h.encode_wire]
    exact Wire.read_encode h.fits rest
  · intro y c hy
    constructor
    · exact h.bytes_eq_iff hy
    · rw [← h.encode_wire, ← hy.encode_wire]
      intro front
      exact congrArg Wire.encode (Wire.encode_prefix_free h.fits hy.fits front)

/-- A map in key order, given out of order, read back from behind a nil. -/
theorem ordered_map_read_back :
    let x : Packable := .value
      (.entryList [(.int 300, .list [.null, .value .infinity]), (.bool true, .text "a")] .key none)
    let p := (Packer.mk {} Pack.nil).append (x.pack {})
    ∀ rest, Wire.read ((p.bytes ++ rest).drop 1) =
      some (.map .key [(.boolean true, .payload .string [0x61]),
        (.integer 300, .array [.nil, .infinity])], rest) := by
  intro x p
  have tree : x.wire = .map .key [(.boolean true, .payload .string [0x61]),
      (.integer 300, .array [.nil, .infinity])] := by
    apply congrArg (Wire.map .key)
    change (SortKey.sortOn (fun e : (Datum × Datum) × _ => e.1.1.serverKey)
      [(_, _), (_, _)]).map (·.2) = _
    rw [SortKey.sortOn_pair, if_neg (by decide)]
    rfl
  have fits : x.wire.Fits := by
    rw [tree]
    apply Wire.Fits.map (by decide)
    · simp [Wire.Fits.boolean, Wire.Fits.integer]
    · simp [Wire.Fits.payload, Wire.Fits.array, Wire.Fits.nil, Wire.Fits.infinity]
  have packs : (x.pack {}).error? = none := by
    apply error?_packArranged.mpr
    simp only [List.forall_mem_cons]
    exact ⟨⟨rfl, rfl⟩, ⟨rfl, rfl⟩, nofun⟩
  have h : x.Sendable {} := ⟨packs, fits⟩
  obtain ⟨⟨item, -, reads⟩, -⟩ := packed_item_read_back (p := ⟨{}, Pack.nil⟩) h
  rw [tree] at reads
  exact reads

end BinCodec
