import BinCodec.Proofs.FloatOrder
import BinCodec.Proofs.PackedItems
import BinCodec.Proofs.ServerOrder

/-!
# The order of scalar keys, as the server sees it

The server knows a key from its packed item only. It puts nil first, then booleans, integers,
texts, bytes and floats, and within a class it goes by what the item holds: the value of an
integer, whatever its width, the bytes of a text or of bytes, and the total order of floats after
widening. `Scalar.compare` is this order. Every scalar key packs to an item with a scalar
(`packsAs_scalar`), and the order of keys is the order of the scalars that are read from the items
(`key_order_of_decoded_scalars`).
-/

namespace BinCodec

/-- What a packed scalar holds. -/
inductive Scalar where
  | nil
  | boolean (b : Bool)
  | integer (n : Int)
  | text (b : Bytes)
  | bytes (b : Bytes)
  | float (x : Binary64)

namespace Scalar

def rank : Scalar → Nat
  | nil => 0
  | boolean _ => 1
  | integer _ => 2
  | text _ => 3
  | bytes _ => 4
  | float _ => 5

/-- The server's order of scalars: by class, then by content. -/
def compare : Scalar → Scalar → Ordering
  | boolean a, boolean b => Ord.compare a b
  | integer m, integer n => Ord.compare m n
  | text a, text b | bytes a, bytes b => Ord.compare a b
  | float x, float y => Layout.double.totalOrder x.bits.toNat y.bits.toNat
  | s, t => Ord.compare s.rank t.rank

end Scalar

/-! ## Reading scalars -/

/-- The scalar that an item holds. A text and a geometry have types of their own, all other
payloads are bytes. -/
def Wire.scalar? : Wire → Option Scalar
  | .nil => some .nil
  | .boolean b => some (.boolean b)
  | .integer n => some (.integer n.toInt)
  | .payload .string b => some (.text b)
  | .payload .geoJson _ => none
  | .payload _ b => some (.bytes b)
  | .double x => some (.float x)
  | .float x => some (.float x.widen)
  | .array _ | .map _ _ | .infinity | .wildcard => none

/-- Reads bytes that are one scalar item from beginning to end. -/
def Scalar.decode? (item : Bytes) : Option Scalar :=
  match Wire.read item with
  | some (w, []) => w.scalar?
  | _ => none

theorem Wire.decode?_encode {w : Wire} (h : w.Fits) : Scalar.decode? w.encode = w.scalar? := by
  have reads := Wire.read_encode h []
  rw [List.append_nil] at reads
  rw [Scalar.decode?, reads]

section Oversized

open MessagePack

/-- The higher bits of a length are dropped, so the item ends before its payload does. -/
theorem read_oversized (particle : ParticleType) {b : Bytes} (h : 2 ^ 32 ≤ b.length + 1) :
    ∃ i rest, MessagePack.read (Pack.payload particle b) = some (i, rest) ∧ rest ≠ [] := by
  have announced : (b.length + 1) % 2 ^ 32 < b.length + 1 :=
    Nat.lt_of_lt_of_le (Nat.mod_lt _ (by decide)) h
  have head : Head.read (Pack.payload particle b) =
      string ((b.length + 1) % 2 ^ 32) (particle.code :: b) := by
    rw [Pack.payload, read_stringHeader_mod]
  obtain ⟨n, length⟩ : ∃ n, (Pack.payload particle b).length = n + 1 := by
    refine ⟨(Pack.payload particle b).length - 1, ?_⟩
    simp only [Pack.payload, List.length_append, List.length_cons]
    omega
  refine ⟨.string ((particle.code :: b).take ((b.length + 1) % 2 ^ 32)),
    (particle.code :: b).drop ((b.length + 1) % 2 ^ 32), ?_, ?_⟩
  · rw [MessagePack.read, length, readWithin, head, string, split, List.length_cons,
      if_pos announced.le]
    rfl
  · apply List.ne_nil_of_length_pos
    rw [List.length_drop, List.length_cons]
    omega

theorem decode?_oversized (particle : ParticleType) {b : Bytes} (h : 2 ^ 32 ≤ b.length + 1) :
    Scalar.decode? (Pack.payload particle b) = none := by
  obtain ⟨i, rest, reads, more⟩ := read_oversized particle h
  rw [Scalar.decode?, Wire.read, reads, Option.bind_some]
  dsimp only
  cases Wire.ofItem? i with
  | none => rfl
  | some w =>
    rw [Option.map_some]
    split
    next whole => cases whole; contradiction
    · rfl

end Oversized

theorem Wire.decode?_iff {w : Wire} {s : Scalar} (h : w.scalar? = some s) (t : Scalar) :
    Scalar.decode? w.encode = some t ↔ w.Fits ∧ t = s := by
  have fitting (fits : w.Fits) : Scalar.decode? w.encode = some t ↔ w.Fits ∧ t = s := by
    rw [decode?_encode fits, h]
    exact ⟨fun same => ⟨fits, (Option.some.inj same).symm⟩, fun same => same.2 ▸ rfl⟩
  cases w with
  | nil => exact fitting .nil
  | boolean b => exact fitting (.boolean b)
  | integer n => exact fitting (.integer n)
  | float x => exact fitting (.float x)
  | double x => exact fitting (.double x)
  | payload particle b =>
    by_cases length : b.length + 1 ≤ 2 ^ 32 - 1
    · exact fitting (.payload particle length)
    · rw [encode, decode?_oversized particle (by omega)]
      constructor
      · intro decoded
        cases decoded
      · rintro ⟨⟨⟩, -⟩
        contradiction
  | array | map | infinity | wildcard => cases h

/-! ## Scalar keys -/

/-- Values without members. Objects are left out, and so are texts that are classified as bytes. -/
def Value.IsScalar : Value → Prop
  | .bytes _ particle => particle ≠ .string ∧ particle ≠ .geoJson
  | .blob _ _ | .array _ _ | .list _ _ | .map _ _ _ _ | .entryList _ _ _ => False
  | _ => True

def Datum.IsScalar : Datum → Prop
  | .value v => v.IsScalar
  | .list _ | .map _ _ | .object _ => False
  | _ => True

/-- Keys whose packed item holds a scalar, in every spelling: a geometry does not, nor do the ends
of a range. -/
structure Datum.ScalarKey (d : Datum) : Prop where
  scalar : d.IsScalar
  held : d.wire.scalar?.isSome

/-- A datum packs to an item that holds a scalar, and the scalar is read from the item unless its
length exceeds its header. -/
def Datum.PacksAs (d : Datum) (s : Scalar) : Prop :=
  d.wire.scalar? = some s ∧ ∀ c, (d.pack c).error? = none ∧
    ∀ t, Scalar.decode? (d.pack c).bytes = some t ↔ d.wire.Fits ∧ t = s

theorem Datum.IsScalar.packs {d : Datum} (h : d.IsScalar) (c : Config) :
    (d.pack c).error? = none := by
  cases d with
  | value v => cases v <;> first | rfl | exact h.elim
  | list | map | object => exact h.elim
  | _ => rfl

theorem packsAs_scalar {d : Datum} {s : Scalar} (h : d.IsScalar) (holds : d.wire.scalar? = some s) :
    d.PacksAs s := by
  refine ⟨holds, fun c => ⟨h.packs c, fun t => ?_⟩⟩
  rw [← encode_wire.1 d (h.packs c)]
  exact Wire.decode?_iff holds t

/-! ## The order of keys -/

/-- The scalar that a key counts as. A geometry counts as its text and the ends of a range as nil. -/
def Wire.keyScalar? : Wire → Option Scalar
  | .payload .geoJson b => some (.text b)
  | .infinity | .wildcard => some .nil
  | w => w.scalar?

theorem Wire.keyScalar?_of_scalar {w : Wire} {s : Scalar} (h : w.scalar? = some s) :
    w.keyScalar? = some s := by
  unfold keyScalar?
  split
  · cases h
  · cases h
  · cases h
  · exact h

namespace Scalar

/-- The class that keys of this scalar have in the order of keys, where lists and maps have classes
between those of texts and bytes. -/
def keyClass : Scalar → Nat
  | nil => 0
  | boolean _ => 1
  | integer _ => 2
  | text _ => 3
  | bytes _ => 6
  | float _ => 7

def content : Scalar → SortKey
  | nil => .node 0 []
  | boolean b => .number b.toInt
  | integer n => .number n
  | text b | bytes b => .bytes b
  | float x => .number x.place

theorem compare_content (s t : Scalar) :
    (Ord.compare s.keyClass t.keyClass).then (s.content.compare t.content) = s.compare t := by
  cases s <;> cases t
  case boolean.boolean a b => cases a <;> cases b <;> rfl
  case integer.integer | text.text | bytes.bytes =>
    simp [keyClass, content, compare, SortKey.compare]
  case float.float x y =>
    rw [compare, ← Binary64.compare_place]
    simp [keyClass, content, SortKey.compare]
  all_goals rfl

end Scalar

theorem Datum.IsScalar.counts {d : Datum} (h : d.IsScalar) :
    ∃ s, d.wire.keyScalar? = some s ∧ d.keyForm.keyClass = s.keyClass ∧
      ∀ r, d.keyForm.keyParts r = { key := s.content } := by
  have integer {m n : Int} (same : m = n) :
      ({ key := .number n } : Parts) = { key := (Scalar.integer m).content } := by rw [same]; rfl
  cases d with
  | value v =>
    cases v with
    | bytes b particle =>
      obtain ⟨notString, notGeoJson⟩ := h
      cases particle <;> first | exact ⟨_, rfl, rfl, fun _ => rfl⟩ | contradiction
    | int n => exact ⟨_, rfl, rfl, fun _ => integer n.toInt_toInt64⟩
    | byte n => exact ⟨_, rfl, rfl, fun _ => integer (toInt_byte n)⟩
    | blob | array | list | map | entryList => exact h.elim
    | _ => exact ⟨_, rfl, rfl, fun _ => rfl⟩
  | int n => exact ⟨_, rfl, rfl, fun _ => integer n.toInt_toInt64⟩
  | byte n => exact ⟨_, rfl, rfl, fun _ => integer (toInt_byte n)⟩
  | char c => exact ⟨_, rfl, rfl, fun _ => integer (toInt_codePoint c)⟩
  | list | map | object => exact h.elim
  | _ => exact ⟨_, rfl, rfl, fun _ => rfl⟩

theorem keyOrder_scalar {a b : Datum} {s t : Scalar} (ha : a.IsScalar) (hb : b.IsScalar)
    (left : a.wire.keyScalar? = some s) (right : b.wire.keyScalar? = some t) (ord : ObjectOrder) :
    ord.keyOrder a b = s.compare t := by
  obtain ⟨s', countsA, classA, partsA⟩ := ha.counts
  obtain ⟨t', countsB, classB, partsB⟩ := hb.counts
  obtain rfl := Option.some.inj (left.symm.trans countsA)
  obtain rfl := Option.some.inj (right.symm.trans countsB)
  rw [ObjectOrder.keyOrder, plainKeyOrder_eq, classA, classB, partsA, partsB,
    ← Scalar.compare_content]
  simp [Parts.compare, List.compareLex_nil_nil]

/-- The order of two scalar keys is the server's order of the scalars read from their items. -/
theorem key_order_of_decoded_scalars {a b : Datum} (ha : a.ScalarKey) (hb : b.ScalarKey) :
    ∃ s t, a.PacksAs s ∧ b.PacksAs t ∧ a.serverCompare b = s.compare t ∧
      ∀ ord : ObjectOrder, ord.keyOrder a b = s.compare t := by
  obtain ⟨s, holdsA⟩ := Option.isSome_iff_exists.mp ha.held
  obtain ⟨t, holdsB⟩ := Option.isSome_iff_exists.mp hb.held
  have order : ∀ ord : ObjectOrder, ord.keyOrder a b = s.compare t :=
    keyOrder_scalar ha.scalar hb.scalar (Wire.keyScalar?_of_scalar holdsA)
      (Wire.keyScalar?_of_scalar holdsB)
  refine ⟨s, t, packsAs_scalar ha.scalar holdsA, packsAs_scalar hb.scalar holdsB, ?_, order⟩
  rw [← keyOrder_fieldwise]
  exact order .fieldwise

/-- A byte of one marker and a negative int of another are in the order of their values. -/
theorem key_order_of_decoded_scalars_widths :
    Scalar.decode? [0xcc, 200] = some (.integer 200) ∧
      Scalar.decode? [0xd1, 0xff, 0x00] = some (.integer (-256)) ∧
      (Datum.byte 200).serverCompare (.value (.int (-256))) =
        (Scalar.integer 200).compare (.integer (-256)) := by
  obtain ⟨s, t, ⟨⟨⟩, itemA⟩, ⟨⟨⟩, itemB⟩, order, -⟩ :=
    key_order_of_decoded_scalars (a := .byte 200) (b := .value (.int (-256)))
      ⟨trivial, rfl⟩ ⟨trivial, rfl⟩
  have bytesA : ((Datum.byte 200).pack {}).bytes = [0xcc, 200] := by decide
  have bytesB : ((Datum.value (.int (-256))).pack {}).bytes = [0xd1, 0xff, 0x00] := by decide
  rw [← bytesA, ← bytesB]
  exact ⟨((itemA {}).2 _).mpr ⟨.integer _, rfl⟩, ((itemB {}).2 _).mpr ⟨.integer _, rfl⟩, order⟩

end BinCodec
