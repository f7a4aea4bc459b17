import BinCodec.Proofs.CborHeads
import BinCodec.Proofs.History
import BinCodec.Proofs.PackedItems

/-!
# Reading flat encodings

A bin value reaches the server as a particle type and the bytes of its flat encoding. A type is
read strictly, with nothing missing and nothing left over (`ParticleType.read?`). What is read is
the payload of the value, however the value came by its cache: a collection's is its packed
encoding, an object's its serialized form (`read?_of_flatForm`).
-/

namespace BinCodec

/-! ## Payloads -/

/-- What a bin value carries. -/
inductive FlatPayload where
  | null
  | integer (n : Int)
  | double (x : Binary64)
  | bool (b : Bool)
  | text (s : String)
  | geoJson (s : String)
  | bytes (b : Bytes)
  /-- A collection in its packed encoding. -/
  | packed (b : Bytes)

namespace ParticleType

/-- The blob types and that of sketches, whose bytes are the payload. -/
def holdsBytes : ParticleType → Bool
  | blob | jblob | csharpBlob | pythonBlob | rubyBlob | phpBlob | erlangBlob | hll => true
  | _ => false

/-- What has been read, if nothing is left. -/
def whole {α : Type} : MessagePack.Read α → Option α
  | some (value, []) => some value
  | _ => none

/-- Reads the bytes of a bin value of the given type. -/
def read? (p : ParticleType) (b : Bytes) : Option FlatPayload :=
  match p with
  | null => if b = [] then some .null else none
  | integer => (whole (MessagePack.signed 8 b)).map .integer
  | double => (whole (MessagePack.unsigned 8 b)).map fun n => .double ⟨UInt64.ofNat n⟩
  | bool =>
    match b with
    | [0] => some (.bool false)
    | [1] => some (.bool true)
    | _ => none
  | string => (Bytes.toText? b).map .text
  | geoJson =>
    match b with
    | 0 :: 0 :: 0 :: text => (Bytes.toText? text).map .geoJson
    | _ => none
  | list | map => some (.packed b)
  | blob | jblob | csharpBlob | pythonBlob | rubyBlob | phpBlob | erlangBlob | hll =>
    some (.bytes b)

theorem read?_of_holdsBytes {p : ParticleType} (h : p.holdsBytes = true) (b : Bytes) :
    p.read? b = some (.bytes b) := by
  cases p with
  | blob | jblob | csharpBlob | pythonBlob | rubyBlob | phpBlob | erlangBlob | hll => rfl
  | _ => cases h

end ParticleType

namespace Value

def payload : Value → FlatPayload
  | null | infinity | wildcard => .null
  | bytes b _ | segment b | hll b => .bytes b
  | byte n => .integer n.toNat
  | int n => .integer n.toInt
  | long n => .integer n.toInt
  | boolInt b => .integer b.toInt
  | text s => .text s
  | geoJson s => .geoJson s
  | double x => .double x
  | float x => .double x.widen
  | bool b => .bool b
  | blob o _ => .bytes o.serialized
  | v => .packed (v.pack {}).bytes

/-- Bytes with a type of their own have one that is read as bytes. -/
def Readable : Value → Prop
  | bytes _ particle => particle.holdsBytes = true
  | _ => True

end Value

/-! ## Fixed forms -/

theorem read?_ofLong (n : Int64) :
    ParticleType.integer.read? (Bytes.ofLong n) = some (.integer n.toInt) := by
  have reads := MessagePack.unsigned_bigEndian 8 n.toUInt64.toNat_lt []
  rw [List.append_nil] at reads
  have signed : MessagePack.signed 8 (Bytes.ofLong n) = some (n.toInt, []) := by
    rw [Bytes.ofLong, MessagePack.signed, reads]
    rfl
  rw [ParticleType.read?, signed]
  rfl

theorem read?_toBytes (x : Binary64) :
    ParticleType.double.read? x.toBytes = some (.double x) := by
  have reads := MessagePack.unsigned_bigEndian 8 x.bits.toNat_lt []
  rw [List.append_nil] at reads
  rw [ParticleType.read?, Binary64.toBytes, reads]
  change some (FlatPayload.double ⟨UInt64.ofNat x.bits.toNat⟩) = _
  rw [UInt64.ofNat_toNat]

theorem read?_ofText (s : String) :
    ParticleType.string.read? (Bytes.ofText s) = some (.text s) := by
  rw [ParticleType.read?, Cbor.toText?_ofText, Option.map_some]

theorem read?_geoJson (s : String) :
    ParticleType.geoJson.read? (0 :: Bytes.ofShort 0 ++ Bytes.ofText s) = some (.geoJson s) := by
  change (Bytes.toText? (Bytes.ofText s)).map FlatPayload.geoJson = _
  rw [Cbor.toText?_ofText, Option.map_some]

/-! ## Reading by type -/

section Reading

variable {v : Value} {b : Bytes} {p : ParticleType}

theorem flatForm_integer (form : v.FlatForm b) (readable : v.Readable)
    (particle : v.particleType = .ok .integer) :
    b = Bytes.ofLong v.toLong ∧ v.payload = .integer v.toLong.toInt := by
  cases v with
  | bytes b q =>
    cases particle
    cases readable
  | byte n =>
    cases form
    exact ⟨rfl, congrArg FlatPayload.integer (toInt_byte n).symm⟩
  | int n =>
    cases form
    exact ⟨rfl, congrArg FlatPayload.integer (Int32.toInt_toInt64 n).symm⟩
  | long n =>
    cases form
    exact ⟨rfl, rfl⟩
  | boolInt value =>
    cases form
    cases value <;> exact ⟨rfl, rfl⟩
  | _ => cases particle

theorem flatForm_bool (form : v.FlatForm b) (readable : v.Readable)
    (particle : v.particleType = .ok .bool) :
    ∃ byte : UInt8, b = [byte] ∧ (byte = 0 ∨ byte = 1) ∧ (byte.toNat : Int) = v.toLong.toInt := by
  cases v with
  | bytes b q =>
    cases particle
    cases readable
  | bool value =>
    cases form
    cases value
    · exact ⟨0, rfl, .inl rfl, rfl⟩
    · exact ⟨1, rfl, .inr rfl, rfl⟩
  | _ => cases particle

/-- What is read of the flat encoding is the payload. -/
theorem read?_of_flatForm (form : v.FlatForm b) (readable : v.Readable)
    (particle : v.particleType = .ok p) : p.read? b = some v.payload := by
  have packed (holds : ∀ c : Config, c.disableSerializer = false → (v.packed c).result = .ok b) :
      some (FlatPayload.packed b) = some (.packed (v.pack {}).bytes) := by
    rw [(Emission.toTraced_eq_ok.mp (holds {} rfl)).2]
  cases v with
  | null | segment | hll =>
    cases particle
    cases form
    rfl
  | bytes b q =>
    cases particle
    cases form
    exact ParticleType.read?_of_holdsBytes readable b
  | byte | int | long | boolInt =>
    cases particle
    obtain ⟨rfl, payload⟩ := flatForm_integer form readable rfl
    rw [read?_ofLong, payload]
  | bool value =>
    cases particle
    cases form
    cases value <;> rfl
  | text s =>
    cases particle
    cases form
    exact read?_ofText s
  | geoJson s =>
    cases particle
    cases form
    exact read?_geoJson s
  | double x =>
    cases particle
    cases form
    exact read?_toBytes x
  | float x =>
    cases particle
    cases form
    exact read?_toBytes x.widen
  | blob o cache =>
    cases particle
    have encoded : o.encode = .ok b := form
    rw [Value.payload, Object.serialized, encoded]
    rfl
  | array | list | map | entryList =>
    cases particle
    exact packed form
  | infinity | wildcard => cases particle

end Reading

/-! ## Estimated values -/

section Estimated

variable {v : Value} {c : Config} {n : Nat}

theorem Value.Writes.unique {b b' : Bytes} (h : v.Writes b) (h' : v.Writes b') : b = b' := by
  let buffer : Bytes := List.replicate (b.length + b'.length) 0
  have room : 0 + b.length ≤ buffer.length := by simp [buffer]
  have room' : 0 + b'.length ≤ buffer.length := by simp [buffer]
  have same := (h.of_le room).symm.trans (h'.of_le room')
  obtain ⟨length, written⟩ := Written.mk.inj (Except.ok.inj same)
  exact (List.append_inj written (by simp [length])).1

theorem flatForm_flat (coherent : v.Coherent) (sized : v.Sized c n) : v.FlatForm (v.flat c) := by
  obtain ⟨b, -, form, writes⟩ := flatForm_of_sized coherent sized
  rwa [(Value.sized_flat sized).2.unique writes]

theorem packed_of_sized (coherent : v.Coherent) (readable : v.Readable) (sized : v.Sized c n)
    (particle : v.particleType = .ok .list ∨ v.particleType = .ok .map) :
    (v.packed c).result = .ok (v.flat c) := by
  have form := flatForm_flat coherent sized
  have fresh : ∃ cache, v.cache? = some cache ∧ v.freshEncoding c = v.packed c := by
    cases v with
    | array | list | map | entryList => exact ⟨_, rfl, rfl⟩
    | bytes b q => rcases particle with h | h <;> cases h <;> cases readable
    | _ => rcases particle with h | h <;> cases h
  obtain ⟨cache, cached, fresh⟩ := fresh
  obtain ⟨b, encoded, -, -⟩ := Value.sized_of_cache cached sized
  have holds : v.Holds (v.flat c) := by
    unfold Value.FlatForm at form
    rwa [cached] at form
  have passes : (c.disableSerializer && v.holdsObject) = false := (Value.result_gate.mp encoded).1
  rw [← fresh]
  exact freshEncoding_of_holds holds passes

end Estimated

/-- For a value with a particle type whose estimate has succeeded: the bytes that are then written
are as many as estimated, and reading them by the particle type, strictly, gives the payload.
Integers and booleans are their numeric views, in eight bytes and in one; collections are their
packed encodings, from which the server reads their trees if counts and lengths fit the headers.
So values with the same particle type and the same bytes have the same payload. -/
theorem flat_bytes_decode_by_particle_type {v : Value} {c : Config} {n : Nat} {p : ParticleType}
    (coherent : v.Coherent) (readable : v.Readable) (sized : v.Sized c n)
    (particle : v.particleType = .ok p) :
    (v.flat c).length = n ∧ (v.estimated c).Writes (v.flat c) ∧
    p.read? (v.flat c) = some v.payload ∧
    (p = .integer → n = 8 ∧ v.payload = .integer v.toLong.toInt) ∧
    (p = .bool → ∃ byte : UInt8, v.flat c = [byte] ∧ (byte = 0 ∨ byte = 1) ∧
      (byte.toNat : Int) = v.toLong.toInt) ∧
    (p = .list ∨ p = .map → (v.packed c).result = .ok (v.flat c) ∧
      (v.wire.Fits → Wire.read (v.flat c) = some (v.wire, []))) ∧
    ∀ (w : Value) (c' : Config) (m : Nat), w.Coherent → w.Readable → w.Sized c' m →
      w.particleType = .ok p → w.flat c' = v.flat c → w.payload = v.payload := by
  obtain ⟨length, writes⟩ := Value.sized_flat sized
  have form := flatForm_flat coherent sized
  have reads := read?_of_flatForm form readable particle
  refine ⟨length, writes, reads, ?_, ?_, ?_, ?_⟩
  · rintro rfl
    obtain ⟨bytes, payload⟩ := flatForm_integer form readable particle
    rw [bytes, Bytes.length_ofLong] at length
    exact ⟨length.symm, payload⟩
  · rintro rfl
    exact flatForm_bool form readable particle
  · intro collection
    have kind : v.particleType = .ok .list ∨ v.particleType = .ok .map := by
      rcases collection with rfl | rfl
      · exact .inl particle
      · exact .inr particle
    have packed := packed_of_sized coherent readable sized kind
    obtain ⟨packs, bytes⟩ := Emission.toTraced_eq_ok.mp packed
    refine ⟨packed, ?_⟩
    intro fits
    rw [← bytes]
    exact Packable.Sendable.read (x := .value v) ⟨packs, fits⟩
  · intro w c' m coherent' readable' sized' particle' same
    have reads' := read?_of_flatForm (flatForm_flat coherent' sized') readable' particle'
    rw [same, reads] at reads'
    exact (Option.some.inj reads').symm

/-- A list whose bytes are in its cache, with a blob whose bytes are in its own, and an array of
classified values that is sent as the same bytes. -/
theorem flat_bytes_decode_by_particle_type_cached :
    let point : Object := ⟨"Point", .integer 7⟩
    let v : Value := .list [.float ⟨0x3fc00000⟩, .value (.blob point (some [7]))]
      (some [0x92, 0xca, 0x3f, 0xc0, 0, 0, 0xa2, 7, 7])
    let w : Value := .array [.float ⟨0x3fc00000⟩, .blob point none] none
    (v.packed {}).result = .ok (v.flat {}) ∧ w.payload = v.payload := by
  intro point v w
  have coherent : v.Coherent := by
    change ∀ u ∈ [v, .blob point (some [7])], ∀ b, u.cache? = some (some b) → u.Holds b
    simp only [List.forall_mem_cons]
    refine ⟨?_, ?_, List.forall_mem_nil _⟩
    · rintro b ⟨⟩
      exact holds_of_encoding (v := v.bare) (c := {}) rfl rfl
    · rintro b ⟨⟩
      rfl
  have sized : v.Sized {} 9 := rfl
  have decoded := flat_bytes_decode_by_particle_type coherent trivial sized rfl
  obtain ⟨-, -, -, -, -, packed, unique⟩ := decoded
  exact ⟨(packed (.inl rfl)).1, unique w {} 9 (.of_empty rfl) trivial rfl rfl rfl⟩

end BinCodec
