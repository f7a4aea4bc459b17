import BinCodec.Proofs.Classification
import BinCodec.Proofs.History
import BinCodec.Proofs.ReadingBack

/-!
# Opaque blobs

An object leaves as a blob on three ways: in the flat encoding, which its cache keeps, in the
packed encoding, which serializes it anew, and as a script value, which reads or fills the cache.
On all of them it is one and the same byte string, whatever was done with the blob before, and the
object is read back from it (`opaque_blobs_come_back`).
-/

namespace BinCodec

namespace Schema

/-! ## Shapes of serializable types -/

def account : Schema := .record "Account" [("owner", .text, none), ("balance", .signed 64, none)]

def point : Schema := .record "Point" [("x", .signed 32, none), ("y", .signed 32, none)]

/-- An enumeration with a variant of each kind. -/
def shape : Schema :=
  .variants [("Empty", .unit), ("Circle", .unsigned 32), ("Rect", .tuple [.signed 32, .signed 32]),
    ("Named", .record "Named"
      [("name", .text, none), ("tag", .optional (.unsigned 8), some .absent)])]

/-- The shapes of the types that objects are made of: integers of every width, booleans,
characters, texts, the unit, and what is built from them. -/
def serializable : List Schema :=
  [8, 16, 32, 64].map unsigned ++ [8, 16, 32, 64].map signed ++
    [.bool, .char, .text, .unit, .optional (.signed 64), .tuple [.unsigned 8, .unsigned 8],
      .sequence (.unsigned 8), .sequence (.signed 64), .dictionary (.signed 64), account, point,
      shape]

section

variable {depth : Nat}

theorem sound_account : account.Sound (depth + 1) := by
  apply Sound.record (by decide) (by decide) (by decide)
  simp only [List.forall_mem_cons]
  exact ⟨.text, sound_signed (by decide), nofun⟩

theorem sound_point : point.Sound (depth + 1) := by
  apply Sound.record (by decide) (by decide) (by decide)
  simp only [List.forall_mem_cons]
  exact ⟨sound_signed (by decide), sound_signed (by decide), nofun⟩

theorem sound_shape : shape.Sound (depth + 2) := by
  apply Sound.variants (by decide) (by decide)
  simp only [List.forall_mem_cons]
  refine ⟨.unit, sound_unsigned (by decide), .tuple (by decide) ?_,
    .record (by decide) (by decide) (by decide) ?_, nofun⟩
  · simp [sound_signed]
  · simp only [List.forall_mem_cons]
    exact ⟨.text, .optional rfl (sound_unsigned (by decide)), nofun⟩

end

theorem sound_serializable : ∀ s ∈ serializable, s.Sound depthLimit := by
  have widths : ∀ width ∈ [8, 16, 32, 64], width ≤ 64 := by decide
  have pair : ∀ s ∈ [unsigned 8, unsigned 8], s.Sound 255 := by simp [sound_unsigned]
  rw [serializable, List.forall_mem_append, List.forall_mem_append, List.forall_mem_map,
    List.forall_mem_map]
  refine ⟨⟨fun width h => sound_unsigned (widths width h),
    fun width h => sound_signed (widths width h)⟩, ?_⟩
  simp only [List.forall_mem_cons]
  refine ⟨.bool, .char, .text, .unit, .optional rfl (sound_signed (by decide)),
    .tuple (by decide) pair, .sequence (sound_unsigned (by decide)),
    .sequence (sound_signed (by decide)),
    .dictionary (sound_signed (by decide)), sound_account, sound_point, sound_shape, nofun⟩

end Schema

/-! ## Blobs -/

section Blob

variable {o : Object} {b : Bytes} {c : Config}

theorem encoding_blob (encodes : o.encode = .ok b) (enabled : c.disableSerializer = false) :
    ((Value.blob o none).encoding c).result = .ok b := by
  rw [result_serialize, Object.serialize, enabled]
  exact encodes

theorem bytes_pack_blob (encodes : o.encode = .ok b) (enabled : c.disableSerializer = false) :
    ((Value.blob o none).pack c).error? = none ∧
      ((Value.blob o none).pack c).bytes = Pack.payload .jblob b := by
  have packs : (Emission.blob c o).error? = none := error?_blob.mpr ⟨enabled, b, encodes⟩
  have same : o.serialized = b := by rw [Object.serialized, encodes]
  exact ⟨packs, same ▸ Emission.bytes_blob packs⟩

/-- A blob that an estimate has been made of writes its object, whatever else is done with it. -/
theorem writes_blob {v : Value} (bare : v.bare = .blob o none) (coherent : v.Coherent)
    (encodes : o.encode = .ok b) (known : v.cache? ≠ some none) : v.Writes b := by
  cases v with
  | blob p cache =>
    cases bare
    cases cache with
    | none => exact absurd rfl known
    | some kept =>
      have same : o.encode = .ok kept := coherent.own rfl
      rw [encodes] at same
      cases same
      exact Value.writes_flat rfl
  | _ => cases bare

theorem writes_later {operations : List Operation} {n : Nat} (encodes : o.encode = .ok b)
    (sized : ((Value.blob o none).after operations).Sized c n) (later : List Operation) :
    ((((Value.blob o none).after operations).estimated c).after later).Writes b := by
  let v := (Value.blob o none).after operations
  have settled : (v.estimated c).Evolves ((v.estimated c).after later) := after_evolves _ later
  have coherent : (Value.blob o none).Coherent := .of_empty rfl
  have bare : ((v.estimated c).after later).bare = .blob o none := by
    rw [settled.later.bare, Value.estimated, (estimateSize_evolves c v).later.bare,
      (after_evolves _ operations).later.bare]
    rfl
  exact writes_blob bare ((coherent.after operations).after (.estimate c :: later)) encodes
    (settled.later.known (cache?_estimated sized))

end Blob

/-- The shapes of serializable types are sound. An object of a sound shape is serialized, and
whatever operations its blob has gone through, the bytes are those that an estimate counts and a
later write puts down, those of the packed form behind its header and the particle type 7, and those
of the script value. They are read back as the object. -/
theorem opaque_blobs_come_back :
    (∀ s ∈ Schema.serializable, s.Sound Schema.depthLimit) ∧
    ∀ s : Schema, s.Sound Schema.depthLimit → ∀ o : Object, s.Describes o.content →
      ∃ b, o.encode = .ok b ∧
        ∀ c : Config, c.disableSerializer = false → c.disableDeserializer = false →
          (s.deserialize c b).result.map (Object.mk o.typeName) = .ok o ∧
          ∀ operations : List Operation,
            let v := (Value.blob o none).after operations
            v.Sized c b.length ∧
            (∀ later, ((v.estimated c).after later).Writes b) ∧
            (v.pack c).error? = none ∧
            (v.pack c).bytes = Pack.stringHeader (b.length + 1) ++ 7 :: b ∧
            v.scripted c = .ok (.bytes b .jblob) := by
  refine ⟨Schema.sound_serializable, ?_⟩
  intro s sound o described
  have encodes : o.encode = .ok o.content.serialized := by
    rw [Object.encode, (described.readsBack sound).encodes]
    rfl
  refine ⟨o.content.serialized, encodes, ?_⟩
  intro c writes reads
  constructor
  · rw [Schema.deserialize, reads, described.decode sound]
    rfl
  · intro operations v
    have coherent : (Value.blob o none).Coherent := .of_empty rfl
    have alike : (Value.blob o none).Alike v :=
      twins_alike ((Twins.refl coherent).after [] operations)
    have encoding := encoding_blob encodes writes
    have packed := bytes_pack_blob encodes writes
    have sized : v.Sized c o.content.serialized.length := by
      rw [Value.Sized, ← alike.size, outcome_estimateSize rfl]
      exact congrArg (Except.map List.length) encoding
    refine ⟨sized, writes_later encodes sized, ?_, ?_, ?_⟩
    · rw [← alike.pack]
      exact packed.1
    · rw [← alike.pack]
      exact packed.2
    · rw [← alike.script]
      exact congrArg (Except.map (Script.bytes · .jblob)) encoding

/-- A variant with named fields, one of them optional, that was refused once and has been scripted
before it is packed. -/
theorem opaque_blobs_come_back_named :
    let o : Object := ⟨"Shape", .variant 3 "Named" (.record "Named"
      [("name", .text "sq"), ("tag", .present (.integer 200))])⟩
    let b : Bytes := [0xa1, 0x65, 78, 97, 109, 101, 100, 0xa2, 0x64, 110, 97, 109, 101, 0x62, 115,
      113, 0x63, 116, 97, 103, 0x18, 200]
    let v := (Value.blob o none).after [.estimate { disableSerializer := true }, .script {}]
    (v.pack {}).bytes = 0xb7 :: 7 :: b ∧ v.scripted {} = .ok (.bytes b .jblob) ∧
      (Schema.shape.deserialize {} b).result.map (Object.mk "Shape") = .ok o := by
  intro o b v
  have fields := @Schema.Describes.record "Named" [(("name", .text, none), .text "sq"),
    (("tag", .optional (.unsigned 8), some .absent), .present (.integer 200))]
    (by
      simp only [List.forall_mem_cons]
      exact ⟨.text (by decide), .present (.integer (by decide) (by decide)), nofun⟩)
  have described : Schema.shape.Describes o.content := .variant rfl fields
  obtain ⟨b', encodes, reads⟩ :=
    opaque_blobs_come_back.2 _ (Schema.sound_serializable _ (by simp [Schema.serializable]))
      o described
  have same : o.encode = .ok b := by rfl
  rw [same] at encodes
  obtain rfl : b = b' := Except.ok.inj encodes
  obtain ⟨back, calls⟩ := reads {} rfl rfl
  obtain ⟨-, -, -, packed, script⟩ := calls [.estimate { disableSerializer := true }, .script {}]
  exact ⟨packed, script, back⟩

end BinCodec
