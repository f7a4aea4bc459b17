import BinCodec.Cbor.Schema
import BinCodec.Object.Serialize

/-!
# Reading objects back

Serialized bytes are read back as a content of an expected shape, unless the configuration
forbids it.
-/

namespace BinCodec

/-- Reads serialized bytes as a content of the given shape. -/
def Schema.deserialize (c : Config) (schema : Schema) (bytes : Bytes) : Traced Content :=
  if c.disableDeserializer then
    ⟨.error .deserializerDisabled, [.refusedBytes bytes.length]⟩
  else
    ⟨(schema.decode bytes).mapError .deserialize, []⟩

end BinCodec
