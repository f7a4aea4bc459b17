import BinCodec.Object.Read
import BinCodec.Particle

/-!
# Persisted forms of settings

Configurations, particle types and map orders can be serialized like objects: a
configuration as a record of its flags, the others as variants under their label. A missing
flag of a configuration reads as off.
-/

namespace BinCodec

namespace Config

def toContent (c : Config) : Content :=
  .record "CodecConfig" (Flag.all.map fun flag => (flag.name, .bool (c.get flag)))

def schema : Schema :=
  .record "CodecConfig" (Flag.all.map fun flag => (flag.name, .bool, some (.bool false)))

/-- The configuration of a content of its shape. -/
def ofContent? : Content → Option Config
  | .record _ fields => ofFields? (fields.map fun f => (f.1, match f.2 with
    | .bool b => some b
    | _ => none))
  | _ => none

end Config

/-- The content of a variant without fields, given by its place among all variants. -/
def labelContent (labels : List String) (label : String) : Content :=
  .variant (labels.idxOf label) label .unit

/-- The shape of variants without fields. -/
def labelSchema (labels : List String) : Schema := .variants (labels.map fun l => (l, .unit))

namespace ParticleType

def labels : List String := all.map label

def toContent (p : ParticleType) : Content := labelContent labels p.label

def schema : Schema := labelSchema labels

def ofContent? : Content → Option ParticleType
  | .variant index _ _ => all[index]?
  | _ => none

end ParticleType

namespace MapOrder

def labels : List String := all.map label

def toContent (o : MapOrder) : Content := labelContent labels o.label

def schema : Schema := labelSchema labels

def ofContent? : Content → Option MapOrder
  | .variant index _ _ => all[index]?
  | _ => none

end MapOrder

end BinCodec
