import BinCodec.Pack

/-!
# Packers

A packer accumulates emissions in one growing byte sequence. A failing emission leaves the
bytes that came before its failure.
-/

namespace BinCodec

/-- The bytes packed so far, and the configuration that gates the serializer. -/
structure Packer where
  config : Config
  bytes : Bytes
deriving DecidableEq, Repr

namespace Packer

def new (c : Config) : Packer := ⟨c, []⟩

def size (p : Packer) : Nat := p.bytes.length

def isEmpty (p : Packer) : Bool := p.bytes.isEmpty

def append (p : Packer) (e : Emission) : Packer := { p with bytes := p.bytes ++ e.bytes }

@[simp] theorem bytes_append (p : Packer) (e : Emission) :
    (p.append e).bytes = p.bytes ++ e.bytes := rfl

@[simp] theorem config_append (p : Packer) (e : Emission) : (p.append e).config = p.config := rfl

end Packer

end BinCodec
