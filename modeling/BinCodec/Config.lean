import BinCodec.Traced

/-!
# Codec configuration

Four flags steer classification and the generic serializer. A configuration may be installed
once for a whole process; later installations are ignored.
-/

namespace BinCodec

/-- The flags of a configuration, all off by default. -/
structure Config where
  /-- Send booleans with the boolean particle type instead of as integers. -/
  useBoolBin : Bool := false
  /-- Refuse to serialize opaque objects. -/
  disableSerializer : Bool := false
  /-- Refuse to read serialized objects back. -/
  disableDeserializer : Bool := false
  /-- Return a map where the server answers with a list of pairs. -/
  returnMapForKeyValue : Bool := false
deriving DecidableEq, Repr, Inhabited

inductive Flag where
  | useBoolBin
  | disableSerializer
  | disableDeserializer
  | returnMapForKeyValue
deriving DecidableEq, Repr

namespace Flag

def all : List Flag := [useBoolBin, disableSerializer, disableDeserializer, returnMapForKeyValue]

def name : Flag → String
  | useBoolBin => "use_bool_bin"
  | disableSerializer => "disable_serializer"
  | disableDeserializer => "disable_deserializer"
  | returnMapForKeyValue => "return_map_for_key_value"

def ofName? (name : String) : Option Flag := all.find? fun flag => flag.name == name

end Flag

namespace Config

def get (c : Config) : Flag → Bool
  | .useBoolBin => c.useBoolBin
  | .disableSerializer => c.disableSerializer
  | .disableDeserializer => c.disableDeserializer
  | .returnMapForKeyValue => c.returnMapForKeyValue

def set (c : Config) (flag : Flag) (value : Bool) : Config :=
  match flag with
  | .useBoolBin => { c with useBoolBin := value }
  | .disableSerializer => { c with disableSerializer := value }
  | .disableDeserializer => { c with disableDeserializer := value }
  | .returnMapForKeyValue => { c with returnMapForKeyValue := value }

@[simp] theorem get_set_self (c : Config) (flag : Flag) (value : Bool) :
    (c.set flag value).get flag = value := by
  cases flag <;> rfl

theorem get_set_of_ne (c : Config) {f g : Flag} (value : Bool) (h : f ≠ g) :
    (c.set f value).get g = c.get g := by
  cases f <;> cases g <;> first | rfl | exact absurd rfl h

/-- Sets flags one after the other, starting from all off. -/
def build (settings : List (Flag × Bool)) : Config :=
  settings.foldl (fun c s => c.set s.1 s.2) {}

/-- Reads named settings. Unknown names are ignored; a known name needs a boolean, which is
absent where something else was written. -/
def ofFields? (fields : List (String × Option Bool)) : Option Config :=
  fields.foldlM (fun c (name, value) =>
    match Flag.ofName? name with
    | none => some c
    | some flag => value.map (c.set flag)) {}

/-- Reads settings by position, in the order of `Flag.all`; missing ones are off. -/
def ofPositions? (values : List (Option Bool)) : Option Config :=
  if Flag.all.length < values.length then none
  else (Flag.all.zip values).foldlM (fun c (flag, value) => value.map (c.set flag)) {}

end Config

/-- The configuration that a process has installed, if any. -/
structure Installed where
  config? : Option Config := none
deriving DecidableEq, Repr

namespace Installed

/-- The installed configuration, or the default one. -/
def current (i : Installed) : Config := i.config?.getD {}

/-- Installs a configuration. The first one stays: a later installation is refused. -/
def install (i : Installed) (c : Config) : Installed × Traced Unit :=
  match i.config? with
  | none => (⟨some c⟩, .pure ())
  | some _ => (i, ⟨.error .configInstalled, [.installIgnored]⟩)

theorem current_install_of_some {i : Installed} {first c : Config} (h : i.config? = some first) :
    (i.install c).1.current = first := by
  simp [install, h, current]

end Installed

end BinCodec
