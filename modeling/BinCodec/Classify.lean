import BinCodec.Datum.Collect

/-!
# Classification

Every datum has a value in wire form. Characters become their code point, symbols and
identifiers their text, buffers plain bytes, and objects blobs; booleans follow the
configuration. A value goes back to the datum that it stands for.
-/

namespace BinCodec

namespace Value

/-- A boolean, with the boolean particle type if the configuration asks for it. -/
def boolean (c : Config) (b : Bool) : Value := if c.useBoolBin then .bool b else .boolInt b

def ofUuid (id : Uuid) : Value := .text id.toText

end Value

namespace Datum

def codePoint (c : Char) : Int32 := Int32.ofNat c.toNat

/-- The value in wire form. A value that is already classified stays as it is. -/
def classify (c : Config) : Datum → Value
  | null => .null
  | value v => v
  | bytes b => .bytes b .blob
  | text s => .text s
  | int n => .int n
  | long n => .long n
  | double x => .double x
  | float x => .float x
  | bool b => .boolean c b
  | byte n => .byte n
  | char ch => .int (codePoint ch)
  | symbol s => .text s
  | uuid id => .ofUuid id
  | list items => .list items none
  | map kind entries => .map kind entries kind.order none
  | buffer b => .bytes b .blob
  | object o => .blob o none

def classifyLog : Datum → List Event
  | object o => [.opaqueFallback o.typeName]
  | _ => []

@[simp] theorem classify_value (c : Config) (v : Value) : (value v).classify c = v := rfl

end Datum

namespace Value

def wrapAll (values : List Value) : List Datum := values.map .value

def pairLists (entries : Entries) : List Datum := entries.map fun e => .list [e.1, e.2]

/-- The datum that a value stands for. A segment stays a value, since its bytes are not
owned. -/
def toDatum : Value → Datum
  | null | infinity | wildcard => .null
  | bytes b _ | hll b => .bytes b
  | segment b => .value (.segment b)
  | byte n => .byte n
  | text s | geoJson s => .text s
  | int n => .int n
  | long n => .long n
  | double x => .double x
  | float x => .float x
  | bool b | boolInt b => .bool b
  | blob o _ => .object o
  | array values _ => .list (wrapAll values)
  | list items _ => .list items
  | map kind entries _ _ => .map kind entries
  | entryList entries _ _ => .list (pairLists entries)

end Value

end BinCodec
