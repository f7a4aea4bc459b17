import BinCodec.Flat

/-!
# Script values

Values become arguments of server-side functions as values of a scripting language. Objects
are serialized for that; a blob keeps its bytes in its cache, as estimating would. The range
sentinels have no script value. Items and entries are visited in iteration order, each key
before its value, up to the first failure.
-/

namespace BinCodec

/-- A value of the scripting language. -/
inductive Script where
  | nil
  | integer (n : Int64)
  | number (x : Binary64)
  | boolean (b : Bool)
  /-- A string of any bytes. -/
  | string (b : Bytes)
  | bytes (b : Bytes) (particle : ParticleType)
  | list (items : List Script)
  | map (entries : List (Script × Script))

mutual

def Datum.toScript (c : Config) : Datum → Run Datum Script
  | .null => .plain .null .nil
  | .value v => (v.toScript c).within .value
  | .bytes b => .plain (.bytes b) (.bytes b .blob)
  | .text s => .plain (.text s) (.string (Bytes.ofText s))
  | .int n => .plain (.int n) (.integer n.toInt64)
  | .long n => .plain (.long n) (.integer n)
  | .double x => .plain (.double x) (.number x)
  | .float x => .plain (.float x) (.number x.widen)
  | .bool b => .plain (.bool b) (.boolean b)
  | .byte n => .plain (.byte n) (.integer n.toUInt64.toInt64)
  | .char ch => .plain (.char ch) (.integer (Int64.ofNat ch.toNat))
  | .symbol s => .plain (.symbol s) (.string (Bytes.ofText s))
  | .uuid id => .plain (.uuid id) (.string (Bytes.ofText id.toText))
  | .list items => ((Run.all (scriptItems c items)).map .list).within .list
  | .map kind entries => ((Run.all (scriptEntries c entries)).map .map).within (.map kind)
  | .buffer b => .plain (.buffer b) (.bytes b .blob)
  | .object o => .still (.object o) ((o.serialize c).map fun b => .bytes b .jblob)

def Value.toScript (c : Config) : Value → Run Value Script
  | .null => .plain .null .nil
  | .bytes b particle => .plain (.bytes b particle) (.bytes b particle)
  | .segment b => .plain (.segment b) (.string b)
  | .byte n => .plain (.byte n) (.integer n.toUInt64.toInt64)
  | .text s => .plain (.text s) (.string (Bytes.ofText s))
  | .int n => .plain (.int n) (.integer n.toInt64)
  | .long n => .plain (.long n) (.integer n)
  | .double x => .plain (.double x) (.number x)
  | .float x => .plain (.float x) (.number x.widen)
  | .bool b => .plain (.bool b) (.boolean b)
  | .boolInt b => .plain (.boolInt b) (.boolean b)
  | .blob o cache => ((Value.blob o cache).encodeOnce c).map fun b => .bytes b .jblob
  | .geoJson s => .plain (.geoJson s) (.string (Bytes.ofText s))
  | .hll b => .plain (.hll b) (.bytes b .hll)
  | .array values cache =>
    ((Run.all (scriptValues c values)).map .list).within fun vs => .array vs cache
  | .list items cache =>
    ((Run.all (scriptItems c items)).map .list).within fun xs => .list xs cache
  | .map kind entries order cache =>
    ((Run.all (scriptEntries c entries)).map .map).within fun es => .map kind es order cache
  | .entryList entries order cache =>
    ((Run.all (scriptEntries c entries)).map .map).within fun es => .entryList es order cache
  | .infinity => .still .infinity (.fail (.invalidScriptType (Value.typeName .infinity)))
  | .wildcard => .still .wildcard (.fail (.invalidScriptType (Value.typeName .wildcard)))

def scriptItems (c : Config) : List Datum → List (Run Datum Script)
  | [] => []
  | x :: xs => x.toScript c :: scriptItems c xs

def scriptValues (c : Config) : List Value → List (Run Value Script)
  | [] => []
  | v :: vs => v.toScript c :: scriptValues c vs

def scriptEntries (c : Config) : List (Datum × Datum) → List (Run (Datum × Datum) (Script × Script))
  | [] => []
  | (k, v) :: es => (k.toScript c).both (v.toScript c) :: scriptEntries c es

end

end BinCodec
