import BinCodec.Datum.ServerOrder
import BinCodec.Pack.Emission

/-!
# The packed encoding

Data and values are packed into MessagePack items. Lists pack their items in order. Maps
pack their entries in iteration order if the map is unordered, and in the server's order of
keys otherwise. Caches play no part: objects are serialized anew.
-/

namespace BinCodec

/-- A map of already packed entries, under its header and in its order. -/
def packArranged (entries : List (Datum × Datum)) (order : MapOrder) (packed : List Emission) :
    Emission :=
  let arranged := order.arrange (fun x => x.1) (entries.zip packed)
  (Emission.ofBytes (Pack.orderedMapHeader entries.length order)).andThen
    (Emission.concat (arranged.map (·.2)))

mutual

def Datum.pack (c : Config) : Datum → Emission
  | .null => .ofBytes Pack.nil
  | .value v => v.pack c
  | .bytes b => .ofBytes (Pack.payload .blob b)
  | .text s => .ofBytes (Pack.text s)
  | .int n => .ofBytes (Pack.integer n.toInt)
  | .long n => .ofBytes (Pack.integer n.toInt)
  | .double x => .ofBytes (Pack.double x)
  | .float x => .ofBytes (Pack.float x)
  | .bool b => .ofBytes (Pack.boolean b)
  | .byte n => .ofBytes (Pack.integer n.toNat)
  | .char ch => .ofBytes (Pack.integer ch.toNat)
  | .symbol s => .ofBytes (Pack.text s)
  | .uuid id => .ofBytes (Pack.text id.toText)
  | .list items =>
    (Emission.ofBytes (Pack.arrayHeader items.length)).andThen (.concat (packItems c items))
  | .map kind entries => packArranged entries kind.order (packEntries c entries)
  | .buffer b => .ofBytes (Pack.payload .blob b)
  | .object o => .blob c o

def Value.pack (c : Config) : Value → Emission
  | .null => .ofBytes Pack.nil
  | .bytes b particle => .ofBytes (Pack.payload particle b)
  | .segment b => .ofBytes (Pack.payload .blob b)
  | .byte n => .ofBytes (Pack.integer n.toNat)
  | .text s => .ofBytes (Pack.text s)
  | .int n => .ofBytes (Pack.integer n.toInt)
  | .long n => .ofBytes (Pack.integer n.toInt)
  | .double x => .ofBytes (Pack.double x)
  | .float x => .ofBytes (Pack.float x)
  | .bool b => .ofBytes (Pack.boolean b)
  | .boolInt b => .ofBytes (Pack.boolean b)
  | .blob o _ => .blob c o
  | .geoJson s => .ofBytes (Pack.geoJson s)
  | .hll b => .ofBytes (Pack.payload .blob b)
  | .array values _ =>
    (Emission.ofBytes (Pack.arrayHeader values.length)).andThen (.concat (packValues c values))
  | .list items _ =>
    (Emission.ofBytes (Pack.arrayHeader items.length)).andThen (.concat (packItems c items))
  | .map _ entries order _ => packArranged entries order (packEntries c entries)
  | .entryList entries order _ => packArranged entries order (packEntries c entries)
  | .infinity => .ofBytes Pack.infinity
  | .wildcard => .ofBytes Pack.wildcard

def packItems (c : Config) : List Datum → List Emission
  | [] => []
  | x :: xs => x.pack c :: packItems c xs

def packValues (c : Config) : List Value → List Emission
  | [] => []
  | v :: vs => v.pack c :: packValues c vs

/-- The packed entries of a map, each key before its value. -/
def packEntries (c : Config) : List (Datum × Datum) → List Emission
  | [] => []
  | (k, v) :: es => (k.pack c).andThen (v.pack c) :: packEntries c es

end

def packList (c : Config) (items : List Datum) : Emission := (Datum.list items).pack c

def packMap (c : Config) (entries : Entries) (order : MapOrder) : Emission :=
  (Value.entryList entries order none).pack c

/-- The packed encoding of a value on its own: its bytes or its error. -/
def Value.packed (c : Config) (v : Value) : Traced Bytes := (v.pack c).toTraced

end BinCodec
