import BinCodec.Classify
import BinCodec.Float.Decimal

/-!
# Display text

The text of a value as it is shown to a user: bytes in hexadecimal, lists in brackets, maps
in braces with an equals sign between key and value. A blob shows the diagnostic text of its
object until its bytes are known.
-/

namespace BinCodec

def boolText (b : Bool) : String := if b then "true" else "false"

mutual

def Datum.display : Datum → String
  | .null => "null"
  | .value v => v.display
  | .bytes b => b.toHex
  | .text s => s
  | .int n => toString n.toInt
  | .long n => toString n.toInt
  | .double x => x.toText
  | .float x => x.toText
  | .bool b => boolText b
  | .byte n => toString n.toNat
  | .char c => String.singleton c
  | .symbol s => s
  | .uuid id => id.toText
  | .list items => bracketed "[" "]" (displayItems items)
  | .map _ entries => bracketed "\x7b" "\x7d" (displayEntries entries)
  | .buffer b => b.toHex
  | .object o => o.content.debug

def Value.display : Value → String
  | .null => "null"
  | .bytes b _ => b.toHex
  | .segment b => b.toHex
  | .byte n => toString n.toNat
  | .text s => s
  | .int n => toString n.toInt
  | .long n => toString n.toInt
  | .double x => x.toText
  | .float x => x.toText
  | .bool b => boolText b
  | .boolInt b => boolText b
  | .blob _ (some b) => Bytes.toHex b
  | .blob o none => o.content.debug
  | .geoJson s => s
  | .hll b => b.toHex
  | .array values _ => bracketed "[" "]" (displayValues values)
  | .list items _ => bracketed "[" "]" (displayItems items)
  | .map _ entries _ _ => bracketed "\x7b" "\x7d" (displayEntries entries)
  | .entryList entries _ _ => bracketed "\x7b" "\x7d" (displayEntries entries)
  | .infinity => "INF"
  | .wildcard => "*"

def displayItems : List Datum → List String
  | [] => []
  | x :: xs => x.display :: displayItems xs

def displayValues : List Value → List String
  | [] => []
  | v :: vs => v.display :: displayValues vs

def displayEntries : List (Datum × Datum) → List String
  | [] => []
  | (k, v) :: es => (k.display ++ "=" ++ v.display) :: displayEntries es

end

end BinCodec
