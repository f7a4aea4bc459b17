import BinCodec.Cbor.Item
import BinCodec.Object.Content

/-!
# Reading contents by schema

A schema says what shape a content has, and directs how it is read back from its serialized
form. Reading is lenient where the form allows: segmented texts, byte strings in place of
sequences of integers, records with unknown fields, variants given as a map. Bytes after the
item are ignored.
-/

namespace BinCodec

attribute [local instance] builtInPow

inductive Schema where
  | bool
  | unit
  | char
  | text
  | float
  /-- The integers from `low` to `high`. -/
  | integer (low high : Int)
  | optional (value : Schema)
  /-- A fixed number of items. -/
  | tuple (items : List Schema)
  | sequence (item : Schema)
  /-- A map whose keys are texts. -/
  | dictionary (value : Schema)
  /-- A record; a field that is missing takes its default, if it has one. -/
  | record (name : String) (fields : List (String × Schema × Option Content))
  /-- The variants of an enumeration. A unit payload is not read at all; a payload of several
  values may be an array also where the values have names, but may not be tagged. -/
  | variants (variants : List (String × Schema))

namespace Schema

open Cbor

/-- The integers of an unsigned word of the given width. -/
def unsigned (width : Nat) : Schema := .integer 0 (2 ^ width - 1)

def signed (width : Nat) : Schema := .integer (-2 ^ (width - 1)) (2 ^ (width - 1) - 1)

/-- How deeply arrays, maps and variants may nest. -/
def depthLimit : Nat := 256

/-- The longest field or variant name that is looked at. -/
def nameLimit : Nat := 4096

/-- Reads one content, given how deeply it may still nest. -/
abbrev Reader := Nat → Bytes → Read Content

/-! ## Scalars -/

/-- Reads an item whose head alone tells its content. -/
def readHead (content : Head → Option Content) (input : Bytes) : Read Content :=
  match untagged input with
  | .error e => .error e
  | .ok (head, rest) =>
    match content head with
    | some c => .ok (c, rest)
    | none => .error .mismatch

def boolOf : Head → Option Content
  | .simple n =>
    if n = Head.falseValue then some (.bool false)
    else if n = Head.trueValue then some (.bool true)
    else none
  | _ => none

def isNull : Head → Bool
  | .simple n => n == Head.nullValue || n == Head.undefinedValue
  | _ => false

def floatOf : Head → Option Content
  | .float x => some (.float x)
  | _ => none

def charOf (s : String) : Except DecodeError Content :=
  match s.toList with
  | [c] => .ok (.char c)
  | _ => .error .mismatch

/-- Reads a character: a whole text of at most four bytes. -/
def readChar (input : Bytes) : Read Content :=
  match untagged input with
  | .error e => .error e
  | .ok (.text (some n), rest) =>
    if n ≤ 4 then
      match readText n rest with
      | .error e => .error e
      | .ok (s, rest) => (charOf s).map fun c => (c, rest)
    else .error .mismatch
  | .ok _ => .error .mismatch

def readString (input : Bytes) : Read String :=
  match untagged input with
  | .error e => .error e
  | .ok (.text length, rest) => textString length rest
  | .ok _ => .error .mismatch

/-- The integer as a content, if it is in range. -/
def inRange (low high n : Int) : Except DecodeError Content :=
  if low ≤ n ∧ n ≤ high then .ok (.integer n) else .error .mismatch

/-- What a byte is as an item of a sequence. -/
def ofByte (schema : Schema) (byte : UInt8) : Except DecodeError Content :=
  match schema with
  | .integer low high => inRange low high byte.toNat
  | _ => .error .mismatch

/-! ## Sequences -/

/-- Reads a sequence. Bytes may stand for its items. -/
def readSequence (item : Schema) (reader : Reader) (depth : Nat) (input : Bytes) : Read Content :=
  match untagged input with
  | .error e => .error e
  | .ok (.array length, rest) =>
    match depth with
    | 0 => .error .tooDeep
    | depth + 1 =>
      (members (fun read input => (reader depth input).map fun (c, rest) => (c :: read, rest))
        length [] rest).map fun (read, rest) => (.sequence read.reverse, rest)
  | .ok (.bytes length, rest) =>
    match byteString length rest with
    | .error e => .error e
    | .ok (bytes, rest) => (bytes.mapM (ofByte item)).map fun items => (.sequence items, rest)
  | .ok _ => .error .mismatch

/-- Reads the items of a tuple off an array. The array must not end early; what follows the
last item is left alone. -/
def readItems : List Reader → Nat → Option Nat → Bytes → Read (List Content)
  | [], _, _, input => .ok ([], input)
  | reader :: readers, depth, length, input =>
    match length, Head.read input with
    | some 0, _ => .error .mismatch
    | none, .error e => .error e
    | none, .ok (.stop, _) => .error .mismatch
    | _, _ =>
      match reader depth input with
      | .error e => .error e
      | .ok (c, rest) =>
        (readItems readers depth (length.map (· - 1)) rest).map fun (cs, rest) => (c :: cs, rest)

/-- The items of a tuple given by bytes; further bytes are dropped. -/
def itemsOfBytes : List Schema → Bytes → Except DecodeError (List Content)
  | [], _ => .ok []
  | _ :: _, [] => .error .mismatch
  | schema :: schemas, byte :: bytes =>
    match ofByte schema byte with
    | .error e => .error e
    | .ok c => (itemsOfBytes schemas bytes).map (c :: ·)

def readTuple (items : List Schema) (readers : List Reader) (depth : Nat) (input : Bytes) :
    Read Content :=
  match untagged input with
  | .error e => .error e
  | .ok (.array length, rest) =>
    match depth with
    | 0 => .error .tooDeep
    | depth + 1 => (readItems readers depth length rest).map fun (cs, rest) => (.tuple cs, rest)
  | .ok (.bytes length, rest) =>
    match byteString length rest with
    | .error e => .error e
    | .ok (bytes, rest) => (itemsOfBytes items bytes).map fun cs => (.tuple cs, rest)
  | .ok _ => .error .mismatch

/-! ## Maps and records -/

/-- Reads a map from texts. Of several entries with one key the last one counts. -/
def readDictionary (reader : Reader) (depth : Nat) (input : Bytes) : Read Content :=
  match untagged input with
  | .error e => .error e
  | .ok (.map length, rest) =>
    match depth with
    | 0 => .error .tooDeep
    | depth + 1 =>
      (members (fun read input =>
        match readString input with
        | .error e => .error e
        | .ok (key, rest) =>
          (reader depth rest).map fun (value, rest) => ((.text key, value) :: read, rest))
        length [] rest).map fun (read, rest) => (Content.dictionaryOf read.reverse, rest)
  | .ok _ => .error .mismatch

def readName (input : Bytes) : Read Bytes :=
  match untagged input with
  | .error e => .error e
  | .ok (.text (some n), rest) =>
    if n ≤ nameLimit then (readText n rest).map fun (s, rest) => (Bytes.ofText s, rest)
    else .error .mismatch
  | .ok (.bytes (some n), rest) =>
    if n ≤ nameLimit then Head.split n rest else .error .mismatch
  | .ok _ => .error .mismatch

/-- A field of a record while the record is read. -/
structure Slot where
  name : String
  reader : Reader
  default? : Option Content
  content? : Option Content

/-- Reads one entry of a record into its slot. A field may come only once; unknown ones are
skipped. -/
def readEntry (depth : Nat) (slots : List Slot) (input : Bytes) : Read (List Slot) :=
  match readName input with
  | .error e => .error e
  | .ok (name, rest) =>
    match slots.find? fun slot => Bytes.ofText slot.name == name with
    | none => (skip depth rest).map fun (_, rest) => (slots, rest)
    | some slot =>
      if slot.content?.isSome then .error .mismatch
      else
        (slot.reader depth rest).map fun (c, rest) =>
          (slots.map fun s => if s.name = slot.name then { s with content? := some c } else s,
            rest)

/-- The fields of a record once all entries are read. -/
def slotFields (slots : List Slot) : Except DecodeError (List (String × Content)) :=
  slots.mapM fun slot =>
    match slot.content?.or slot.default? with
    | some c => .ok (slot.name, c)
    | none => .error .mismatch

def readRecord (name : String) (slots : List Slot) (depth : Nat) (input : Bytes) : Read Content :=
  match untagged input with
  | .error e => .error e
  | .ok (.map length, rest) =>
    match depth with
    | 0 => .error .tooDeep
    | depth + 1 =>
      match members (readEntry depth) length slots rest with
      | .error e => .error e
      | .ok (slots, rest) => (slotFields slots).map fun fields => (.record name fields, rest)
  | .ok _ => .error .mismatch

/-! ## Variants -/

/-- The input from the name of a variant on, within as many heads as there are cells: the name
itself, or a map of one entry from the name to the payload. -/
def variantInput : Bytes → Bytes → Except DecodeError Bytes
  | [], _ => .error .endOfInput
  | _ :: cells, input =>
    match Head.read input with
    | .error e => .error e
    | .ok (.tag _, rest) => variantInput cells rest
    | .ok (.map (some 1), rest) => .ok rest
    | .ok (.text _, _) => .ok input
    | .ok _ => .error .mismatch

/-- The fault of an item that cannot be a payload of several values, given its head and what
follows the head. A scalar is read before it is refused, so that a fault inside of it comes
first; of a tagged item that is no integer only the next head is read. -/
def refusal (head : Head) (depth : Nat) (input rest : Bytes) : DecodeError :=
  let afterReading :=
    match skip depth input with
    | .error e => e
    | .ok _ => .mismatch
  let unread := if depth = 0 then .tooDeep else .mismatch
  match head with
  | .tag n =>
    match Head.read rest with
    | .error e => e
    | .ok (next, _) => if beginsInteger n next then afterReading else unread
  | .array _ | .map _ => unread
  | _ => afterReading

/-- Reads the payload of a variant that holds several values: an array of them or, where they
have names, a map. -/
def readPayload (items : List Reader) (ofItems : List Content → Content)
    (entries? : Option Reader) (depth : Nat) (input : Bytes) : Read Content :=
  match Head.read input with
  | .error e => .error e
  | .ok (head, rest) =>
    match head, depth, entries? with
    | .array length, depth + 1, _ =>
      (readItems items depth length rest).map fun (cs, rest) => (ofItems cs, rest)
    | .map _, depth, some entries => entries depth input
    | head, depth, _ => .error (refusal head depth input rest)

def readVariant (cases : List (String × Reader)) (depth : Nat) (input : Bytes) : Read Content :=
  match variantInput input input with
  | .error e => .error e
  | .ok input =>
    match depth with
    | 0 => .error .tooDeep
    | depth + 1 =>
      match readName input with
      | .error e => .error e
      | .ok (name, rest) =>
        match cases.zipIdx.find? fun c => Bytes.ofText c.1.1 == name with
        | none => .error .mismatch
        | some ((name, reader), index) =>
          (reader depth rest).map fun (payload, rest) => (.variant index name payload, rest)

/-! ## All shapes -/

mutual

def reader : Schema → Reader
  | .bool => fun _ => readHead boolOf
  | .unit => fun _ => readHead fun head => if isNull head then some .unit else none
  | .char => fun _ => readChar
  | .text => fun _ input => (readString input).map fun (s, rest) => (.text s, rest)
  | .float => fun _ => readHead floatOf
  | .integer low high => fun _ input =>
    match Cbor.integer input with
    | .error e => .error e
    | .ok (n, rest) => (inRange low high n).map fun c => (c, rest)
  | .optional value => fun depth input =>
    match Head.read input with
    | .error e => .error e
    | .ok (head, rest) =>
      if isNull head then .ok (.absent, rest)
      else (value.reader depth input).map fun (c, rest) => (.present c, rest)
  | .tuple items => readTuple items (readers items)
  | .sequence item => readSequence item item.reader
  | .dictionary value => readDictionary value.reader
  | .record name fields => readRecord name (slots fields)
  | .variants vs => readVariant (payloadReaders vs)

def readers : List Schema → List Reader
  | [] => []
  | s :: ss => s.reader :: readers ss

def slots : List (String × Schema × Option Content) → List Slot
  | [] => []
  | (name, s, default?) :: fs => ⟨name, s.reader, default?, none⟩ :: slots fs

def payloadReaders : List (String × Schema) → List (String × Reader)
  | [] => []
  | (name, .unit) :: vs => (name, fun _ input => .ok (.unit, input)) :: payloadReaders vs
  | (name, .tuple items) :: vs =>
    (name, readPayload (readers items) .tuple none) :: payloadReaders vs
  | (name, .record title fields) :: vs =>
    let empty := slots fields
    (name, readPayload (empty.map (·.reader))
      (fun cs => .record title ((empty.map (·.name)).zip cs))
      (some (readRecord title empty))) :: payloadReaders vs
  | (name, s) :: vs => (name, s.reader) :: payloadReaders vs

end

def decode (schema : Schema) (bytes : Bytes) : Except DecodeError Content :=
  (schema.reader depthLimit bytes).map (·.1)

end Schema

end BinCodec
