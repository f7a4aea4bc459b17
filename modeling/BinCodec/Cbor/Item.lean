import BinCodec.Cbor.Head

/-!
# Reading CBOR items

Readers for the scalar items, for byte strings and texts given whole or in segments, for the
members of arrays and maps, and for items that are only skipped. Tags in front of an item
are skipped, except that an integer may be tagged as the bytes of a large one.

Searches over heads are bounded by the input itself, as every head takes at least a byte: they
recurse on a list that has a cell for each byte and drop a cell for each head.

Texts are checked in blocks of 4096 bytes and large integers in blocks of 16, so a fault in a
complete block is reported ahead of a missing end.
-/

namespace BinCodec.Cbor

/-- The result of reading something off the front of the input. -/
abbrev Read (α : Type) := Except DecodeError (α × Bytes)

/-! ## Heads after tags -/

/-- The next head that is no tag, within as many heads as there are cells. -/
def untaggedWithin : Bytes → Bytes → Read Head
  | [], _ => .error .endOfInput
  | _ :: cells, input =>
    match Head.read input with
    | .ok (.tag _, rest) => untaggedWithin cells rest
    | other => other

def untagged (input : Bytes) : Read Head := untaggedWithin input input

/-! ## Texts -/

def textBlock : Nat := 4096

/-- Counts the bytes of the well-formed characters at the front of a byte array. -/
def wellFormedFrom (bytes : ByteArray) : Nat → Nat → Nat
  | 0, start => start
  | fuel + 1, start =>
    match bytes.utf8DecodeChar? start with
    | some c => wellFormedFrom bytes fuel (start + c.utf8Size)
    | none => start

/-- What is left after the well-formed characters at the front. -/
def malformedTail (bytes : Bytes) : Bytes :=
  bytes.drop (wellFormedFrom ⟨bytes.toArray⟩ bytes.length 0)

/-- Whether some complete block holds a malformed text. Up to three bytes of an unfinished
character are carried over to the next block. -/
def hasMalformedBlock : Nat → Bytes → Bytes → Bool
  | 0, _, _ => false
  | fuel + 1, carried, input =>
    let room := textBlock - carried.length
    if input.length < room then false
    else
      let tail := malformedTail (carried ++ input.take room)
      3 < tail.length || hasMalformedBlock fuel tail (input.drop room)

def readText (length : Nat) (input : Bytes) : Read String :=
  match Head.split length input with
  | .ok (front, rest) =>
    match Bytes.toText? front with
    | some s => .ok (s, rest)
    | none => .error .malformed
  | .error _ =>
    if hasMalformedBlock input.length [] input then .error .malformed else .error .endOfInput

/-! ## Segments -/

/-- Reads the segments of an item of indefinite length up to its last break, within as many
heads as there are cells. Segments may nest; `pending` counts the inner breaks to come. -/
def segmentsWithin {σ : Type} (lengthOf : Head → Option (Option Nat))
    (step : σ → Nat → Bytes → Read σ) : Bytes → Nat → σ → Bytes → Read σ
  | [], _, _, _ => .error .endOfInput
  | _ :: cells, pending, s, input =>
    match Head.read input with
    | .error e => .error e
    | .ok (.stop, rest) =>
      if pending = 0 then .ok (s, rest) else segmentsWithin lengthOf step cells (pending - 1) s rest
    | .ok (head, rest) =>
      match lengthOf head with
      | none => .error .malformed
      | some none => segmentsWithin lengthOf step cells (pending + 1) s rest
      | some (some length) =>
        match step s length rest with
        | .error e => .error e
        | .ok (s, rest) => segmentsWithin lengthOf step cells pending s rest

/-- Reads the body of a byte string or text, whole or in segments. -/
def readSegments {σ : Type} (lengthOf : Head → Option (Option Nat))
    (step : σ → Nat → Bytes → Read σ) (s : σ) (length : Option Nat) (input : Bytes) : Read σ :=
  match length with
  | some length => step s length input
  | none => segmentsWithin lengthOf step input 0 s input

def bytesLength : Head → Option (Option Nat)
  | .bytes length => some length
  | _ => none

def textLength : Head → Option (Option Nat)
  | .text length => some length
  | _ => none

def byteString (length : Option Nat) (input : Bytes) : Read Bytes :=
  (readSegments bytesLength
    (fun parts n input => (Head.split n input).map fun (part, rest) => (part :: parts, rest))
    [] length input).map fun (parts, rest) => (parts.reverse.flatten, rest)

/-- Reads the body of a text; each segment has to be well formed by itself. -/
def textString (length : Option Nat) (input : Bytes) : Read String :=
  (readSegments textLength
    (fun parts n input => (readText n input).map fun (part, rest) => (part :: parts, rest))
    [] length input).map fun (parts, rest) => (String.join parts.reverse, rest)

/-! ## Integers -/

/-- The size of the blocks in which large integers are read, and their largest size. -/
def integerBlock : Nat := 16

/-- The bytes of a large integer so far, without leading zeros, if they are not too many. -/
def moreDigits (digits part : Bytes) : Except DecodeError Bytes :=
  let all := (digits ++ part).dropWhile (· == 0)
  if integerBlock < all.length then .error .mismatch else .ok all

def integerSegment (digits : Bytes) (length : Nat) (input : Bytes) : Read Bytes :=
  match Head.split length input with
  | .ok (front, rest) => (moreDigits digits front).map fun all => (all, rest)
  | .error e =>
    match moreDigits digits (input.take (input.length / integerBlock * integerBlock)) with
    | .error e => .error e
    | .ok _ => .error e

/-- Reads the magnitude of a large integer after its tag. -/
def largeInteger (input : Bytes) : Read Nat :=
  match Head.read input with
  | .error e => .error e
  | .ok (.bytes length, rest) =>
    (readSegments bytesLength integerSegment [] length rest).map fun (digits, rest) =>
      (Bytes.toNat digits, rest)
  | .ok _ => .error .mismatch

def belowZero (magnitude : Nat) : Int := -1 - magnitude

/-- Reads an integer, within as many heads as there are cells. -/
def integerWithin : Bytes → Bytes → Read Int
  | [], _ => .error .endOfInput
  | _ :: cells, input =>
    match Head.read input with
    | .error e => .error e
    | .ok (.positive n, rest) => .ok (n, rest)
    | .ok (.negative n, rest) => .ok (belowZero n, rest)
    | .ok (.tag n, rest) =>
      if n = Head.bigPositive then
        (largeInteger rest).map fun (m, rest) => ((m : Int), rest)
      else if n = Head.bigNegative then
        (largeInteger rest).map fun (m, rest) => (belowZero m, rest)
      else integerWithin cells rest
    | .ok _ => .error .mismatch

def integer (input : Bytes) : Read Int := integerWithin input input

/-! ## Members -/

variable {σ : Type}

def countedMembers (step : σ → Bytes → Read σ) : Nat → σ → Bytes → Read σ
  | 0, s, input => .ok (s, input)
  | n + 1, s, input =>
    match step s input with
    | .error e => .error e
    | .ok (s, rest) => countedMembers step n s rest

/-- Reads members up to a break, within as many members as there are cells. -/
def openMembers (step : σ → Bytes → Read σ) : Bytes → σ → Bytes → Read σ
  | [], _, _ => .error .endOfInput
  | _ :: cells, s, input =>
    match Head.read input with
    | .error e => .error e
    | .ok (.stop, rest) => .ok (s, rest)
    | .ok _ =>
      match step s input with
      | .error e => .error e
      | .ok (s, rest) => openMembers step cells s rest

def members (step : σ → Bytes → Read σ) (length : Option Nat) (s : σ) (input : Bytes) : Read σ :=
  match length with
  | some n => countedMembers step n s input
  | none => openMembers step input s input

/-! ## Skipping -/

/-- The largest magnitude of a large negative integer that can be skipped. -/
def skippedMagnitude : Nat := 0x7fffffffffffffffffffffffffffffff

/-- Whether a tag and the head that follows it begin a large integer that is skipped as such:
its bytes come whole and are no more than a large integer may have. Any other item behind a tag
is skipped by its own rules. -/
def beginsInteger (tag : Nat) : Head → Bool
  | .bytes (some length) =>
    (tag == Head.bigPositive || tag == Head.bigNegative) && length ≤ integerBlock
  | _ => false

/-- Skips a large integer after its tag. Negative integers below those of 128 bits are
refused. -/
def skipInteger (tag : Nat) (input : Bytes) : Read Unit :=
  match largeInteger input with
  | .error e => .error e
  | .ok (magnitude, rest) =>
    if tag = Head.bigNegative ∧ skippedMagnitude < magnitude then .error .mismatch
    else .ok ((), rest)

/-- Skips any item nested no deeper than allowed. A simple value without a known meaning
cannot be skipped. The head behind a tag is looked at before the depth is. -/
def skip (depth : Nat) (input : Bytes) : Read Unit :=
  match Head.read input with
  | .error e => .error e
  | .ok (.positive _, rest) | .ok (.negative _, rest) | .ok (.float _, rest) => .ok ((), rest)
  | .ok (.bytes length, rest) => (byteString length rest).map fun (_, rest) => ((), rest)
  | .ok (.text length, rest) => (textString length rest).map fun (_, rest) => ((), rest)
  | .ok (.simple n, rest) =>
    if Head.falseValue ≤ n ∧ n ≤ Head.undefinedValue then .ok ((), rest) else .error .mismatch
  | .ok (.stop, _) => .error .mismatch
  | .ok (.tag n, rest) =>
    match Head.read rest with
    | .error e => .error e
    | .ok (next, _) =>
      if beginsInteger n next then skipInteger n rest
      else
        match depth with
        | 0 => .error .tooDeep
        | depth + 1 => skip depth rest
  | .ok (.array length, rest) =>
    match depth with
    | 0 => .error .tooDeep
    | depth + 1 => members (fun _ input => skip depth input) length () rest
  | .ok (.map length, rest) =>
    match depth with
    | 0 => .error .tooDeep
    | depth + 1 =>
      members (fun _ input =>
        match skip depth input with
        | .error e => .error e
        | .ok (_, rest) => skip depth rest) length () rest

end BinCodec.Cbor
