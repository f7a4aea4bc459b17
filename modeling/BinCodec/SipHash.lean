import BinCodec.Bytes

/-!
# SipHash

A 64-bit hash of byte sequences that spreads every difference over all bits. Four words of
state take in the input eight bytes at a time, the last word also carrying the length. There
is one round for each word and three rounds at the end, and the key is zero.
-/

namespace BinCodec

/-- The four words of state of a hash in progress. -/
structure SipHash where
  a : UInt64
  b : UInt64
  c : UInt64
  d : UInt64
deriving DecidableEq, Repr

namespace SipHash

/-- The state before any input, under the zero key. -/
def start : SipHash :=
  ⟨0x736f6d6570736575, 0x646f72616e646f6d, 0x6c7967656e657261, 0x7465646279746573⟩

def rotate (x count : UInt64) : UInt64 := (x <<< count) ||| (x >>> (64 - count))

def round (s : SipHash) : SipHash :=
  let a := s.a + s.b
  let b := rotate s.b 13 ^^^ a
  let a := rotate a 32
  let c := s.c + s.d
  let d := rotate s.d 16 ^^^ c
  let a := a + d
  let d := rotate d 21 ^^^ a
  let c := c + b
  let b := rotate b 17 ^^^ c
  ⟨a, b, rotate c 32, d⟩

def absorb (s : SipHash) (word : UInt64) : SipHash :=
  let mixed := round { s with d := s.d ^^^ word }
  { mixed with a := mixed.a ^^^ word }

/-- The word with the given little-endian bytes. -/
def word (bytes : Bytes) : UInt64 :=
  bytes.foldr (fun byte w => (w <<< 8) ||| byte.toUInt64) 0

/-- Takes in whole words of input. Gives the state and the bytes that fill no word. -/
def absorbWords (s : SipHash) : Bytes → SipHash × Bytes
  | b₀ :: b₁ :: b₂ :: b₃ :: b₄ :: b₅ :: b₆ :: b₇ :: rest =>
    absorbWords (s.absorb (word [b₀, b₁, b₂, b₃, b₄, b₅, b₆, b₇])) rest
  | tail => (s, tail)

/-- The hash that a state ends in. -/
def finish (s : SipHash) : UInt64 :=
  let last := round (round (round { s with c := s.c ^^^ 0xff }))
  last.a ^^^ last.b ^^^ last.c ^^^ last.d

def hash (bytes : Bytes) : UInt64 :=
  let (s, tail) := start.absorbWords bytes
  (s.absorb (word tail ||| (UInt64.ofNat bytes.length <<< 56))).finish

end SipHash

end BinCodec
