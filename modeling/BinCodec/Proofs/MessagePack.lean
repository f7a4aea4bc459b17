import BinCodec.Pack.Header
import Mathlib.Algebra.Group.Int.Defs
import Mathlib.Algebra.Group.Nat.Defs
import Mathlib.Tactic.SplitIfs

/-!
# Reading MessagePack

A reader for every item of the MessagePack format, whatever wrote it. An item starts with a
head, whose first byte tells how to go on: a scalar is complete once its head is read, an
array or map announces how many items follow. Reading keeps a limit on how deep items nest;
since each level takes a byte, the length of the input is limit enough.

The second half says what the reader makes of each head that packing writes.
-/

namespace BinCodec.MessagePack

/-- An item, its integers as numbers and its floats as bits. -/
inductive Item where
  | nil
  | boolean (b : Bool)
  | integer (n : Int)
  | float32 (x : Binary32)
  | float64 (x : Binary64)
  /-- A string of any bytes. -/
  | string (b : Bytes)
  | binary (b : Bytes)
  | array (items : List Item)
  | map (entries : List (Item × Item))
  /-- Data of an application-defined type. -/
  | extension (type : UInt8) (data : Bytes)

/-- The result of reading something off the front of the input. -/
abbrev Read (α : Type) := Option (α × Bytes)

/-! ## Heads -/

def split (count : Nat) (input : Bytes) : Read Bytes :=
  if count ≤ input.length then some (input.take count, input.drop count) else none

def unsigned (width : Nat) (input : Bytes) : Read Nat :=
  (split width input).map fun (front, rest) => (Bytes.toNat front, rest)

/-- A big-endian number of the given width in two's complement. -/
def signed (width : Nat) (input : Bytes) : Read Int :=
  (unsigned width input).map fun (n, rest) =>
    (if 2 * n < 256 ^ width then (n : Int) else n - 256 ^ width, rest)

/-- What a head announces: a complete item, or the number of items or entries that follow. -/
inductive Head where
  | item (i : Item)
  | array (size : Nat)
  | map (size : Nat)

def string (length : Nat) (input : Bytes) : Read Head :=
  (split length input).map fun (b, rest) => (.item (.string b), rest)

def binary (length : Nat) (input : Bytes) : Read Head :=
  (split length input).map fun (b, rest) => (.item (.binary b), rest)

/-- An extension with data of the given length, which its type precedes. -/
def extension (length : Nat) : Bytes → Read Head
  | [] => none
  | type :: input => (split length input).map fun (b, rest) => (.item (.extension type b), rest)

/-- Something whose length is given first, in a number of the given width. -/
def sized (width : Nat) (read : Nat → Bytes → Read Head) (input : Bytes) : Read Head :=
  (unsigned width input).bind fun (length, rest) => read length rest

/-- What follows a first byte that is a marker of its own. -/
def Head.marked (marker : UInt8) (input : Bytes) : Read Head :=
  let integer (width : Nat) : Read Head :=
    (unsigned width input).map fun (n, rest) => (.item (.integer n), rest)
  let negative (width : Nat) : Read Head :=
    (signed width input).map fun (n, rest) => (.item (.integer n), rest)
  match marker with
  | 0xc0 => some (.item .nil, input)
  | 0xc2 => some (.item (.boolean false), input)
  | 0xc3 => some (.item (.boolean true), input)
  | 0xc4 => sized 1 binary input
  | 0xc5 => sized 2 binary input
  | 0xc6 => sized 4 binary input
  | 0xc7 => sized 1 extension input
  | 0xc8 => sized 2 extension input
  | 0xc9 => sized 4 extension input
  | 0xca => (unsigned 4 input).map fun (n, rest) => (.item (.float32 ⟨UInt32.ofNat n⟩), rest)
  | 0xcb => (unsigned 8 input).map fun (n, rest) => (.item (.float64 ⟨UInt64.ofNat n⟩), rest)
  | 0xcc => integer 1
  | 0xcd => integer 2
  | 0xce => integer 4
  | 0xcf => integer 8
  | 0xd0 => negative 1
  | 0xd1 => negative 2
  | 0xd2 => negative 4
  | 0xd3 => negative 8
  | 0xd4 => extension 1 input
  | 0xd5 => extension 2 input
  | 0xd6 => extension 4 input
  | 0xd7 => extension 8 input
  | 0xd8 => extension 16 input
  | 0xd9 => sized 1 string input
  | 0xda => sized 2 string input
  | 0xdb => sized 4 string input
  | 0xdc => (unsigned 2 input).map fun (n, rest) => (.array n, rest)
  | 0xdd => (unsigned 4 input).map fun (n, rest) => (.array n, rest)
  | 0xde => (unsigned 2 input).map fun (n, rest) => (.map n, rest)
  | 0xdf => (unsigned 4 input).map fun (n, rest) => (.map n, rest)
  | _ => none

/-- Reads one head. Small integers, sizes and lengths stand in the first byte itself. -/
def Head.read : Bytes → Read Head
  | [] => none
  | first :: input =>
    let n := first.toNat
    if n < 0x80 then some (.item (.integer n), input)
    else if n < 0x90 then some (.map (n - 0x80), input)
    else if n < 0xa0 then some (.array (n - 0x90), input)
    else if n < 0xc0 then string (n - 0xa0) input
    else if n < 0xe0 then marked first input
    else some (.item (.integer ((n : Int) - 0x100)), input)

/-! ## Items -/

/-- Reads a number of things one after the other. -/
def times {α : Type} (read : Bytes → Read α) : Nat → Bytes → Read (List α)
  | 0, input => some ([], input)
  | count + 1, input =>
    (read input).bind fun (x, rest) =>
      (times read count rest).map fun (xs, rest) => (x :: xs, rest)

def pair {α : Type} (read : Bytes → Read α) (input : Bytes) : Read (α × α) :=
  (read input).bind fun (k, rest) => (read rest).map fun (v, rest) => ((k, v), rest)

/-- Reads an item whose parts nest less than so deep. -/
def readWithin : Nat → Bytes → Read Item
  | 0, _ => none
  | depth + 1, input =>
    match Head.read input with
    | none => none
    | some (.item i, rest) => some (i, rest)
    | some (.array size, rest) =>
      (times (readWithin depth) size rest).map fun (items, rest) => (.array items, rest)
    | some (.map size, rest) =>
      (times (pair (readWithin depth)) size rest).map fun (entries, rest) => (.map entries, rest)

def read (input : Bytes) : Read Item := readWithin input.length input

/-! ## Numbers and payloads -/

theorem split_append (b rest : Bytes) : split b.length (b ++ rest) = some (b, rest) := by
  simp [split]

/-- Of a number that exceeds the width, the bits that fit are read back. -/
theorem unsigned_bigEndian_mod (width n : Nat) (rest : Bytes) :
    unsigned width (Bytes.bigEndian width n ++ rest) = some (n % 256 ^ width, rest) := by
  have front := split_append (Bytes.bigEndian width n) rest
  rw [Bytes.length_bigEndian] at front
  simp only [unsigned, front, Option.map_some, Bytes.toNat_bigEndian]

theorem unsigned_bigEndian (width : Nat) {n : Nat} (h : n < 256 ^ width) (rest : Bytes) :
    unsigned width (Bytes.bigEndian width n ++ rest) = some (n, rest) := by
  rw [unsigned_bigEndian_mod, Nat.mod_eq_of_lt h]

theorem signed_bigEndian (width : Nat) {n : Int} (hl : -(256 ^ width) ≤ 2 * n)
    (hu : 2 * n < 256 ^ width) (rest : Bytes) :
    signed width (Bytes.bigEndian width (n % 256 ^ width).toNat ++ rest) = some (n, rest) := by
  have hpos : (0 : Int) < 256 ^ width := Int.pow_pos (by decide)
  have hcast : ((256 ^ width : Nat) : Int) = 256 ^ width := by simp
  have hlt : (n % 256 ^ width).toNat < 256 ^ width := by
    have := Int.emod_lt_of_pos n hpos
    omega
  simp only [signed, unsigned_bigEndian width hlt, Option.map_some]
  by_cases hn : 0 ≤ n
  · have hmod : n % 256 ^ width = n := Int.emod_eq_of_lt hn (by omega)
    rw [hmod, if_pos (by omega), Int.toNat_of_nonneg hn]
  · have hmod : n % 256 ^ width = n + 256 ^ width := by
      rw [← Int.add_emod_right, Int.emod_eq_of_lt (by omega) (by omega)]
    rw [hmod, if_neg (by omega), Int.toNat_of_nonneg (by omega), Int.add_sub_cancel]

/-! ## Heads that packing writes -/

section

variable {n : Nat} (input : Bytes)

theorem toNat_first (h : n < 0x100) : (UInt8.ofNat n).toNat = n := by
  rw [UInt8.toNat_ofNat', Nat.mod_eq_of_lt h]

theorem read_positive (h : n < 0x80) :
    Head.read (UInt8.ofNat n :: input) = some (.item (.integer n), input) := by
  simp only [Head.read, toNat_first (show n < 0x100 by omega), if_pos h]

theorem read_negative (hl : 0xe0 ≤ n) (hu : n < 0x100) :
    Head.read (UInt8.ofNat n :: input) = some (.item (.integer ((n : Int) - 0x100)), input) := by
  have h1 : ¬ n < 0x80 := by omega
  have h2 : ¬ n < 0x90 := by omega
  have h3 : ¬ n < 0xa0 := by omega
  have h4 : ¬ n < 0xc0 := by omega
  have h5 : ¬ n < 0xe0 := by omega
  simp only [Head.read, toNat_first hu, if_neg h1, if_neg h2, if_neg h3, if_neg h4, if_neg h5]

theorem read_smallMap (h : n < 16) :
    Head.read (UInt8.ofNat (0x80 + n) :: input) = some (.map n, input) := by
  have h1 : ¬ 0x80 + n < 0x80 := by omega
  have h2 : 0x80 + n < 0x90 := by omega
  simp only [Head.read, toNat_first (show 0x80 + n < 0x100 by omega), if_neg h1, if_pos h2,
    Nat.add_sub_cancel_left]

theorem read_smallArray (h : n < 16) :
    Head.read (UInt8.ofNat (0x90 + n) :: input) = some (.array n, input) := by
  have h1 : ¬ 0x90 + n < 0x80 := by omega
  have h2 : ¬ 0x90 + n < 0x90 := by omega
  have h3 : 0x90 + n < 0xa0 := by omega
  simp only [Head.read, toNat_first (show 0x90 + n < 0x100 by omega), if_neg h1, if_neg h2,
    if_pos h3, Nat.add_sub_cancel_left]

theorem read_smallString (h : n < 32) :
    Head.read (UInt8.ofNat (0xa0 + n) :: input) = string n input := by
  have h1 : ¬ 0xa0 + n < 0x80 := by omega
  have h2 : ¬ 0xa0 + n < 0x90 := by omega
  have h3 : ¬ 0xa0 + n < 0xa0 := by omega
  have h4 : 0xa0 + n < 0xc0 := by omega
  simp only [Head.read, toNat_first (show 0xa0 + n < 0x100 by omega), if_neg h1, if_neg h2,
    if_neg h3, if_pos h4, Nat.add_sub_cancel_left]

theorem read_marked {marker : UInt8} (hl : 0xc0 ≤ marker.toNat) (hu : marker.toNat < 0xe0) :
    Head.read (marker :: input) = Head.marked marker input := by
  have h1 : ¬ marker.toNat < 0x80 := by omega
  have h2 : ¬ marker.toNat < 0x90 := by omega
  have h3 : ¬ marker.toNat < 0xa0 := by omega
  have h4 : ¬ marker.toNat < 0xc0 := by omega
  simp only [Head.read, if_neg h1, if_neg h2, if_neg h3, if_neg h4, if_pos hu]

/-- The header of an array announces the lowest 32 bits of its size. -/
theorem read_arrayHeader_mod (n : Nat) :
    Head.read (Pack.arrayHeader n ++ input) = some (.array (n % 2 ^ 32), input) := by
  unfold Pack.arrayHeader
  split_ifs with h1 h2
  · rw [Nat.mod_eq_of_lt (show n < 2 ^ 32 by omega)]
    exact read_smallArray input h1
  · rw [Nat.mod_eq_of_lt (show n < 2 ^ 32 by omega), List.cons_append,
      read_marked _ (by decide) (by decide)]
    simp only [Head.marked, unsigned_bigEndian 2 (by omega), Option.map_some]
  · rw [List.cons_append, read_marked _ (by decide) (by decide)]
    simp only [Head.marked, unsigned_bigEndian_mod, Option.map_some, Nat.reducePow]

theorem read_arrayHeader (h : n < 2 ^ 32) :
    Head.read (Pack.arrayHeader n ++ input) = some (.array n, input) := by
  rw [read_arrayHeader_mod, Nat.mod_eq_of_lt h]

theorem read_mapHeader_mod (n : Nat) :
    Head.read (Pack.mapHeader n ++ input) = some (.map (n % 2 ^ 32), input) := by
  unfold Pack.mapHeader
  split_ifs with h1 h2
  · rw [Nat.mod_eq_of_lt (show n < 2 ^ 32 by omega)]
    exact read_smallMap input h1
  · rw [Nat.mod_eq_of_lt (show n < 2 ^ 32 by omega), List.cons_append,
      read_marked _ (by decide) (by decide)]
    simp only [Head.marked, unsigned_bigEndian 2 (by omega), Option.map_some]
  · rw [List.cons_append, read_marked _ (by decide) (by decide)]
    simp only [Head.marked, unsigned_bigEndian_mod, Option.map_some, Nat.reducePow]

theorem read_mapHeader (h : n < 2 ^ 32) :
    Head.read (Pack.mapHeader n ++ input) = some (.map n, input) := by
  rw [read_mapHeader_mod, Nat.mod_eq_of_lt h]

theorem read_stringHeader_mod (n : Nat) :
    Head.read (Pack.stringHeader n ++ input) = string (n % 2 ^ 32) input := by
  unfold Pack.stringHeader
  split_ifs with h1 h2 h3
  · rw [Nat.mod_eq_of_lt (show n < 2 ^ 32 by omega)]
    exact read_smallString input h1
  · rw [Nat.mod_eq_of_lt (show n < 2 ^ 32 by omega), List.cons_append,
      read_marked _ (by decide) (by decide)]
    simp only [Head.marked, sized, unsigned_bigEndian 1 (by omega), Option.bind_some]
  · rw [Nat.mod_eq_of_lt (show n < 2 ^ 32 by omega), List.cons_append,
      read_marked _ (by decide) (by decide)]
    simp only [Head.marked, sized, unsigned_bigEndian 2 (by omega), Option.bind_some]
  · rw [List.cons_append, read_marked _ (by decide) (by decide)]
    simp only [Head.marked, sized, unsigned_bigEndian_mod, Option.bind_some, Nat.reducePow]

theorem read_stringHeader (h : n < 2 ^ 32) :
    Head.read (Pack.stringHeader n ++ input) = string n input := by
  rw [read_stringHeader_mod, Nat.mod_eq_of_lt h]

end

theorem read_string (b rest : Bytes) (h : b.length < 2 ^ 32) :
    Head.read (Pack.stringHeader b.length ++ (b ++ rest)) = some (.item (.string b), rest) := by
  rw [read_stringHeader _ h, string, split_append]
  rfl

section

variable (width : Nat) {n : Int}

theorem map_unsigned (h0 : 0 ≤ n) (h : n < 256 ^ width) (rest : Bytes) :
    (unsigned width (Bytes.bigEndian width (n % 256 ^ width).toNat ++ rest)).map
      (fun (m, rest) => (Head.item (.integer m), rest)) = some (.item (.integer n), rest) := by
  have hcast : ((256 ^ width : Nat) : Int) = 256 ^ width := by simp
  rw [Int.emod_eq_of_lt h0 h, unsigned_bigEndian width (by omega)]
  simp only [Option.map_some, Int.toNat_of_nonneg h0]

theorem map_signed (hl : -(256 ^ width) ≤ 2 * n) (hu : 2 * n < 256 ^ width) (rest : Bytes) :
    (signed width (Bytes.bigEndian width (n % 256 ^ width).toNat ++ rest)).map
      (fun (m, rest) => (Head.item (.integer m), rest)) = some (.item (.integer n), rest) := by
  rw [signed_bigEndian width hl hu, Option.map_some]

end

theorem read_integer {n : Int} (hl : -2 ^ 63 ≤ n) (hu : n < 2 ^ 63) (rest : Bytes) :
    Head.read (Pack.integer n ++ rest) = some (.item (.integer n), rest) := by
  have marked (marker : UInt8) (body : Bytes) (h : 0xc0 ≤ marker.toNat ∧ marker.toNat < 0xe0) :
      Head.read (marker :: body ++ rest) = Head.marked marker (body ++ rest) :=
    read_marked _ h.1 h.2
  unfold Pack.integer
  dsimp only
  split_ifs with h0 h7 h8 h16 h32 hsmall h7 h15 h31
  · have hcast : ((n % 256 ^ 1).toNat : Int) = n := by omega
    have hfirst := read_positive rest (show (n % 256 ^ 1).toNat < 0x80 by omega)
    rwa [hcast] at hfirst
  · rw [marked 0xcc _ (by decide)]
    exact map_unsigned 1 h0 (by omega) rest
  · rw [marked 0xcd _ (by decide)]
    exact map_unsigned 2 h0 (by omega) rest
  · rw [marked 0xce _ (by decide)]
    exact map_unsigned 4 h0 (by omega) rest
  · rw [marked 0xcf _ (by decide)]
    exact map_unsigned 8 h0 (by omega) rest
  · have hcast : ((n % 256 ^ 1).toNat : Int) - 0x100 = n := by omega
    have hfirst := read_negative rest (show 0xe0 ≤ (n % 256 ^ 1).toNat by omega) (by omega)
    rwa [hcast] at hfirst
  · rw [marked 0xd0 _ (by decide)]
    exact map_signed 1 (by omega) (by omega) rest
  · rw [marked 0xd1 _ (by decide)]
    exact map_signed 2 (by omega) (by omega) rest
  · rw [marked 0xd2 _ (by decide)]
    exact map_signed 4 (by omega) (by omega) rest
  · rw [marked 0xd3 _ (by decide)]
    exact map_signed 8 (by omega) (by omega) rest

theorem read_double (x : Binary64) (rest : Bytes) :
    Head.read (Pack.double x ++ rest) = some (.item (.float64 x), rest) := by
  have hbits : x.bits.toNat < 256 ^ 8 := x.bits.toNat_lt
  rw [Pack.double, List.cons_append, read_marked _ (by decide) (by decide)]
  simp only [Head.marked, Binary64.toBytes, unsigned_bigEndian 8 hbits, Option.map_some,
    UInt64.ofNat_toNat]

theorem read_float (x : Binary32) (rest : Bytes) :
    Head.read (Pack.float x ++ rest) = some (.item (.float32 x), rest) := by
  have hbits : x.bits.toNat < 256 ^ 4 := x.bits.toNat_lt
  rw [Pack.float, List.cons_append, read_marked _ (by decide) (by decide)]
  simp only [Head.marked, Binary32.toBytes, unsigned_bigEndian 4 hbits, Option.map_some,
    UInt32.ofNat_toNat]

/-! ## Sequences -/

theorem times_flatten {α β : Type} {read : Bytes → Read β} (write : α → Bytes) (value : α → β)
    {xs : List α} (h : ∀ x ∈ xs, ∀ rest, read (write x ++ rest) = some (value x, rest))
    (rest : Bytes) :
    times read xs.length ((xs.map write).flatten ++ rest) = some (xs.map value, rest) := by
  induction xs with
  | nil => rfl
  | cons x xs ih =>
    have hxs := List.forall_mem_cons.mp h
    simp only [List.map_cons, List.flatten_cons, List.append_assoc, List.length_cons, times,
      hxs.1, Option.bind_some, ih hxs.2, Option.map_some]

theorem pair_append {α : Type} {read : Bytes → Read α} {front back : Bytes} {k v : α}
    (hk : ∀ rest, read (front ++ rest) = some (k, rest))
    (hv : ∀ rest, read (back ++ rest) = some (v, rest)) (rest : Bytes) :
    pair read (front ++ back ++ rest) = some ((k, v), rest) := by
  simp only [pair, List.append_assoc, hk, Option.bind_some, hv, Option.map_some]

end BinCodec.MessagePack
