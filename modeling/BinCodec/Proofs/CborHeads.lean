import BinCodec.Cbor.Item
import Mathlib.Algebra.Group.Int.Defs
import Mathlib.Algebra.Group.Nat.Defs
import Mathlib.Tactic.SplitIfs

/-!
# Reading CBOR heads back

A head is written in the shortest form of its argument, and a float in the narrowest format that
keeps its bits. Reading gives back the head, whichever form was chosen, and leaves what follows it
(`Head.read_encode`). Items that consist of a head and bytes are read back likewise.
-/

namespace BinCodec.Cbor

namespace Head

/-- Heads of definite length whose arguments are words of 64 bits. Simple values from 24 on are
written in a form that means something else. -/
def Definite : Head → Prop
  | positive n | negative n | tag n => n < 2 ^ 64
  | bytes length | text length | array length | map length => ∃ n < 2 ^ 64, length = some n
  | simple n => n < 24
  | float _ => True
  | stop => False

theorem split_append (b rest : Bytes) : split b.length (b ++ rest) = .ok (b, rest) := by
  simp [split]

theorem split_bigEndian (width n : Nat) (rest : Bytes) :
    split width (Bytes.bigEndian width n ++ rest) = .ok (Bytes.bigEndian width n, rest) := by
  have front := split_append (Bytes.bigEndian width n) rest
  rwa [Bytes.length_bigEndian] at front

section Arguments

variable {major n : Nat} (rest : Bytes)

theorem argument_wide {low width : Nat} (h : (low, width) ∈ [(24, 1), (25, 2), (26, 4), (27, 8)])
    (hn : n < 256 ^ width) :
    argument low (Bytes.bigEndian width n ++ rest) = .ok (some n, rest) := by
  simp only [List.mem_cons, List.not_mem_nil, or_false, Prod.mk.injEq] at h
  obtain ⟨rfl, rfl⟩ | ⟨rfl, rfl⟩ | ⟨rfl, rfl⟩ | ⟨rfl, rfl⟩ := h <;>
    simp [argument, split_bigEndian, Bytes.toNat_bigEndian_of_lt hn, Except.map]

theorem read_wide {low width : Nat} (hm : major < 8)
    (h : (low, width) ∈ [(24, 1), (25, 2), (26, 4), (27, 8)]) (hn : n < 256 ^ width) :
    read (initial major low :: Bytes.bigEndian width n ++ rest) =
      (ofParts major low (some n)).map fun head => (head, rest) := by
  have small : low < 32 := by
    simp only [List.mem_cons, List.not_mem_nil, or_false, Prod.mk.injEq] at h
    omega
  rw [List.cons_append, read_initial hm small, argument_wide rest h hn]

theorem read_near (hm : major < 8) (hn : n < 24) :
    read (initial major n :: rest) = (ofParts major n (some n)).map fun head => (head, rest) := by
  rw [read_initial hm (by omega), argument, if_pos hn]

/-- The shortest form is read back if the major type alone decides what the argument means. -/
theorem read_shortest {head : Head} (hm : major < 8) (hn : n < 2 ^ 64)
    (parts : ∀ low, ofParts major low (some n) = .ok head) :
    read (shortest major n ++ rest) = .ok (head, rest) := by
  unfold shortest
  split_ifs with near h1 h2 h4
  · rw [List.cons_append, read_near _ hm near, parts]
    rfl
  · rw [read_wide rest hm (by simp) (by omega : n < 256 ^ 1), parts]
    rfl
  · rw [read_wide rest hm (by simp) (by omega : n < 256 ^ 2), parts]
    rfl
  · rw [read_wide rest hm (by simp) (by omega : n < 256 ^ 4), parts]
    rfl
  · rw [read_wide rest hm (by simp) (by omega : n < 256 ^ 8), parts]
    rfl

end Arguments

theorem lt_of_narrow? {l : Layout} {bits narrow : Nat} (h : l.narrow? bits = some narrow) :
    narrow < 2 ^ (1 + l.exponentBits + l.fractionBits) := by
  simp only [Layout.narrow?] at h
  split at h
  next fits =>
    cases h
    exact fits.1
  · cases h

theorem read_float (x : Binary64) (rest : Bytes) :
    read (encodeFloat x ++ rest) = .ok (float x, rest) := by
  unfold encodeFloat
  split
  next bits half =>
    rw [read_wide rest (by decide) (by simp) (lt_of_narrow? half), ofParts, if_pos rfl,
      Layout.widen_of_narrow? half, UInt64.ofNat_toNat]
    rfl
  · split
    next bits single =>
      rw [read_wide rest (by decide) (by simp) (lt_of_narrow? single), ofParts, if_neg (by decide),
        if_pos rfl, Layout.widen_of_narrow? single, UInt64.ofNat_toNat]
      rfl
    · rw [Binary64.toBytes, read_wide rest (by decide) (by simp) x.bits.toNat_lt, ofParts,
        if_neg (by decide), if_neg (by decide), if_pos rfl, UInt64.ofNat_toNat]
      rfl

/-- A head of definite length is read back, in whichever form it was written. -/
theorem read_encode {h : Head} (definite : h.Definite) (rest : Bytes) :
    read (h.encode ++ rest) = .ok (h, rest) := by
  cases h with
  | positive n | negative n | tag n => exact read_shortest rest (by decide) definite fun _ => rfl
  | bytes | text | array | map =>
    obtain ⟨n, word, rfl⟩ := definite
    exact read_shortest rest (by decide) word fun _ => rfl
  | simple n =>
    have near : n < 24 := definite
    rw [encode, shortest, if_pos near, List.cons_append, read_near _ (by decide) near, ofParts,
      if_neg (by omega), if_neg (by omega), if_neg (by omega)]
    rfl
  | float x => exact read_float x rest
  | stop => exact definite.elim

end Head

/-! ## Items of a head and bytes -/

section Items

variable {input rest : Bytes} {h : Head}

theorem untagged_of_read (reads : Head.read input = .ok (h, rest)) (plain : ∀ n, h ≠ .tag n) :
    untagged input = .ok (h, rest) := by
  cases input with
  | nil => cases reads
  | cons first input =>
    unfold untagged untaggedWithin
    rw [reads]
    cases h with
    | tag n => exact absurd rfl (plain n)
    | _ => rfl

theorem integer_of_positive {n : Nat} (reads : Head.read input = .ok (.positive n, rest)) :
    integer input = .ok ((n : Int), rest) := by
  cases input with
  | nil => cases reads
  | cons first input =>
    unfold integer integerWithin
    rw [reads]

theorem integer_of_negative {n : Nat} (reads : Head.read input = .ok (.negative n, rest)) :
    integer input = .ok (belowZero n, rest) := by
  cases input with
  | nil => cases reads
  | cons first input =>
    unfold integer integerWithin
    rw [reads]

theorem toText?_ofText (s : String) : Bytes.toText? (Bytes.ofText s) = some s := by
  change String.fromUTF8? s.toByteArray = some s
  rw [String.fromUTF8?, dif_pos s.isValidUTF8]
  rfl

theorem readText_ofText (s : String) (rest : Bytes) :
    readText (Bytes.ofText s).length (Bytes.ofText s ++ rest) = .ok (s, rest) := by
  rw [readText, Head.split_append]
  simp only [toText?_ofText]

theorem textString_ofText (s : String) (rest : Bytes) :
    textString (some (Bytes.ofText s).length) (Bytes.ofText s ++ rest) = .ok (s, rest) := by
  simp [textString, readSegments, readText_ofText, Except.map, String.join]

end Items

/-! ## Members -/

theorem countedMembers_flatten {σ α : Type} {step : σ → Bytes → Read σ} (add : σ → α → σ)
    (write : α → Bytes) {xs : List α}
    (reads : ∀ x ∈ xs, ∀ s rest, step s (write x ++ rest) = .ok (add s x, rest)) (s : σ)
    (rest : Bytes) :
    countedMembers step xs.length s ((xs.map write).flatten ++ rest) =
      .ok (xs.foldl add s, rest) := by
  induction xs generalizing s with
  | nil => rfl
  | cons x xs ih =>
    have first := reads x List.mem_cons_self s
    rw [List.map_cons, List.flatten_cons, List.append_assoc, List.length_cons, countedMembers,
      first]
    exact ih (fun y hy => reads y (List.mem_cons_of_mem x hy)) (add s x)

end BinCodec.Cbor
