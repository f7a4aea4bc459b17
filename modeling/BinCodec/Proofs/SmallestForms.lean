import BinCodec.Proofs.MessagePack
import BinCodec.Proofs.ServerOrder
import Mathlib.Data.List.Induction

/-!
# Smallest forms

MessagePack has several forms for most integers and sizes: an integer may stand in its first byte
or behind a marker in one, two, four or eight bytes, and a size likewise. Packing takes the
smallest. Whatever bytes a reader makes a head out of, packing writes no more for that head
(`thrifty_read`). Since the form depends on the number only, integers of all widths pack alike.
-/

namespace BinCodec

namespace MessagePack

/-! ## What a reader has consumed -/

section Consumed

variable {width count : Nat} {input rest b : Bytes}

theorem toNat_lt (b : Bytes) : Bytes.toNat b < 256 ^ b.length := by
  induction b using List.reverseRecOn with
  | nil => decide
  | append_singleton b byte ih =>
    have last := byte.toNat_lt
    rw [Bytes.toNat_append_singleton, List.length_append, List.length_singleton, Nat.pow_succ]
    omega

theorem length_of_split (h : split count input = some (b, rest)) :
    b.length = count ∧ input.length = count + rest.length := by
  unfold split at h
  split_ifs at h with enough
  cases h
  rw [List.length_take_of_le enough, List.length_drop]
  omega

theorem bound_of_unsigned {n : Nat} (h : unsigned width input = some (n, rest)) :
    n < 256 ^ width ∧ input.length = width + rest.length := by
  obtain ⟨⟨b, rest'⟩, parts, same⟩ := Option.map_eq_some_iff.mp h
  cases same
  obtain ⟨length, consumed⟩ := length_of_split parts
  rw [← length]
  exact ⟨toNat_lt b, length ▸ consumed⟩

theorem bound_of_signed {n : Int} (h : signed width input = some (n, rest)) :
    (-(256 ^ width) ≤ 2 * n ∧ 2 * n < 256 ^ width) ∧ input.length = width + rest.length := by
  obtain ⟨⟨m, rest'⟩, parts, same⟩ := Option.map_eq_some_iff.mp h
  cases same
  obtain ⟨bound, consumed⟩ := bound_of_unsigned parts
  have hcast : ((256 ^ width : Nat) : Int) = 256 ^ width := by simp
  refine ⟨?_, consumed⟩
  split_ifs <;> omega

end Consumed

/-! ## Sizes of packed forms -/

section Sizes

variable {width n : Nat}

theorem length_integer_le {n : Int} (hw : width ∈ [1, 2, 4, 8])
    (h : (0 ≤ n ∧ n < 256 ^ width) ∨ (-(256 ^ width) ≤ 2 * n ∧ 2 * n < 256 ^ width)) :
    (Pack.integer n).length ≤ 1 + width := by
  simp only [List.mem_cons, List.not_mem_nil, or_false] at hw
  unfold Pack.integer
  rcases hw with rfl | rfl | rfl | rfl <;> split_ifs <;> simp <;> omega

theorem length_integer_small {n : Int} (hl : -32 ≤ n) (hu : n < 128) :
    (Pack.integer n).length ≤ 1 := by
  unfold Pack.integer
  split_ifs <;> simp

theorem length_stringHeader_le (hw : width ∈ [1, 2, 4]) (h : n < 256 ^ width) :
    (Pack.stringHeader n).length ≤ 1 + width := by
  simp only [List.mem_cons, List.not_mem_nil, or_false] at hw
  unfold Pack.stringHeader
  rcases hw with rfl | rfl | rfl <;> split_ifs <;> simp <;> omega

theorem length_collectionHeader_le (hw : width ∈ [2, 4]) (h : n < 256 ^ width) :
    (Pack.arrayHeader n).length ≤ 1 + width ∧ (Pack.mapHeader n).length ≤ 1 + width := by
  simp only [List.mem_cons, List.not_mem_nil, or_false] at hw
  unfold Pack.arrayHeader Pack.mapHeader
  constructor <;> rcases hw with rfl | rfl <;> split_ifs <;> simp <;> omega

end Sizes

/-! ## No form is smaller -/

/-- The form in which packing writes a head. Binary items it never writes, and extensions only as
marks of its own. -/
def Head.packed : Head → Bytes
  | .item .nil => Pack.nil
  | .item (.boolean b) => Pack.boolean b
  | .item (.integer n) => Pack.integer n
  | .item (.float32 x) => Pack.float x
  | .item (.float64 x) => Pack.double x
  | .item (.string b) => Pack.stringHeader b.length ++ b
  | .array size => Pack.arrayHeader size
  | .map size => Pack.mapHeader size
  | .item (.binary _) | .item (.extension _ _) | .item (.array _) | .item (.map _) => []

/-- Whatever head the reader makes out, having spent some bytes before, packing takes no more
bytes for it. -/
def Thrifty (spent : Nat) (read : Bytes → Read Head) : Prop :=
  ∀ input head rest, read input = some (head, rest) →
    head.packed.length + rest.length ≤ spent + input.length

section Thrifty

variable {width size : Nat}

theorem thrifty_number {f : Nat → Head}
    (h : ∀ n < 256 ^ width, (f n).packed.length ≤ 1 + width) :
    Thrifty 1 fun input => (unsigned width input).map fun (n, rest) => (f n, rest) := by
  intro input head rest read
  obtain ⟨⟨n, rest'⟩, number, same⟩ := Option.map_eq_some_iff.mp read
  cases same
  obtain ⟨bound, consumed⟩ := bound_of_unsigned number
  have form := h n bound
  omega

theorem thrifty_unsigned (hw : width ∈ [1, 2, 4, 8]) :
    Thrifty 1 fun input =>
      (unsigned width input).map fun (n, rest) => (.item (.integer n), rest) := by
  apply thrifty_number (f := fun n => .item (.integer n))
  intro n bound
  have hcast : ((256 ^ width : Nat) : Int) = 256 ^ width := by simp
  have form := length_integer_le (n := n) hw (.inl ⟨by omega, by omega⟩)
  exact form

theorem thrifty_signed (hw : width ∈ [1, 2, 4, 8]) :
    Thrifty 1 fun input =>
      (signed width input).map fun (n, rest) => (.item (.integer n), rest) := by
  intro input head rest read
  obtain ⟨⟨n, rest'⟩, number, same⟩ := Option.map_eq_some_iff.mp read
  cases same
  obtain ⟨bounds, consumed⟩ := bound_of_signed number
  have form := length_integer_le hw (.inr bounds)
  rw [Head.packed]
  omega

theorem thrifty_string {spent : Nat} (h : (Pack.stringHeader size).length ≤ spent) :
    Thrifty spent (string size) := by
  intro input head rest read
  obtain ⟨⟨b, rest'⟩, parts, same⟩ := Option.map_eq_some_iff.mp read
  cases same
  obtain ⟨length, consumed⟩ := length_of_split parts
  rw [Head.packed, List.length_append, length]
  omega

theorem thrifty_binary (spent : Nat) : Thrifty spent (binary size) := by
  intro input head rest read
  obtain ⟨⟨b, rest'⟩, parts, same⟩ := Option.map_eq_some_iff.mp read
  cases same
  have consumed := (length_of_split parts).2
  rw [Head.packed, List.length_nil]
  omega

theorem thrifty_extension (spent : Nat) : Thrifty spent (extension size) := by
  intro input head rest read
  cases input with
  | nil => cases read
  | cons type input =>
    obtain ⟨⟨b, rest'⟩, parts, same⟩ := Option.map_eq_some_iff.mp read
    cases same
    have consumed := (length_of_split parts).2
    rw [Head.packed, List.length_nil, List.length_cons]
    omega

theorem thrifty_sized {read : Nat → Bytes → Read Head}
    (h : ∀ size < 256 ^ width, Thrifty (1 + width) (read size)) : Thrifty 1 (sized width read) := by
  intro input head rest found
  obtain ⟨⟨size, input'⟩, number, follows⟩ := Option.bind_eq_some_iff.mp found
  obtain ⟨bound, consumed⟩ := bound_of_unsigned number
  have := h size bound input' head rest follows
  omega

theorem thrifty_marked (marker : UInt8) : Thrifty 1 (Head.marked marker) := by
  intro input head rest h
  unfold Head.marked at h
  dsimp only at h
  split at h
  -- Nil and booleans are their markers.
  case h_1 | h_2 | h_3 =>
    cases h
    exact Nat.le_refl _
  case h_4 | h_5 | h_6 =>
    exact thrifty_sized (fun _ _ => thrifty_binary _) input head rest h
  case h_7 | h_8 | h_9 =>
    exact thrifty_sized (fun _ _ => thrifty_extension _) input head rest h
  case h_10 =>
    exact thrifty_number (f := fun n => .item (.float32 ⟨UInt32.ofNat n⟩))
      (fun _ _ => Nat.le_refl _) input head rest h
  case h_11 =>
    exact thrifty_number (f := fun n => .item (.float64 ⟨UInt64.ofNat n⟩))
      (fun _ _ => Nat.le_refl _) input head rest h
  case h_12 | h_13 | h_14 | h_15 => exact thrifty_unsigned (by decide) input head rest h
  case h_16 | h_17 | h_18 | h_19 => exact thrifty_signed (by decide) input head rest h
  case h_20 | h_21 | h_22 | h_23 | h_24 => exact thrifty_extension _ input head rest h
  case h_25 | h_26 | h_27 =>
    refine thrifty_sized (fun size small => thrifty_string ?_) input head rest h
    exact length_stringHeader_le (by decide) small
  case h_28 | h_29 =>
    refine thrifty_number (f := .array) (fun size small => ?_) input head rest h
    exact (length_collectionHeader_le (by decide) small).1
  case h_30 | h_31 =>
    refine thrifty_number (f := .map) (fun size small => ?_) input head rest h
    exact (length_collectionHeader_le (by decide) small).2
  case h_32 => cases h

theorem thrifty_some {spent : Nat} {head : Head} (h : head.packed.length ≤ spent) :
    Thrifty spent fun input => some (head, input) := by
  intro input head' rest read
  cases read
  omega

/-- No bytes that are read as a head are fewer than those that packing writes for it. -/
theorem thrifty_read : Thrifty 0 Head.read := by
  intro input head rest h
  cases input with
  | nil => cases h
  | cons first input =>
    have bound := first.toNat_lt
    -- The first byte is spent, and the rest is read as that byte tells.
    have behind {read : Bytes → Read Head} (thrifty : Thrifty 1 read)
        (found : read input = some (head, rest)) :
        head.packed.length + rest.length ≤ 0 + (first :: input).length := by
      have := thrifty input head rest found
      rw [List.length_cons]
      omega
    unfold Head.read at h
    dsimp only at h
    split_ifs at h with positive map array string marker
    · have form : (Head.item (.integer first.toNat)).packed.length ≤ 1 := by
        rw [Head.packed]
        exact length_integer_small (by omega) (by omega)
      exact behind (thrifty_some form) h
    · have form : (Head.map (first.toNat - 0x80)).packed.length ≤ 1 := by
        simp [Head.packed, Pack.mapHeader, show first.toNat - 0x80 < 16 by omega]
      exact behind (thrifty_some form) h
    · have form : (Head.array (first.toNat - 0x90)).packed.length ≤ 1 := by
        simp [Head.packed, Pack.arrayHeader, show first.toNat - 0x90 < 16 by omega]
      exact behind (thrifty_some form) h
    · have form : (Pack.stringHeader (first.toNat - 0xa0)).length ≤ 1 := by
        simp [Pack.stringHeader, show first.toNat - 0xa0 < 32 by omega]
      exact behind (thrifty_string form) h
    · exact behind (thrifty_marked first) h
    · have form : (Head.item (.integer ((first.toNat : Int) - 0x100))).packed.length ≤ 1 := by
        rw [Head.packed]
        exact length_integer_small (by omega) (by omega)
      exact behind (thrifty_some form) h

end Thrifty

/-- The bytes are read as `x` whatever follows them, and so are no fewer bytes. -/
structure Smallest {α : Type} (read : Bytes → Read α) (form : Bytes) (x : α) : Prop where
  reads : ∀ rest, read (form ++ rest) = some (x, rest)
  least : ∀ other rest, read other = some (x, rest) → form.length + rest.length ≤ other.length

theorem smallest_packed (head : Head)
    (reads : ∀ rest, Head.read (head.packed ++ rest) = some (head, rest)) :
    Smallest Head.read head.packed head := by
  refine ⟨reads, ?_⟩
  intro other rest read
  have := thrifty_read other head rest read
  omega

theorem Smallest.item {form : Bytes} {i : Item} (h : Smallest Head.read form (.item i))
    (array : ∀ items, i ≠ .array items) (map : ∀ entries, i ≠ .map entries) :
    Smallest read form i := by
  constructor
  · intro rest
    apply Wire.readWithin_item h.reads
    rw [List.length_append]
    omega
  · intro other rest found
    have head : Head.read other = some (.item i, rest) := by
      unfold read at found
      cases other with
      | nil => cases found
      | cons first input =>
        rw [List.length_cons, readWithin] at found
        split at found
        next => cases found
        next complete =>
          cases found
          exact complete
        next =>
          obtain ⟨⟨items, _⟩, -, same⟩ := Option.map_eq_some_iff.mp found
          cases same
          exact absurd rfl (array items)
        next =>
          obtain ⟨⟨entries, _⟩, -, same⟩ := Option.map_eq_some_iff.mp found
          cases same
          exact absurd rfl (map entries)
    exact h.least other rest head

theorem smallest_integer {n : Int} (hl : -2 ^ 63 ≤ n) (hu : n < 2 ^ 63) :
    Smallest read (Pack.integer n) (.integer n) :=
  (smallest_packed (.item (.integer n)) (read_integer hl hu)).item nofun nofun

theorem smallest_string {b : Bytes} (h : b.length < 2 ^ 32) :
    Smallest read (Pack.stringHeader b.length ++ b) (.string b) := by
  apply Smallest.item (smallest_packed (.item (.string b)) _) nofun nofun
  intro rest
  rw [Head.packed, List.append_assoc]
  exact read_string b rest h

end MessagePack

/-! ## Integers of all widths -/

section Integers

variable {d e : Datum} {n : Int}

theorem keyInteger_range (h : d.keyInteger? = some n) : -2 ^ 63 ≤ n ∧ n < 2 ^ 63 := by
  cases d with
  | int m =>
    cases h
    have := m.le_toInt
    have := m.toInt_lt
    omega
  | long m =>
    cases h
    exact Wire.toInt_range m
  | byte m =>
    cases h
    have := m.toNat_lt
    omega
  | char c =>
    cases h
    have : c.toNat < 2 ^ 32 := c.val.toNat_lt
    omega
  | _ => cases h

/-- An integer packs by its value alone, classified or not. -/
theorem pack_of_integer (h : d.keyForm.keyInteger? = some n) (c : Config) :
    d.pack c = .ofBytes (Pack.integer n) := by
  cases d with
  | value v => cases v <;> cases h <;> rfl
  | _ => cases h <;> rfl

end Integers

open MessagePack in
/-- Integers, strings and the headers of arrays and maps are packed in the smallest of their forms.
Integers of the same value are packed as the same bytes, whatever their widths. -/
theorem packed_in_smallest_form (v : Int64) {size : Nat} (h : size < 2 ^ 32) :
    Smallest read (Pack.integer v.toInt) (.integer v.toInt) ∧
    (∀ (d e : Datum) (n : Int) (c c' : Config), d.keyForm.keyInteger? = some n →
      e.keyForm.keyInteger? = some n →
      d.pack c = e.pack c' ∧ Smallest read (d.pack c).bytes (.integer n)) ∧
    (∀ b : Bytes, b.length = size → Smallest read (Pack.stringHeader size ++ b) (.string b)) ∧
    Smallest Head.read (Pack.arrayHeader size) (.array size) ∧
    Smallest Head.read (Pack.mapHeader size) (.map size) := by
  refine ⟨?_, ?_, ?_, ?_, ?_⟩
  · exact smallest_integer (Wire.toInt_range v).1 (Wire.toInt_range v).2
  · intro d e n c c' hd he
    obtain ⟨hl, hu⟩ := keyInteger_range hd
    rw [pack_of_integer hd, pack_of_integer he]
    exact ⟨rfl, smallest_integer hl hu⟩
  · rintro b rfl
    exact smallest_string h
  · exact smallest_packed (.array size) fun rest => read_arrayHeader rest h
  · exact smallest_packed (.map size) fun rest => read_mapHeader rest h

/-- A byte and a classified long of the same value, and the header of an array of three hundred
items. -/
theorem packed_in_smallest_form_widths :
    (Datum.byte 200).pack {} = (Datum.value (.long 200)).pack {} ∧
      MessagePack.Smallest MessagePack.read [0xcc, 200] (.integer 200) ∧
      MessagePack.Smallest MessagePack.Head.read [0xdc, 0x01, 0x2c] (.array 300) := by
  obtain ⟨-, integers, -, array, -⟩ :=
    packed_in_smallest_form 200 (show 300 < 2 ^ 32 by decide)
  obtain ⟨same, smallest⟩ := integers (.byte 200) (.value (.long 200)) 200 {} {} rfl rfl
  have bytes : ((Datum.byte 200).pack {}).bytes = [0xcc, 200] := by decide
  rw [bytes] at smallest
  exact ⟨same, smallest, array⟩

end BinCodec
