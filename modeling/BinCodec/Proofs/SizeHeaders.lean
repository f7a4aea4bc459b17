import BinCodec.Proofs.PackedItems

/-!
# Sizes in headers

An array, a map and a string begin with a header that tells how many items, entries or bytes
follow; the entry for the order of a map and the particle type of a payload are counted with
them. A header holds 32 bits of a size, and the bits above are lost: what a reader is told is the
size modulo `2 ^ 32` (`announces_iff`, `Wire.Counted.announces`). So the told size is the true one
exactly below `2 ^ 32`, and an ordered map of `2 ^ 32 - 1` entries is announced as empty.
-/

namespace BinCodec

namespace MessagePack

/-! ## Announced sizes -/

/-- The beginning of an array of the given size, with the input behind it. -/
def arrayOf (size : Nat) (input : Bytes) : Read Head := some (.array size, input)

def mapOf (size : Nat) (input : Bytes) : Read Head := some (.map size, input)

/-- The bytes begin with a header that announces a size for what `start` begins, and `body` stands
behind the header. -/
def Announces (front : Bytes) (start : Nat → Bytes → Read Head) (size : Nat) (body : Bytes) :
    Prop :=
  ∀ rest, Head.read (front ++ rest) = start size (body ++ rest)

/-- What begins shows its size, if enough input follows. -/
def ShowsSize (start : Nat → Bytes → Read Head) : Prop :=
  ∀ m n body, (∀ rest, start m (body ++ rest) = start n (body ++ rest)) → m = n

theorem showsSize_array : ShowsSize arrayOf := by
  intro m n body same
  simpa [arrayOf] using same []

theorem showsSize_map : ShowsSize mapOf := by
  intro m n body same
  simpa [mapOf] using same []

theorem showsSize_string : ShowsSize string := by
  intro m n body same
  have enough : m ≤ (body ++ List.replicate (m + n) 0).length ∧
      n ≤ (body ++ List.replicate (m + n) 0).length := by
    simp only [List.length_append, List.length_replicate]
    omega
  have taken := same (List.replicate (m + n) 0)
  simp only [string, split, if_pos enough.1, if_pos enough.2, Option.map_some, Option.some.injEq,
    Prod.mk.injEq, Head.item.injEq, Item.string.injEq] at taken
  have lengths := congrArg List.length taken.1
  rwa [List.length_take_of_le enough.1, List.length_take_of_le enough.2] at lengths

section

variable {front body : Bytes} {start : Nat → Bytes → Read Head} {size : Nat}

theorem announces_iff (shows : ShowsSize start) (announced : Announces front start size body)
    (n : Nat) : Announces front start n body ↔ n = size := by
  constructor
  · intro h
    apply shows n size body
    intro rest
    rw [← h rest, announced rest]
  · rintro rfl
    exact announced

end

/-- The order of a map counts as an entry more. -/
theorem announces_orderedMapHeader (n : Nat) (order : MapOrder) :
    Announces (Pack.orderedMapHeader n order) mapOf ((n + order.extraEntries) % 2 ^ 32)
      (Wire.orderBytes order) := by
  intro rest
  rw [Wire.orderedMapHeader_eq, List.append_assoc]
  exact read_mapHeader_mod _ _

/-- The particle type of a payload counts as a byte more. -/
theorem announces_payload (particle : ParticleType) (b : Bytes) :
    Announces (Pack.payload particle b) string ((b.length + 1) % 2 ^ 32)
      (particle.code :: b) := by
  intro rest
  rw [Pack.payload, List.append_assoc]
  exact read_stringHeader_mod _ _

end MessagePack

open MessagePack

/-! ## Packed collections and payloads -/

/-- A tree whose packed form counts what is in it: what the header begins, the count, and the bytes
that follow the header. -/
inductive Wire.Counted : Wire → (Nat → Bytes → Read Head) → Nat → Bytes → Prop
  | array (items : List Wire) :
    Counted (.array items) arrayOf items.length (encodeItems items).flatten
  | map (order : MapOrder) (entries : List (Wire × Wire)) :
    Counted (.map order entries) mapOf (entries.length + order.extraEntries)
      (orderBytes order ++ (encodeEntries entries).flatten)
  | payload (particle : ParticleType) (b : Bytes) :
    Counted (.payload particle b) string (b.length + 1) (particle.code :: b)

namespace Wire.Counted

variable {w : Wire} {start : Nat → Bytes → Read Head} {count : Nat} {body : Bytes}

theorem showsSize (h : w.Counted start count body) : ShowsSize start := by
  cases h with
  | array items => exact showsSize_array
  | map order entries => exact showsSize_map
  | payload particle b => exact showsSize_string

theorem announces (h : w.Counted start count body) :
    Announces w.encode start (count % 2 ^ 32) body := by
  intro rest
  cases h with
  | array items =>
    rw [encode, List.append_assoc]
    exact read_arrayHeader_mod _ _
  | map order entries =>
    rw [encode, List.append_assoc, List.append_assoc]
    exact announces_orderedMapHeader entries.length order _
  | payload particle b => exact announces_payload particle b rest

end Wire.Counted

theorem announces_packed_iff {x : Packable} {c : Config} {start : Nat → Bytes → Read Head}
    {count : Nat} {body : Bytes} (packs : (x.pack c).error? = none)
    (counted : x.wire.Counted start count body) :
    Announces (x.pack c).bytes start count body ↔ count < 2 ^ 32 := by
  rw [← Packable.encode_wire packs, announces_iff counted.showsSize counted.announces]
  constructor
  · intro same
    have := Nat.mod_lt count (Nat.two_pow_pos 32)
    omega
  · intro small
    exact (Nat.mod_eq_of_lt small).symm

/-- Headers announce sizes modulo `2 ^ 32`. So the count of a packed collection or payload is
announced as it is exactly if it is below `2 ^ 32`. -/
theorem sizes_announced_in_32_bits (x : Packable) (c : Config) :
    (∀ n m, Announces (Pack.arrayHeader n) arrayOf m [] ↔ m = n % 2 ^ 32) ∧
    (∀ n m, Announces (Pack.mapHeader n) mapOf m [] ↔ m = n % 2 ^ 32) ∧
    (∀ n order m, Announces (Pack.orderedMapHeader n order) mapOf m (Wire.orderBytes order) ↔
      m = (n + order.extraEntries) % 2 ^ 32) ∧
    (∀ particle b m, Announces (Pack.payload particle b) string m (particle.code :: b) ↔
      m = (b.length + 1) % 2 ^ 32) ∧
    ∀ start count body, (x.pack c).error? = none → x.wire.Counted start count body →
      (Announces (x.pack c).bytes start count body ↔ count < 2 ^ 32) := by
  refine ⟨?_, ?_, ?_, ?_, fun _ _ _ => announces_packed_iff⟩
  · exact fun n => announces_iff showsSize_array fun rest => read_arrayHeader_mod rest n
  · exact fun n => announces_iff showsSize_map fun rest => read_mapHeader_mod rest n
  · exact fun n order => announces_iff showsSize_map (announces_orderedMapHeader n order)
  · exact fun particle b => announces_iff showsSize_string (announces_payload particle b)

/-- A list of seventeen nulls, which needs a header with a size of its own. -/
theorem sizes_announced_in_32_bits_list :
    let x : Packable := .datum (.list (List.replicate 17 .null))
    Announces (x.pack {}).bytes arrayOf 17
      (Wire.encodeItems (List.replicate 17 .nil)).flatten := by
  intro x
  obtain ⟨-, -, -, -, announced⟩ := sizes_announced_in_32_bits x {}
  have counted : x.wire.Counted arrayOf 17 (Wire.encodeItems (List.replicate 17 .nil)).flatten :=
    .array (List.replicate 17 .nil)
  exact (announced _ _ _ rfl counted).mpr (by decide)

/-- An ordered map of `2 ^ 32 - 1` entries has one more for its order, and its header announces
none at all. -/
theorem ordered_map_announced_as_empty :
    let header := Pack.orderedMapHeader (2 ^ 32 - 1) .key
    Announces header mapOf 0 (Pack.orderEntry .key) ∧
      ¬ Announces header mapOf (2 ^ 32 - 1 + 1) (Pack.orderEntry .key) := by
  intro header
  have empty : Announces header mapOf 0 (Pack.orderEntry .key) :=
    announces_orderedMapHeader (2 ^ 32 - 1) .key
  refine ⟨empty, ?_⟩
  rw [announces_iff showsSize_map empty]
  decide

end BinCodec
