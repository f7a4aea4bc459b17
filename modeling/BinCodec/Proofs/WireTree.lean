import BinCodec.Proofs.MessagePack

/-!
# Wire trees

A wire tree is what the server sees of a packed item: scalars, payloads with their particle
type, arrays, maps with their order, and the two range sentinels. `Wire.encode` writes a tree
in the packed format, and `Wire.read` takes the MessagePack items apart again. Main statement:
reading gives back exactly the tree that was written and leaves what follows it
(`read_encode`), so distinct trees have distinct encodings, none a beginning of another.
-/

namespace BinCodec

/-- What the server sees of a packed item. -/
inductive Wire where
  | nil
  | boolean (b : Bool)
  | integer (n : Int64)
  | float (x : Binary32)
  | double (x : Binary64)
  /-- A string item, whose first byte is the particle type. -/
  | payload (particle : ParticleType) (b : Bytes)
  | array (items : List Wire)
  /-- A map, with the entry that tells its order taken away. -/
  | map (order : MapOrder) (entries : List (Wire × Wire))
  | infinity
  | wildcard

/-- The number of entries that the header of a map counts beyond those of the map itself. -/
def MapOrder.extraEntries : MapOrder → Nat
  | .unordered => 0
  | .key | .keyValue => 1

namespace Wire

/-! ## Writing -/

mutual

/-- The packed form of a tree. -/
def encode : Wire → Bytes
  | .nil => Pack.nil
  | .boolean b => Pack.boolean b
  | .integer n => Pack.integer n.toInt
  | .float x => Pack.float x
  | .double x => Pack.double x
  | .payload particle b => Pack.payload particle b
  | .array items => Pack.arrayHeader items.length ++ (encodeItems items).flatten
  | .map order entries =>
    Pack.orderedMapHeader entries.length order ++ (encodeEntries entries).flatten
  | .infinity => Pack.infinity
  | .wildcard => Pack.wildcard

def encodeItems : List Wire → List Bytes
  | [] => []
  | x :: xs => x.encode :: encodeItems xs

/-- The packed forms of entries, key before value. -/
def encodeEntries : List (Wire × Wire) → List Bytes
  | [] => []
  | (k, v) :: es => (k.encode ++ v.encode) :: encodeEntries es

end

/-- Trees whose counts and lengths fit the 32 bits of a header. An ordered map has an entry
more than its own, and a payload a byte more. -/
inductive Fits : Wire → Prop
  | nil : Fits .nil
  | boolean (b : Bool) : Fits (.boolean b)
  | integer (n : Int64) : Fits (.integer n)
  | float (x : Binary32) : Fits (.float x)
  | double (x : Binary64) : Fits (.double x)
  | payload (particle : ParticleType) {b : Bytes} (length : b.length + 1 ≤ 2 ^ 32 - 1) :
    Fits (.payload particle b)
  | array {items : List Wire} (size : items.length ≤ 2 ^ 32 - 1) (fit : ∀ x ∈ items, Fits x) :
    Fits (.array items)
  | map {order : MapOrder} {entries : List (Wire × Wire)}
    (size : entries.length + order.extraEntries ≤ 2 ^ 32 - 1)
    (keys : ∀ e ∈ entries, Fits e.1) (values : ∀ e ∈ entries, Fits e.2) :
    Fits (.map order entries)
  | infinity : Fits .infinity
  | wildcard : Fits .wildcard

/-! ## Reading -/

/-- The order of a map that begins with a key of the given extension type. -/
def orderOf? (attributes : UInt8) : Option MapOrder :=
  [MapOrder.key, .keyValue].find? fun order => order.attributes == attributes

mutual

/-- The tree of a MessagePack item, if the packed format has such items. -/
def ofItem? : MessagePack.Item → Option Wire
  | .nil => some .nil
  | .boolean b => some (.boolean b)
  | .integer n =>
    if -2 ^ 63 ≤ n ∧ n < 2 ^ 63 then some (.integer (Int64.ofInt n)) else none
  | .float32 x => some (.float x)
  | .float64 x => some (.double x)
  | .string (code :: b) => (ParticleType.ofCode? code).map fun particle => .payload particle b
  | .array items => (ofItems? items).map .array
  | .map ((.extension attributes [], .nil) :: entries) =>
    match orderOf? attributes with
    | none => none
    | some order => (ofEntries? entries).map (.map order)
  | .map entries => (ofEntries? entries).map (.map .unordered)
  | .extension 0xff [0x01] => some .infinity
  | .extension 0xff [0x00] => some .wildcard
  | _ => none

def ofItems? : List MessagePack.Item → Option (List Wire)
  | [] => some []
  | x :: xs =>
    match ofItem? x, ofItems? xs with
    | some w, some ws => some (w :: ws)
    | _, _ => none

def ofEntries? : List (MessagePack.Item × MessagePack.Item) → Option (List (Wire × Wire))
  | [] => some []
  | (k, v) :: es =>
    match ofItem? k, ofItem? v, ofEntries? es with
    | some wk, some wv, some ws => some ((wk, wv) :: ws)
    | _, _, _ => none

end

def read (input : Bytes) : MessagePack.Read Wire :=
  (MessagePack.read input).bind fun (item, rest) => (ofItem? item).map fun w => (w, rest)

/-! ## The MessagePack item of a tree -/

def orderEntries (order : MapOrder) : List (MessagePack.Item × MessagePack.Item) :=
  match order with
  | .unordered => []
  | .key | .keyValue => [(.extension order.attributes [], .nil)]

mutual

/-- The MessagePack item that a tree is written as. -/
def item : Wire → MessagePack.Item
  | .nil => .nil
  | .boolean b => .boolean b
  | .integer n => .integer n.toInt
  | .float x => .float32 x
  | .double x => .float64 x
  | .payload particle b => .string (particle.code :: b)
  | .array items => .array (itemsOf items)
  | .map order entries => .map (orderEntries order ++ entriesOf entries)
  | .infinity => .extension 0xff [0x01]
  | .wildcard => .extension 0xff [0x00]

def itemsOf : List Wire → List MessagePack.Item
  | [] => []
  | x :: xs => x.item :: itemsOf xs

def entriesOf : List (Wire × Wire) → List (MessagePack.Item × MessagePack.Item)
  | [] => []
  | (k, v) :: es => (k.item, v.item) :: entriesOf es

end

theorem toInt_range (n : Int64) : -2 ^ 63 ≤ n.toInt ∧ n.toInt < 2 ^ 63 := by
  constructor
  · exact n.le_toInt
  · exact n.toInt_lt

mutual

/-- The tree of an item is found again. The first key of an unordered map is never taken for
an order, since no tree is written as an extension without data. -/
theorem ofItem?_item : ∀ w : Wire, ofItem? w.item = some w
  | .nil | .boolean _ | .float _ | .double _ | .infinity | .wildcard => rfl
  | .integer n => by
    rw [item, ofItem?, if_pos (toInt_range n), Int64.ofInt_toInt]
  | .payload particle b => by
    rw [item, ofItem?, ParticleType.ofCode?_code, Option.map_some]
  | .array items => by
    rw [item, ofItem?, ofItems?_itemsOf items, Option.map_some]
  | .map .key entries => by
    change (ofEntries? (entriesOf entries)).map (Wire.map .key) = _
    rw [ofEntries?_entriesOf entries, Option.map_some]
  | .map .keyValue entries => by
    change (ofEntries? (entriesOf entries)).map (Wire.map .keyValue) = _
    rw [ofEntries?_entriesOf entries, Option.map_some]
  | .map .unordered entries => by
    have h : ofItem? (item (.map .unordered entries)) =
        (ofEntries? (entriesOf entries)).map (.map .unordered) := by
      cases entries with
      | nil => rfl
      | cons e es => cases e with | mk k v => cases k <;> rfl
    rw [h, ofEntries?_entriesOf entries, Option.map_some]

theorem ofItems?_itemsOf : ∀ ws : List Wire, ofItems? (itemsOf ws) = some ws
  | [] => rfl
  | w :: ws => by simp only [itemsOf, ofItems?, ofItem?_item w, ofItems?_itemsOf ws]

theorem ofEntries?_entriesOf : ∀ ws : List (Wire × Wire), ofEntries? (entriesOf ws) = some ws
  | [] => rfl
  | (k, v) :: ws => by
    simp only [entriesOf, ofEntries?, ofItem?_item k, ofItem?_item v, ofEntries?_entriesOf ws]

end

/-! ## Recursions over members -/

theorem encodeItems_eq_map (items : List Wire) : encodeItems items = items.map encode := by
  induction items with
  | nil => rfl
  | cons x xs ih => rw [encodeItems, ih, List.map_cons]

theorem encodeEntries_eq_map (entries : List (Wire × Wire)) :
    encodeEntries entries = entries.map fun e => e.1.encode ++ e.2.encode := by
  induction entries with
  | nil => rfl
  | cons e es ih => rw [encodeEntries, ih, List.map_cons]

theorem itemsOf_eq_map (items : List Wire) : itemsOf items = items.map item := by
  induction items with
  | nil => rfl
  | cons x xs ih => rw [itemsOf, ih, List.map_cons]

theorem entriesOf_eq_map (entries : List (Wire × Wire)) :
    entriesOf entries = entries.map fun e => (e.1.item, e.2.item) := by
  induction entries with
  | nil => rfl
  | cons e es ih => rw [entriesOf, ih, List.map_cons]

theorem length_encode_le_flatten {items : List Wire} {x : Wire} (hx : x ∈ items) :
    x.encode.length ≤ (encodeItems items).flatten.length := by
  rw [encodeItems_eq_map]
  exact (List.sublist_flatten_of_mem (List.mem_map_of_mem hx)).length_le

theorem length_entry_le_flatten {entries : List (Wire × Wire)} {e : Wire × Wire}
    (he : e ∈ entries) :
    e.1.encode.length + e.2.encode.length ≤ (encodeEntries entries).flatten.length := by
  have h : e.1.encode ++ e.2.encode ∈ encodeEntries entries := by
    rw [encodeEntries_eq_map]
    exact List.mem_map_of_mem (f := fun e => e.1.encode ++ e.2.encode) he
  rw [← List.length_append]
  exact (List.sublist_flatten_of_mem h).length_le

/-! ## Reading what was written -/

/-- The bytes of the entry that tells the order of a map, where there is one. -/
def orderBytes (order : MapOrder) : Bytes :=
  match order with
  | .unordered => []
  | .key | .keyValue => Pack.orderEntry order

theorem orderedMapHeader_eq (size : Nat) (order : MapOrder) :
    Pack.orderedMapHeader size order =
      Pack.mapHeader (size + order.extraEntries) ++ orderBytes order := by
  cases order with
  | unordered => exact (List.append_nil _).symm
  | key => rfl
  | keyValue => rfl

section Reading

open MessagePack

variable {front body : Bytes} {depth : Nat}

/-- A head takes at least a byte, so behind it there is room for one level more. -/
theorem depth_of_head {h : Head} (head : ∀ input, Head.read (front ++ input) = some (h, input))
    (hd : (front ++ body).length ≤ depth) : ∃ d, depth = d + 1 ∧ body.length ≤ d := by
  have nonempty : 0 < front.length := by
    apply List.length_pos_iff.mpr
    rintro rfl
    exact nomatch head []
  rw [List.length_append] at hd
  exact ⟨depth - 1, by omega, by omega⟩

theorem readWithin_item {i : Item}
    (head : ∀ rest, Head.read (front ++ rest) = some (.item i, rest))
    (hd : front.length ≤ depth) (rest : Bytes) :
    readWithin depth (front ++ rest) = some (i, rest) := by
  rw [← List.append_nil front] at hd
  obtain ⟨d, rfl, -⟩ := depth_of_head head hd
  rw [readWithin, head rest]

theorem readWithin_array {size : Nat} {items : List Item}
    (head : ∀ input, Head.read (front ++ input) = some (.array size, input))
    (members : ∀ d, body.length ≤ d → ∀ rest,
      times (readWithin d) size (body ++ rest) = some (items, rest))
    (hd : (front ++ body).length ≤ depth) (rest : Bytes) :
    readWithin depth (front ++ body ++ rest) = some (.array items, rest) := by
  obtain ⟨d, rfl, within⟩ := depth_of_head head hd
  rw [readWithin, List.append_assoc, head (body ++ rest)]
  simp only [members d within rest, Option.map_some]

theorem readWithin_map {size : Nat} {entries : List (Item × Item)}
    (head : ∀ input, Head.read (front ++ input) = some (.map size, input))
    (members : ∀ d, body.length ≤ d → ∀ rest,
      times (pair (readWithin d)) size (body ++ rest) = some (entries, rest))
    (hd : (front ++ body).length ≤ depth) (rest : Bytes) :
    readWithin depth (front ++ body ++ rest) = some (.map entries, rest) := by
  obtain ⟨d, rfl, within⟩ := depth_of_head head hd
  rw [readWithin, List.append_assoc, head (body ++ rest)]
  simp only [members d within rest, Option.map_some]

theorem times_orderEntry (order : MapOrder) {size : Nat} {entries : List (Item × Item)}
    {rest : Bytes} (hd : (orderBytes order).length ≤ depth)
    (members : times (pair (readWithin depth)) size body = some (entries, rest)) :
    times (pair (readWithin depth)) (size + order.extraEntries) (orderBytes order ++ body) =
      some (orderEntries order ++ entries, rest) := by
  have tag (attributes : UInt8) (hd : 4 ≤ depth) :
      pair (readWithin depth) (0xc7 :: 0x00 :: attributes :: 0xc0 :: body) =
        some ((.extension attributes [], .nil), body) := by
    obtain ⟨d, rfl⟩ := Nat.exists_eq_add_of_le' hd
    simp [pair, readWithin, Head.read, Head.marked, sized, unsigned, split, extension, Bytes.toNat]
  cases order with
  | unordered => exact members
  | key =>
    change times (pair (readWithin depth)) (size + 1) (0xc7 :: 0x00 :: 1 :: 0xc0 :: body) = _
    simp only [times, tag 1 hd, Option.bind_some, members, Option.map_some]
    rfl
  | keyValue =>
    change times (pair (readWithin depth)) (size + 1) (0xc7 :: 0x00 :: 3 :: 0xc0 :: body) = _
    simp only [times, tag 3 hd, Option.bind_some, members, Option.map_some]
    rfl

/-- A tree is read back as its item, within any depth that its length allows. -/
theorem readWithin_encode {w : Wire} (fits : w.Fits) : ∀ depth, w.encode.length ≤ depth →
    ∀ rest, readWithin depth (w.encode ++ rest) = some (w.item, rest) := by
  induction fits with
  | nil | infinity | wildcard =>
    intro depth hd rest
    exact readWithin_item (fun rest => rfl) hd rest
  | boolean b =>
    intro depth hd rest
    cases b <;> exact readWithin_item (fun rest => rfl) hd rest
  | integer n =>
    intro depth hd rest
    exact readWithin_item (read_integer (toInt_range n).1 (toInt_range n).2) hd rest
  | float x => exact fun depth hd rest => readWithin_item (read_float x) hd rest
  | double x => exact fun depth hd rest => readWithin_item (read_double x) hd rest
  | @payload particle b length =>
    intro depth hd rest
    apply readWithin_item (i := .string (particle.code :: b)) _ hd
    intro rest
    rw [encode, Pack.payload, List.append_assoc]
    exact read_string (particle.code :: b) rest (by rw [List.length_cons]; omega)
  | @array items size _ ih =>
    intro depth hd rest
    rw [encode] at hd ⊢
    apply readWithin_array (fun input => read_arrayHeader input (by omega)) _ hd
    intro d hd rest
    rw [encodeItems_eq_map, itemsOf_eq_map]
    apply times_flatten
    intro x hx
    exact ih x hx d (Nat.le_trans (length_encode_le_flatten hx) hd)
  | @map order entries size _ _ ihk ihv =>
    intro depth hd rest
    rw [encode, orderedMapHeader_eq, List.append_assoc (Pack.mapHeader _)] at hd ⊢
    apply readWithin_map (fun input => read_mapHeader input (by omega)) _ hd
    intro d hd rest
    rw [List.length_append] at hd
    have members : times (pair (readWithin d)) entries.length
        ((encodeEntries entries).flatten ++ rest) = some (entriesOf entries, rest) := by
      rw [encodeEntries_eq_map, entriesOf_eq_map]
      apply times_flatten
      intro e he
      have hl := length_entry_le_flatten he
      exact pair_append (ihk e he d (by omega)) (ihv e he d (by omega))
    rw [List.append_assoc]
    exact times_orderEntry order (by omega) members

end Reading

/-- Reading after a written tree gives the tree back and leaves what follows it. -/
theorem read_encode {w : Wire} (fits : w.Fits) (rest : Bytes) :
    read (w.encode ++ rest) = some (w, rest) := by
  have item : MessagePack.read (w.encode ++ rest) = some (w.item, rest) := by
    apply readWithin_encode fits
    rw [List.length_append]
    omega
  simp only [read, item, Option.bind_some, ofItem?_item, Option.map_some]

/-- Written trees determine where they end: of two that begin the same input, both are one. -/
theorem encode_prefix_free {v w : Wire} (hv : v.Fits) (hw : w.Fits)
    (h : v.encode <+: w.encode) : v = w := by
  obtain ⟨rest, h⟩ := h
  have hr := read_encode hv rest
  rw [h, ← List.append_nil w.encode, read_encode hw []] at hr
  exact (congrArg Prod.fst (Option.some.inj hr)).symm

theorem encode_injective {v w : Wire} (hv : v.Fits) (hw : w.Fits)
    (h : v.encode = w.encode) : v = w := encode_prefix_free hv hw ⟨[], by rw [h, List.append_nil]⟩

end Wire

end BinCodec
