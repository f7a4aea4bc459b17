import BinCodec.Object.Read
import BinCodec.Proofs.CborHeads
import BinCodec.Proofs.Collecting

/-!
# Serialized contents come back

A schema describes a content that has its shape (`Schema.Describes`), and it is sound if it can be
told from what is written which of its parts was written (`Schema.Sound`): names are distinct and
short enough to be looked at, what is optional is never written as a null itself, and nothing nests
deeper than reading may go. Reading by a sound schema gives back every content that the schema
describes and leaves what follows it (`Schema.Describes.readsBack`). The lenient paths of the
reader are never taken.
-/

namespace BinCodec

open Cbor

/-! ## Serialized forms -/

section Serialized

variable {c : Content} {cs : List Content}

/-- The serialized form of a content; none if it is rejected. -/
def Content.serialized (c : Content) : Bytes :=
  match c.encode with
  | .ok b => b
  | .error _ => []

theorem Content.serialized_of_encode {b : Bytes} (h : c.encode = .ok b) : c.serialized = b := by
  rw [serialized, h]

theorem joinParts_ok (parts : List Bytes) :
    joinParts (parts.map (Except.ok : Bytes → Except String Bytes)) = .ok parts.flatten := by
  induction parts with
  | nil => rfl
  | cons part parts ih =>
    unfold joinParts at ih ⊢
    rw [List.map_cons, List.foldr_cons, ih]
    rfl

theorem encodeItems_eq_map (items : List Content) :
    Content.encodeItems items = items.map Content.encode := by
  induction items with
  | nil => rfl
  | cons x xs ih => rw [Content.encodeItems, ih, List.map_cons]

theorem encodeEntries_eq_map (entries : List (Content × Content)) :
    Content.encodeEntries entries = entries.map fun e => joinParts [e.1.encode, e.2.encode] := by
  induction entries with
  | nil => rfl
  | cons e es ih => rw [Content.encodeEntries, ih, List.map_cons]

theorem encodeFields_eq_map (fields : List (String × Content)) :
    Content.encodeFields fields =
      fields.map fun f => joinParts [.ok (encodeText f.1), f.2.encode] := by
  induction fields with
  | nil => rfl
  | cons f fs ih => rw [Content.encodeFields, ih, List.map_cons]

theorem joinParts_members {α : Type} {encode : α → Except String Bytes} {write : α → Bytes}
    {xs : List α} (h : ∀ x ∈ xs, encode x = .ok (write x)) (head : Bytes) :
    joinParts (.ok head :: xs.map encode) = .ok (head ++ (xs.map write).flatten) := by
  have parts : .ok head :: xs.map encode = (head :: xs.map write).map Except.ok := by
    rw [List.map_cons, List.map_map]
    exact congrArg _ (List.map_congr_left h)
  rw [parts, joinParts_ok, List.flatten_cons]

theorem encode_items (h : ∀ c ∈ cs, c.encode = .ok c.serialized) :
    joinParts (.ok (Head.array (some cs.length)).encode :: Content.encodeItems cs) =
      .ok ((Head.array (some cs.length)).encode ++ (cs.map Content.serialized).flatten) := by
  rw [encodeItems_eq_map]
  exact joinParts_members h _

/-- A named content is serialized as its name and itself, in dictionaries and records alike. -/
def Content.serializedField (f : String × Content) : Bytes := encodeText f.1 ++ f.2.serialized

theorem encode_field {f : String × Content} (h : f.2.encode = .ok f.2.serialized) :
    joinParts [.ok (encodeText f.1), f.2.encode] = .ok (Content.serializedField f) := by
  rw [h]
  have parts := joinParts_ok [encodeText f.1, f.2.serialized]
  rwa [List.flatten_cons, List.flatten_singleton] at parts

theorem read_encodeText {s : String} (length : (Bytes.ofText s).length < 2 ^ 64) (rest : Bytes) :
    Head.read (encodeText s ++ rest) =
      .ok (.text (some (Bytes.ofText s).length), Bytes.ofText s ++ rest) := by
  have definite : (Head.text (some (Bytes.ofText s).length)).Definite := ⟨_, length, rfl⟩
  unfold encodeText
  rw [List.append_assoc]
  exact Head.read_encode definite _

end Serialized

namespace Schema

/-! ## Shapes -/

/-- The contents of a shape. Lengths are words of 64 bits. -/
inductive Describes : Schema → Content → Prop
  | bool (b : Bool) : Describes .bool (.bool b)
  | unit : Describes .unit .unit
  | char (c : Char) : Describes .char (.char c)
  | text {s : String} (length : (Bytes.ofText s).length < 2 ^ 64) : Describes .text (.text s)
  | float (x : Binary64) : Describes .float (.float x)
  | integer {low high n : Int} (least : low ≤ n) (most : n ≤ high) :
    Describes (.integer low high) (.integer n)
  | absent (s : Schema) : Describes (.optional s) .absent
  | present {s : Schema} {c : Content} (value : Describes s c) :
    Describes (.optional s) (.present c)
  | tuple {members : List (Schema × Content)} (each : ∀ m ∈ members, Describes m.1 m.2) :
    Describes (.tuple (members.map (·.1))) (.tuple (members.map (·.2)))
  | sequence {s : Schema} {cs : List Content} (length : cs.length < 2 ^ 64)
    (each : ∀ c ∈ cs, Describes s c) : Describes (.sequence s) (.sequence cs)
  | dictionary {s : Schema} {entries : List (String × Content)} (length : entries.length < 2 ^ 64)
    (keys : ∀ e ∈ entries, (Bytes.ofText e.1).length < 2 ^ 64)
    (ascending : entries.Pairwise fun e f =>
      Ord.compare (Bytes.ofText e.1) (Bytes.ofText f.1) = .lt)
    (each : ∀ e ∈ entries, Describes s e.2) :
    Describes (.dictionary s) (.dictionary (entries.map fun e => (.text e.1, e.2)))
  | record {name : String} {members : List ((String × Schema × Option Content) × Content)}
    (each : ∀ m ∈ members, Describes m.1.2.1 m.2) :
    Describes (.record name (members.map (·.1))) (.record name (members.map fun m => (m.1.1, m.2)))
  | variant {vs : List (String × Schema)} {index : Nat} {name : String} {s : Schema}
    {payload : Content} (place : vs[index]? = some (name, s)) (fields : Describes s payload) :
    Describes (.variants vs) (.variant index name payload)

/-- Shapes with a content that is written as a null. -/
def nullable : Schema → Bool
  | .unit | .optional _ => true
  | _ => false

/-- Shapes that are written without loss and nest no deeper than the given depth. -/
inductive Sound : Nat → Schema → Prop
  | bool {depth : Nat} : Sound depth .bool
  | unit {depth : Nat} : Sound depth .unit
  | char {depth : Nat} : Sound depth .char
  | text {depth : Nat} : Sound depth .text
  | float {depth : Nat} : Sound depth .float
  | integer {depth : Nat} {low high : Int} (least : -2 ^ 64 ≤ low) (most : high < 2 ^ 64) :
    Sound depth (.integer low high)
  | optional {depth : Nat} {s : Schema} (seen : s.nullable = false) (value : Sound depth s) :
    Sound depth (.optional s)
  | tuple {depth : Nat} {items : List Schema} (length : items.length < 2 ^ 64)
    (each : ∀ s ∈ items, Sound depth s) : Sound (depth + 1) (.tuple items)
  | sequence {depth : Nat} {item : Schema} (each : Sound depth item) :
    Sound (depth + 1) (.sequence item)
  | dictionary {depth : Nat} {value : Schema} (each : Sound depth value) :
    Sound (depth + 1) (.dictionary value)
  | record {depth : Nat} {name : String} {fields : List (String × Schema × Option Content)}
    (length : fields.length < 2 ^ 64) (distinct : (fields.map (·.1)).Nodup)
    (short : ∀ f ∈ fields, (Bytes.ofText f.1).length ≤ nameLimit)
    (each : ∀ f ∈ fields, Sound depth f.2.1) : Sound (depth + 1) (.record name fields)
  | variants {depth : Nat} {vs : List (String × Schema)} (distinct : (vs.map (·.1)).Nodup)
    (short : ∀ v ∈ vs, (Bytes.ofText v.1).length ≤ nameLimit)
    (each : ∀ v ∈ vs, Sound depth v.2) : Sound (depth + 1) (.variants vs)

section Words

variable {width depth : Nat}

theorem sound_unsigned (h : width ≤ 64) : (unsigned width).Sound depth := by
  have power : (2 : Int) ^ width ≤ 2 ^ 64 := by
    exact_mod_cast Nat.pow_le_pow_right (by decide) h
  apply Sound.integer <;> omega

theorem sound_signed (h : width ≤ 64) : (signed width).Sound depth := by
  have power : (2 : Int) ^ (width - 1) ≤ 2 ^ 64 := by
    exact_mod_cast Nat.pow_le_pow_right (by decide) (by omega)
  apply Sound.integer <;> omega

theorem describes_unsigned {n : Nat} (h : n < 2 ^ width) :
    (unsigned width).Describes (.integer n) := by
  have bound : (n : Int) < 2 ^ width := by exact_mod_cast h
  exact .integer (Int.natCast_nonneg n) (by omega)

end Words

/-- The heads that contents of a shape begin with. -/
def Opens : Schema → Head → Prop
  | .tuple _, h | .sequence _, h => ∃ n, h = .array (some n)
  | .dictionary _, h | .record _ _, h => ∃ n, h = .map (some n)
  | .unit, _ | .optional _, _ => True
  | _, h => isNull h = false

theorem Opens.not_null {s : Schema} {h : Head} (opens : s.Opens h) (seen : s.nullable = false) :
    isNull h = false := by
  cases s with
  | tuple | sequence | dictionary | record =>
    obtain ⟨n, rfl⟩ := opens
    rfl
  | unit | optional => cases seen
  | _ => exact opens

/-- A content is serialized, and it is read back wherever its serialized form stands. -/
structure ReadsBack (s : Schema) (depth : Nat) (c : Content) : Prop where
  encodes : c.encode = .ok c.serialized
  opens : ∃ h, s.Opens h ∧ ∀ rest, ∃ body, Head.read (c.serialized ++ rest) = .ok (h, body)
  reads : ∀ rest, s.reader depth (c.serialized ++ rest) = .ok (c, rest)

section

variable {s : Schema} {depth : Nat} {c : Content}

/-- What is written as a head and a body is read back if the reader finds it behind that head. -/
theorem ReadsBack.of_head {h : Head} {body : Bytes}
    (encodes : c.encode = .ok (h.encode ++ body)) (definite : h.Definite) (opens : s.Opens h)
    (reads : ∀ input rest, Head.read input = .ok (h, body ++ rest) →
      s.reader depth input = .ok (c, rest)) : s.ReadsBack depth c := by
  have written : c.serialized = h.encode ++ body := Content.serialized_of_encode encodes
  have head (rest : Bytes) : Head.read (c.serialized ++ rest) = .ok (h, body ++ rest) := by
    rw [written, List.append_assoc, Head.read_encode definite]
  refine ⟨by rw [written, encodes], ⟨h, opens, fun rest => ⟨_, head rest⟩⟩, fun rest => ?_⟩
  exact reads _ rest (head rest)

/-! ## Scalars -/

theorem readHead_of_read {content : Head → Option Content} {h : Head} {input rest : Bytes}
    (found : content h = some c) (plain : ∀ n, h ≠ .tag n)
    (read : Head.read input = .ok (h, rest)) : readHead content input = .ok (c, rest) := by
  rw [readHead, untagged_of_read read plain]
  simp only [found]

theorem readString_of_read {text : String} {input rest : Bytes}
    (read : Head.read input =
      .ok (.text (some (Bytes.ofText text).length), Bytes.ofText text ++ rest)) :
    readString input = .ok (text, rest) := by
  rw [readString, untagged_of_read read (by simp)]
  exact textString_ofText text rest

theorem length_singleton (ch : Char) : (Bytes.ofText (String.singleton ch)).length ≤ 4 := by
  have size : (Bytes.ofText (String.singleton ch)).length = ch.utf8Size :=
    String.utf8ByteSize_singleton
  have := ch.utf8Size_le_four
  omega

theorem readChar_of_read {ch : Char} {input rest : Bytes}
    (read : Head.read input = .ok (.text (some (Bytes.ofText (String.singleton ch)).length),
      Bytes.ofText (String.singleton ch) ++ rest)) :
    readChar input = .ok (.char ch, rest) := by
  rw [readChar, untagged_of_read read (by simp)]
  simp [length_singleton, readText_ofText, charOf, Except.map]

theorem readsBack_integer {low high n : Int} (least : low ≤ n) (most : n ≤ high)
    (bounds : -2 ^ 64 ≤ low ∧ high < 2 ^ 64) :
    (Schema.integer low high).ReadsBack depth (.integer n) := by
  have inside : inRange low high n = .ok (.integer n) := if_pos ⟨least, most⟩
  cases n with
  | ofNat m =>
    have word : m < 2 ^ 64 := by
      rw [Int.ofNat_eq_natCast] at most
      omega
    have encodes : (Content.integer (.ofNat m)).encode = .ok ((Head.positive m).encode ++ []) := by
      rw [Content.encode, encodeInteger, List.append_nil]
      exact congrArg Except.ok (if_pos word)
    refine .of_head encodes word rfl fun input rest read => ?_
    simp only [reader, integer_of_positive read]
    exact congrArg (Except.map _) inside
  | negSucc m =>
    have word : m < 2 ^ 64 := by
      rw [Int.negSucc_eq] at least
      omega
    have encodes : (Content.integer (.negSucc m)).encode =
        .ok ((Head.negative m).encode ++ []) := by
      rw [Content.encode, encodeInteger, List.append_nil]
      exact congrArg Except.ok (if_pos word)
    have below : belowZero m = .negSucc m := by
      rw [belowZero, Int.negSucc_eq]
      omega
    refine .of_head encodes word rfl fun input rest read => ?_
    simp only [reader, integer_of_negative read, below]
    exact congrArg (Except.map _) inside

theorem readsBack_text {text : String} (length : (Bytes.ofText text).length < 2 ^ 64) :
    Schema.text.ReadsBack depth (.text text) := by
  have encodes : (Content.text text).encode =
    .ok ((Head.text (some (Bytes.ofText text).length)).encode ++ Bytes.ofText text) := rfl
  refine .of_head encodes ⟨_, length, rfl⟩ rfl fun input rest read => ?_
  simp only [reader, readString_of_read read]
  rfl

theorem readsBack_char (ch : Char) : Schema.char.ReadsBack depth (.char ch) := by
  have length : (Bytes.ofText (String.singleton ch)).length < 2 ^ 64 := by
    have := length_singleton ch
    omega
  have encodes : (Content.char ch).encode =
    .ok ((Head.text (some (Bytes.ofText (String.singleton ch)).length)).encode ++
      Bytes.ofText (String.singleton ch)) := rfl
  exact .of_head encodes ⟨_, length, rfl⟩ rfl fun input rest read => readChar_of_read read

theorem readsBack_bool (b : Bool) : Schema.bool.ReadsBack depth (.bool b) := by
  have encodes : (Content.bool b).encode =
      .ok ((Head.simple (if b then Head.trueValue else Head.falseValue)).encode ++ []) := by
    rw [List.append_nil]
    rfl
  have near : (if b then Head.trueValue else Head.falseValue) < 24 := by cases b <;> decide
  refine .of_head encodes near ?_ fun input rest read => readHead_of_read ?_ (by simp) read <;>
    cases b <;> rfl

theorem readsBack_unit : Schema.unit.ReadsBack depth .unit := by
  have encodes : Content.unit.encode = .ok ((Head.simple Head.nullValue).encode ++ []) := rfl
  have near : Head.nullValue < 24 := by decide
  exact .of_head encodes near trivial fun input rest read => readHead_of_read rfl (by simp) read

theorem readsBack_float (x : Binary64) : Schema.float.ReadsBack depth (.float x) := by
  have encodes : (Content.float x).encode = .ok ((Head.float x).encode ++ []) := by
    rw [List.append_nil]
    rfl
  exact .of_head encodes trivial rfl fun input rest read => readHead_of_read rfl (by simp) read

/-! ## Optional contents -/

theorem readsBack_absent : (Schema.optional s).ReadsBack depth .absent := by
  have encodes : Content.absent.encode = .ok ((Head.simple Head.nullValue).encode ++ []) := rfl
  have near : Head.nullValue < 24 := by decide
  refine .of_head encodes near trivial fun input rest read => ?_
  simp only [reader, read]
  rfl

/-- What is not written as a null is never taken for an absent content. -/
theorem ReadsBack.present (h : s.ReadsBack depth c) (seen : s.nullable = false) :
    (Schema.optional s).ReadsBack depth (.present c) := by
  have written : (Content.present c).serialized = c.serialized := rfl
  obtain ⟨head, opens, begins⟩ := h.opens
  refine ⟨h.encodes, ⟨head, trivial, begins⟩, fun rest => ?_⟩
  obtain ⟨body, read⟩ := begins rest
  simp only [reader, written, read, opens.not_null seen, Bool.false_eq_true, if_false,
    h.reads rest, Except.map]

/-! ## Sequences and tuples -/

theorem readsBack_sequence {cs : List Content} (length : cs.length < 2 ^ 64)
    (each : ∀ c ∈ cs, s.ReadsBack depth c) :
    (Schema.sequence s).ReadsBack (depth + 1) (.sequence cs) := by
  refine .of_head (encode_items fun c hc => (each c hc).encodes) ⟨_, length, rfl⟩ ⟨_, rfl⟩
    fun input rest read => ?_
  simp only [reader, readSequence, untagged_of_read read (by simp), members]
  rw [countedMembers_flatten (fun read c => c :: read) Content.serialized]
  · simp [Except.map]
  · intro c hc read rest
    rw [(each c hc).reads rest]
    rfl

theorem readItems_members {ms : List (Schema × Content)}
    (each : ∀ m ∈ ms, m.1.ReadsBack depth m.2) (rest : Bytes) :
    readItems (readers (ms.map (·.1))) depth (some ms.length)
      (((ms.map (·.2)).map Content.serialized).flatten ++ rest) = .ok (ms.map (·.2), rest) := by
  induction ms with
  | nil => rfl
  | cons m ms ih =>
    have reads := (each m List.mem_cons_self).reads
    have others := ih fun n hn => each n (List.mem_cons_of_mem m hn)
    simp only [List.map_cons, readers, List.length_cons, List.flatten_cons, List.append_assoc,
      readItems, reads, Option.map_some, Nat.add_sub_cancel, others]
    rfl

theorem readsBack_tuple {ms : List (Schema × Content)} (length : ms.length < 2 ^ 64)
    (each : ∀ m ∈ ms, m.1.ReadsBack depth m.2) :
    (Schema.tuple (ms.map (·.1))).ReadsBack (depth + 1) (.tuple (ms.map (·.2))) := by
  have written : ∀ c ∈ ms.map (·.2), c.encode = .ok c.serialized :=
    List.forall_mem_map.mpr fun m hm => (each m hm).encodes
  refine .of_head (encode_items written) ⟨_, ?_, rfl⟩ ⟨_, rfl⟩ fun input rest read => ?_
  · rwa [List.length_map]
  · have items := readItems_members each rest
    rw [List.length_map] at read
    simp only [reader, readTuple, untagged_of_read read (by simp), items]
    rfl

/-! ## Dictionaries -/

theorem dictionaryOf_ascending {es : List (String × Content)}
    (ascending : es.Pairwise fun e f =>
      Ord.compare (Bytes.ofText e.1) (Bytes.ofText f.1) = .lt) :
    Content.dictionaryOf (es.map fun e => (.text e.1, e.2)) =
      .dictionary (es.map fun e => (.text e.1, e.2)) := by
  have keys : (es.map fun e => (Content.text e.1, e.2)).Pairwise fun e f =>
      e.1.sortKey.compare f.1.sortKey = .lt := by
    rw [List.pairwise_map]
    exact ascending
  rw [Content.dictionaryOf,
    SortKey.filterMap_runs (SortKey.nodup_of_ascending keys) fun e => rfl,
    SortKey.sortOn_of_ascending keys]

theorem readsBack_dictionary {es : List (String × Content)} (length : es.length < 2 ^ 64)
    (keys : ∀ e ∈ es, (Bytes.ofText e.1).length < 2 ^ 64)
    (ascending : es.Pairwise fun e f => Ord.compare (Bytes.ofText e.1) (Bytes.ofText f.1) = .lt)
    (each : ∀ e ∈ es, s.ReadsBack depth e.2) :
    (Schema.dictionary s).ReadsBack (depth + 1)
      (.dictionary (es.map fun e => (.text e.1, e.2))) := by
  have encodes : (Content.dictionary (es.map fun e => (.text e.1, e.2))).encode =
      .ok ((Head.map (some es.length)).encode ++ (es.map Content.serializedField).flatten) := by
    rw [Content.encode, encodeEntries_eq_map, List.map_map, List.length_map]
    exact joinParts_members (fun e he => encode_field (each e he).encodes) _
  refine .of_head encodes ⟨_, length, rfl⟩ ⟨_, rfl⟩ fun input rest read => ?_
  simp only [reader, readDictionary, untagged_of_read read (by simp), members]
  rw [countedMembers_flatten (fun read e => (.text e.1, e.2) :: read) Content.serializedField]
  · have collected := dictionaryOf_ascending ascending
    simp [Except.map, ← List.map_reverse, collected]
  · intro e he read rest
    rw [Content.serializedField, List.append_assoc,
      readString_of_read (read_encodeText (keys e he) _)]
    simp only [(each e he).reads rest]
    rfl

/-! ## Records -/

theorem readName_of_read {name : String} {input rest : Bytes}
    (short : (Bytes.ofText name).length ≤ nameLimit)
    (read : Head.read input =
      .ok (.text (some (Bytes.ofText name).length), Bytes.ofText name ++ rest)) :
    readName input = .ok (Bytes.ofText name, rest) := by
  rw [readName, untagged_of_read read (by simp)]
  simp only [if_pos short, readText_ofText]
  rfl

theorem readName_encodeText {name : String} (short : (Bytes.ofText name).length ≤ nameLimit)
    (rest : Bytes) : readName (encodeText name ++ rest) = .ok (Bytes.ofText name, rest) := by
  have word : (Bytes.ofText name).length < 2 ^ 64 := Nat.lt_of_le_of_lt short (by decide)
  exact readName_of_read short (read_encodeText word rest)

theorem readEntry_slot {front back : List Slot} {slot : Slot} {body rest : Bytes}
    (distinct : ((front ++ slot :: back).map Slot.name).Nodup)
    (short : (Bytes.ofText slot.name).length ≤ nameLimit) (fresh : slot.content? = none)
    (reads : slot.reader depth body = .ok (c, rest)) :
    readEntry depth (front ++ slot :: back) (encodeText slot.name ++ body) =
      .ok (front ++ { slot with content? := some c } :: back, rest) := by
  rw [List.map_append, List.map_cons, List.nodup_middle, ← List.map_append, List.nodup_cons,
    List.mem_map, not_exists] at distinct
  have other (x : Slot) (hx : x ∈ front ++ back) : x.name ≠ slot.name :=
    fun same => distinct.1 x ⟨hx, same⟩
  have found : (front ++ slot :: back).find?
      (fun x => Bytes.ofText x.name == Bytes.ofText slot.name) = some slot := by
    have before : front.find? (fun x => Bytes.ofText x.name == Bytes.ofText slot.name) = none := by
      rw [List.find?_eq_none]
      intro x hx same
      apply other x (List.mem_append_left back hx)
      exact ObjectOrder.ofText_injective (beq_iff_eq.mp same)
    rw [List.find?_append, before, Option.none_or, List.find?_cons, beq_self_eq_true]
  have kept (xs : List Slot) (inside : ∀ x ∈ xs, x ∈ front ++ back) :
      xs.map (fun x => if x.name = slot.name then { x with content? := some c } else x) = xs := by
    rw [List.map_congr_left fun x hx => if_neg (other x (inside x hx)), List.map_id']
  rw [readEntry, readName_encodeText short]
  simp only [found, fresh, Option.isSome_none, Bool.false_eq_true, if_false, reads, Except.map,
    List.map_append, List.map_cons, if_true]
  rw [kept front fun x hx => List.mem_append_left back hx,
    kept back fun x hx => List.mem_append_right front hx]

/-- A field of a shape, and the content that a record has for it. -/
abbrev Member : Type := (String × Schema × Option Content) × Option Content

def filled (ms : List Member) : List Slot := ms.map fun m => ⟨m.1.1, m.1.2.1.reader, m.1.2.2, m.2⟩

/-- The fields that a record has. -/
def written (ms : List Member) : List (String × Content) :=
  ms.filterMap fun m => m.2.map fun c => (m.1.1, c)

theorem slots_eq_map (fields : List (String × Schema × Option Content)) :
    slots fields = fields.map fun f => ⟨f.1, f.2.1.reader, f.2.2, none⟩ := by
  induction fields with
  | nil => rfl
  | cons f fs ih => rw [slots, ih, List.map_cons]

theorem slotFields_filled {ms : List Member} {content : Member → Content}
    (known : ∀ m ∈ ms, m.2.or m.1.2.2 = some (content m)) :
    slotFields (filled ms) = .ok (ms.map fun m => (m.1.1, content m)) := by
  induction ms with
  | nil => rfl
  | cons m ms ih =>
    obtain ⟨first, others⟩ := List.forall_mem_cons.mp known
    have rest := ih others
    unfold slotFields filled at rest ⊢
    rw [List.map_cons, List.mapM_cons, rest]
    simp only [first]
    rfl

/-- The entries of a record are read in turn, each into the slot of its field. The slots of fields
that the record does not have stay empty. -/
theorem countedMembers_fields {done ms : List Member}
    (distinct : ((done ++ ms).map (·.1.1)).Nodup)
    (short : ∀ m ∈ ms, (Bytes.ofText m.1.1).length ≤ nameLimit)
    (each : ∀ m ∈ ms, ∀ c, m.2 = some c → m.1.2.1.ReadsBack depth c) (rest : Bytes) :
    countedMembers (readEntry depth) (written ms).length (filled done ++ slots (ms.map (·.1)))
      (((written ms).map Content.serializedField).flatten ++ rest) =
      .ok (filled (done ++ ms), rest) := by
  induction ms generalizing done with
  | nil =>
    rw [List.append_nil, List.map_nil, slots, List.append_nil]
    rfl
  | cons m ms ih =>
    have names : ((filled done ++ slots ((m :: ms).map (·.1))).map Slot.name).Nodup := by
      have same : (filled done ++ slots ((m :: ms).map (·.1))).map Slot.name =
          (done ++ m :: ms).map (·.1.1) := by
        simp only [filled, slots_eq_map, List.map_append, List.map_map, List.map_cons]
        rfl
      rwa [same]
    have others := @ih (done ++ [m]) (by rwa [List.append_assoc])
      (fun m hm => short m (List.mem_cons_of_mem _ hm))
      (fun m hm => each m (List.mem_cons_of_mem _ hm))
    obtain ⟨⟨name, field, default?⟩, content?⟩ := m
    have moved : filled (done ++ [((name, field, default?), content?)]) =
        filled done ++ [⟨name, field.reader, default?, content?⟩] := by
      rw [filled, List.map_append]
      rfl
    rw [moved, List.append_assoc, List.append_assoc] at others
    cases content? with
    | none => exact others
    | some content =>
      let tail := ((written ms).map Content.serializedField).flatten ++ rest
      have first := readEntry_slot names (short _ List.mem_cons_self) rfl
        ((each _ List.mem_cons_self content rfl).reads tail)
      have front : written (((name, field, default?), some content) :: ms) =
          (name, content) :: written ms := rfl
      rw [front, List.map_cons, List.map_cons, List.flatten_cons, Content.serializedField,
        List.append_assoc, List.append_assoc, List.length_cons, countedMembers, slots, first]
      exact others

theorem encode_record {name : String} {fields : List (String × Content)}
    (each : ∀ f ∈ fields, f.2.encode = .ok f.2.serialized) :
    (Content.record name fields).encode = .ok ((Head.map (some fields.length)).encode ++
      (fields.map Content.serializedField).flatten) := by
  rw [Content.encode, encodeFields_eq_map]
  exact joinParts_members (fun f hf => encode_field (each f hf)) _

/-- A record is read from the fields that are written, as long as the others have defaults. -/
theorem reader_record {name : String} {ms : List Member} {content : Member → Content}
    (distinct : (ms.map (·.1.1)).Nodup)
    (short : ∀ m ∈ ms, (Bytes.ofText m.1.1).length ≤ nameLimit)
    (each : ∀ m ∈ ms, ∀ c, m.2 = some c → m.1.2.1.ReadsBack depth c)
    (known : ∀ m ∈ ms, m.2.or m.1.2.2 = some (content m)) {input rest : Bytes}
    (read : Head.read input = .ok (.map (some (written ms).length),
      ((written ms).map Content.serializedField).flatten ++ rest)) :
    (Schema.record name (ms.map (·.1))).reader (depth + 1) input =
      .ok (.record name (ms.map fun m => (m.1.1, content m)), rest) := by
  have fields := @countedMembers_fields depth [] ms distinct short each rest
  simp only [reader, readRecord, untagged_of_read read (by simp), members]
  rw [filled, List.map_nil, List.nil_append, List.nil_append] at fields
  simp only [fields, slotFields_filled known]
  rfl

theorem readsBack_record {name : String}
    {ms : List ((String × Schema × Option Content) × Content)} (length : ms.length < 2 ^ 64)
    (distinct : (ms.map (·.1.1)).Nodup)
    (short : ∀ m ∈ ms, (Bytes.ofText m.1.1).length ≤ nameLimit)
    (each : ∀ m ∈ ms, m.1.2.1.ReadsBack depth m.2) :
    (Schema.record name (ms.map (·.1))).ReadsBack (depth + 1)
      (.record name (ms.map fun m => (m.1.1, m.2))) := by
  let whole : List Member := ms.map fun m => (m.1, some m.2)
  have all : written whole = ms.map fun m => (m.1.1, m.2) := by
    rw [written, List.filterMap_map]
    exact congrFun List.filterMap_eq_map ms
  have encodes : (Content.record name (ms.map fun m => (m.1.1, m.2))).encode = _ :=
    encode_record (List.forall_mem_map.mpr fun m hm => (each m hm).encodes)
  rw [List.length_map] at encodes
  refine .of_head encodes ⟨_, length, rfl⟩ ⟨_, rfl⟩ fun input rest read => ?_
  have back : (Schema.record name (whole.map (·.1))).reader (depth + 1) input =
      .ok (.record name (whole.map fun m => (m.1.1, m.2.getD .unit)), rest) := by
    apply reader_record
    · rwa [List.map_map]
    · exact List.forall_mem_map.mpr short
    · rw [List.forall_mem_map]
      rintro m hm _ ⟨⟩
      exact each m hm
    · exact List.forall_mem_map.mpr fun _ _ => rfl
    · rwa [all, List.length_map]
  rwa [List.map_map, List.map_map] at back

/-! ## Variants -/

def payloadReader : Schema → Reader
  | .unit => fun _ input => .ok (.unit, input)
  | .tuple items => readPayload (readers items) .tuple none
  | .record title fields => readPayload ((slots fields).map (·.reader))
      (fun cs => .record title (((slots fields).map (·.name)).zip cs))
      (some (readRecord title (slots fields)))
  | s => s.reader

theorem payloadReaders_eq_map (vs : List (String × Schema)) :
    payloadReaders vs = vs.map fun v => (v.1, payloadReader v.2) := by
  induction vs with
  | nil => rfl
  | cons v vs ih =>
    obtain ⟨name, s⟩ := v
    cases s <;> simp only [payloadReaders, ih, List.map_cons, payloadReader]

/-- A payload is read as any content of its shape, except that a unit payload is not read. -/
theorem ReadsBack.payload (h : s.ReadsBack depth c) (written : s ≠ .unit) (rest : Bytes) :
    payloadReader s depth (c.serialized ++ rest) = .ok (c, rest) := by
  obtain ⟨head, opens, begins⟩ := h.opens
  obtain ⟨body, read⟩ := begins rest
  have reads := h.reads rest
  cases s with
  | unit => exact absurd rfl written
  | tuple items =>
    obtain ⟨n, rfl⟩ := opens
    simp only [reader, readTuple, untagged_of_read read (by simp)] at reads
    cases depth with
    | zero => cases reads
    | succ depth => simpa only [payloadReader, readPayload, read] using reads
  | record name fields =>
    obtain ⟨n, rfl⟩ := opens
    simp only [payloadReader, readPayload, read]
    exact reads
  | _ => exact reads

theorem variantInput_of_text {input rest : Bytes} {n : Option Nat}
    (read : Head.read input = .ok (.text n, rest)) : variantInput input input = .ok input := by
  cases input with
  | nil => cases read
  | cons first input =>
    unfold variantInput
    rw [read]

theorem variantInput_of_map {input rest : Bytes}
    (read : Head.read input = .ok (.map (some 1), rest)) : variantInput input input = .ok rest := by
  cases input with
  | nil => cases read
  | cons first input =>
    unfold variantInput
    rw [read]
    rfl

theorem find?_variant {cases : List (String × Reader)} {index : Nat} {name : String}
    {payload : Reader} (distinct : (cases.map (·.1)).Nodup)
    (place : cases[index]? = some (name, payload)) :
    cases.zipIdx.find? (fun v => Bytes.ofText v.1.1 == Bytes.ofText name) =
      some ((name, payload), index) := by
  obtain ⟨inside, here⟩ := List.getElem?_eq_some_iff.mp place
  rw [List.find?_eq_some_iff_getElem]
  refine ⟨beq_self_eq_true _, index, by rwa [List.length_zipIdx], by simp [here], ?_⟩
  intro j before
  have other : cases[j].1 ≠ name := by
    have apart := List.pairwise_iff_getElem.mp distinct j index
    simp only [List.length_map, List.getElem_map, here] at apart
    exact apart (Nat.lt_trans before inside) inside before
  simp only [List.getElem_zipIdx, Bool.not_eq_true', beq_eq_false_iff_ne]
  exact fun same => other (ObjectOrder.ofText_injective same)

section Variant

variable {vs : List (String × Schema)} {index : Nat} {name : String}

theorem readVariant_of_name {input front body rest : Bytes} (distinct : (vs.map (·.1)).Nodup)
    (place : vs[index]? = some (name, s)) (begins : variantInput input input = .ok front)
    (named : readName front = .ok (Bytes.ofText name, body))
    (reads : payloadReader s depth body = .ok (c, rest)) :
    (Schema.variants vs).reader (depth + 1) input = .ok (.variant index name c, rest) := by
  have found : (payloadReaders vs).zipIdx.find?
      (fun v => Bytes.ofText v.1.1 == Bytes.ofText name) =
        some ((name, payloadReader s), index) := by
    rw [payloadReaders_eq_map]
    apply find?_variant
    · rwa [List.map_map]
    · rw [List.getElem?_map, place]
      rfl
  simp only [reader, readVariant, begins, named, found, reads]
  rfl

theorem readsBack_variant (distinct : (vs.map (·.1)).Nodup)
    (place : vs[index]? = some (name, s)) (short : (Bytes.ofText name).length ≤ nameLimit)
    (described : s.Describes c) (payload : s.ReadsBack depth c) :
    (Schema.variants vs).ReadsBack (depth + 1) (.variant index name c) := by
  by_cases written : s = .unit
  · -- A variant without fields is its name alone.
    subst written
    cases described
    have word : (Bytes.ofText name).length < 2 ^ 64 := Nat.lt_of_le_of_lt short (by decide)
    have encodes : (Content.variant index name .unit).encode =
      .ok ((Head.text (some (Bytes.ofText name).length)).encode ++ Bytes.ofText name) := rfl
    refine .of_head encodes ⟨_, word, rfl⟩ rfl fun input rest read => ?_
    exact readVariant_of_name distinct place (variantInput_of_text read)
      (readName_of_read short read) rfl
  · have nonempty : c ≠ .unit := by
      rintro rfl
      cases described
      contradiction
    have encodes : (Content.variant index name c).encode =
        .ok ((Head.map (some 1)).encode ++ Content.serializedField (name, c)) := by
      have parts := joinParts_ok [(Head.map (some 1)).encode, encodeText name, c.serialized]
      rw [List.flatten_cons, List.flatten_cons, List.flatten_singleton] at parts
      rw [Content.encode, payload.encodes]
      · exact parts
      · exact nonempty
    refine .of_head encodes ⟨1, by decide, rfl⟩ rfl fun input rest read => ?_
    rw [Content.serializedField, List.append_assoc] at read
    exact readVariant_of_name distinct place (variantInput_of_map read)
      (readName_encodeText short _) (payload.payload written rest)

end Variant

end

/-! ## All shapes -/

/-- Whatever a sound schema describes is read back. -/
theorem Describes.readsBack {s : Schema} {c : Content} (h : s.Describes c) :
    ∀ {depth : Nat}, s.Sound depth → s.ReadsBack depth c := by
  induction h with
  | bool b => exact fun _ => readsBack_bool b
  | unit => exact fun _ => readsBack_unit
  | char c => exact fun _ => readsBack_char c
  | text length => exact fun _ => readsBack_text length
  | float x => exact fun _ => readsBack_float x
  | integer least most =>
    rintro depth (_ | _ | _ | _ | _ | ⟨low, high⟩)
    exact readsBack_integer least most ⟨low, high⟩
  | absent => exact fun _ => readsBack_absent
  | present _ ih =>
    intro depth sound
    cases sound with
    | optional seen value => exact (ih value).present seen
  | tuple _ ih =>
    intro depth sound
    cases sound with
    | tuple length each =>
      rw [List.length_map] at length
      exact readsBack_tuple length fun m hm => ih m hm (each _ (List.mem_map_of_mem hm))
  | sequence length _ ih =>
    intro depth sound
    cases sound with
    | sequence each => exact readsBack_sequence length fun c hc => ih c hc each
  | dictionary length keys ascending _ ih =>
    intro depth sound
    cases sound with
    | dictionary each =>
      exact readsBack_dictionary length keys ascending fun e he => ih e he each
  | record _ ih =>
    intro depth sound
    cases sound with
    | record length distinct short each =>
      rw [List.length_map] at length
      rw [List.map_map] at distinct
      exact readsBack_record length distinct
        (fun m hm => short _ (List.mem_map_of_mem hm))
        fun m hm => ih m hm (each _ (List.mem_map_of_mem hm))
  | variant place described ih =>
    intro depth sound
    cases sound with
    | variants distinct short each =>
      have mem := List.mem_of_getElem? place
      exact readsBack_variant distinct place (short _ mem) described (ih (each _ mem))

theorem Describes.decode {s : Schema} {c : Content} (h : s.Describes c)
    (sound : s.Sound depthLimit) : s.decode c.serialized = .ok c := by
  have reads := (h.readsBack sound).reads []
  rw [List.append_nil] at reads
  rw [Schema.decode, reads]
  rfl

end Schema

end BinCodec
