import BinCodec.Proofs.Likeness
import BinCodec.Proofs.PackedItems
import BinCodec.Proofs.Reordering
import BinCodec.Proofs.SerializerGate
import BinCodec.Proofs.ServerOrder

/-!
# What equality means to the server

Equality looks past caches and past the insertion order of unordered maps, packing does not.
Inputs are interchangeable if they pack under the same configurations, to trees that differ at
most in the order of entries. Collections with interchangeable members are interchangeable, hence
so are equal inputs, as long as the equal objects inside them serialize alike
(`interchangeable_of_equal`).
-/

namespace BinCodec

/-! ## Members -/

/-- Inputs that pack under the same configurations, to trees that differ at most in the order of
entries. -/
structure Packable.Interchangeable (x y : Packable) : Prop where
  packs : ∀ c, (x.pack c).error? = none ↔ (y.pack c).error? = none
  wire : x.wire.Reordered y.wire

section Members

variable {es fs : Entries}

theorem interchangeable_items {α : Type} {of : α → Packable} {xs ys : List α}
    (h : List.Forall₂ (fun x y => (of x).Interchangeable (of y)) xs ys) :
    (∀ c, (∀ x ∈ xs, ((of x).pack c).error? = none) ↔ ∀ y ∈ ys, ((of y).pack c).error? = none) ∧
      (Wire.array (xs.map fun x => (of x).wire)).Reordered
        (.array (ys.map fun y => (of y).wire)) := by
  constructor
  · intro c
    apply forall_mem_iff_of_forall₂
    exact h.imp fun x y hxy => hxy.packs c
  · apply Wire.Reordered.of_items
    rw [List.forall₂_map_left_iff, List.forall₂_map_right_iff]
    exact h.imp fun x y hxy => hxy.wire

theorem interchangeable_list {xs ys : List Datum}
    (h : List.Forall₂ (fun x y => (Packable.datum x).Interchangeable (.datum y)) xs ys) :
    (Packable.datum (.list xs)).Interchangeable (.datum (.list ys)) := by
  obtain ⟨packs, wire⟩ := interchangeable_items h
  constructor
  · intro c
    rw [Packable.pack, Packable.pack, Datum.pack, Datum.pack, packItems_eq_map, packItems_eq_map,
      error?_collection, error?_collection]
    exact packs c
  · rw [Packable.wire, Packable.wire, Datum.wire, Datum.wire, wireItems_eq_map, wireItems_eq_map]
    exact wire

theorem interchangeable_array {us vs : List Value} (c d : Cache)
    (h : List.Forall₂ (fun u v => (Packable.value u).Interchangeable (.value v)) us vs) :
    (Packable.value (.array us c)).Interchangeable (.value (.array vs d)) := by
  obtain ⟨packs, wire⟩ := interchangeable_items h
  constructor
  · intro c
    rw [Packable.pack, Packable.pack, Value.pack, Value.pack, packValues_eq_map, packValues_eq_map,
      error?_collection, error?_collection]
    exact packs c
  · rw [Packable.wire, Packable.wire, Value.wire, Value.wire, wireValues_eq_map, wireValues_eq_map]
    exact wire

/-- The entries may also be arranged, each map under its own keys. -/
theorem interchangeable_entryList (order : MapOrder) (c d : Cache)
    (h : EntriesMatch (fun a b => (Packable.datum a).Interchangeable (.datum b)) es fs) :
    (Packable.value (.entryList es order c)).Interchangeable (.value (.entryList fs order d)) := by
  obtain ⟨gs, related, perm⟩ := h
  constructor
  · intro c
    rw [Packable.pack, Packable.pack, Value.pack, Value.pack, error?_packArranged,
      error?_packArranged]
    simp only [← perm.mem_iff]
    apply forall_mem_iff_of_forall₂
    exact related.imp fun e g heg => and_congr (heg.1.packs c) (heg.2.packs c)
  · have arranged : (order.entries es).Perm es := order.arrange_perm id es
    obtain ⟨hs, related, perm'⟩ := List.perm_comp_forall₂ arranged related
    have arranged' : fs.Perm (order.entries fs) := (order.arrange_perm id fs).symm
    rw [Packable.wire, Packable.wire, Value.wire, Value.wire, wireEntries_eq_map,
      wireEntries_eq_map, MapOrder.along_map, MapOrder.along_map]
    apply Wire.Reordered.of_entries _ ((perm'.trans (perm.trans arranged')).map _)
    rw [List.forall₂_map_left_iff, List.forall₂_map_right_iff]
    exact related.imp fun e f hef => ⟨hef.1.wire, hef.2.wire⟩

theorem interchangeable_object {o p : Object} (h : o.encode.toOption = p.encode.toOption) :
    (Packable.datum (.object o)).Interchangeable (.datum (.object p)) := by
  constructor
  · intro c
    rw [Packable.pack, Packable.pack, Datum.pack, Datum.pack, error?_blob, error?_blob]
    cases ho : o.encode <;> cases hp : p.encode <;> simp_all [Except.toOption]
  · have bytes : o.serialized = p.serialized := by
      unfold Object.serialized
      cases ho : o.encode <;> cases hp : p.encode <;> simp_all [Except.toOption]
    rw [Packable.wire, Packable.wire, Datum.wire, Datum.wire, bytes]
    exact .refl _

theorem Packable.Interchangeable.refl (x : Packable) : x.Interchangeable x := by
  constructor
  · exact fun _ => Iff.rfl
  · exact .refl _

end Members

/-! ## Equal inputs -/

namespace Packable

def Contains (o : Object) : Packable → Prop
  | datum d => d.Contains o
  | value v => v.Contains o

/-- Objects of the two sides that are equal serialize to the same bytes, or both fail. -/
def SerializedAlike (ord : ObjectOrder) (x y : Packable) : Prop :=
  ∀ o p, x.Contains o → y.Contains p → ord.cmp o p = .eq → o.encode.toOption = p.encode.toOption

theorem SerializedAlike.restrict {ord : ObjectOrder} {x y x' y' : Packable}
    (h : x.SerializedAlike ord y) (left : ∀ o, x'.Contains o → x.Contains o)
    (right : ∀ o, y'.Contains o → y.Contains o) : x'.SerializedAlike ord y' :=
  fun o p ho hp => h o p (left o ho) (right p hp)

end Packable

section Equal

variable {ord : ObjectOrder}

/-- Data and values that are equal, with objects that serialize alike where they are equal. -/
def equalLikeness (ord : ObjectOrder) : Likeness where
  datum a b := ord.structural.datum a b = .eq ∧ (Packable.datum a).SerializedAlike ord (.datum b)
  value u v := ord.structural.value u v = .eq ∧ (Packable.value u).SerializedAlike ord (.value v)
  object o p := o.encode.toOption = p.encode.toOption

section Parts

variable {x y : Packable} {es fs : Entries}

theorem equal_items (serialized : x.SerializedAlike ord y) {xs ys : List Datum}
    (left : ∀ a ∈ xs, ∀ o, a.Contains o → x.Contains o)
    (right : ∀ b ∈ ys, ∀ o, b.Contains o → y.Contains o)
    (items : List.Forall₂ (fun a b => ord.structural.datum a b = .eq) xs ys) :
    List.Forall₂ (equalLikeness ord).datum xs ys := by
  apply forall₂_imp_mem items
  intro a ha b hb same
  exact ⟨same, serialized.restrict (left a ha) (right b hb)⟩

theorem equal_entries (serialized : x.SerializedAlike ord y)
    (left : ∀ e ∈ es, ∀ o, e.1.Contains o ∨ e.2.Contains o → x.Contains o)
    (right : ∀ f ∈ fs, ∀ o, f.1.Contains o ∨ f.2.Contains o → y.Contains o)
    (entries : List.Forall₂ (fun e f => ord.structural.datum e.1 f.1 = .eq ∧
      ord.structural.datum e.2 f.2 = .eq) es fs) :
    List.Forall₂ (fun e f => (equalLikeness ord).datum e.1 f.1 ∧ (equalLikeness ord).datum e.2 f.2)
      es fs := by
  apply forall₂_imp_mem entries
  intro e he f hf ⟨key, value⟩
  constructor
  · exact ⟨key, serialized.restrict (fun o ho => left e he o (.inl ho)) fun o ho =>
      right f hf o (.inl ho)⟩
  · exact ⟨value, serialized.restrict (fun o ho => left e he o (.inr ho)) fun o ho =>
      right f hf o (.inr ho)⟩

theorem equal_map (serialized : x.SerializedAlike ord y)
    (left : ∀ e ∈ es, ∀ o, e.1.Contains o ∨ e.2.Contains o → x.Contains o)
    (right : ∀ f ∈ fs, ∀ o, f.1.Contains o ∨ f.2.Contains o → y.Contains o)
    (entries : EntriesMatch (fun a b => ord.structural.datum a b = .eq) es fs) :
    EntriesMatch (equalLikeness ord).datum es fs := by
  obtain ⟨gs, related, perm⟩ := entries
  exact ⟨gs, equal_entries serialized left (fun g hg => right g (perm.mem_iff.mp hg)) related, perm⟩

end Parts

/-- The members of what is equal are equal, and have no objects but those of the whole. -/
theorem descends_equalLikeness (ord : ObjectOrder) : (equalLikeness ord).Descends where
  datum := by
    rintro a b ⟨equal, serialized⟩
    cases Datum.matches_of_structural equal with
    | refl => exact .refl _
    | value same => exact .value ⟨same, serialized.restrict (fun _ => .value) fun _ => .value⟩
    | list items =>
      exact .list (equal_items serialized (fun _ ha _ => .item ha) (fun _ hb _ => .item hb) items)
    | map kind entries =>
      exact .map kind (equal_map serialized (fun _ he _ => Or.rec (.mapKey he) (.mapValue he))
        (fun _ hf _ => Or.rec (.mapKey hf) (.mapValue hf)) entries)
    | object same => exact .object (serialized _ _ .object .object same)
  value := by
    rintro u v ⟨equal, serialized⟩
    cases Value.matches_of_structural equal with
    | refl => exact .refl _
    | blob c d same => exact .blob c d (serialized _ _ (.blob c) (.blob d) same)
    | array c d values =>
      apply Value.Matches.array
      apply forall₂_imp_mem values
      exact fun u hu v hv same =>
        ⟨same, serialized.restrict (fun _ => .element hu) fun _ => .element hv⟩
    | list c d items =>
      exact .list c d
        (equal_items serialized (fun _ ha _ => .item ha) (fun _ hb _ => .item hb) items)
    | map kind order c d entries =>
      exact .map kind order c d
        (equal_map serialized (fun _ he _ => Or.rec (.mapKey he) (.mapValue he))
          (fun _ hf _ => Or.rec (.mapKey hf) (.mapValue hf)) entries)
    | entryList order c d entries =>
      exact .entryList order c d
        (equal_entries serialized (fun _ he _ => Or.rec (.entryKey he) (.entryValue he))
          (fun _ hf _ => Or.rec (.entryKey hf) (.entryValue hf)) entries)

def interchange : Likeness where
  datum a b := (Packable.datum a).Interchangeable (.datum b)
  value u v := (Packable.value u).Interchangeable (.value v)
  object o p := o.encode.toOption = p.encode.toOption

theorem interchangeable_of_equal :
    (∀ a b : Datum, (equalLikeness ord).datum a b → interchange.datum a b) ∧
      ∀ u v : Value, (equalLikeness ord).value u v → interchange.value u v := by
  have entries {es fs : Entries} (order : MapOrder)
      (h : EntriesMatch interchange.datum es fs) :
      (Packable.value (.entryList es order none)).Interchangeable
        (.value (.entryList fs order none)) := interchangeable_entryList order none none h
  have descends := descends_equalLikeness ord
  apply Likeness.Descends.induction (r := interchange) descends
  case refl => exact fun d => .refl (.datum d)
  case valueRefl => exact fun v => .refl (.value v)
  case value => exact fun inner => ⟨inner.packs, inner.wire⟩
  case list => exact interchangeable_list
  case map =>
    intro kind es fs ih alike
    cases descends.datum alike with
    | refl => exact .refl _
    | map _ related =>
      have inner := entries kind.order (Likeness.Implies.entriesMatch ih related)
      exact ⟨inner.packs, inner.wire⟩
  case object => exact interchangeable_object
  case valueBlob =>
    intro o p c d same
    have inner := interchangeable_object same
    exact ⟨inner.packs, inner.wire⟩
  case valueArray => exact interchangeable_array
  case valueList =>
    intro xs ys c d items
    have inner := interchangeable_list items
    exact ⟨inner.packs, inner.wire⟩
  case valueMap =>
    intro kind es fs order c d ih alike
    cases descends.value alike with
    | refl => exact .refl _
    | map _ _ _ _ related =>
      have inner := entries order (Likeness.Implies.entriesMatch ih related)
      exact ⟨inner.packs, inner.wire⟩
  case valueEntryList =>
    intro es fs order c d related
    exact interchangeable_entryList order c d ⟨fs, related, .refl fs⟩

end Equal

/-- Under a configuration two inputs mean the same to the server: packing succeeds for both or for
neither. Where it does and everything fits the headers, as many bytes are packed, and they are
read as trees that differ at most in the order of entries. -/
structure Packable.MeansSame (c : Config) (x y : Packable) : Prop where
  packs : (x.pack c).error? = none ↔ (y.pack c).error? = none
  sendable : x.Sendable c ↔ y.Sendable c
  length : x.Sendable c → (x.pack c).bytes.length = (y.pack c).bytes.length
  trees : x.Sendable c → ∃ w w', Wire.read (x.pack c).bytes = some (w, []) ∧
    Wire.read (y.pack c).bytes = some (w', []) ∧ w.Reordered w'

/-- What can be asked of two values without packing them has the same answers. -/
structure Value.ViewsAgree (u v : Value) : Prop where
  particleType : u.particleType = v.particleType
  validateKey : u.validateKey = v.validateKey
  toLong : u.toLong = v.toLong
  toInt : u.toInt = v.toInt

theorem Value.Matches.viewsAgree {like : Likeness} {u v : Value} (h : u.Matches like v) :
    u.ViewsAgree v := by
  cases h <;> exact ⟨rfl, rfl, rfl, rfl⟩

theorem Packable.Interchangeable.meansSame {x y : Packable} (h : x.Interchangeable y)
    (c : Config) : x.MeansSame c y := by
  have sendable : x.Sendable c ↔ y.Sendable c := by
    constructor
    · exact fun hx => ⟨(h.packs c).mp hx.packs, h.wire.fits hx.fits⟩
    · exact fun hy => ⟨(h.packs c).mpr hy.packs, h.wire.symm.fits hy.fits⟩
  refine ⟨h.packs c, sendable, ?_, ?_⟩
  · intro hx
    rw [← hx.encode_wire, ← (sendable.mp hx).encode_wire]
    exact h.wire.length_encode
  · intro hx
    exact ⟨x.wire, y.wire, hx.read, (sendable.mp hx).read, h.wire⟩

/-- Whatever orders the types of objects have, equal values have the same particle type and the
same numeric views, and both or neither can be keys. As long as equal objects inside them
serialize alike, equal values and equal data mean the same to the server. The equality of sort
keys is a case of this, for objects that are equal field by field. -/
theorem equal_inputs_mean_the_same (ord : ObjectOrder) :
    (∀ u v : Value, ord.structural.value u v = .eq → u.ViewsAgree v ∧
      ((Packable.value u).SerializedAlike ord (.value v) →
        ∀ c, (Packable.value u).MeansSame c (.value v))) ∧
    (∀ a b : Datum, ord.structural.datum a b = .eq →
      (Packable.datum a).SerializedAlike ord (.datum b) →
        ∀ c, (Packable.datum a).MeansSame c (.datum b)) ∧
    ObjectOrder.fieldwise.structural = ⟨Datum.compare, Value.compare⟩ := by
  refine ⟨?_, ?_, structural_fieldwise⟩
  · intro u v equal
    constructor
    · exact (Value.matches_of_structural equal).viewsAgree
    · intro serialized
      exact (interchangeable_of_equal.2 u v ⟨equal, serialized⟩).meansSame
  · intro a b equal serialized
    exact (interchangeable_of_equal.1 a b ⟨equal, serialized⟩).meansSame

/-- Entries whose keys tie on the server, inserted in either order, with an unordered map and an
object inside and with different caches. -/
theorem equal_inputs_mean_the_same_tied :
    let point : Object := ⟨"Point", .integer 7⟩
    let u : Value := .map .unordered [(.int 1, .object point),
      (.long 1, .map .unordered [(.text "a", .null), (.text "b", .null)])] .key (some [0])
    let v : Value := .map .unordered [(.long 1, .map .unordered [(.text "b", .null),
      (.text "a", .null)]), (.int 1, .object point)] .key none
    (u.pack {}).bytes.length = (v.pack {}).bytes.length ∧
      ∃ w w', Wire.read (u.pack {}).bytes = some (w, []) ∧
        Wire.read (v.pack {}).bytes = some (w', []) ∧ w.Reordered w' := by
  intro point u v
  have equal : ObjectOrder.fieldwise.structural.value u v = .eq := by
    rw [structural_fieldwise]
    have inner : (Datum.map .unordered [(.text "a", .null), (.text "b", .null)]).sortKey =
        (Datum.map .unordered [(.text "b", .null), (.text "a", .null)]).sortKey :=
      congrArg (SortKey.node 14) (ascending_of_perm (.swap _ _ []))
    have perm : (entryKeys [(.int 1, .object point),
        (.long 1, .map .unordered [(.text "a", .null), (.text "b", .null)])]).Perm
          (entryKeys [(.long 1, .map .unordered [(.text "b", .null), (.text "a", .null)]),
            (.int 1, .object point)]) := by
      simp only [entryKeys, inner]
      exact .swap _ _ []
    have keys : u.sortKey = v.sortKey :=
      congrArg (fun ks => SortKey.node 16 [.number 1, .node 0 ks]) (ascending_of_perm perm)
    exact beq_iff_eq.mp (Value.same_iff.mpr keys)
  have tree : u.wire = .map .key [(.integer 1, .payload .jblob [0x07]), (.integer 1,
      .map .unordered [(.payload .string [0x61], .nil), (.payload .string [0x62], .nil)])] := by
    apply congrArg (Wire.map .key)
    exact (MapOrder.along_pair _ _ _ _).trans (if_pos (by decide))
  have serialized : (Packable.value u).SerializedAlike .fieldwise (.value v) := by
    have left : u.objects = [point] :=
      congrArg List.flatten ((MapOrder.along_pair _ _ _ _).trans (if_pos (by decide)))
    have right : v.objects = [point] :=
      congrArg List.flatten ((MapOrder.along_pair _ _ _ _).trans (if_pos (by decide)))
    intro o p ho hp _
    have memO : o ∈ u.objects := ((mem_objects o).2 u).mpr ho
    have memP : p ∈ v.objects := ((mem_objects p).2 v).mpr hp
    rw [left, List.mem_singleton] at memO
    rw [right, List.mem_singleton] at memP
    rw [memO, memP]
  have sendable : (Packable.value u).Sendable {} := by
    constructor
    · apply error?_packArranged.mpr
      simp only [List.forall_mem_cons]
      exact ⟨⟨rfl, rfl⟩, ⟨rfl, rfl⟩, List.forall_mem_nil _⟩
    · rw [Packable.wire, tree]
      apply Wire.Fits.map (by decide)
      · simp [Wire.Fits.integer]
      · simp [Wire.Fits.payload, Wire.Fits.map, Wire.Fits.nil, MapOrder.extraEntries]
  obtain ⟨-, same⟩ := (equal_inputs_mean_the_same .fieldwise).1 u v equal
  exact ⟨(same serialized {}).length sendable, (same serialized {}).trees sendable⟩

end BinCodec
