import BinCodec.Datum.Order

/-!
# Building maps

Keys that are equal in the structural order are one key. The last value given for a key
counts. An unordered map keeps the first key that was given, at its first position. A sorted
map has ascending keys; built in one go it keeps the last of several equal keys, filled by
insertion the first. Equal keys may still differ in the insertion order of maps inside them,
which is why it matters which one is kept.

A collection carries the proof that its entries are such as it holds (`MapEntries`). In a datum
entries stand bare, because the order of keys is defined on data.
-/

namespace BinCodec.Entries

/-! ## Keys -/

section Keys

variable (cmp : Datum → Datum → Ordering)

def KeysApart (es : Entries) : Prop := es.Pairwise fun e f => cmp e.1 f.1 ≠ .eq

def KeysAscend (es : Entries) : Prop := es.Pairwise fun e f => cmp e.1 f.1 = .lt

instance (es : Entries) : Decidable (es.KeysApart cmp) := inferInstanceAs (Decidable (es.Pairwise _))

instance (es : Entries) : Decidable (es.KeysAscend cmp) :=
  inferInstanceAs (Decidable (es.Pairwise _))

variable {cmp} {es fs : Entries}

theorem KeysAscend.apart (h : es.KeysAscend cmp) : es.KeysApart cmp := by
  apply h.imp
  intro e f lt
  rw [lt]
  exact nofun

theorem KeysApart.perm [Std.OrientedCmp cmp] (h : es.KeysApart cmp) (perm : fs.Perm es) :
    fs.KeysApart cmp := by
  have symm {e f : Datum × Datum} (ne : cmp e.1 f.1 ≠ .eq) : cmp f.1 e.1 ≠ .eq :=
    fun tie => ne (Std.OrientedCmp.eq_symm tie)
  exact (perm.pairwise_iff symm).mpr h

end Keys

/-! ## Collecting -/

/-- The runs of entries with equal keys, in ascending order of keys. -/
def byKey (entries : Entries) : List Entries :=
  SortKey.runs (fun e => e.1.sortKey) entries

/-- The entry for a run of equal keys that keeps the first key. -/
def firstKeyLastValue {κ : Type} (run : List (κ × Datum)) : Option (κ × Datum) :=
  match run.head?, run.getLast? with
  | some first, some last => some (first.1, last.2)
  | _, _ => none

def unordered (entries : Entries) : Entries :=
  let placed := entries.zipIdx.map fun (e, place) => ((place, e.1), e.2)
  let runs := SortKey.runs (fun e => e.1.2.sortKey) placed
  let merged := runs.filterMap firstKeyLastValue
  (merged.mergeSort fun a b => a.1.1 ≤ b.1.1).map fun e => (e.1.2, e.2)

/-- The entries of a sorted map that is built in one go. -/
def sorted (entries : Entries) : Entries := (byKey entries).filterMap List.getLast?

/-- The entries of a sorted map that is filled by inserting one entry at a time. -/
def inserted (entries : Entries) : Entries := (byKey entries).filterMap firstKeyLastValue

theorem keeps_firstKeyLastValue {κ : Type} (key : κ → SortKey) :
    SortKey.Keeps (fun e : κ × Datum => key e.1) Prod.snd firstKeyLastValue := by
  intro run ne constant
  refine ⟨((run.head ne).1, (run.getLast ne).2), ?_, ?_, rfl⟩
  · rw [firstKeyLastValue, List.head?_eq_some_head ne, List.getLast?_eq_some_getLast ne]
  · exact constant _ (List.head_mem ne) _ (List.getLast_mem ne)

/-- Before they are put back where they were given, the entries of an unordered map ascend. -/
theorem exists_ascending_perm (es : Entries) :
    ∃ ms : Entries, ms.KeysAscend Datum.compare ∧ es.unordered.Perm ms := by
  let strip (e : (Nat × Datum) × Datum) := (e.1.2, e.2)
  refine ⟨_, ?_, (List.mergeSort_perm _ _).map strip⟩
  let placedKey (place : Nat × Datum) := place.2.sortKey
  exact List.pairwise_map.mpr ((keeps_firstKeyLastValue placedKey).ascending _)

end BinCodec.Entries

namespace BinCodec

/-- Entries collected into a map of the given kind. -/
def MapKind.collect (kind : MapKind) (entries : Entries) : Entries :=
  match kind with
  | .unordered => entries.unordered
  | .sorted => entries.sorted

/-- What a map of a kind has for entries: one for each key, in ascending order if it is sorted. -/
structure MapKind.Holds (kind : MapKind) (es : Entries) : Prop where
  apart : es.KeysApart Datum.compare
  ascending : kind = .sorted → es.KeysAscend Datum.compare

namespace MapKind

theorem holds_of_ascend {es : Entries} (h : es.KeysAscend Datum.compare) (kind : MapKind) :
    kind.Holds es := ⟨h.apart, fun _ => h⟩

theorem holds_collect (kind : MapKind) (es : Entries) : kind.Holds (kind.collect es) := by
  cases kind with
  | unordered =>
    obtain ⟨ms, ascending, perm⟩ := es.exists_ascending_perm
    exact ⟨ascending.apart.perm perm, nofun⟩
  | sorted => exact holds_of_ascend ((SortKey.keeps_getLast _ Prod.snd).ascending es) _

theorem holds_inserted (es : Entries) : sorted.Holds es.inserted :=
  holds_of_ascend ((Entries.keeps_firstKeyLastValue Datum.sortKey).ascending es) _

end MapKind

/-- A map collection on its own: its kind and its entries. -/
structure MapEntries where
  kind : MapKind
  entries : Entries
  held : kind.Holds entries

namespace MapEntries

def collect (kind : MapKind) (entries : Entries) : MapEntries :=
  ⟨kind, kind.collect entries, kind.holds_collect entries⟩

def insertAll (entries : Entries) : MapEntries :=
  ⟨.sorted, entries.inserted, MapKind.holds_inserted entries⟩

def size (m : MapEntries) : Nat := m.entries.length

def naturalOrder (m : MapEntries) : MapOrder := m.kind.order

def toDatum (m : MapEntries) : Datum := .map m.kind m.entries

def toValue (m : MapEntries) (order : MapOrder) : Value := .map m.kind m.entries order none

def sortKey (m : MapEntries) : SortKey :=
  .node m.kind.rank (m.kind.arrangeKeys (entryKeys m.entries))

/-- The order of map collections: by kind, then entry by entry. -/
def compare (a b : MapEntries) : Ordering := a.sortKey.compare b.sortKey

def same (a b : MapEntries) : Bool := a.sortKey.same b.sortKey

end MapEntries

/-- A map of the given kind from any entries. -/
def Datum.mapOf (kind : MapKind) (entries : Entries) : Datum :=
  (MapEntries.collect kind entries).toDatum

end BinCodec
