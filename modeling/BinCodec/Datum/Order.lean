import BinCodec.Datum
import BinCodec.Float.TotalOrder

/-!
# The structural order

Data and values are ordered by kind and then by content: floats by the IEEE total order,
texts and bytes byte by byte, lists item by item, sorted maps entry by entry in iteration
order. An unordered map counts as the sorted sequence of its entries, so its insertion order
does not matter. The order is given by sort keys, which leave caches out.

Equality of data is equality in this order. Since unequal kinds never compare equal, the
integer 1 and the long 1 are different data.
-/

namespace BinCodec

/-- Keys in ascending order. -/
def ascending (keys : List SortKey) : List SortKey :=
  keys.mergeSort fun a b => (a.compare b).isLE

/-- The keys of map entries as they count for comparison: in iteration order for a sorted
map, in ascending order for an unordered one. -/
def MapKind.arrangeKeys (kind : MapKind) (keys : List SortKey) : List SortKey :=
  match kind with
  | .unordered => ascending keys
  | .sorted => keys

mutual

def Datum.sortKey : Datum → SortKey
  | .null => .node 0 []
  | .value v => .node 1 [v.sortKey]
  | .bytes b => .node 2 [.bytes b]
  | .text s => .node 3 [.bytes (Bytes.ofText s)]
  | .int n => .node 4 [.number n.toInt]
  | .long n => .node 5 [.number n.toInt]
  | .double x => .node 6 [.number x.place]
  | .float x => .node 7 [.number x.place]
  | .bool b => .node 8 [.number b.toInt]
  | .byte n => .node 9 [.number n.toNat]
  | .char c => .node 10 [.number c.toNat]
  | .symbol s => .node 11 [.bytes (Bytes.ofText s)]
  | .uuid id => .node 12 [.number id.bits.toNat]
  | .list items => .node 13 (itemKeys items)
  | .map .unordered entries => .node 14 (ascending (entryKeys entries))
  | .map .sorted entries => .node 15 (entryKeys entries)
  | .buffer b => .node 16 [.bytes b]
  | .object o => .node 17 [o.sortKey]

def Value.sortKey : Value → SortKey
  | .null => .node 0 []
  | .bytes b particle => .node 1 [.number particle.code.toNat, .bytes b]
  | .segment b => .node 2 [.bytes b]
  | .byte n => .node 3 [.number n.toNat]
  | .text s => .node 4 [.bytes (Bytes.ofText s)]
  | .int n => .node 5 [.number n.toInt]
  | .long n => .node 6 [.number n.toInt]
  | .double x => .node 7 [.number x.place]
  | .float x => .node 8 [.number x.place]
  | .bool b => .node 9 [.number b.toInt]
  | .boolInt b => .node 10 [.number b.toInt]
  | .blob o _ => .node 11 [o.sortKey]
  | .geoJson s => .node 12 [.bytes (Bytes.ofText s)]
  | .hll b => .node 13 [.bytes b]
  | .array values _ => .node 14 (valueKeys values)
  | .list items _ => .node 15 (itemKeys items)
  | .map kind entries order _ =>
    .node 16 [.number order.rank, .node kind.rank (kind.arrangeKeys (entryKeys entries))]
  | .entryList entries order _ => .node 17 [.number order.rank, .node 0 (entryKeys entries)]
  | .infinity => .node 18 []
  | .wildcard => .node 19 []

def itemKeys : List Datum → List SortKey
  | [] => []
  | x :: xs => x.sortKey :: itemKeys xs

def valueKeys : List Value → List SortKey
  | [] => []
  | v :: vs => v.sortKey :: valueKeys vs

def entryKeys : List (Datum × Datum) → List SortKey
  | [] => []
  | (k, v) :: es => .node 0 [k.sortKey, v.sortKey] :: entryKeys es

end

/-- The structural order of data. -/
def Datum.compare (a b : Datum) : Ordering := a.sortKey.compare b.sortKey

def Datum.same (a b : Datum) : Bool := a.sortKey.same b.sortKey

def Value.compare (a b : Value) : Ordering := a.sortKey.compare b.sortKey

def Value.same (a b : Value) : Bool := a.sortKey.same b.sortKey

instance : Std.TransCmp Datum.compare where
  eq_swap := SortKey.compare_swap _ _
  isLE_trans := SortKey.isLE_trans

instance : Std.TransCmp Value.compare where
  eq_swap := SortKey.compare_swap _ _
  isLE_trans := SortKey.isLE_trans

theorem Datum.same_iff {a b : Datum} : a.same b = true ↔ a.sortKey = b.sortKey :=
  SortKey.same_iff

theorem Value.same_iff {a b : Value} : a.same b = true ↔ a.sortKey = b.sortKey :=
  SortKey.same_iff

end BinCodec
