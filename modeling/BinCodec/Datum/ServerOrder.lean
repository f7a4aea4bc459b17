import BinCodec.Classify

/-!
# The server's order of map keys

The server sorts map keys by class: null, booleans, integers, texts, lists, maps, bytes, then
floats. Integers compare by value whatever their width, texts and bytes byte by byte, floats
by the total order of their 64-bit widening. A classified key counts as the datum it stands
for. Lists and maps compare in the structural order, and opaque objects come after all bytes.
-/

namespace BinCodec

namespace Datum

/-- A key with the classification of its outermost level taken back. -/
def keyForm : Datum → Datum
  | value (.segment b) => .bytes b
  | value v => v.toDatum
  | d => d

/-- The sort key of a key whose outermost level is not classified. -/
def plainServerKey : Datum → SortKey
  | null => .node 0 []
  | bool b => .node 1 [.number b.toInt]
  | int n => .node 2 [.number n.toInt]
  | long n => .node 2 [.number n.toInt]
  | byte n => .node 2 [.number n.toNat]
  | char c => .node 2 [.number c.toNat]
  | text s => .node 3 [.bytes (Bytes.ofText s)]
  | symbol s => .node 3 [.bytes (Bytes.ofText s)]
  | uuid id => .node 3 [.bytes (Bytes.ofText id.toText)]
  | list items => .node 4 (itemKeys items)
  | map kind entries => .node 5 [(map kind entries).sortKey]
  | bytes b => .node 6 [.number 0, .bytes b]
  | buffer b => .node 6 [.number 0, .bytes b]
  | object o => .node 6 [.number 1, o.sortKey]
  | double x => .node 7 [.number x.place]
  | float x => .node 7 [.number x.widen.place]
  | value v => .node 8 [v.sortKey]

def serverKey (d : Datum) : SortKey := d.keyForm.plainServerKey

def serverCompare (a b : Datum) : Ordering := a.serverKey.compare b.serverKey

instance : Std.TransCmp serverCompare where
  eq_swap := SortKey.compare_swap _ _
  isLE_trans := SortKey.isLE_trans

end Datum

/-- What an entry is sorted by under a map order: nothing, its key, or its key and value. -/
def MapOrder.entryKey (order : MapOrder) (entry : Datum × Datum) : SortKey :=
  match order with
  | .unordered => .node 0 []
  | .key => entry.1.serverKey
  | .keyValue => .node 0 [entry.1.serverKey, entry.2.serverKey]

/-- Elements that stand for entries, in the order in which the server wants the entries.
Entries that tie keep their order. -/
def MapOrder.arrange {α : Type} (order : MapOrder) (entry : α → Datum × Datum) (xs : List α) :
    List α :=
  match order with
  | .unordered => xs
  | .key | .keyValue => SortKey.sortOn (fun x => order.entryKey (entry x)) xs

end BinCodec
