import BinCodec.Proofs.Arrangement
import BinCodec.Proofs.PackedItems
import BinCodec.Proofs.StructuralOrder

/-!
# The server's order of entries

The server's order takes the classification of a key back, then compares classes, and within
a class whatever both keys can be seen as: integers, floats, texts or bytes. Keys that have no
such view in common fall back on the structural order. `ObjectOrder.keyOrder` describes just
that, over any order of objects. It is a total preorder (`transCmp_keyOrder`), because a class
and the parts of a key (`Datum.keyParts`) decide it, and the sort keys of the packed encoding
are a case of it (`keyOrder_fieldwise`). The entries of a packed map are in the arrangement by it
(`arranged_entries`).
-/

namespace BinCodec

/-! ## The order of keys -/

namespace Datum

def keyClass : Datum → Nat
  | null => 0
  | bool _ => 1
  | int _ | long _ | byte _ | char _ => 2
  | text _ | symbol _ | uuid _ => 3
  | list _ => 4
  | map _ _ => 5
  | bytes _ | buffer _ | object _ => 6
  | double _ | float _ => 7
  | value _ => 8

def keyInteger? : Datum → Option Int
  | int n => some n.toInt
  | long n => some n.toInt
  | byte n => some n.toNat
  | char c => some c.toNat
  | _ => none

def keyFloat? : Datum → Option Binary64
  | double x => some x
  | float x => some x.widen
  | _ => none

def keyText? : Datum → Option Bytes
  | text s | symbol s => some (Bytes.ofText s)
  | uuid id => some (Bytes.ofText id.toText)
  | _ => none

def keyBytes? : Datum → Option Bytes
  | bytes b | buffer b => some b
  | _ => none

end Datum

/-- The comparison of what two keys can both be seen as, if they can. -/
def commonView {β : Type} (view : Datum → Option β) (cmp : β → β → Ordering) (a b : Datum) :
    Option Ordering :=
  match view a, view b with
  | some x, some y => some (cmp x y)
  | _, _ => none

namespace ObjectOrder

/-- The order of keys whose outermost level is not classified. -/
def plainKeyOrder (ord : ObjectOrder) (a b : Datum) : Ordering :=
  (Ord.compare a.keyClass b.keyClass).then <|
    ((commonView Datum.keyInteger? Ord.compare a b).or <|
      (commonView Datum.keyFloat? (fun x y => Ord.compare x.place y.place) a b).or <|
        (commonView Datum.keyText? Ord.compare a b).or <|
          commonView Datum.keyBytes? Ord.compare a b).getD (ord.structural.datum a b)

/-- The order of keys on the server. -/
def keyOrder (ord : ObjectOrder) (a b : Datum) : Ordering :=
  ord.plainKeyOrder a.keyForm b.keyForm

end ObjectOrder

/-- To show something of any two keys it is enough to show it where their classes differ, where
they have a view in common, and where they are of one kind without any. Bytes and an object are
of one class and have nothing in common. -/
theorem Datum.by_class {P : Datum → Datum → Prop}
    (classes : ∀ a b, a.keyClass ≠ b.keyClass → P a b)
    (integer : ∀ a b m n, a.keyInteger? = some m → b.keyInteger? = some n → P a b)
    (float : ∀ a b x y, a.keyFloat? = some x → b.keyFloat? = some y → P a b)
    (text : ∀ a b s t, a.keyText? = some s → b.keyText? = some t → P a b)
    (bytes : ∀ a b s t, a.keyBytes? = some s → b.keyBytes? = some t → P a b)
    (bytesObject : ∀ a s o, a.keyBytes? = some s → P a (.object o))
    (objectBytes : ∀ o b s, b.keyBytes? = some s → P (.object o) b)
    (object : ∀ o p, P (.object o) (.object p)) (null : P .null .null)
    (bool : ∀ a b, P (.bool a) (.bool b)) (list : ∀ xs ys, P (.list xs) (.list ys))
    (map : ∀ kind es kind' fs, P (.map kind es) (.map kind' fs))
    (value : ∀ u v, P (.value u) (.value v)) (a b : Datum) : P a b := by
  have same (h : a.keyClass = b.keyClass) : P a b := by
    cases a <;> cases b <;> first
      | exact absurd h (Nat.ne_of_beq_eq_false rfl)
      | exact null
      | exact bool _ _
      | exact list _ _
      | exact map _ _ _ _
      | exact object _ _
      | exact value _ _
      | exact integer _ _ _ _ rfl rfl
      | exact float _ _ _ _ rfl rfl
      | exact text _ _ _ _ rfl rfl
      | exact bytes _ _ _ _ rfl rfl
      | exact bytesObject _ _ _ rfl
      | exact objectBytes _ _ _ rfl
  by_cases h : a.keyClass = b.keyClass
  · exact same h
  · exact classes a b h

/-- What is compared of a key beyond its class, on top of a comparison of members. -/
def Datum.keyParts (r : Comparison) : Datum → Parts
  | .float x => { key := .number x.widen.place }
  | .uuid id => { key := .bytes (Bytes.ofText id.toText) }
  | .map kind entries => { key := .node kind.rank [], entries := r.arranged kind entries }
  | d => d.parts r

section Views

variable {ord : ObjectOrder} {r : Comparison} {a b : Datum}

theorem keyParts_of_integer {n : Int} (h : a.keyInteger? = some n) :
    a.keyClass = 2 ∧ a.keyParts r = { key := .number n } := by
  cases a <;> cases h <;> exact ⟨rfl, rfl⟩

theorem keyParts_of_float {x : Binary64} (h : a.keyFloat? = some x) :
    a.keyClass = 7 ∧ a.keyParts r = { key := .number x.place } := by
  cases a <;> cases h <;> exact ⟨rfl, rfl⟩

theorem keyParts_of_text {s : Bytes} (h : a.keyText? = some s) :
    a.keyClass = 3 ∧ a.keyParts r = { key := .bytes s } := by
  cases a with
  | text t | symbol t | uuid id =>
    rw [← Option.some.inj h]
    exact ⟨rfl, rfl⟩
  | _ => cases h

theorem keyParts_of_bytes {s : Bytes} (h : a.keyBytes? = some s) :
    a.keyClass = 6 ∧ a.keyParts r = { key := .bytes s } := by
  cases a <;> cases h <;> exact ⟨rfl, rfl⟩

theorem plainKeyOrder_of_ne (h : a.keyClass ≠ b.keyClass) :
    ord.plainKeyOrder a b = Ord.compare a.keyClass b.keyClass := compare_then_of_ne h _

theorem plainKeyOrder_of_integer {m n : Int} (ha : a.keyInteger? = some m)
    (hb : b.keyInteger? = some n) : ord.plainKeyOrder a b = Ord.compare m n := by
  cases a <;> cases ha <;> cases b <;> cases hb <;> rfl

theorem plainKeyOrder_of_float {x y : Binary64} (ha : a.keyFloat? = some x)
    (hb : b.keyFloat? = some y) : ord.plainKeyOrder a b = Ord.compare x.place y.place := by
  cases a <;> cases ha <;> cases b <;> cases hb <;> rfl

theorem plainKeyOrder_of_text {s t : Bytes} (ha : a.keyText? = some s)
    (hb : b.keyText? = some t) : ord.plainKeyOrder a b = Ord.compare s t := by
  have views : ord.plainKeyOrder a b =
      (commonView Datum.keyText? Ord.compare a b).getD .eq := by
    cases a with
    | text | symbol | uuid =>
      cases b with
      | text | symbol | uuid => rfl
      | _ => cases hb
    | _ => cases ha
  rw [views, commonView, ha, hb]
  rfl

theorem plainKeyOrder_of_bytes {s t : Bytes} (ha : a.keyBytes? = some s)
    (hb : b.keyBytes? = some t) : ord.plainKeyOrder a b = Ord.compare s t := by
  cases a <;> cases ha <;> cases b <;> cases hb <;> rfl

theorem structural_datum (a b : Datum) :
    ord.structural.datum a b = (Ord.compare a.rank b.rank).then
      (Parts.compare ord ord.structural (a.parts ord.structural) (b.parts ord.structural)) := by
  rw [ObjectOrder.structural_datum_layer, Datum.layer_eq]

theorem plainKeyOrder_of_bytes_object {s : Bytes} (h : a.keyBytes? = some s) (o : Object) :
    ord.plainKeyOrder a (.object o) = .lt ∧ ord.plainKeyOrder (.object o) a = .gt := by
  cases a <;> cases h <;> exact ⟨structural_datum _ _, structural_datum _ _⟩

end Views

theorem compare_of_views {ord : ObjectOrder} {r : Comparison} {a b : Datum} {class' : Nat}
    {k l : SortKey} (ha : a.keyClass = class' ∧ a.keyParts r = { key := k })
    (hb : b.keyClass = class' ∧ b.keyParts r = { key := l }) :
    (Ord.compare a.keyClass b.keyClass).then
      (Parts.compare ord r (a.keyParts r) (b.keyParts r)) = k.compare l := by
  rw [ha.1, ha.2, hb.1, hb.2]
  simp [Parts.compare, List.compareLex_nil_nil]

/-- The class of a key and its parts decide its order. -/
theorem plainKeyOrder_eq (ord : ObjectOrder) (a b : Datum) :
    ord.plainKeyOrder a b = (Ord.compare a.keyClass b.keyClass).then
      (Parts.compare ord ord.structural (a.keyParts ord.structural)
        (b.keyParts ord.structural)) := by
  have fallback (a b : Datum) (h : ord.plainKeyOrder a b = ord.structural.datum a b) :=
    h.trans (structural_datum a b)
  apply Datum.by_class (a := a) (b := b)
  case classes =>
    intro a b h
    rw [plainKeyOrder_of_ne h, compare_then_of_ne h]
  case integer =>
    intro a b m n ha hb
    rw [compare_of_views (keyParts_of_integer ha) (keyParts_of_integer hb), SortKey.compare]
    exact plainKeyOrder_of_integer ha hb
  case float =>
    intro a b x y ha hb
    rw [compare_of_views (keyParts_of_float ha) (keyParts_of_float hb), SortKey.compare]
    exact plainKeyOrder_of_float ha hb
  case text =>
    intro a b s t ha hb
    rw [compare_of_views (keyParts_of_text ha) (keyParts_of_text hb), SortKey.compare]
    exact plainKeyOrder_of_text ha hb
  case bytes =>
    intro a b s t ha hb
    rw [compare_of_views (keyParts_of_bytes ha) (keyParts_of_bytes hb), SortKey.compare]
    exact plainKeyOrder_of_bytes ha hb
  case bytesObject =>
    intro a s o ha
    obtain ⟨classA, partsA⟩ := keyParts_of_bytes (r := ord.structural) ha
    rw [(plainKeyOrder_of_bytes_object ha o).1, classA, partsA]
    rfl
  case objectBytes =>
    intro o b s hb
    obtain ⟨classB, partsB⟩ := keyParts_of_bytes (r := ord.structural) hb
    rw [(plainKeyOrder_of_bytes_object hb o).2, classB, partsB]
    rfl
  case map =>
    intro kind es kind' fs
    rw [fallback _ _ rfl]
    cases kind <;> cases kind' <;> rfl
  all_goals
    intros
    rw [fallback _ _ rfl]
    rfl

/-- The order of keys is a total preorder if the order of objects is. -/
theorem transCmp_keyOrder {ord : ObjectOrder} (objects : Std.TransCmp ord.cmp) :
    Std.TransCmp ord.keyOrder := by
  have classes : Std.TransCmp (Ord.compare : Nat → Nat → Ordering) := inferInstance
  have parts := Parts.transCmp_compare objects (ObjectOrder.structural_lawful objects)
  have plain := transCmp_then (transCmp_on classes Datum.keyClass)
    (transCmp_on parts (Datum.keyParts ord.structural))
  simp only [← plainKeyOrder_eq] at plain
  exact transCmp_on plain Datum.keyForm

/-! ## Sort keys -/

section Keys

variable {d : Datum}

theorem plainServerKey_node (d : Datum) :
    ∃ parts, d.plainServerKey = .node d.keyClass parts := by
  cases d <;> exact ⟨_, rfl⟩

theorem plainServerKey_of_integer {n : Int} (h : d.keyInteger? = some n) :
    d.plainServerKey = .node 2 [.number n] := by
  cases d <;> cases h <;> rfl

theorem plainServerKey_of_float {x : Binary64} (h : d.keyFloat? = some x) :
    d.plainServerKey = .node 7 [.number x.place] := by
  cases d <;> cases h <;> rfl

theorem plainServerKey_of_text {s : Bytes} (h : d.keyText? = some s) :
    d.plainServerKey = .node 3 [.bytes s] := by
  cases d with
  | text | symbol | uuid =>
    rw [← Option.some.inj h]
    rfl
  | _ => cases h

theorem plainServerKey_of_bytes {s : Bytes} (h : d.keyBytes? = some s) :
    d.plainServerKey = .node 6 [.number 0, .bytes s] := by
  cases d <;> cases h <;> rfl

theorem plainKeyOrder_fieldwise (a b : Datum) :
    ObjectOrder.fieldwise.plainKeyOrder a b = a.plainServerKey.compare b.plainServerKey := by
  have fallback (a b : Datum)
      (h : ObjectOrder.fieldwise.plainKeyOrder a b = ObjectOrder.fieldwise.structural.datum a b) :
      ObjectOrder.fieldwise.plainKeyOrder a b = a.compare b := by
    rw [h, structural_fieldwise]
    rfl
  apply Datum.by_class (a := a) (b := b)
  case classes =>
    intro a b h
    obtain ⟨ps, ha⟩ := plainServerKey_node a
    obtain ⟨qs, hb⟩ := plainServerKey_node b
    rw [plainKeyOrder_of_ne h, ha, hb, SortKey.compare, compare_then_of_ne h]
  case integer =>
    intro a b m n ha hb
    rw [plainKeyOrder_of_integer ha hb, plainServerKey_of_integer ha, plainServerKey_of_integer hb]
    simp [SortKey.compare, SortKey.compareAll]
  case float =>
    intro a b x y ha hb
    rw [plainKeyOrder_of_float ha hb, plainServerKey_of_float ha, plainServerKey_of_float hb]
    simp [SortKey.compare, SortKey.compareAll]
  case text =>
    intro a b s t ha hb
    rw [plainKeyOrder_of_text ha hb, plainServerKey_of_text ha, plainServerKey_of_text hb]
    simp [SortKey.compare, SortKey.compareAll]
  case bytes =>
    intro a b s t ha hb
    rw [plainKeyOrder_of_bytes ha hb, plainServerKey_of_bytes ha, plainServerKey_of_bytes hb]
    simp [SortKey.compare, SortKey.compareAll]
  case bytesObject =>
    intro a s o ha
    rw [(plainKeyOrder_of_bytes_object ha o).1, plainServerKey_of_bytes ha]
    rfl
  case objectBytes =>
    intro o b s hb
    rw [(plainKeyOrder_of_bytes_object hb o).2, plainServerKey_of_bytes hb]
    rfl
  case map =>
    intro kind es kind' fs
    rw [fallback _ _ rfl]
    simp [Datum.compare, Datum.plainServerKey, SortKey.compare, SortKey.compareAll]
  all_goals
    intros
    rw [fallback _ _ rfl]
    simp [Datum.compare, Datum.plainServerKey, Datum.sortKey, SortKey.compare, SortKey.compareAll]

/-- The sort keys of the packed encoding order keys as the server does, for objects that are
ordered field by field. -/
theorem keyOrder_fieldwise : ObjectOrder.fieldwise.keyOrder = Datum.serverCompare := by
  funext a b
  exact plainKeyOrder_fieldwise a.keyForm b.keyForm

end Keys

/-! ## Keys in ascending order -/

theorem SortKey.compare_antisymm {k l : SortKey} (h : (k.compare l).isLE) (h' : (l.compare k).isLE) :
    k = l := SortKey.eq_of_compare (Std.OrientedCmp.isLE_antisymm h h')

theorem ascending_of_perm {ks ls : List SortKey} (h : ks.Perm ls) : ascending ks = ascending ls := by
  have trans : Std.TransCmp SortKey.compare := inferInstance
  have sorted (ks : List SortKey) : Arranged SortKey.compare ks (ascending ks) :=
    arranged_mergeSort trans ks
  have perm : (ascending ks).Perm (ascending ls) :=
    (sorted ks).perm.trans (h.trans (sorted ls).perm.symm)
  exact perm.eq_of_pairwise (fun _ _ _ _ => SortKey.compare_antisymm) (sorted ks).ascending
    (sorted ls).ascending

/-! ## The order of entries -/

/-- The comparison of entries under a map order: nothing, the keys, or the keys and then the
values. -/
def MapOrder.compareEntries (order : MapOrder) (cmp : Datum → Datum → Ordering)
    (e f : Datum × Datum) : Ordering :=
  match order with
  | .unordered => .eq
  | .key => cmp e.1 f.1
  | .keyValue => (cmp e.1 f.1).then (cmp e.2 f.2)

theorem transCmp_compareEntries {cmp : Datum → Datum → Ordering} (h : Std.TransCmp cmp)
    (order : MapOrder) : Std.TransCmp (order.compareEntries cmp) := by
  cases order with
  | unordered =>
    exact
      { eq_swap := rfl
        isLE_trans := fun _ _ => rfl }
  | key => exact transCmp_on h Prod.fst
  | keyValue => exact transCmp_then (transCmp_on h Prod.fst) (transCmp_on h Prod.snd)

theorem SortKey.sortOn_eq_mergeSort {α : Type} (key : α → SortKey) (xs : List α) :
    SortKey.sortOn key xs = xs.mergeSort fun a b => ((key a).compare (key b)).isLE := by
  have sorted := List.map_mergeSort (f := fun x => (key x, x)) (l := xs)
    (r := fun a b => ((key a).compare (key b)).isLE)
    (s := fun a b : SortKey × α => (a.1.compare b.1).isLE) fun _ _ _ _ => rfl
  rw [SortKey.sortOn, SortKey.keyed, ← sorted, List.map_map]
  exact List.map_id _

/-- The entries of a map are packed in their arrangement. -/
theorem arranged_entries (order : MapOrder) (es : Entries) :
    Arranged (order.compareEntries Datum.serverCompare) es (order.entries es) := by
  have server : Std.TransCmp Datum.serverCompare := inferInstance
  apply (arranged_iff (transCmp_compareEntries server order)).mpr
  cases order with
  | unordered =>
    have ascending : es.Pairwise fun _ _ => Ordering.isLE .eq :=
      List.pairwise_of_forall fun _ _ => rfl
    exact (List.mergeSort_of_pairwise ascending).symm
  | key => exact SortKey.sortOn_eq_mergeSort _ es
  | keyValue =>
    have compare (e f : Datum × Datum) :
        (MapOrder.entryKey .keyValue e).compare (MapOrder.entryKey .keyValue f) =
          MapOrder.compareEntries .keyValue Datum.serverCompare e f := by
      simp [MapOrder.entryKey, MapOrder.compareEntries, SortKey.compare, SortKey.compareAll,
        Datum.serverCompare]
    simp only [← compare]
    exact SortKey.sortOn_eq_mergeSort _ es

end BinCodec
