import BinCodec.Datum.Order
import BinCodec.Proofs.CacheErasure
import BinCodec.Proofs.ObjectOrder

/-!
# The structural order

Data and values are compared kind by kind, and the members of a collection by the very order
that is being defined; an unordered map even sorts its entries by it first. `Datum.layer` and
`Value.layer` are one layer of that recursion, over any comparison of the members. Iterating
them from the comparison that tells nothing apart gives the order, which is reached as soon as
there are as many layers as the data are deep (`level_agree`). A layer over a total order is a
total order (`lawful_next`), hence the order is one (`structural_lawful`).
-/

namespace BinCodec

structure Comparison where
  datum : Datum → Datum → Ordering
  value : Value → Value → Ordering

/-! ## One layer -/

def Datum.rank : Datum → Nat
  | .null => 0
  | .value _ => 1
  | .bytes _ => 2
  | .text _ => 3
  | .int _ => 4
  | .long _ => 5
  | .double _ => 6
  | .float _ => 7
  | .bool _ => 8
  | .byte _ => 9
  | .char _ => 10
  | .symbol _ => 11
  | .uuid _ => 12
  | .list _ => 13
  | .map .unordered _ => 14
  | .map .sorted _ => 15
  | .buffer _ => 16
  | .object _ => 17

def Value.rank : Value → Nat
  | .null => 0
  | .bytes _ _ => 1
  | .segment _ => 2
  | .byte _ => 3
  | .text _ => 4
  | .int _ => 5
  | .long _ => 6
  | .double _ => 7
  | .float _ => 8
  | .bool _ => 9
  | .boolInt _ => 10
  | .blob _ _ => 11
  | .geoJson _ => 12
  | .hll _ => 13
  | .array _ _ => 14
  | .list _ _ => 15
  | .map _ _ _ _ => 16
  | .entryList _ _ _ => 17
  | .infinity => 18
  | .wildcard => 19

namespace Comparison

def entry (r : Comparison) (e f : Datum × Datum) : Ordering :=
  (r.datum e.1 f.1).then (r.datum e.2 f.2)

def sorted (r : Comparison) (entries : Entries) : Entries :=
  entries.mergeSort fun e f => (r.entry e f).isLE

/-- Unordered maps are compared by their sorted entries. -/
def unordered (r : Comparison) (es fs : Entries) : Ordering :=
  List.compareLex r.entry (r.sorted es) (r.sorted fs)

/-- Map collections are compared by their kinds and then by their entries. -/
def collection (r : Comparison) (kind : MapKind) (es : Entries) (kind' : MapKind)
    (fs : Entries) : Ordering :=
  match kind, kind' with
  | .unordered, .unordered => r.unordered es fs
  | .sorted, .sorted => List.compareLex r.entry es fs
  | .unordered, .sorted => .lt
  | .sorted, .unordered => .gt

end Comparison

/-- Compares data whose members are compared by the given comparison. -/
def Datum.layer (ord : ObjectOrder) (r : Comparison) : Datum → Datum → Ordering
  | .value a, .value b => r.value a b
  | .bytes a, .bytes b => Ord.compare a b
  | .text a, .text b => Ord.compare (Bytes.ofText a) (Bytes.ofText b)
  | .int a, .int b => Ord.compare a.toInt b.toInt
  | .long a, .long b => Ord.compare a.toInt b.toInt
  | .double a, .double b => Ord.compare a.place b.place
  | .float a, .float b => Ord.compare a.place b.place
  | .bool a, .bool b => Ord.compare a.toInt b.toInt
  | .byte a, .byte b => Ord.compare (a.toNat : Int) b.toNat
  | .char a, .char b => Ord.compare (a.toNat : Int) b.toNat
  | .symbol a, .symbol b => Ord.compare (Bytes.ofText a) (Bytes.ofText b)
  | .uuid a, .uuid b => Ord.compare (a.bits.toNat : Int) b.bits.toNat
  | .list a, .list b => List.compareLex r.datum a b
  | .map .unordered a, .map .unordered b => r.unordered a b
  | .map .sorted a, .map .sorted b => List.compareLex r.entry a b
  | .buffer a, .buffer b => Ord.compare a b
  | .object a, .object b => ord.cmp a b
  | a, b => Ord.compare a.rank b.rank

def Value.layer (ord : ObjectOrder) (r : Comparison) : Value → Value → Ordering
  | .bytes a p, .bytes b q =>
    (Ord.compare (p.code.toNat : Int) q.code.toNat).then (Ord.compare a b)
  | .segment a, .segment b => Ord.compare a b
  | .byte a, .byte b => Ord.compare (a.toNat : Int) b.toNat
  | .text a, .text b => Ord.compare (Bytes.ofText a) (Bytes.ofText b)
  | .int a, .int b => Ord.compare a.toInt b.toInt
  | .long a, .long b => Ord.compare a.toInt b.toInt
  | .double a, .double b => Ord.compare a.place b.place
  | .float a, .float b => Ord.compare a.place b.place
  | .bool a, .bool b => Ord.compare a.toInt b.toInt
  | .boolInt a, .boolInt b => Ord.compare a.toInt b.toInt
  | .blob a _, .blob b _ => ord.cmp a b
  | .geoJson a, .geoJson b => Ord.compare (Bytes.ofText a) (Bytes.ofText b)
  | .hll a, .hll b => Ord.compare a b
  | .array a _, .array b _ => List.compareLex r.value a b
  | .list a _, .list b _ => List.compareLex r.datum a b
  | .map kind a order _, .map kind' b order' _ =>
    (Ord.compare (order.rank : Int) order'.rank).then (r.collection kind a kind' b)
  | .entryList a order _, .entryList b order' _ =>
    (Ord.compare (order.rank : Int) order'.rank).then (List.compareLex r.entry a b)
  | a, b => Ord.compare a.rank b.rank

/-- One more layer on top of a comparison. -/
def Comparison.next (ord : ObjectOrder) (r : Comparison) : Comparison :=
  ⟨Datum.layer ord r, Value.layer ord r⟩

/-! ## Kind first, then content -/

/-- To show something of any two data it is enough to show it where their ranks differ and
where their kinds are the same. -/
theorem Datum.by_kind {P : Datum → Datum → Prop} (ranks : ∀ a b, a.rank ≠ b.rank → P a b)
    (null : P .null .null) (value : ∀ u v, P (.value u) (.value v))
    (bytes : ∀ a b, P (.bytes a) (.bytes b)) (text : ∀ s t, P (.text s) (.text t))
    (int : ∀ m n, P (.int m) (.int n)) (long : ∀ m n, P (.long m) (.long n))
    (double : ∀ x y, P (.double x) (.double y)) (float : ∀ x y, P (.float x) (.float y))
    (bool : ∀ a b, P (.bool a) (.bool b)) (byte : ∀ m n, P (.byte m) (.byte n))
    (char : ∀ c d, P (.char c) (.char d)) (symbol : ∀ s t, P (.symbol s) (.symbol t))
    (uuid : ∀ i j, P (.uuid i) (.uuid j)) (list : ∀ xs ys, P (.list xs) (.list ys))
    (unordered : ∀ es fs, P (.map .unordered es) (.map .unordered fs))
    (sorted : ∀ es fs, P (.map .sorted es) (.map .sorted fs))
    (buffer : ∀ a b, P (.buffer a) (.buffer b))
    (object : ∀ o p, P (.object o) (.object p)) (a b : Datum) : P a b := by
  have same (h : a.rank = b.rank) : P a b := by
    (cases a <;> try cases ‹MapKind›) <;> (cases b <;> try cases ‹MapKind›) <;> first
      | exact absurd h (Nat.ne_of_beq_eq_false rfl)
      | exact null
      | exact value _ _
      | exact bytes _ _
      | exact text _ _
      | exact int _ _
      | exact long _ _
      | exact double _ _
      | exact float _ _
      | exact bool _ _
      | exact byte _ _
      | exact char _ _
      | exact symbol _ _
      | exact uuid _ _
      | exact list _ _
      | exact unordered _ _
      | exact sorted _ _
      | exact buffer _ _
      | exact object _ _
  by_cases h : a.rank = b.rank
  · exact same h
  · exact ranks a b h

theorem Value.by_kind {P : Value → Value → Prop} (ranks : ∀ u v, u.rank ≠ v.rank → P u v)
    (null : P .null .null) (bytes : ∀ a p b q, P (.bytes a p) (.bytes b q))
    (segment : ∀ a b, P (.segment a) (.segment b)) (byte : ∀ m n, P (.byte m) (.byte n))
    (text : ∀ s t, P (.text s) (.text t)) (int : ∀ m n, P (.int m) (.int n))
    (long : ∀ m n, P (.long m) (.long n)) (double : ∀ x y, P (.double x) (.double y))
    (float : ∀ x y, P (.float x) (.float y)) (bool : ∀ a b, P (.bool a) (.bool b))
    (boolInt : ∀ a b, P (.boolInt a) (.boolInt b))
    (blob : ∀ o c p d, P (.blob o c) (.blob p d))
    (geoJson : ∀ s t, P (.geoJson s) (.geoJson t)) (hll : ∀ a b, P (.hll a) (.hll b))
    (array : ∀ us c vs d, P (.array us c) (.array vs d))
    (list : ∀ xs c ys d, P (.list xs c) (.list ys d))
    (map : ∀ kind es order c kind' fs order' d, P (.map kind es order c) (.map kind' fs order' d))
    (entryList : ∀ es order c fs order' d, P (.entryList es order c) (.entryList fs order' d))
    (infinity : P .infinity .infinity) (wildcard : P .wildcard .wildcard) (u v : Value) :
    P u v := by
  have same (h : u.rank = v.rank) : P u v := by
    cases u <;> cases v <;> first
      | exact absurd h (Nat.ne_of_beq_eq_false rfl)
      | exact null
      | exact bytes _ _ _ _
      | exact segment _ _
      | exact byte _ _
      | exact text _ _
      | exact int _ _
      | exact long _ _
      | exact double _ _
      | exact float _ _
      | exact bool _ _
      | exact boolInt _ _
      | exact blob _ _ _ _
      | exact geoJson _ _
      | exact hll _ _
      | exact array _ _ _ _
      | exact list _ _ _ _
      | exact map _ _ _ _ _ _ _ _
      | exact entryList _ _ _ _ _ _
      | exact infinity
      | exact wildcard
  by_cases h : u.rank = v.rank
  · exact same h
  · exact ranks u v h

/-- What is compared of a datum or value beyond its kind. Whatever a kind does not have stays
empty. -/
structure Parts where
  key : SortKey := .node 0 []
  values : List Value := []
  objects : List Object := []
  items : List Datum := []
  entries : Entries := []

/-- Part after part, the members by the given comparison. -/
def Parts.compare (ord : ObjectOrder) (r : Comparison) (p q : Parts) : Ordering :=
  (p.key.compare q.key).then <| (List.compareLex r.value p.values q.values).then <|
    (List.compareLex ord.cmp p.objects q.objects).then <|
      (List.compareLex r.datum p.items q.items).then (List.compareLex r.entry p.entries q.entries)

def Comparison.arranged (r : Comparison) (kind : MapKind) (entries : Entries) : Entries :=
  match kind with
  | .unordered => r.sorted entries
  | .sorted => entries

def Datum.parts (r : Comparison) : Datum → Parts
  | .null => {}
  | .value v => { values := [v] }
  | .bytes b | .buffer b => { key := .bytes b }
  | .text s | .symbol s => { key := .bytes (Bytes.ofText s) }
  | .int n => { key := .number n.toInt }
  | .long n => { key := .number n.toInt }
  | .double x => { key := .number x.place }
  | .float x => { key := .number x.place }
  | .bool b => { key := .number b.toInt }
  | .byte n => { key := .number n.toNat }
  | .char c => { key := .number c.toNat }
  | .uuid id => { key := .number id.bits.toNat }
  | .list items => { items := items }
  | .map kind entries => { entries := r.arranged kind entries }
  | .object o => { objects := [o] }

def Value.parts (r : Comparison) : Value → Parts
  | .null | .infinity | .wildcard => {}
  | .bytes b particle => { key := .node 0 [.number particle.code.toNat, .bytes b] }
  | .segment b | .hll b => { key := .bytes b }
  | .byte n => { key := .number n.toNat }
  | .text s | .geoJson s => { key := .bytes (Bytes.ofText s) }
  | .int n => { key := .number n.toInt }
  | .long n => { key := .number n.toInt }
  | .double x => { key := .number x.place }
  | .float x => { key := .number x.place }
  | .bool b | .boolInt b => { key := .number b.toInt }
  | .blob o _ => { objects := [o] }
  | .array values _ => { values := values }
  | .list items _ => { items := items }
  | .map kind entries order _ =>
    { key := .node 0 [.number order.rank, .node kind.rank []], entries := r.arranged kind entries }
  | .entryList entries order _ => { key := .number order.rank, entries := entries }

section Layer

variable {ord : ObjectOrder} {r : Comparison}

theorem Datum.layer_of_ne {a b : Datum} (h : a.rank ≠ b.rank) :
    Datum.layer ord r a b = Ord.compare a.rank b.rank := by
  unfold Datum.layer
  split <;> first | rfl | exact absurd rfl h

theorem Value.layer_of_ne {u v : Value} (h : u.rank ≠ v.rank) :
    Value.layer ord r u v = Ord.compare u.rank v.rank := by
  unfold Value.layer
  split <;> first | rfl | exact absurd rfl h

theorem compare_then_of_ne {m n : Nat} (h : m ≠ n) (o : Ordering) :
    (Ord.compare m n).then o = Ord.compare m n := by
  cases hc : Ord.compare m n with
  | eq => exact absurd (Std.LawfulEqCmp.eq_of_compare hc) h
  | lt => rfl
  | gt => rfl

theorem compareLex_singleton {α : Type} (cmp : α → α → Ordering) (a b : α) :
    List.compareLex cmp [a] [b] = cmp a b := by
  rw [List.compareLex_cons_cons, List.compareLex_nil_nil, Ordering.then_eq]

theorem Datum.layer_eq (a b : Datum) : Datum.layer ord r a b =
    (Ord.compare a.rank b.rank).then (Parts.compare ord r (a.parts r) (b.parts r)) := by
  apply Datum.by_kind (a := a) (b := b)
  case ranks =>
    intro a b h
    rw [layer_of_ne h, compare_then_of_ne h]
  all_goals
    intros
    simp [layer, parts, rank, Parts.compare, SortKey.compare, SortKey.compareAll,
      Comparison.unordered, Comparison.arranged, compareLex_singleton, List.compareLex_nil_nil]

theorem Comparison.collection_eq (kind : MapKind) (es : Entries) (kind' : MapKind)
    (fs : Entries) : r.collection kind es kind' fs = (Ord.compare kind.rank kind'.rank).then
      (List.compareLex r.entry (r.arranged kind es) (r.arranged kind' fs)) := by
  cases kind <;> cases kind' <;> rfl

theorem Value.layer_eq (u v : Value) : Value.layer ord r u v =
    (Ord.compare u.rank v.rank).then (Parts.compare ord r (u.parts r) (v.parts r)) := by
  apply Value.by_kind (u := u) (v := v)
  case ranks =>
    intro u v h
    rw [layer_of_ne h, compare_then_of_ne h]
  all_goals
    intros
    simp [layer, parts, rank, Parts.compare, SortKey.compare, SortKey.compareAll,
      Comparison.collection_eq, compareLex_singleton, List.compareLex_nil_nil, Ordering.then_assoc]

end Layer

/-! ## Laws of a layer -/

theorem transCmp_then {α : Type} {cmp cmp' : α → α → Ordering} (h : Std.TransCmp cmp)
    (h' : Std.TransCmp cmp') : Std.TransCmp fun a b => (cmp a b).then (cmp' a b) :=
  inferInstanceAs (Std.TransCmp (compareLex cmp cmp'))

theorem transCmp_on {α β : Type} {cmp : β → β → Ordering} (h : Std.TransCmp cmp) (f : α → β) :
    Std.TransCmp fun a b => cmp (f a) (f b) where
  eq_swap := h.eq_swap
  isLE_trans := h.isLE_trans

theorem transCmp_list {α : Type} {cmp : α → α → Ordering} (h : Std.TransCmp cmp) :
    Std.TransCmp (List.compareLex cmp) := inferInstance

structure Comparison.Lawful (r : Comparison) : Prop where
  datum : Std.TransCmp r.datum
  value : Std.TransCmp r.value

section Laws

variable {ord : ObjectOrder} {r : Comparison}

theorem Comparison.transCmp_entry (lawful : r.Lawful) : Std.TransCmp r.entry :=
  transCmp_then (transCmp_on lawful.datum Prod.fst) (transCmp_on lawful.datum Prod.snd)

theorem Parts.transCmp_compare (objects : Std.TransCmp ord.cmp) (lawful : r.Lawful) :
    Std.TransCmp (Parts.compare ord r) := by
  have key : Std.TransCmp SortKey.compare := inferInstance
  unfold Parts.compare
  apply transCmp_then (transCmp_on key Parts.key)
  apply transCmp_then (transCmp_on (transCmp_list lawful.value) Parts.values)
  apply transCmp_then (transCmp_on (transCmp_list objects) Parts.objects)
  apply transCmp_then (transCmp_on (transCmp_list lawful.datum) Parts.items)
  exact transCmp_on (transCmp_list (Comparison.transCmp_entry lawful)) Parts.entries

/-- A layer over a total order is a total order. -/
theorem Comparison.lawful_next (objects : Std.TransCmp ord.cmp) (lawful : r.Lawful) :
    (r.next ord).Lawful := by
  have ranks : Std.TransCmp (Ord.compare : Nat → Nat → Ordering) := inferInstance
  have parts := Parts.transCmp_compare objects lawful
  constructor
  · have h := transCmp_then (transCmp_on ranks Datum.rank) (transCmp_on parts (Datum.parts r))
    simp only [← Datum.layer_eq] at h
    exact h
  · have h := transCmp_then (transCmp_on ranks Value.rank) (transCmp_on parts (Value.parts r))
    simp only [← Value.layer_eq] at h
    exact h

end Laws

/-! ## Depth -/

mutual

/-- How deep the members of a datum nest, itself included. -/
def Datum.depth : Datum → Nat
  | .value v => v.depth + 1
  | .list items => depthItems items + 1
  | .map _ entries => depthEntries entries + 1
  | _ => 1

def Value.depth : Value → Nat
  | .array values _ => depthValues values + 1
  | .list items _ => depthItems items + 1
  | .map _ entries _ _ => depthEntries entries + 1
  | .entryList entries _ _ => depthEntries entries + 1
  | _ => 1

def depthItems : List Datum → Nat
  | [] => 0
  | x :: xs => max x.depth (depthItems xs)

def depthValues : List Value → Nat
  | [] => 0
  | v :: vs => max v.depth (depthValues vs)

def depthEntries : List (Datum × Datum) → Nat
  | [] => 0
  | (k, v) :: es => max (max k.depth v.depth) (depthEntries es)

end

theorem depth_le_items {xs : List Datum} {x : Datum} (hx : x ∈ xs) : x.depth ≤ depthItems xs := by
  induction xs with
  | nil => cases hx
  | cons y ys ih =>
    rw [depthItems]
    rcases List.mem_cons.mp hx with rfl | hx
    · exact Nat.le_max_left _ _
    · exact Nat.le_trans (ih hx) (Nat.le_max_right _ _)

theorem depth_le_values {vs : List Value} {v : Value} (hv : v ∈ vs) :
    v.depth ≤ depthValues vs := by
  induction vs with
  | nil => cases hv
  | cons w ws ih =>
    rw [depthValues]
    rcases List.mem_cons.mp hv with rfl | hv
    · exact Nat.le_max_left _ _
    · exact Nat.le_trans (ih hv) (Nat.le_max_right _ _)

theorem depth_le_entries {es : Entries} {e : Datum × Datum} (he : e ∈ es) :
    e.1.depth ≤ depthEntries es ∧ e.2.depth ≤ depthEntries es := by
  induction es with
  | nil => cases he
  | cons f fs ih =>
    rw [depthEntries]
    rcases List.mem_cons.mp he with rfl | he
    · omega
    · have := ih he
      omega

theorem Datum.depth_pos (d : Datum) : 0 < d.depth := by
  cases d <;> exact Nat.succ_pos _

theorem Value.depth_pos (v : Value) : 0 < v.depth := by
  cases v <;> exact Nat.succ_pos _

/-- Members that nest no deeper than a number of layers. -/
structure Parts.Within (n : Nat) (p : Parts) : Prop where
  values : ∀ v ∈ p.values, v.depth ≤ n
  items : ∀ x ∈ p.items, x.depth ≤ n
  entries : ∀ e ∈ p.entries, e.1.depth ≤ n ∧ e.2.depth ≤ n

/-- Two comparisons that agree on what nests no deeper than a number of layers. -/
structure Comparison.Agree (n : Nat) (r s : Comparison) : Prop where
  datum : ∀ a b : Datum, a.depth ≤ n → b.depth ≤ n → r.datum a b = s.datum a b
  value : ∀ u v : Value, u.depth ≤ n → v.depth ≤ n → r.value u v = s.value u v

section Depth

variable {ord : ObjectOrder} {r s : Comparison} {n : Nat}

theorem compareLex_congr {α : Type} {cmp cmp' : α → α → Ordering} {xs ys : List α}
    (h : ∀ x ∈ xs, ∀ y ∈ ys, cmp x y = cmp' x y) :
    List.compareLex cmp xs ys = List.compareLex cmp' xs ys := by
  induction xs generalizing ys with
  | nil => cases ys <;> rfl
  | cons x xs ih =>
    cases ys with
    | nil => rfl
    | cons y ys =>
      rw [List.compareLex_cons_cons, List.compareLex_cons_cons,
        h x List.mem_cons_self y List.mem_cons_self,
        ih fun z hz w hw => h z (List.mem_cons_of_mem x hz) w (List.mem_cons_of_mem y hw)]

theorem Comparison.Agree.entry (h : r.Agree n s) {e f : Datum × Datum}
    (he : e.1.depth ≤ n ∧ e.2.depth ≤ n) (hf : f.1.depth ≤ n ∧ f.2.depth ≤ n) :
    r.entry e f = s.entry e f := by
  rw [Comparison.entry, Comparison.entry, h.datum _ _ he.1 hf.1, h.datum _ _ he.2 hf.2]

theorem Comparison.Agree.arranged (h : r.Agree n s) {es : Entries}
    (within : ∀ e ∈ es, e.1.depth ≤ n ∧ e.2.depth ≤ n) (kind : MapKind) :
    r.arranged kind es = s.arranged kind es := by
  cases kind with
  | sorted => rfl
  | unordered =>
    have sorted := List.map_mergeSort (f := id) (l := es)
      (r := fun e f => (r.entry e f).isLE) (s := fun e f => (s.entry e f).isLE)
      fun e he f hf => by rw [h.entry (within e he) (within f hf)]; rfl
    rwa [List.map_id, List.map_id] at sorted

theorem mem_arranged {kind : MapKind} {es : Entries} {e : Datum × Datum}
    (h : e ∈ r.arranged kind es) : e ∈ es := by
  cases kind with
  | sorted => exact h
  | unordered => exact List.mem_mergeSort.mp h

theorem entries_within {es : Entries} (h : depthEntries es + 1 ≤ n + 1) :
    ∀ e ∈ es, e.1.depth ≤ n ∧ e.2.depth ≤ n := by
  intro e he
  have := depth_le_entries he
  omega

theorem Datum.parts_within {d : Datum} (h : d.depth ≤ n + 1) : (d.parts r).Within n := by
  cases d with
  | value v =>
    refine ⟨?_, nofun, nofun⟩
    intro u hu
    rw [List.mem_singleton.mp hu]
    exact Nat.le_of_succ_le_succ h
  | list items =>
    refine ⟨nofun, ?_, nofun⟩
    intro x hx
    exact Nat.le_trans (depth_le_items hx) (Nat.le_of_succ_le_succ h)
  | map kind entries => exact ⟨nofun, nofun, fun e he => entries_within h e (mem_arranged he)⟩
  | _ => exact ⟨nofun, nofun, nofun⟩

theorem Value.parts_within {v : Value} (h : v.depth ≤ n + 1) : (v.parts r).Within n := by
  cases v with
  | array values _ =>
    refine ⟨?_, nofun, nofun⟩
    intro u hu
    exact Nat.le_trans (depth_le_values hu) (Nat.le_of_succ_le_succ h)
  | list items _ =>
    refine ⟨nofun, ?_, nofun⟩
    intro x hx
    exact Nat.le_trans (depth_le_items hx) (Nat.le_of_succ_le_succ h)
  | map kind entries _ _ =>
    exact ⟨nofun, nofun, fun e he => entries_within h e (mem_arranged he)⟩
  | entryList entries _ _ => exact ⟨nofun, nofun, entries_within h⟩
  | _ => exact ⟨nofun, nofun, nofun⟩

theorem Datum.parts_agree (h : r.Agree n s) {d : Datum} (hd : d.depth ≤ n + 1) :
    d.parts r = d.parts s := by
  cases d with
  | map kind entries => rw [Datum.parts, Datum.parts, h.arranged (entries_within hd)]
  | _ => rfl

theorem Value.parts_agree (h : r.Agree n s) {v : Value} (hv : v.depth ≤ n + 1) :
    v.parts r = v.parts s := by
  cases v with
  | map kind entries _ _ => rw [Value.parts, Value.parts, h.arranged (entries_within hv)]
  | _ => rfl

theorem Parts.compare_agree (h : r.Agree n s) {p q : Parts} (hp : p.Within n)
    (hq : q.Within n) : Parts.compare ord r p q = Parts.compare ord s p q := by
  unfold Parts.compare
  rw [compareLex_congr fun u hu v hv => h.value u v (hp.values u hu) (hq.values v hv),
    compareLex_congr fun x hx y hy => h.datum x y (hp.items x hx) (hq.items y hy),
    compareLex_congr fun e he f hf => h.entry (hp.entries e he) (hq.entries f hf)]

theorem Comparison.Agree.symm (h : r.Agree n s) : s.Agree n r where
  datum a b ha hb := (h.datum a b ha hb).symm
  value u v hu hv := (h.value u v hu hv).symm

theorem Comparison.Agree.trans {t : Comparison} (h : r.Agree n s) (h' : s.Agree n t) :
    r.Agree n t where
  datum a b ha hb := (h.datum a b ha hb).trans (h'.datum a b ha hb)
  value u v hu hv := (h.value u v hu hv).trans (h'.value u v hu hv)

theorem Comparison.eq_of_agree (h : ∀ n, r.Agree n s) : r = s := by
  obtain ⟨datum, value⟩ := r
  congr
  · funext a b
    exact (h (max a.depth b.depth)).datum a b (Nat.le_max_left _ _) (Nat.le_max_right _ _)
  · funext u v
    exact (h (max u.depth v.depth)).value u v (Nat.le_max_left _ _) (Nat.le_max_right _ _)

/-- A layer looks one level deeper than the comparison it is over. -/
theorem Comparison.Agree.next (h : r.Agree n s) : (r.next ord).Agree (n + 1) (s.next ord) where
  datum a b ha hb := by
    change Datum.layer ord r a b = Datum.layer ord s a b
    rw [Datum.layer_eq, Datum.layer_eq, Datum.parts_agree h ha, Datum.parts_agree h hb,
      Parts.compare_agree h (Datum.parts_within ha) (Datum.parts_within hb)]
  value u v hu hv := by
    change Value.layer ord r u v = Value.layer ord s u v
    rw [Value.layer_eq, Value.layer_eq, Value.parts_agree h hu, Value.parts_agree h hv,
      Parts.compare_agree h (Value.parts_within hu) (Value.parts_within hv)]

end Depth

/-! ## The order -/

namespace ObjectOrder

variable {ord : ObjectOrder}

/-- The comparison after a number of layers. -/
def level (ord : ObjectOrder) : Nat → Comparison
  | 0 => ⟨fun _ _ => .eq, fun _ _ => .eq⟩
  | n + 1 => (level ord n).next ord

/-- The structural order, with as many layers as the two sides are deep. -/
def structural (ord : ObjectOrder) : Comparison where
  datum a b := (ord.level (max a.depth b.depth)).datum a b
  value u v := (ord.level (max u.depth v.depth)).value u v

theorem agree_zero (r s : Comparison) : r.Agree 0 s where
  datum a _ h _ := absurd h (Nat.not_le.mpr a.depth_pos)
  value u _ h _ := absurd h (Nat.not_le.mpr u.depth_pos)

/-- Layers beyond the depth of what is compared change nothing. -/
theorem level_agree {m n : Nat} (h : m ≤ n) : (ord.level m).Agree m (ord.level n) := by
  induction m generalizing n with
  | zero => exact agree_zero _ _
  | succ m ih =>
    obtain ⟨k, rfl⟩ := Nat.exists_eq_add_of_le' h
    exact (ih (Nat.le_add_left m k)).next

theorem structural_agree (n : Nat) : (ord.level n).Agree n ord.structural where
  datum a b ha hb := ((level_agree (Nat.max_le.mpr ⟨ha, hb⟩)).datum a b
    (Nat.le_max_left _ _) (Nat.le_max_right _ _)).symm
  value u v hu hv := ((level_agree (Nat.max_le.mpr ⟨hu, hv⟩)).value u v
    (Nat.le_max_left _ _) (Nat.le_max_right _ _)).symm

/-- The order is one layer over itself: its own recursive description. -/
theorem structural_next : ord.structural.next ord = ord.structural := by
  apply Comparison.eq_of_agree
  intro n
  cases n with
  | zero => exact agree_zero _ _
  | succ n => exact (structural_agree n).next.symm.trans (structural_agree (n + 1))

theorem structural_datum_layer (a b : Datum) :
    ord.structural.datum a b = Datum.layer ord ord.structural a b :=
  (congrFun (congrFun (congrArg Comparison.datum structural_next) a) b).symm

theorem structural_value_layer (u v : Value) :
    ord.structural.value u v = Value.layer ord ord.structural u v :=
  (congrFun (congrFun (congrArg Comparison.value structural_next) u) v).symm

/-- And it is the only comparison of which this is true. -/
theorem structural_eq_of_next {r : Comparison} (h : r.next ord = r) : ord.structural = r := by
  apply Comparison.eq_of_agree
  intro n
  apply (structural_agree n).symm.trans
  induction n with
  | zero => exact agree_zero _ _
  | succ n ih => exact h ▸ ih.next

theorem level_lawful (objects : Std.TransCmp ord.cmp) (n : Nat) : (ord.level n).Lawful := by
  induction n with
  | zero =>
    constructor
    · exact { eq_swap := rfl, isLE_trans := fun _ _ => rfl }
    · exact { eq_swap := rfl, isLE_trans := fun _ _ => rfl }
  | succ n ih => exact Comparison.lawful_next objects ih

theorem transCmp_of_levels {α : Type} {depth : α → Nat} {cmp : α → α → Ordering}
    {levels : Nat → α → α → Ordering} (lawful : ∀ n, Std.TransCmp (levels n))
    (agree : ∀ n a b, depth a ≤ n → depth b ≤ n → cmp a b = levels n a b) :
    Std.TransCmp cmp where
  eq_swap {a b} := by
    have ha := Nat.le_max_left (depth a) (depth b)
    have hb := Nat.le_max_right (depth a) (depth b)
    rw [agree _ a b ha hb, agree _ b a hb ha]
    exact (lawful _).eq_swap
  isLE_trans {a b c} hab hbc := by
    have ha : depth a ≤ max (depth a) (max (depth b) (depth c)) := by omega
    have hb : depth b ≤ max (depth a) (max (depth b) (depth c)) := by omega
    have hc : depth c ≤ max (depth a) (max (depth b) (depth c)) := by omega
    rw [agree _ a b ha hb] at hab
    rw [agree _ b c hb hc] at hbc
    rw [agree _ a c ha hc]
    exact (lawful _).isLE_trans hab hbc

theorem structural_lawful (objects : Std.TransCmp ord.cmp) : ord.structural.Lawful where
  datum := transCmp_of_levels (fun n => (level_lawful objects n).datum)
    fun n a b ha hb => ((structural_agree n).datum a b ha hb).symm
  value := transCmp_of_levels (fun n => (level_lawful objects n).value)
    fun n u v hu hv => ((structural_agree n).value u v hu hv).symm

end ObjectOrder

/-! ## The order of sort keys -/

section Keys

theorem compareAll_eq (ks ls : List SortKey) :
    SortKey.compareAll ks ls = List.compareLex SortKey.compare ks ls := by
  induction ks generalizing ls with
  | nil => cases ls <;> rfl
  | cons k ks ih =>
    cases ls with
    | nil => rfl
    | cons l ls => rw [SortKey.compareAll, List.compareLex_cons_cons, ih]

theorem compareLex_map {α β : Type} (cmp : β → β → Ordering) (f : α → β) (xs ys : List α) :
    List.compareLex cmp (xs.map f) (ys.map f) =
      List.compareLex (fun x y => cmp (f x) (f y)) xs ys := by
  induction xs generalizing ys with
  | nil => cases ys <;> rfl
  | cons x xs ih =>
    cases ys with
    | nil => rfl
    | cons y ys =>
      rw [List.map_cons, List.map_cons, List.compareLex_cons_cons, List.compareLex_cons_cons, ih]

def keyComparison : Comparison := ⟨Datum.compare, Value.compare⟩

theorem compareAll_itemKeys (xs ys : List Datum) :
    SortKey.compareAll (itemKeys xs) (itemKeys ys) = List.compareLex keyComparison.datum xs ys := by
  rw [compareAll_eq, itemKeys_eq_map, itemKeys_eq_map, compareLex_map]
  rfl

theorem compareAll_valueKeys (us vs : List Value) :
    SortKey.compareAll (valueKeys us) (valueKeys vs) =
      List.compareLex keyComparison.value us vs := by
  rw [compareAll_eq, valueKeys_eq_map, valueKeys_eq_map, compareLex_map]
  rfl

theorem compare_entrySortKey (e f : Datum × Datum) :
    (entrySortKey e).compare (entrySortKey f) = keyComparison.entry e f := by
  simp [entrySortKey, SortKey.compare, SortKey.compareAll, Comparison.entry, keyComparison,
    Datum.compare]

theorem compareAll_entryKeys (es fs : Entries) :
    SortKey.compareAll (entryKeys es) (entryKeys fs) =
      List.compareLex keyComparison.entry es fs := by
  rw [compareAll_eq, entryKeys_eq_map, entryKeys_eq_map, compareLex_map]
  simp only [compare_entrySortKey]

theorem arrangeKeys_entryKeys (kind : MapKind) (es : Entries) :
    kind.arrangeKeys (entryKeys es) = entryKeys (keyComparison.arranged kind es) := by
  cases kind with
  | sorted => rfl
  | unordered =>
    rw [MapKind.arrangeKeys, ascending, entryKeys_eq_map, entryKeys_eq_map, Comparison.arranged,
      Comparison.sorted, List.map_mergeSort]
    intro e _ f _
    rw [compare_entrySortKey]

theorem sortKey_node (d : Datum) : ∃ parts, d.sortKey = .node d.rank parts := by
  cases d with
  | map kind entries => cases kind <;> exact ⟨_, rfl⟩
  | _ => exact ⟨_, rfl⟩

theorem valueSortKey_node (v : Value) : ∃ parts, v.sortKey = .node v.rank parts := by
  cases v <;> exact ⟨_, rfl⟩

theorem layer_keyComparison (a b : Datum) :
    Datum.layer .fieldwise keyComparison a b = a.compare b := by
  apply Datum.by_kind (a := a) (b := b)
  case ranks =>
    intro a b h
    obtain ⟨ps, ha⟩ := sortKey_node a
    obtain ⟨qs, hb⟩ := sortKey_node b
    rw [Datum.layer_of_ne h, Datum.compare, ha, hb, SortKey.compare, compare_then_of_ne h]
  case value =>
    intro u v
    rw [Datum.compare, Datum.sortKey, Datum.sortKey, SortKey.compare, SortKey.compareAll,
      SortKey.compareAll, Ordering.then_eq]
    rfl
  case unordered =>
    intro es fs
    rw [Datum.compare, Datum.sortKey, Datum.sortKey, SortKey.compare]
    change _ = (Ord.compare 14 14).then (SortKey.compareAll
      (MapKind.unordered.arrangeKeys (entryKeys es)) (MapKind.unordered.arrangeKeys (entryKeys fs)))
    rw [arrangeKeys_entryKeys, arrangeKeys_entryKeys, compareAll_entryKeys]
    rfl
  all_goals
    intros
    simp [Datum.layer, Datum.compare, Datum.sortKey, SortKey.compare, SortKey.compareAll,
      Datum.rank, ObjectOrder.cmp_fieldwise, Object.compare, compareAll_itemKeys,
      compareAll_entryKeys]

theorem valueLayer_keyComparison (u v : Value) :
    Value.layer .fieldwise keyComparison u v = u.compare v := by
  apply Value.by_kind (u := u) (v := v)
  case ranks =>
    intro u v h
    obtain ⟨ps, hu⟩ := valueSortKey_node u
    obtain ⟨qs, hv⟩ := valueSortKey_node v
    rw [Value.layer_of_ne h, Value.compare, hu, hv, SortKey.compare, compare_then_of_ne h]
  all_goals
    intros
    simp [Value.layer, Value.compare, Value.sortKey, SortKey.compare, SortKey.compareAll,
      Value.rank, ObjectOrder.cmp_fieldwise, Object.compare, compareAll_itemKeys,
      compareAll_entryKeys, compareAll_valueKeys, Comparison.collection_eq, arrangeKeys_entryKeys]

/-- Compared by sort keys, objects field by field, data and values are in structural order. -/
theorem structural_fieldwise : ObjectOrder.fieldwise.structural = keyComparison := by
  apply ObjectOrder.structural_eq_of_next
  rw [Comparison.next, keyComparison]
  congr
  · funext a b
    exact layer_keyComparison a b
  · funext u v
    exact valueLayer_keyComparison u v

end Keys

/-! ## Caches -/

section Caches

variable {ord : ObjectOrder}

/-- A comparison of what data and values are without their caches. -/
def Comparison.bare (r : Comparison) : Comparison where
  datum a b := r.datum a.bare b.bare
  value u v := r.value u.bare v.bare

theorem rank_bare (d : Datum) : d.bare.rank = d.rank := by
  cases d with
  | map kind entries => cases kind <;> rfl
  | _ => rfl

theorem valueRank_bare (v : Value) : v.bare.rank = v.rank := by
  cases v <;> rfl

theorem arranged_bare (r : Comparison) (kind : MapKind) (es : Entries) :
    r.arranged kind (bareEntries es) = bareEntries (r.bare.arranged kind es) := by
  cases kind with
  | sorted => rfl
  | unordered =>
    rw [bareEntries_eq_map, bareEntries_eq_map, Comparison.arranged, Comparison.arranged,
      Comparison.sorted, Comparison.sorted, List.map_mergeSort]
    intro e _ f _
    rfl

theorem compareLex_bareEntries (r : Comparison) (es fs : Entries) :
    List.compareLex r.entry (bareEntries es) (bareEntries fs) =
      List.compareLex r.bare.entry es fs := by
  rw [bareEntries_eq_map, bareEntries_eq_map, compareLex_map]
  rfl

theorem compareLex_bareItems (r : Comparison) (xs ys : List Datum) :
    List.compareLex r.datum (bareItems xs) (bareItems ys) = List.compareLex r.bare.datum xs ys := by
  rw [bareItems_eq_map, bareItems_eq_map, compareLex_map]
  rfl

theorem compareLex_bareValues (r : Comparison) (us vs : List Value) :
    List.compareLex r.value (bareValues us) (bareValues vs) =
      List.compareLex r.bare.value us vs := by
  rw [bareValues_eq_map, bareValues_eq_map, compareLex_map]
  rfl

theorem layer_bare (r : Comparison) (a b : Datum) :
    Datum.layer ord r a.bare b.bare = Datum.layer ord r.bare a b := by
  apply Datum.by_kind (a := a) (b := b)
  case ranks =>
    intro a b h
    rw [Datum.layer_of_ne h, Datum.layer_of_ne (by rwa [rank_bare, rank_bare]), rank_bare,
      rank_bare]
  case list => exact compareLex_bareItems r
  case sorted => exact compareLex_bareEntries r
  case unordered =>
    intro es fs
    change List.compareLex r.entry (r.arranged .unordered (bareEntries es))
      (r.arranged .unordered (bareEntries fs)) = _
    rw [arranged_bare, arranged_bare, compareLex_bareEntries]
    rfl
  all_goals intros; rfl

theorem valueLayer_bare (r : Comparison) (u v : Value) :
    Value.layer ord r u.bare v.bare = Value.layer ord r.bare u v := by
  apply Value.by_kind (u := u) (v := v)
  case ranks =>
    intro u v h
    rw [Value.layer_of_ne h, Value.layer_of_ne (by rwa [valueRank_bare, valueRank_bare]),
      valueRank_bare, valueRank_bare]
  case array => exact fun us _ vs _ => compareLex_bareValues r us vs
  case list => exact fun xs _ ys _ => compareLex_bareItems r xs ys
  case map =>
    intro kind es order _ kind' fs order' _
    change (Ord.compare (order.rank : Int) order'.rank).then
      (r.collection kind (bareEntries es) kind' (bareEntries fs)) = _
    rw [Comparison.collection_eq, arranged_bare, arranged_bare, compareLex_bareEntries,
      ← Comparison.collection_eq]
    rfl
  case entryList =>
    intro es order _ fs order' _
    change (Ord.compare (order.rank : Int) order'.rank).then
      (List.compareLex r.entry (bareEntries es) (bareEntries fs)) = _
    rw [compareLex_bareEntries]
    rfl
  all_goals intros; rfl

theorem next_bare (r : Comparison) : r.bare.next ord = (r.next ord).bare := by
  rw [Comparison.next, Comparison.bare, Comparison.next]
  congr
  · funext a b
    exact (layer_bare r a b).symm
  · funext u v
    exact (valueLayer_bare r u v).symm

/-- The structural order does not see caches, since without them it is one layer over itself. -/
theorem structural_bare : ord.structural.bare = ord.structural := by
  apply (ObjectOrder.structural_eq_of_next _).symm
  rw [next_bare, ObjectOrder.structural_next]

end Caches

/-! ## The laws -/

/-- Data and values each have a total order with the equality that goes with it, and neither
order depends on caches. -/
structure Comparison.Sound (r : Comparison) (sameDatum : Datum → Datum → Bool)
    (sameValue : Value → Value → Bool) : Prop where
  datum : LawfulOrder r.datum sameDatum
  value : LawfulOrder r.value sameValue
  datum_bare : ∀ a b : Datum, r.datum a.bare b.bare = r.datum a b
  value_bare : ∀ u v : Value, r.value u.bare v.bare = r.value u v

theorem sound_structural {ord : ObjectOrder} (objects : Std.TransCmp ord.cmp) :
    ord.structural.Sound (fun a b => ord.structural.datum a b == .eq)
      fun u v => ord.structural.value u v == .eq where
  datum := .of_transCmp (ObjectOrder.structural_lawful objects).datum fun _ _ => beq_iff_eq
  value := .of_transCmp (ObjectOrder.structural_lawful objects).value fun _ _ => beq_iff_eq
  datum_bare a b := congrFun (congrFun (congrArg Comparison.datum structural_bare) a) b
  value_bare u v := congrFun (congrFun (congrArg Comparison.value structural_bare) u) v

/-- Whatever total orders the types of objects have, the structural order over them is one layer
over itself, which is its recursive description, and it is sound. The order by sort keys is the
structural order for objects that are ordered field by field, and so it is sound too. -/
theorem structural_order_lawful {ord : ObjectOrder} (lawful : ord.Lawful) :
    ord.structural.next ord = ord.structural ∧
    ord.structural.Sound (fun a b => ord.structural.datum a b == .eq)
      (fun u v => ord.structural.value u v == .eq) ∧
    LawfulOrder ord.cmp ord.eq ∧
    ObjectOrder.fieldwise.structural = ⟨Datum.compare, Value.compare⟩ ∧
    Comparison.Sound ⟨Datum.compare, Value.compare⟩ Datum.same Value.same := by
  have objects := ObjectOrder.lawful_cmp lawful
  refine ⟨ObjectOrder.structural_next, sound_structural objects,
    .of_transCmp objects fun _ _ => ObjectOrder.eq_iff lawful, structural_fieldwise, ?_⟩
  have sound := sound_structural (ObjectOrder.lawful_cmp ObjectOrder.lawful_fieldwise)
  rw [structural_fieldwise] at sound
  exact sound

/-- Where the objects of a type are ordered downwards, so are the lists of them. -/
theorem structural_order_downwards :
    let downwards : ObjectOrder :=
      ⟨fun _ a b => b.sortKey.compare a.sortKey, fun _ a b => b.sortKey.same a.sortKey⟩
    let list (n : Int) : Datum := .list [.null, .object ⟨"Point", .integer n⟩]
    downwards.structural.datum (list 3) (list 1) = .lt := by
  intro downwards list
  have lawful : downwards.Lawful := by
    constructor
    · intro typeName
      exact
        { eq_swap := SortKey.compare_swap _ _
          isLE_trans := fun h h' => SortKey.isLE_trans h' h }
    · exact fun _ _ _ => beq_iff_eq
  have laws := (structural_order_lawful lawful).2.1.datum
  exact laws.lt_trans (list 3) (list 2) (list 1) (by decide) (by decide)

end BinCodec
