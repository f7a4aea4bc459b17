import BinCodec.Datum.Feed
import BinCodec.Proofs.Association

/-!
# Equal inputs hash alike

Hashing is a recursion of its own, beside the one that compares. Both look past caches, and past
the insertion order of an unordered map: comparing sorts its entries, hashing adds up their hashes.
What an object feeds is up to its type (`Datum.feedBy`). As long as equal objects of one type feed
the same tokens, equal data and equal values do, at every depth and whatever hash function the
entries of unordered maps go through (`feedBy_of_equal`).
-/

namespace BinCodec

/-! ## Tokens of objects -/

/-- The tokens of an object: its type, and what the type feeds for its content. -/
def Object.feedBy (own : String → Content → List Token) (o : Object) : List Token :=
  .bytes (Bytes.ofText o.typeName) :: own o.typeName o.content

mutual

/-- The tokens of a datum whose objects feed tokens of their own, according to their types. -/
def Datum.feedBy (own : String → Content → List Token) (hash : List Token → UInt64) :
    Datum → List Token
  | .value v => .number 1 :: v.feedBy own hash
  | .list items => .number 13 :: sequenceFeed (feedItemsBy own hash items)
  | .map .unordered entries =>
    .number 14 :: MapKind.unordered.feed hash (feedEntriesBy own hash entries)
  | .map .sorted entries => .number 15 :: MapKind.sorted.feed hash (feedEntriesBy own hash entries)
  | .object o => .number 17 :: o.feedBy own
  | d => d.feed hash

def Value.feedBy (own : String → Content → List Token) (hash : List Token → UInt64) :
    Value → List Token
  | .blob o _ => .number 11 :: o.feedBy own
  | .array values _ => .number 14 :: sequenceFeed (feedValuesBy own hash values)
  | .list items _ => .number 15 :: sequenceFeed (feedItemsBy own hash items)
  | .map kind entries order _ =>
    .number 16 :: .number order.rank :: .number kind.rank ::
      kind.feed hash (feedEntriesBy own hash entries)
  | .entryList entries order _ =>
    .number 17 :: .number order.rank :: sequenceFeed (feedEntriesBy own hash entries)
  | v => v.feed hash

def feedItemsBy (own : String → Content → List Token) (hash : List Token → UInt64) :
    List Datum → List (List Token)
  | [] => []
  | x :: xs => x.feedBy own hash :: feedItemsBy own hash xs

def feedValuesBy (own : String → Content → List Token) (hash : List Token → UInt64) :
    List Value → List (List Token)
  | [] => []
  | v :: vs => v.feedBy own hash :: feedValuesBy own hash vs

def feedEntriesBy (own : String → Content → List Token) (hash : List Token → UInt64) :
    List (Datum × Datum) → List (List Token)
  | [] => []
  | (k, v) :: es => (k.feedBy own hash ++ v.feedBy own hash) :: feedEntriesBy own hash es

end

section Members

variable (own : String → Content → List Token) (hash : List Token → UInt64)

def feedEntryBy (e : Datum × Datum) : List Token := e.1.feedBy own hash ++ e.2.feedBy own hash

theorem feedItemsBy_eq_map (items : List Datum) :
    feedItemsBy own hash items = items.map (Datum.feedBy own hash) := by
  induction items with
  | nil => rfl
  | cons x xs ih => rw [feedItemsBy, ih, List.map_cons]

theorem feedValuesBy_eq_map (values : List Value) :
    feedValuesBy own hash values = values.map (Value.feedBy own hash) := by
  induction values with
  | nil => rfl
  | cons v vs ih => rw [feedValuesBy, ih, List.map_cons]

theorem feedEntriesBy_eq_map (entries : Entries) :
    feedEntriesBy own hash entries = entries.map (feedEntryBy own hash) := by
  induction entries with
  | nil => rfl
  | cons e es ih => rw [feedEntriesBy, ih, List.map_cons, feedEntryBy]

theorem feedItems_eq_map (items : List Datum) :
    feedItems hash items = items.map (Datum.feed hash) := by
  induction items with
  | nil => rfl
  | cons x xs ih => rw [feedItems, ih, List.map_cons]

theorem feedValues_eq_map (values : List Value) :
    feedValues hash values = values.map (Value.feed hash) := by
  induction values with
  | nil => rfl
  | cons v vs ih => rw [feedValues, ih, List.map_cons]

theorem feedEntries_eq_map (entries : Entries) :
    feedEntries hash entries = entries.map fun e => e.1.feed hash ++ e.2.feed hash := by
  induction entries with
  | nil => rfl
  | cons e es ih => rw [feedEntries, ih, List.map_cons]

/-- Objects that feed their content field by field. -/
def contentTokens (_ : String) (content : Content) : List Token := content.sortKey.tokens

theorem feedBy_contentTokens :
    (∀ d : Datum, d.feedBy contentTokens hash = d.feed hash) ∧
      ∀ v : Value, v.feedBy contentTokens hash = v.feed hash := by
  have items {xs : List Datum} (ih : ∀ x ∈ xs, x.feedBy contentTokens hash = x.feed hash) :
      feedItemsBy contentTokens hash xs = feedItems hash xs := by
    rw [feedItemsBy_eq_map, feedItems_eq_map, List.map_congr_left ih]
  have entries {es : Entries} (ih : ∀ e ∈ es, e.1.feedBy contentTokens hash = e.1.feed hash ∧
      e.2.feedBy contentTokens hash = e.2.feed hash) :
      feedEntriesBy contentTokens hash es = feedEntries hash es := by
    rw [feedEntriesBy_eq_map, feedEntries_eq_map]
    apply List.map_congr_left
    intro e he
    rw [feedEntryBy, (ih e he).1, (ih e he).2]
  apply nested_induction
  case value =>
    intro v ih
    rw [Datum.feedBy, ih, Datum.feed]
  case list =>
    intro xs ih
    rw [Datum.feedBy, items ih, Datum.feed]
  case map =>
    intro kind es ih
    cases kind <;> rw [Datum.feedBy, entries ih, Datum.feed]
  case valueArray =>
    intro vs _ ih
    rw [Value.feedBy, feedValuesBy_eq_map, List.map_congr_left ih, ← feedValues_eq_map, Value.feed]
  case valueList =>
    intro xs _ ih
    rw [Value.feedBy, items ih, Value.feed]
  case valueMap =>
    intro kind es order _ ih
    rw [Value.feedBy, entries ih, Value.feed]
  case valueEntryList =>
    intro es order _ ih
    rw [Value.feedBy, entries ih, Value.feed]
  all_goals intros; rfl

end Members

/-! ## Unordered maps -/

section Unordered

variable {own : String → Content → List Token} {hash : List Token → UInt64}

/-- A sum does not depend on the order of what is added. -/
theorem feed_perm {xs ys : List (List Token)} (perm : xs.Perm ys) :
    MapKind.unordered.feed hash xs = MapKind.unordered.feed hash ys := by
  have commutes : RightCommutative fun (sum : UInt64) e => sum + hash e :=
    ⟨fun sum e f => by rw [UInt64.add_assoc, UInt64.add_comm (hash e), UInt64.add_assoc]⟩
  rw [MapKind.feed, MapKind.feed, perm.length_eq, perm.foldl_eq]

theorem feed_arranged (r : Comparison) (kind : MapKind) (es : Entries) :
    kind.feed hash (feedEntriesBy own hash (r.arranged kind es)) =
      kind.feed hash (feedEntriesBy own hash es) := by
  cases kind with
  | sorted => rfl
  | unordered =>
    rw [feedEntriesBy_eq_map, feedEntriesBy_eq_map]
    exact feed_perm ((List.mergeSort_perm es _).map _)

end Unordered

/-! ## Equal inputs -/

section Equal

variable {ord : ObjectOrder} {own : String → Content → List Token} {hash : List Token → UInt64}
  {kind : MapKind} {es fs : Entries}

def feedLikeness (own : String → Content → List Token) (hash : List Token → UInt64) : Likeness where
  datum a b := a.feedBy own hash = b.feedBy own hash
  value u v := u.feedBy own hash = v.feedBy own hash
  object o p := o.feedBy own = p.feedBy own

theorem feedItemsBy_congr {xs ys : List Datum}
    (items : List.Forall₂ (feedLikeness own hash).datum xs ys) :
    feedItemsBy own hash xs = feedItemsBy own hash ys := by
  rw [feedItemsBy_eq_map, feedItemsBy_eq_map]
  exact forall₂_iff_map_eq.mp items

theorem feedValuesBy_congr {us vs : List Value}
    (values : List.Forall₂ (feedLikeness own hash).value us vs) :
    feedValuesBy own hash us = feedValuesBy own hash vs := by
  rw [feedValuesBy_eq_map, feedValuesBy_eq_map]
  exact forall₂_iff_map_eq.mp values

theorem feedEntriesBy_congr
    (entries : List.Forall₂ (fun e f => (feedLikeness own hash).datum e.1 f.1 ∧
      (feedLikeness own hash).datum e.2 f.2) es fs) :
    feedEntriesBy own hash es = feedEntriesBy own hash fs := by
  rw [feedEntriesBy_eq_map, feedEntriesBy_eq_map, ← forall₂_iff_map_eq]
  apply entries.imp
  intro e f ⟨key, value⟩
  rw [feedEntryBy, feedEntryBy, show e.1.feedBy own hash = _ from key,
    show e.2.feedBy own hash = _ from value]

/-- Map collections are compared as they are arranged, and arranging them changes nothing of what
they feed. -/
theorem feed_of_collection
    (ih : ∀ e ∈ es, (ord.structural.likeness ord).Implies (feedLikeness own hash) e.1 ∧
      (ord.structural.likeness ord).Implies (feedLikeness own hash) e.2)
    (equal : ord.structural.collection kind es kind fs = .eq) :
    kind.feed hash (feedEntriesBy own hash es) = kind.feed hash (feedEntriesBy own hash fs) := by
  obtain ⟨-, related⟩ := Comparison.collection_eq_eq.mp equal
  have entries := Likeness.Implies.entries (fun e he => ih e (mem_arranged he)) related
  calc
    kind.feed hash (feedEntriesBy own hash es) =
        kind.feed hash (feedEntriesBy own hash (ord.structural.arranged kind es)) :=
      (feed_arranged ord.structural kind es).symm
    _ = kind.feed hash (feedEntriesBy own hash (ord.structural.arranged kind fs)) := by
      rw [feedEntriesBy_congr entries]
    _ = kind.feed hash (feedEntriesBy own hash fs) := feed_arranged ord.structural kind fs

theorem feedBy_object (objects : ∀ typeName a b, ord.compare typeName a b = .eq →
    own typeName a = own typeName b) {o p : Object} (equal : ord.cmp o p = .eq) :
    o.feedBy own = p.feedBy own := by
  have types : o.typeName = p.typeName := by
    by_contra ne
    exact ObjectOrder.cmp_ne_eq ne equal
  rw [ObjectOrder.cmp_of_eq types] at equal
  rw [Object.feedBy, Object.feedBy, objects _ _ _ equal, types]

theorem feedBy_of_equal (objects : ∀ typeName a b, ord.compare typeName a b = .eq →
    own typeName a = own typeName b) :
    (∀ a b : Datum, ord.structural.datum a b = .eq → a.feedBy own hash = b.feedBy own hash) ∧
      ∀ u v : Value, ord.structural.value u v = .eq → u.feedBy own hash = v.feedBy own hash := by
  apply Likeness.Descends.induction (r := feedLikeness own hash) ord.descends_equal
  case refl | valueRefl => exact fun _ => rfl
  case value => exact fun same => congrArg (Token.number 1 :: ·) same
  case list =>
    intro xs ys items
    exact congrArg (fun ts => Token.number 13 :: sequenceFeed ts) (feedItemsBy_congr items)
  case map =>
    intro kind es fs ih equal
    have entries := feed_of_collection ih (structural_map.symm.trans equal)
    change Datum.feedBy own hash _ = Datum.feedBy own hash _
    cases kind <;> rw [Datum.feedBy, Datum.feedBy, entries]
  case object => exact fun same => congrArg (Token.number 17 :: ·) (feedBy_object objects same)
  case valueBlob =>
    exact fun _ _ same => congrArg (Token.number 11 :: ·) (feedBy_object objects same)
  case valueArray =>
    intro us vs _ _ values
    exact congrArg (fun ts => Token.number 14 :: sequenceFeed ts) (feedValuesBy_congr values)
  case valueList =>
    intro xs ys _ _ items
    exact congrArg (fun ts => Token.number 15 :: sequenceFeed ts) (feedItemsBy_congr items)
  case valueMap =>
    intro kind es fs order c d ih equal
    have collections := (Ordering.then_eq_eq.mp (structural_valueMap.symm.trans equal)).2
    exact congrArg (fun ts => Token.number 16 :: .number order.rank :: .number kind.rank :: ts)
      (feed_of_collection ih collections)
  case valueEntryList =>
    intro es fs order _ _ entries
    exact congrArg (fun ts => Token.number 17 :: .number order.rank :: sequenceFeed ts)
      (feedEntriesBy_congr entries)

theorem feed_of_same (hash : List Token → UInt64) :
    (∀ a b : Datum, a.same b = true → a.feed hash = b.feed hash) ∧
      ∀ u v : Value, u.same v = true → u.feed hash = v.feed hash := by
  have alike :
      (∀ a b : Datum, ObjectOrder.fieldwise.structural.datum a b = .eq →
        a.feedBy contentTokens hash = b.feedBy contentTokens hash) ∧
      ∀ u v : Value, ObjectOrder.fieldwise.structural.value u v = .eq →
        u.feedBy contentTokens hash = v.feedBy contentTokens hash :=
    feedBy_of_equal fun _ _ _ equal => congrArg SortKey.tokens (SortKey.eq_of_compare equal)
  obtain ⟨data, values⟩ := feedBy_contentTokens hash
  simp only [structural_fieldwise, data, values] at alike
  exact ⟨fun a b same => alike.1 a b (beq_iff_eq.mp same),
    fun u v same => alike.2 u v (beq_iff_eq.mp same)⟩

end Equal

/-- As long as equal objects of one type feed the same tokens, equal data feed the same tokens and
so do equal values, whatever their caches, the layout of unordered maps inside them and the hash
function for the entries of those. Equality by sort keys is a case of this, for objects that feed
their content, so data that are equal by it have the same hash, and so have values. -/
theorem hashing_agrees_with_equality {ord : ObjectOrder} {own : String → Content → List Token}
    (objects : ∀ typeName a b, ord.compare typeName a b = .eq → own typeName a = own typeName b) :
    (∀ (hash : List Token → UInt64),
      (∀ a b : Datum, ord.structural.datum a b = .eq → a.feedBy own hash = b.feedBy own hash) ∧
      ∀ u v : Value, ord.structural.value u v = .eq → u.feedBy own hash = v.feedBy own hash) ∧
    (∀ (hash : List Token → UInt64),
      (∀ d : Datum, d.feedBy contentTokens hash = d.feed hash) ∧
      (∀ v : Value, v.feedBy contentTokens hash = v.feed hash) ∧
      (∀ a b : Datum, a.same b = true → a.feed hash = b.feed hash) ∧
      ∀ u v : Value, u.same v = true → u.feed hash = v.feed hash) ∧
    (∀ a b : Datum, a.same b = true → a.hash = b.hash) ∧
    ∀ u v : Value, u.same v = true → u.hash = v.hash := by
  refine ⟨fun hash => feedBy_of_equal objects, ?_, ?_, ?_⟩
  · intro hash
    obtain ⟨data, values⟩ := feedBy_contentTokens hash
    exact ⟨data, values, feed_of_same hash⟩
  · intro a b same
    rw [Datum.hash, (feed_of_same hashTokens).1 a b same, Datum.hash]
  · intro u v same
    rw [Value.hash, (feed_of_same hashTokens).2 u v same, Value.hash]

/-- Unordered maps with a map for a key, in different layouts and under different caches. -/
theorem hashing_agrees_with_equality_relaid :
    let own (typeName : String) (content : Content) : List Token :=
      .number typeName.length :: content.sortKey.tokens
    let point : Datum := .object ⟨"Point", .integer 7⟩
    let ab : Datum := .map .unordered [(.text "a", .null), (.text "b", .double ⟨0⟩)]
    let ba : Datum := .map .unordered [(.text "b", .double ⟨0⟩), (.text "a", .null)]
    let u : Value := .map .unordered [(ab, point), (.null, .list [ab])] .key (some [0])
    let v : Value := .map .unordered [(.null, .list [ba]), (ba, point)] .key none
    (∀ hash, u.feedBy own hash = v.feedBy own hash) ∧ u.hash = v.hash := by
  intro own point ab ba u v
  have inner : ab.sortKey = ba.sortKey :=
    congrArg (SortKey.node 14) (ascending_of_perm (.swap _ _ []))
  have perm : (entryKeys [(ab, point), (.null, .list [ab])]).Perm
      (entryKeys [(.null, .list [ba]), (ba, point)]) := by
    simp only [entryKeys, Datum.sortKey, itemKeys, inner]
    exact .swap _ _ []
  have keys : u.sortKey = v.sortKey :=
    congrArg (fun ks => SortKey.node 16 [.number 1, .node 0 ks]) (ascending_of_perm perm)
  have same : u.same v = true := Value.same_iff.mpr keys
  have objects (typeName : String) (a b : Content)
      (equal : ObjectOrder.fieldwise.compare typeName a b = .eq) :
      own typeName a = own typeName b :=
    congrArg (fun k => Token.number typeName.length :: SortKey.tokens k)
      (SortKey.eq_of_compare equal)
  obtain ⟨fed, -, -, hashes⟩ := hashing_agrees_with_equality objects
  refine ⟨?_, hashes u v same⟩
  intro hash
  apply (fed hash).2
  rw [structural_fieldwise]
  exact beq_iff_eq.mp same

end BinCodec
