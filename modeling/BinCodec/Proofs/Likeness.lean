import BinCodec.Proofs.StructuralOrder
import Mathlib.Data.List.Perm.Basic

/-!
# Data of one kind with members that are alike

A `Likeness` says which data, which values and which objects are alike. Data match under it if
they are of one kind, with the same scalars and with members that are alike, the entries of a map
after a permutation; caches do not count. A likeness that relates only what matches under it can be
followed down to the scalars (`Likeness.Descends.induction`). Equality is one: what the structural
order takes for equal matches under equality (`Datum.matches_of_structural`).
-/

namespace BinCodec

/-- Which data, values and objects are alike. -/
structure Likeness where
  datum : Datum → Datum → Prop
  value : Value → Value → Prop
  object : Object → Object → Prop

/-- Entries that correspond one to one, after a permutation, with keys and values that are alike. -/
def EntriesMatch (like : Datum → Datum → Prop) (es fs : Entries) : Prop :=
  ∃ gs, List.Forall₂ (fun e g => like e.1 g.1 ∧ like e.2 g.2) es gs ∧ gs.Perm fs

theorem EntriesMatch.imp_mem {R S : Datum → Datum → Prop} {es fs : Entries}
    (h : EntriesMatch R es fs)
    (imp : ∀ e ∈ es, ∀ f ∈ fs, (R e.1 f.1 → S e.1 f.1) ∧ (R e.2 f.2 → S e.2 f.2)) :
    EntriesMatch S es fs := by
  obtain ⟨gs, related, perm⟩ := h
  refine ⟨gs, forall₂_imp_mem related ?_, perm⟩
  intro e he g hg related
  obtain ⟨key, value⟩ := imp e he g (perm.mem_iff.mp hg)
  exact ⟨key related.1, value related.2⟩

/-- Data of one kind whose members are alike. -/
inductive Datum.Matches (like : Likeness) : Datum → Datum → Prop
  | refl (d : Datum) : Matches like d d
  | value {u v : Value} (alike : like.value u v) : Matches like (.value u) (.value v)
  | list {xs ys : List Datum} (items : List.Forall₂ like.datum xs ys) :
    Matches like (.list xs) (.list ys)
  | map (kind : MapKind) {es fs : Entries} (entries : EntriesMatch like.datum es fs) :
    Matches like (.map kind es) (.map kind fs)
  | object {o p : Object} (alike : like.object o p) : Matches like (.object o) (.object p)

inductive Value.Matches (like : Likeness) : Value → Value → Prop
  | refl (v : Value) : Matches like v v
  | blob {o p : Object} (c d : Cache) (alike : like.object o p) :
    Matches like (.blob o c) (.blob p d)
  | array {us vs : List Value} (c d : Cache) (values : List.Forall₂ like.value us vs) :
    Matches like (.array us c) (.array vs d)
  | list {xs ys : List Datum} (c d : Cache) (items : List.Forall₂ like.datum xs ys) :
    Matches like (.list xs c) (.list ys d)
  | map (kind : MapKind) (order : MapOrder) {es fs : Entries} (c d : Cache)
    (entries : EntriesMatch like.datum es fs) :
    Matches like (.map kind es order c) (.map kind fs order d)
  | entryList (order : MapOrder) {es fs : Entries} (c d : Cache)
    (entries : List.Forall₂ (fun e f => like.datum e.1 f.1 ∧ like.datum e.2 f.2) es fs) :
    Matches like (.entryList es order c) (.entryList fs order d)

theorem Datum.matches_of_eq {like : Likeness} {α : Type} (kind : α → Datum) {x y : α}
    (h : x = y) : (kind x).Matches like (kind y) := h ▸ .refl (kind x)

theorem Value.matches_of_eq {like : Likeness} {α : Type} (kind : α → Value) {x y : α}
    (h : x = y) : (kind x).Matches like (kind y) := h ▸ .refl (kind x)

/-! ## Induction over what is alike -/

/-- Whatever is alike is of one kind, with the same scalars and with members that are alike. -/
structure Likeness.Descends (like : Likeness) : Prop where
  datum : ∀ {a b}, like.datum a b → a.Matches like b
  value : ∀ {u v}, like.value u v → u.Matches like v

namespace Likeness

variable {like r : Likeness} {es fs : Entries}

/-- What is like a datum is also related to it in another way. -/
def Implies (like r : Likeness) (a : Datum) : Prop := ∀ b, like.datum a b → r.datum a b

theorem Implies.forall₂ {xs ys : List Datum} (ih : ∀ x ∈ xs, like.Implies r x)
    (items : List.Forall₂ like.datum xs ys) : List.Forall₂ r.datum xs ys :=
  forall₂_imp_mem items fun x hx y _ => ih x hx y

theorem Implies.entries (ih : ∀ e ∈ es, like.Implies r e.1 ∧ like.Implies r e.2)
    (entries : List.Forall₂ (fun e f => like.datum e.1 f.1 ∧ like.datum e.2 f.2) es fs) :
    List.Forall₂ (fun e f => r.datum e.1 f.1 ∧ r.datum e.2 f.2) es fs :=
  forall₂_imp_mem entries fun e he f _ => And.imp ((ih e he).1 f.1) ((ih e he).2 f.2)

theorem Implies.entriesMatch (ih : ∀ e ∈ es, like.Implies r e.1 ∧ like.Implies r e.2)
    (entries : EntriesMatch like.datum es fs) : EntriesMatch r.datum es fs :=
  entries.imp_mem fun e he f _ => ⟨(ih e he).1 f.1, (ih e he).2 f.2⟩

/-- To show something of whatever is alike it is enough to show it of the same scalars, and of
collections of whose members it holds. Maps are left as they are alike, because what there is to show
may depend on their order. -/
theorem Descends.induction (h : like.Descends)
    (refl : ∀ d, r.datum d d)
    (value : ∀ {u v}, r.value u v → r.datum (.value u) (.value v))
    (list : ∀ {xs ys}, List.Forall₂ r.datum xs ys → r.datum (.list xs) (.list ys))
    (map : ∀ {kind es fs}, (∀ e ∈ es, like.Implies r e.1 ∧ like.Implies r e.2) →
      like.datum (.map kind es) (.map kind fs) → r.datum (.map kind es) (.map kind fs))
    (object : ∀ {o p}, like.object o p → r.datum (.object o) (.object p))
    (valueRefl : ∀ v, r.value v v)
    (valueBlob : ∀ {o p} c d, like.object o p → r.value (.blob o c) (.blob p d))
    (valueArray : ∀ {us vs} c d, List.Forall₂ r.value us vs → r.value (.array us c) (.array vs d))
    (valueList : ∀ {xs ys} c d, List.Forall₂ r.datum xs ys → r.value (.list xs c) (.list ys d))
    (valueMap : ∀ {kind es fs order c d},
      (∀ e ∈ es, like.Implies r e.1 ∧ like.Implies r e.2) →
      like.value (.map kind es order c) (.map kind fs order d) →
      r.value (.map kind es order c) (.map kind fs order d))
    (valueEntryList : ∀ {es fs} order c d,
      List.Forall₂ (fun e f => r.datum e.1 f.1 ∧ r.datum e.2 f.2) es fs →
      r.value (.entryList es order c) (.entryList fs order d)) :
    (∀ a b, like.datum a b → r.datum a b) ∧ ∀ u v, like.value u v → r.value u v := by
  apply nested_induction
  case value =>
    intro u ih b alike
    cases h.datum alike with
    | refl => exact refl _
    | value same => exact value (ih _ same)
  case list =>
    intro xs ih b alike
    cases h.datum alike with
    | refl => exact refl _
    | list items => exact list (Implies.forall₂ ih items)
  case map =>
    intro kind es ih b alike
    cases h.datum alike with
    | refl => exact refl _
    | map => exact map ih alike
  case object =>
    intro o b alike
    cases h.datum alike with
    | refl => exact refl _
    | object same => exact object same
  case valueBlob =>
    intro o c v alike
    cases h.value alike with
    | refl => exact valueRefl _
    | blob _ d same => exact valueBlob c d same
  case valueArray =>
    intro us c ih v alike
    cases h.value alike with
    | refl => exact valueRefl _
    | array _ d values =>
      exact valueArray c d (forall₂_imp_mem values fun u hu v _ => ih u hu v)
  case valueList =>
    intro xs c ih v alike
    cases h.value alike with
    | refl => exact valueRefl _
    | list _ d items => exact valueList c d (Implies.forall₂ ih items)
  case valueMap =>
    intro kind es order c ih v alike
    cases h.value alike with
    | refl => exact valueRefl _
    | map => exact valueMap ih alike
  case valueEntryList =>
    intro es order c ih v alike
    cases h.value alike with
    | refl => exact valueRefl _
    | entryList _ _ d entries => exact valueEntryList order c d (Implies.entries ih entries)
  -- A scalar matches nothing but itself.
  all_goals
    intros
    rename_i alike
    first
      | cases h.datum alike; exact refl _
      | cases h.value alike; exact valueRefl _

end Likeness

/-! ## What a layer takes for equal -/

/-- What a comparison of members and one of objects take for equal. -/
def Comparison.likeness (r : Comparison) (ord : ObjectOrder) : Likeness where
  datum a b := r.datum a b = .eq
  value u v := r.value u v = .eq
  object o p := ord.cmp o p = .eq

theorem compareLex_eq_eq {α : Type} {cmp : α → α → Ordering} {xs ys : List α} :
    List.compareLex cmp xs ys = .eq ↔ List.Forall₂ (fun x y => cmp x y = .eq) xs ys := by
  induction xs generalizing ys with
  | nil =>
    cases ys with
    | nil => simp [List.compareLex_nil_nil]
    | cons y ys => simp [List.compareLex_nil_cons]
  | cons x xs ih =>
    cases ys with
    | nil => simp [List.compareLex_cons_nil]
    | cons y ys => rw [List.compareLex_cons_cons, Ordering.then_eq_eq, ih, List.forall₂_cons]

theorem eq_of_compare_keys {α β : Type} [Ord β] [Std.LawfulEqOrd β] {key : α → β}
    (injective : ∀ {x y}, key x = key y → x = y) {x y : α}
    (h : Ord.compare (key x) (key y) = .eq) : x = y :=
  injective (Std.LawfulEqCmp.eq_of_compare h)

theorem eq_of_compare_naturals {α : Type} {key : α → Nat}
    (injective : ∀ {x y}, key x = key y → x = y) {x y : α}
    (h : Ord.compare (key x : Int) (key y) = .eq) : x = y :=
  injective (Int.ofNat_inj.mp (Std.LawfulEqCmp.eq_of_compare h))

theorem bool_eq_of_toInt : ∀ {a b : Bool}, a.toInt = b.toInt → a = b := by
  decide

section Layer

variable {ord : ObjectOrder} {r : Comparison} {es fs : Entries}

theorem forall₂_of_compareLex (h : List.compareLex r.entry es fs = .eq) :
    List.Forall₂ (fun e f => r.datum e.1 f.1 = .eq ∧ r.datum e.2 f.2 = .eq) es fs :=
  (compareLex_eq_eq.mp h).imp fun _ _ => Ordering.then_eq_eq.mp

theorem entriesMatch_of_compareLex (h : List.compareLex r.entry es fs = .eq) :
    EntriesMatch (fun a b => r.datum a b = .eq) es fs := ⟨fs, forall₂_of_compareLex h, .refl fs⟩

/-- Sorting hides the insertion order and nothing else. -/
theorem entriesMatch_of_unordered (h : r.unordered es fs = .eq) :
    EntriesMatch (fun a b => r.datum a b = .eq) es fs := by
  obtain ⟨gs, related, perm⟩ := entriesMatch_of_compareLex h
  have sorted : es.Perm (r.sorted es) := (List.mergeSort_perm _ _).symm
  obtain ⟨hs, related', perm'⟩ := List.perm_comp_forall₂ sorted related
  exact ⟨hs, related', perm'.trans (perm.trans (List.mergeSort_perm _ _))⟩

theorem entriesMatch_of_collection {kind kind' : MapKind}
    (h : r.collection kind es kind' fs = .eq) :
    kind = kind' ∧ EntriesMatch (fun a b => r.datum a b = .eq) es fs := by
  cases kind <;> cases kind'
  · exact ⟨rfl, entriesMatch_of_unordered h⟩
  · cases h
  · cases h
  · exact ⟨rfl, entriesMatch_of_compareLex h⟩

theorem Datum.matches_of_layer {a b : Datum} :
    Datum.layer ord r a b = .eq → a.Matches (r.likeness ord) b := by
  apply Datum.by_kind (a := a) (b := b)
  case ranks =>
    intro a b ne h
    rw [layer_of_ne ne] at h
    exact absurd (Std.LawfulEqCmp.eq_of_compare h) ne
  case null => exact fun _ => .refl _
  case value => exact fun _ _ h => .value h
  case list => exact fun _ _ h => .list (compareLex_eq_eq.mp h)
  case unordered => exact fun _ _ h => .map .unordered (entriesMatch_of_unordered h)
  case sorted => exact fun _ _ h => .map .sorted (entriesMatch_of_compareLex h)
  case object => exact fun _ _ h => .object h
  case bytes => exact fun _ _ h => matches_of_eq .bytes (eq_of_compare_keys id h)
  case buffer => exact fun _ _ h => matches_of_eq .buffer (eq_of_compare_keys id h)
  case text =>
    exact fun _ _ h => matches_of_eq .text (eq_of_compare_keys ObjectOrder.ofText_injective h)
  case symbol =>
    exact fun _ _ h => matches_of_eq .symbol (eq_of_compare_keys ObjectOrder.ofText_injective h)
  case int => exact fun _ _ h => matches_of_eq .int (eq_of_compare_keys Int32.toInt_inj.mp h)
  case long => exact fun _ _ h => matches_of_eq .long (eq_of_compare_keys Int64.toInt_inj.mp h)
  case double =>
    exact fun _ _ h => matches_of_eq .double (eq_of_compare_keys Binary64.eq_of_place h)
  case float =>
    exact fun _ _ h => matches_of_eq .float (eq_of_compare_keys Binary32.eq_of_place h)
  case bool => exact fun _ _ h => matches_of_eq .bool (eq_of_compare_keys bool_eq_of_toInt h)
  case byte =>
    exact fun _ _ h => matches_of_eq .byte (eq_of_compare_naturals UInt8.toNat_inj.mp h)
  case char =>
    exact fun _ _ h => matches_of_eq .char (eq_of_compare_naturals Char.toNat_inj.mp h)
  case uuid =>
    exact fun _ _ h => matches_of_eq .uuid (eq_of_compare_naturals Uuid.eq_of_toNat h)

theorem Value.matches_of_layer {u v : Value} :
    Value.layer ord r u v = .eq → u.Matches (r.likeness ord) v := by
  apply Value.by_kind (u := u) (v := v)
  case ranks =>
    intro u v ne h
    rw [layer_of_ne ne] at h
    exact absurd (Std.LawfulEqCmp.eq_of_compare h) ne
  case null | infinity | wildcard => exact fun _ => .refl _
  case blob => exact fun _ c _ d h => .blob c d h
  case array => exact fun _ c _ d h => .array c d (compareLex_eq_eq.mp h)
  case list => exact fun _ c _ d h => .list c d (compareLex_eq_eq.mp h)
  case map =>
    intro kind es order c kind' fs order' d h
    obtain ⟨ranks, collections⟩ := Ordering.then_eq_eq.mp h
    obtain ⟨rfl, entries⟩ := entriesMatch_of_collection collections
    obtain rfl := eq_of_compare_naturals MapOrder.eq_of_rank ranks
    exact .map kind order c d entries
  case entryList =>
    intro es order c fs order' d h
    obtain ⟨ranks, entries⟩ := Ordering.then_eq_eq.mp h
    obtain rfl := eq_of_compare_naturals MapOrder.eq_of_rank ranks
    exact .entryList order c d (forall₂_of_compareLex entries)
  case bytes =>
    intro a p b q h
    obtain ⟨codes, contents⟩ := Ordering.then_eq_eq.mp h
    obtain rfl := ParticleType.code_injective (eq_of_compare_naturals UInt8.toNat_inj.mp codes)
    exact matches_of_eq (.bytes · p) (eq_of_compare_keys id contents)
  case segment => exact fun _ _ h => matches_of_eq .segment (eq_of_compare_keys id h)
  case hll => exact fun _ _ h => matches_of_eq .hll (eq_of_compare_keys id h)
  case byte =>
    exact fun _ _ h => matches_of_eq .byte (eq_of_compare_naturals UInt8.toNat_inj.mp h)
  case text =>
    exact fun _ _ h => matches_of_eq .text (eq_of_compare_keys ObjectOrder.ofText_injective h)
  case geoJson =>
    exact fun _ _ h => matches_of_eq .geoJson (eq_of_compare_keys ObjectOrder.ofText_injective h)
  case int => exact fun _ _ h => matches_of_eq .int (eq_of_compare_keys Int32.toInt_inj.mp h)
  case long => exact fun _ _ h => matches_of_eq .long (eq_of_compare_keys Int64.toInt_inj.mp h)
  case double =>
    exact fun _ _ h => matches_of_eq .double (eq_of_compare_keys Binary64.eq_of_place h)
  case float =>
    exact fun _ _ h => matches_of_eq .float (eq_of_compare_keys Binary32.eq_of_place h)
  case bool => exact fun _ _ h => matches_of_eq .bool (eq_of_compare_keys bool_eq_of_toInt h)
  case boolInt =>
    exact fun _ _ h => matches_of_eq .boolInt (eq_of_compare_keys bool_eq_of_toInt h)

theorem Datum.matches_of_structural {a b : Datum} (h : ord.structural.datum a b = .eq) :
    a.Matches (ord.structural.likeness ord) b := by
  rw [ObjectOrder.structural_datum_layer] at h
  exact Datum.matches_of_layer h

theorem Value.matches_of_structural {u v : Value} (h : ord.structural.value u v = .eq) :
    u.Matches (ord.structural.likeness ord) v := by
  rw [ObjectOrder.structural_value_layer] at h
  exact Value.matches_of_layer h

theorem ObjectOrder.descends_equal (ord : ObjectOrder) :
    (ord.structural.likeness ord).Descends where
  datum := Datum.matches_of_structural
  value := Value.matches_of_structural

end Layer

end BinCodec
