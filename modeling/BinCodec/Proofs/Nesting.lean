import BinCodec.Pack
import Mathlib.Data.List.Forall2

/-!
# Induction over nested data

Data and values nest in each other through lists, arrays and map entries. `nested_induction`
is the one induction over both: a property holds of a collection as soon as it holds of its
members. The recursions that the definitions run over the members of a collection are maps,
and the lemmas below say so.

Two collections whose members are related one by one are related by `List.Forall₂`; the last
section has what is needed of it beyond the library.
-/

namespace BinCodec

variable {P : Datum → Prop} {Q : Value → Prop}

theorem nested_induction
    (null : P .null) (value : ∀ v, Q v → P (.value v)) (bytes : ∀ b, P (.bytes b))
    (text : ∀ s, P (.text s)) (int : ∀ n, P (.int n)) (long : ∀ n, P (.long n))
    (double : ∀ x, P (.double x)) (float : ∀ x, P (.float x)) (bool : ∀ b, P (.bool b))
    (byte : ∀ n, P (.byte n)) (char : ∀ c, P (.char c)) (symbol : ∀ s, P (.symbol s))
    (uuid : ∀ id, P (.uuid id)) (list : ∀ items, (∀ x ∈ items, P x) → P (.list items))
    (map : ∀ kind entries, (∀ e ∈ entries, P e.1 ∧ P e.2) → P (.map kind entries))
    (buffer : ∀ b, P (.buffer b)) (object : ∀ o, P (.object o))
    (valueNull : Q .null) (valueBytes : ∀ b particle, Q (.bytes b particle))
    (valueSegment : ∀ b, Q (.segment b)) (valueByte : ∀ n, Q (.byte n))
    (valueText : ∀ s, Q (.text s)) (valueInt : ∀ n, Q (.int n)) (valueLong : ∀ n, Q (.long n))
    (valueDouble : ∀ x, Q (.double x)) (valueFloat : ∀ x, Q (.float x))
    (valueBool : ∀ b, Q (.bool b)) (valueBoolInt : ∀ b, Q (.boolInt b))
    (valueBlob : ∀ o cache, Q (.blob o cache)) (valueGeoJson : ∀ s, Q (.geoJson s))
    (valueHll : ∀ b, Q (.hll b))
    (valueArray : ∀ values cache, (∀ v ∈ values, Q v) → Q (.array values cache))
    (valueList : ∀ items cache, (∀ x ∈ items, P x) → Q (.list items cache))
    (valueMap : ∀ kind entries order cache, (∀ e ∈ entries, P e.1 ∧ P e.2) →
      Q (.map kind entries order cache))
    (valueEntryList : ∀ entries order cache, (∀ e ∈ entries, P e.1 ∧ P e.2) →
      Q (.entryList entries order cache))
    (valueInfinity : Q .infinity) (valueWildcard : Q .wildcard) :
    (∀ d, P d) ∧ ∀ v, Q v := by
  have nil {α : Type} {R : α → Prop} : ∀ x ∈ ([] : List α), R x := fun _ h => nomatch h
  have cons {α : Type} {R : α → Prop} (x : α) (xs : List α) (hx : R x) (hxs : ∀ y ∈ xs, R y) :
      ∀ y ∈ x :: xs, R y := List.forall_mem_cons.mpr ⟨hx, hxs⟩
  have pair (k v : Datum) : P k → P v → P (k, v).1 ∧ P (k, v).2 := And.intro
  constructor
  · apply @Datum.rec P Q (∀ x ∈ ·, P x) (∀ e ∈ ·, P e.1 ∧ P e.2) (∀ v ∈ ·, Q v)
      (fun e => P e.1 ∧ P e.2) <;> first | assumption | exact nil | exact cons
  · apply @Value.rec P Q (∀ x ∈ ·, P x) (∀ e ∈ ·, P e.1 ∧ P e.2) (∀ v ∈ ·, Q v)
      (fun e => P e.1 ∧ P e.2) <;> first | assumption | exact nil | exact cons

/-! ## Recursions over members -/

def entrySortKey (e : Datum × Datum) : SortKey := .node 0 [e.1.sortKey, e.2.sortKey]

/-- The packed encoding of a map entry, its key before its value. -/
def packEntry (c : Config) (e : Datum × Datum) : Emission := (e.1.pack c).andThen (e.2.pack c)

theorem itemKeys_eq_map (items : List Datum) : itemKeys items = items.map Datum.sortKey := by
  induction items with
  | nil => rfl
  | cons x xs ih => rw [itemKeys, ih, List.map_cons]

theorem valueKeys_eq_map (values : List Value) : valueKeys values = values.map Value.sortKey := by
  induction values with
  | nil => rfl
  | cons v vs ih => rw [valueKeys, ih, List.map_cons]

theorem entryKeys_eq_map (entries : Entries) : entryKeys entries = entries.map entrySortKey := by
  induction entries with
  | nil => rfl
  | cons e es ih => rw [entryKeys, ih, List.map_cons, entrySortKey]

theorem packItems_eq_map (c : Config) (items : List Datum) :
    packItems c items = items.map (Datum.pack c) := by
  induction items with
  | nil => rfl
  | cons x xs ih => rw [packItems, ih, List.map_cons]

theorem packValues_eq_map (c : Config) (values : List Value) :
    packValues c values = values.map (Value.pack c) := by
  induction values with
  | nil => rfl
  | cons v vs ih => rw [packValues, ih, List.map_cons]

theorem packEntries_eq_map (c : Config) (entries : Entries) :
    packEntries c entries = entries.map (packEntry c) := by
  induction entries with
  | nil => rfl
  | cons e es ih => rw [packEntries, ih, List.map_cons, packEntry]

/-! ## Related members -/

section Related

variable {α β : Type} {R S : α → β → Prop} {xs : List α} {ys : List β}

theorem forall₂_iff_map_eq {γ : Type} {f : α → γ} {g : β → γ} :
    List.Forall₂ (fun x y => f x = g y) xs ys ↔ xs.map f = ys.map g := by
  rw [← List.forall₂_eq_eq_eq, List.forall₂_map_left_iff, List.forall₂_map_right_iff]

theorem exists_of_forall₂ (h : List.Forall₂ R xs ys) {y : β} (hy : y ∈ ys) : ∃ x ∈ xs, R x y := by
  induction h with
  | nil => cases hy
  | cons first _ ih =>
    rcases List.mem_cons.mp hy with rfl | hy
    · exact ⟨_, List.mem_cons_self, first⟩
    · obtain ⟨x, hx, related⟩ := ih hy
      exact ⟨x, List.mem_cons_of_mem _ hx, related⟩

theorem forall₂_imp_mem (h : List.Forall₂ R xs ys)
    (imp : ∀ x ∈ xs, ∀ y ∈ ys, R x y → S x y) : List.Forall₂ S xs ys := by
  induction h with
  | nil => exact .nil
  | cons first _ ih =>
    apply List.Forall₂.cons
    · exact imp _ List.mem_cons_self _ List.mem_cons_self first
    · apply ih
      intro x hx y hy
      exact imp x (List.mem_cons_of_mem _ hx) y (List.mem_cons_of_mem _ hy)

theorem forall_mem_iff_of_forall₂ {p : α → Prop} {q : β → Prop}
    (h : List.Forall₂ (fun x y => p x ↔ q y) xs ys) : (∀ x ∈ xs, p x) ↔ ∀ y ∈ ys, q y := by
  induction h with
  | nil => simp
  | cons first _ ih => rw [List.forall_mem_cons, List.forall_mem_cons, first, ih]

theorem exists_between_of_forall₂ {γ : Type} {T : β → γ → Prop} {zs : List γ}
    (h : List.Forall₂ (fun x z => ∃ y, R x y ∧ T y z) xs zs) :
    ∃ ys, List.Forall₂ R xs ys ∧ List.Forall₂ T ys zs := by
  induction h with
  | nil => exact ⟨[], .nil, .nil⟩
  | cons first _ ih =>
    obtain ⟨y, hxy, hyz⟩ := first
    obtain ⟨ys, front, back⟩ := ih
    exact ⟨y :: ys, .cons hxy front, .cons hyz back⟩

end Related

end BinCodec
