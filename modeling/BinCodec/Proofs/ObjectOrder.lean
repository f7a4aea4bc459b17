import BinCodec.Object.Content

/-!
# The own order of objects

The types of opaque objects are the application's, and so are their order and equality. An
`ObjectOrder` is any choice of them. Objects of one type are compared by it and objects of
different types by the names of the types (`ObjectOrder.cmp`), which is lawful as soon as
every choice is (`ObjectOrder.lawful_cmp`). The order of contents is one such choice.
-/

namespace BinCodec

/-- A comparison that is a total order up to the equality that goes with it. -/
structure LawfulOrder {α : Type} (cmp : α → α → Ordering) (same : α → α → Bool) : Prop where
  refl : ∀ a, cmp a a = .eq
  reverse : ∀ a b, cmp b a = (cmp a b).swap
  lt_trans : ∀ a b c, cmp a b = .lt → cmp b c = .lt → cmp a c = .lt
  le_trans : ∀ a b c, (cmp a b).isLE → (cmp b c).isLE → (cmp a c).isLE
  congr : ∀ a b, cmp a b = .eq → ∀ c, cmp a c = cmp b c
  same_iff : ∀ a b, same a b = true ↔ cmp a b = .eq

theorem LawfulOrder.of_transCmp {α : Type} {cmp : α → α → Ordering} {same : α → α → Bool}
    (h : Std.TransCmp cmp) (same_iff : ∀ a b, same a b = true ↔ cmp a b = .eq) :
    LawfulOrder cmp same where
  refl _ := Std.ReflCmp.compare_self
  reverse _ _ := Std.OrientedCmp.eq_swap
  lt_trans _ _ _ := Std.TransCmp.lt_trans
  le_trans _ _ _ := Std.TransCmp.isLE_trans
  congr _ _ heq _ := Std.TransCmp.congr_left heq
  same_iff := same_iff

/-- The order and equality of each object type, which is given by its name. -/
structure ObjectOrder where
  compare : String → Content → Content → Ordering
  same : String → Content → Content → Bool

namespace ObjectOrder

/-- The order of every type is total and agrees with its equality. -/
structure Lawful (ord : ObjectOrder) : Prop where
  trans : ∀ typeName, Std.TransCmp (ord.compare typeName)
  same_iff : ∀ typeName a b,
    ord.same typeName a b = true ↔ ord.compare typeName a b = .eq

/-- Compares objects of one type by its order and others by the names of their types. -/
def cmp (ord : ObjectOrder) (a b : Object) : Ordering :=
  if a.typeName = b.typeName then ord.compare a.typeName a.content b.content
  else Ord.compare (Bytes.ofText a.typeName) (Bytes.ofText b.typeName)

def eq (ord : ObjectOrder) (a b : Object) : Bool :=
  a.typeName == b.typeName && ord.same a.typeName a.content b.content

theorem ofText_injective {s t : String} (h : Bytes.ofText s = Bytes.ofText t) : s = t := by
  apply String.toByteArray_inj.mp
  apply ByteArray.ext
  exact Array.toList_inj.mp h

variable {ord : ObjectOrder} {a b c : Object}

theorem cmp_of_eq (h : a.typeName = b.typeName) :
    ord.cmp a b = ord.compare a.typeName a.content b.content := if_pos h

theorem cmp_of_ne (h : a.typeName ≠ b.typeName) :
    ord.cmp a b = Ord.compare (Bytes.ofText a.typeName) (Bytes.ofText b.typeName) := if_neg h

theorem cmp_ne_eq (h : a.typeName ≠ b.typeName) : ord.cmp a b ≠ .eq := by
  rw [cmp_of_ne h]
  intro heq
  exact h (ofText_injective (Std.LawfulEqCmp.eq_of_compare heq))

theorem cmp_swap (lawful : ord.Lawful) : ord.cmp a b = (ord.cmp b a).swap := by
  have := lawful.trans b.typeName
  by_cases h : a.typeName = b.typeName
  · rw [cmp_of_eq h, cmp_of_eq h.symm, h]
    exact Std.OrientedCmp.eq_swap
  · rw [cmp_of_ne h, cmp_of_ne (Ne.symm h)]
    exact Std.OrientedCmp.eq_swap

theorem cmp_isLE_trans (lawful : ord.Lawful) (hab : (ord.cmp a b).isLE)
    (hbc : (ord.cmp b c).isLE) : (ord.cmp a c).isLE := by
  have := lawful.trans c.typeName
  by_cases h : a.typeName = b.typeName
  · by_cases h' : b.typeName = c.typeName
    · rw [cmp_of_eq h, h, h'] at hab
      rw [cmp_of_eq h', h'] at hbc
      rw [cmp_of_eq (h.trans h'), h, h']
      exact Std.TransCmp.isLE_trans hab hbc
    · rw [cmp_of_ne (h ▸ h'), h]
      rwa [cmp_of_ne h'] at hbc
  · by_cases h' : b.typeName = c.typeName
    · rw [cmp_of_ne (h' ▸ h), ← h']
      rwa [cmp_of_ne h] at hab
    · rw [cmp_of_ne h] at hab
      rw [cmp_of_ne h'] at hbc
      by_cases h'' : a.typeName = c.typeName
      · rw [← h''] at hbc
        have heq := Std.OrientedCmp.isLE_antisymm hab hbc
        exact absurd (ofText_injective (Std.LawfulEqCmp.eq_of_compare heq)) h
      · rw [cmp_of_ne h'']
        exact Std.TransCmp.isLE_trans hab hbc

theorem lawful_cmp (lawful : ord.Lawful) : Std.TransCmp ord.cmp where
  eq_swap := cmp_swap lawful
  isLE_trans := cmp_isLE_trans lawful

theorem eq_iff (lawful : ord.Lawful) : ord.eq a b = true ↔ ord.cmp a b = .eq := by
  by_cases h : a.typeName = b.typeName
  · rw [cmp_of_eq h, ← lawful.same_iff, eq, beq_iff_eq.mpr h, Bool.true_and]
  · simp [eq, h, cmp_ne_eq h]

/-- The order of objects whose types are ordered field by field. -/
def fieldwise : ObjectOrder where
  compare _ a b := a.sortKey.compare b.sortKey
  same _ a b := a.sortKey.same b.sortKey

theorem lawful_fieldwise : fieldwise.Lawful where
  trans _ :=
    { eq_swap := SortKey.compare_swap _ _
      isLE_trans := SortKey.isLE_trans }
  same_iff _ _ _ := beq_iff_eq

theorem cmp_fieldwise (a b : Object) : fieldwise.cmp a b = a.compare b := by
  rw [Object.compare, Object.sortKey, Object.sortKey]
  by_cases h : a.typeName = b.typeName
  · rw [cmp_of_eq h, h]
    simp [SortKey.compare, SortKey.compareAll, fieldwise]
  · have hne : fieldwise.cmp a b ≠ .eq := cmp_ne_eq h
    rw [cmp_of_ne h] at hne ⊢
    cases hc : Ord.compare (Bytes.ofText a.typeName) (Bytes.ofText b.typeName) with
    | eq => exact absurd hc hne
    | lt => simp [SortKey.compare, SortKey.compareAll, hc]
    | gt => simp [SortKey.compare, SortKey.compareAll, hc]

end ObjectOrder

end BinCodec
