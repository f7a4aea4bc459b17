/-!
# Sort keys

A sort key is a small tree of numbers and byte strings whose lexicographic order is a total
order. Domain values are ordered by the keys they are assigned: whatever two values have the
same key count as equal, and every law of the order holds because it holds for keys.

Main statements: `SortKey.compare` is a lawful total order (`instTransCmp`, `instLawfulEqCmp`).
-/

namespace BinCodec

/-- A tree whose lexicographic order serves as a common order of domain values. -/
inductive SortKey where
  | number (n : Int)
  /-- Compared byte by byte, a proper initial part first. -/
  | bytes (b : List UInt8)
  /-- Compared by rank, then part by part, a proper initial part first. -/
  | node (rank : Nat) (parts : List SortKey)

namespace SortKey

mutual

/-- The total order of sort keys. -/
def compare : SortKey → SortKey → Ordering
  | .number a, .number b => Ord.compare a b
  | .number _, .bytes _ => .lt
  | .number _, .node _ _ => .lt
  | .bytes _, .number _ => .gt
  | .bytes a, .bytes b => Ord.compare a b
  | .bytes _, .node _ _ => .lt
  | .node _ _, .number _ => .gt
  | .node _ _, .bytes _ => .gt
  | .node r xs, .node s ys => (Ord.compare r s).then (compareAll xs ys)

/-- Part by part, a proper initial part first. -/
def compareAll : List SortKey → List SortKey → Ordering
  | [], [] => .eq
  | [], _ :: _ => .lt
  | _ :: _, [] => .gt
  | x :: xs, y :: ys => (compare x y).then (compareAll xs ys)

end

/-! ## The laws of the order -/

mutual

theorem compare_self : ∀ a : SortKey, compare a a = .eq
  | .number a => by simp [compare]
  | .bytes a => by simp [compare]
  | .node r xs => by simp [compare, compareAll_self xs]

theorem compareAll_self : ∀ xs : List SortKey, compareAll xs xs = .eq
  | [] => rfl
  | x :: xs => by simp [compareAll, compare_self x, compareAll_self xs]

end

mutual

theorem eq_of_compare : ∀ {a b : SortKey}, compare a b = .eq → a = b
  | .number a, .number b, h => by simp [compare] at h; rw [h]
  | .bytes a, .bytes b, h => by simp [compare] at h; rw [h]
  | .node r xs, .node s ys, h => by
    simp only [compare, Ordering.then_eq_eq] at h
    rw [Std.LawfulEqCmp.eq_of_compare h.1, eq_of_compareAll h.2]
  | .number _, .bytes _, h | .number _, .node _ _, h | .bytes _, .number _, h
  | .bytes _, .node _ _, h | .node _ _, .number _, h | .node _ _, .bytes _, h => by
    simp [compare] at h

theorem eq_of_compareAll : ∀ {xs ys : List SortKey}, compareAll xs ys = .eq → xs = ys
  | [], [], _ => rfl
  | [], _ :: _, h | _ :: _, [], h => by simp [compareAll] at h
  | x :: xs, y :: ys, h => by
    simp only [compareAll, Ordering.then_eq_eq] at h
    rw [eq_of_compare h.1, eq_of_compareAll h.2]

end

mutual

theorem compare_swap : ∀ a b : SortKey, compare a b = (compare b a).swap
  | .number a, .number b => by simp only [compare]; exact Std.OrientedCmp.eq_swap
  | .bytes a, .bytes b => by simp only [compare]; exact Std.OrientedCmp.eq_swap
  | .node r xs, .node s ys => by
    rw [compare, compare, Ordering.swap_then, compareAll_swap xs ys]
    rw [show Ord.compare r s = (Ord.compare s r).swap from Std.OrientedCmp.eq_swap]
  | .number _, .bytes _ | .number _, .node _ _ | .bytes _, .number _
  | .bytes _, .node _ _ | .node _ _, .number _ | .node _ _, .bytes _ => rfl

theorem compareAll_swap : ∀ xs ys : List SortKey, compareAll xs ys = (compareAll ys xs).swap
  | [], [] | [], _ :: _ | _ :: _, [] => rfl
  | x :: xs, y :: ys => by
    rw [compareAll, compareAll, Ordering.swap_then, compare_swap x y, compareAll_swap xs ys]

end

theorem isLE_then_trans {a b c a' b' c' : Ordering}
    (first : a.isLE → b.isLE → c.isLE) (firstEq : a = .eq → b = .eq → c = .eq)
    (firstLt : a.isLE → b.isLE → c = .eq → a = .eq ∧ b = .eq)
    (second : a'.isLE → b'.isLE → c'.isLE)
    (hab : (a.then a').isLE) (hbc : (b.then b').isLE) : (c.then c').isLE := by
  cases a <;> cases b <;> cases c <;> simp_all [Ordering.then]

mutual

theorem isLE_trans : ∀ {a b c : SortKey},
    (compare a b).isLE → (compare b c).isLE → (compare a c).isLE
  | .number a, .number b, .number c => by
    simp only [compare]; exact Std.TransCmp.isLE_trans
  | .bytes a, .bytes b, .bytes c => by
    simp only [compare]; exact Std.TransCmp.isLE_trans
  | .node r xs, .node s ys, .node t zs => by
    simp only [compare]
    refine isLE_then_trans Std.TransCmp.isLE_trans Std.TransCmp.eq_trans ?_ isLE_trans_all
    intro hrs hst hrt
    have hrt := Std.LawfulEqCmp.eq_of_compare hrt
    subst hrt
    have hsr := Std.OrientedCmp.isLE_antisymm hst hrs
    exact ⟨Std.OrientedCmp.eq_symm hsr, hsr⟩
  | .number _, .number _, .bytes _ | .number _, .number _, .node _ _
  | .number _, .bytes _, .bytes _ | .number _, .bytes _, .node _ _
  | .number _, .node _ _, .node _ _ | .bytes _, .bytes _, .node _ _
  | .bytes _, .node _ _, .node _ _ => fun _ _ => by simp [compare]
  | .number _, .bytes _, .number _ | .number _, .node _ _, .number _
  | .number _, .node _ _, .bytes _ | .bytes _, .node _ _, .number _
  | .bytes _, .node _ _, .bytes _ | .bytes _, .bytes _, .number _
  | .node _ _, .node _ _, .number _ | .node _ _, .node _ _, .bytes _ =>
    fun _ h => by simp [compare] at h
  | .bytes _, .number _, _ | .node _ _, .number _, _ | .node _ _, .bytes _, _ =>
    fun h _ => by simp [compare] at h

theorem isLE_trans_all : ∀ {xs ys zs : List SortKey},
    (compareAll xs ys).isLE → (compareAll ys zs).isLE → (compareAll xs zs).isLE
  | [], _, [] => fun _ _ => rfl
  | [], _, _ :: _ => fun _ _ => rfl
  | _ :: _, [], _ => fun h _ => by simp [compareAll] at h
  | _ :: _, _ :: _, [] => fun _ h => by simp [compareAll] at h
  | x :: xs, y :: ys, z :: zs => by
    simp only [compareAll]
    refine isLE_then_trans isLE_trans ?_ ?_ isLE_trans_all
    · intro hxy hyz
      rw [eq_of_compare hxy]
      exact hyz
    · intro hxy hyz hxz
      have hxz := eq_of_compare hxz
      subst hxz
      rw [compare_swap] at hyz
      have heq : compare x y = .eq := by cases h : compare x y <;> simp_all
      exact ⟨heq, by rw [compare_swap, heq]; rfl⟩

end

instance : Std.ReflCmp compare where
  compare_self := compare_self _

instance : Std.OrientedCmp compare where
  eq_swap := compare_swap _ _

instance instTransCmp : Std.TransCmp compare where
  isLE_trans := isLE_trans

instance instLawfulEqCmp : Std.LawfulEqCmp compare where
  eq_of_compare := eq_of_compare

def same (a b : SortKey) : Bool := a.compare b == .eq

theorem same_iff {a b : SortKey} : a.same b = true ↔ a = b := by
  rw [same, beq_iff_eq]
  exact ⟨eq_of_compare, fun h => h ▸ compare_self a⟩

end SortKey

end BinCodec
