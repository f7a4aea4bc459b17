import Mathlib.Data.List.Forall2
import Mathlib.Data.List.Pairwise

/-!
# Arrangement by a comparison

Sorting by a total preorder has one stable result: what is sorted and keeps the order of what ties
is the merge sort (`arranged_iff`). This holds whatever is compared.
-/

namespace BinCodec

variable {α : Type} {cmp : α → α → Ordering}

/-- The second list is the first one arranged by a comparison: it has the same elements, none
of them stands before a smaller one, and those that tie keep their order. -/
structure Arranged (cmp : α → α → Ordering) (xs ys : List α) : Prop where
  perm : ys.Perm xs
  ascending : ys.Pairwise fun a b => (cmp a b).isLE
  stable : ∀ a, (ys.filter fun b => cmp a b == .eq) = xs.filter fun b => cmp a b == .eq

theorem isLE_total [Std.OrientedCmp cmp] (a b : α) : (cmp a b).isLE || (cmp b a).isLE := by
  have swap : cmp b a = (cmp a b).swap := Std.OrientedCmp.eq_swap
  rw [swap]
  cases cmp a b <;> rfl

theorem pairwise_filter_tied [Std.TransCmp cmp] (a : α) (xs : List α) :
    (xs.filter fun b => cmp a b == .eq).Pairwise fun b c => (cmp b c).isLE := by
  apply List.pairwise_of_forall_mem_list
  intro b hb c hc
  have hab : cmp a b = .eq := beq_iff_eq.mp (List.mem_filter.mp hb).2
  have hac : cmp a c = .eq := beq_iff_eq.mp (List.mem_filter.mp hc).2
  rw [Std.TransCmp.eq_trans (Std.OrientedCmp.eq_symm hab) hac]
  rfl

theorem arranged_mergeSort (trans : Std.TransCmp cmp) (xs : List α) :
    Arranged cmp xs (xs.mergeSort fun a b => (cmp a b).isLE) := by
  have perm := List.mergeSort_perm xs fun a b => (cmp a b).isLE
  have le_trans (a b c : α) : (cmp a b).isLE → (cmp b c).isLE → (cmp a c).isLE :=
    Std.TransCmp.isLE_trans
  refine ⟨perm, List.pairwise_mergeSort le_trans isLE_total xs, ?_⟩
  intro a
  let tied := fun b => cmp a b == .eq
  -- What ties is in order already, so sorting leaves it as it is.
  have kept : (xs.filter tied).Sublist (xs.mergeSort fun a b => (cmp a b).isLE) :=
    List.sublist_mergeSort le_trans isLE_total (pairwise_filter_tied a xs) List.filter_sublist
  have kept_tied := kept.filter tied
  simp only [List.filter_filter, Bool.and_self] at kept_tied
  exact (kept_tied.eq_of_length (perm.filter tied).length_eq.symm).symm

theorem isLE_head [Std.ReflCmp cmp] {x : α} {xs : List α}
    (h : (x :: xs).Pairwise fun a b => (cmp a b).isLE) {a : α} (ha : a ∈ x :: xs) :
    (cmp x a).isLE := by
  rcases List.mem_cons.mp ha with rfl | ha
  · have self : cmp a a = .eq := Std.ReflCmp.compare_self
    rw [self]
    rfl
  · exact List.rel_of_pairwise_cons h ha

theorem mem_of_filter_tied [Std.ReflCmp cmp] {xs ys : List α}
    (h : ∀ a, (xs.filter fun b => cmp a b == .eq) = ys.filter fun b => cmp a b == .eq) {a : α}
    (ha : a ∈ xs) : a ∈ ys := by
  have tied : a ∈ xs.filter fun b => cmp a b == .eq :=
    List.mem_filter.mpr ⟨ha, beq_iff_eq.mpr Std.ReflCmp.compare_self⟩
  rw [h a] at tied
  exact (List.mem_filter.mp tied).1

/-- Ascending lists in which the same elements tie in the same order are the same list. -/
theorem eq_of_filter_tied [Std.TransCmp cmp] {ys zs : List α}
    (hys : ys.Pairwise fun a b => (cmp a b).isLE) (hzs : zs.Pairwise fun a b => (cmp a b).isLE)
    (h : ∀ a, (ys.filter fun b => cmp a b == .eq) = zs.filter fun b => cmp a b == .eq) :
    ys = zs := by
  induction ys generalizing zs with
  | nil =>
    cases zs with
    | nil => rfl
    | cons z zs =>
      have impossible := mem_of_filter_tied (fun a => (h a).symm) (List.mem_cons_self (a := z))
      exact nomatch impossible
  | cons y ys ih =>
    cases zs with
    | nil =>
      have impossible := mem_of_filter_tied h (List.mem_cons_self (a := y))
      exact nomatch impossible
    | cons z zs =>
      have hyz : (cmp y z).isLE :=
        isLE_head hys (mem_of_filter_tied (fun a => (h a).symm) List.mem_cons_self)
      have hzy : (cmp z y).isLE := isLE_head hzs (mem_of_filter_tied h List.mem_cons_self)
      have self : cmp y y = .eq := Std.ReflCmp.compare_self
      have tie : cmp y z = .eq := Std.OrientedCmp.isLE_antisymm hyz hzy
      have heads := h y
      simp only [List.filter_cons, self, tie, beq_self_eq_true, if_true] at heads
      obtain ⟨rfl, -⟩ := List.cons.inj heads
      congr 1
      apply ih hys.tail hzs.tail
      intro a
      have tails := h a
      simp only [List.filter_cons] at tails
      split at tails
      · exact (List.cons.inj tails).2
      · exact tails

/-- There is one arrangement. -/
theorem arranged_iff (trans : Std.TransCmp cmp) {xs ys : List α} :
    Arranged cmp xs ys ↔ ys = xs.mergeSort fun a b => (cmp a b).isLE := by
  have sorted := arranged_mergeSort trans xs
  constructor
  · intro h
    apply eq_of_filter_tied h.ascending sorted.ascending
    intro a
    rw [h.stable, sorted.stable]
  · rintro rfl
    exact sorted

theorem forall₂_mergeSort {β : Type} {R : α → β → Prop} {le : α → α → Bool} {le' : β → β → Bool}
    {xs : List α} {ys : List β} (related : List.Forall₂ R xs ys)
    (agree : ∀ x y x' y', R x y → R x' y' → le x x' = le' y y') :
    List.Forall₂ R (xs.mergeSort le) (ys.mergeSort le') := by
  -- Both are images of one sorted list of pairs.
  let pairs := (xs.zip ys).mergeSort fun p q => le p.1 q.1
  obtain ⟨length, members⟩ := List.forall₂_iff_zip.mp related
  have left : pairs.map Prod.fst = xs.mergeSort le := by
    have sorted : pairs.map Prod.fst = ((xs.zip ys).map Prod.fst).mergeSort le :=
      List.map_mergeSort fun _ _ _ _ => rfl
    rw [sorted, List.map_fst_zip (Nat.le_of_eq length)]
  have right : pairs.map Prod.snd = ys.mergeSort le' := by
    have sorted : pairs.map Prod.snd = ((xs.zip ys).map Prod.snd).mergeSort le' :=
      List.map_mergeSort fun p hp q hq => agree _ _ _ _ (members hp) (members hq)
    rw [sorted, List.map_snd_zip (Nat.le_of_eq length.symm)]
  rw [← left, ← right, List.forall₂_map_left_iff, List.forall₂_map_right_iff, List.forall₂_same]
  intro p hp
  exact members (List.mem_mergeSort.mp hp)

end BinCodec
