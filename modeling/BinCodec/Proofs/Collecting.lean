import BinCodec.Datum.Collect
import BinCodec.Proofs.ServerOrder
import Mathlib.Data.List.Nodup

/-!
# Collecting distinct keys

A map that is built from entries keeps one entry for every run of equal keys. Where the keys are
distinct the runs are single entries (`SortKey.runs_of_distinct`), and nothing is dropped or
altered: an unordered map has the entries as they were given, a sorted map has them in ascending
order, whether it is built in one go or filled by insertion.
-/

namespace BinCodec

/-! ## Runs -/

section Runs

variable {α : Type} {key : α → SortKey} {xs : List α}

theorem SortKey.runs_of_distinct (distinct : (xs.map key).Nodup) :
    SortKey.runs key xs = (SortKey.sortOn key xs).map fun x => [x] := by
  have keys : ((SortKey.keyed key xs).map Prod.fst).Nodup := by
    have perm : ((SortKey.keyed key xs).map Prod.fst).Perm
        ((xs.map fun x => (key x, x)).map Prod.fst) := (List.mergeSort_perm _ _).map _
    rw [perm.nodup_iff, List.map_map]
    exact distinct
  have apart : (SortKey.keyed key xs).Pairwise fun a b => a.1.same b.1 = false := by
    rw [List.Nodup, List.pairwise_map] at keys
    apply keys.imp
    intro a b ne
    rw [Bool.eq_false_iff, ne_eq, SortKey.same_iff]
    exact ne
  rw [SortKey.runs, SortKey.splitRuns_of_distinct apart, SortKey.sortOn, List.map_map, List.map_map]
  rfl

theorem SortKey.sortOn_of_ascending
    (ascending : xs.Pairwise fun a b => (key a).compare (key b) = .lt) :
    SortKey.sortOn key xs = xs := by
  rw [SortKey.sortOn_eq_mergeSort]
  apply List.mergeSort_of_pairwise
  apply ascending.imp
  intro a b lt
  rw [lt]
  rfl

theorem SortKey.nodup_of_ascending
    (ascending : xs.Pairwise fun a b => (key a).compare (key b) = .lt) : (xs.map key).Nodup := by
  rw [List.Nodup, List.pairwise_map]
  apply ascending.imp
  intro a b lt same
  rw [same, SortKey.compare_self] at lt
  cases lt

theorem SortKey.filterMap_runs {keep : List α → Option α} (distinct : (xs.map key).Nodup)
    (single : ∀ x, keep [x] = some x) :
    (SortKey.runs key xs).filterMap keep = SortKey.sortOn key xs := by
  rw [SortKey.runs_of_distinct distinct, List.filterMap_map, funext (f := keep ∘ _) single,
    List.filterMap_some]

end Runs

/-! ## Collections -/

namespace Entries

variable {es : Entries}

theorem KeysApart.nodup (h : es.KeysApart Datum.compare) : (es.map fun e => e.1.sortKey).Nodup := by
  rw [List.Nodup, List.pairwise_map]
  apply h.imp
  intro e f ne same
  apply ne
  rw [Datum.compare, same, SortKey.compare_self]

theorem sorted_of_apart (h : es.KeysApart Datum.compare) : es.sorted.Perm es := by
  rw [sorted, byKey, SortKey.filterMap_runs h.nodup fun e => rfl]
  exact SortKey.sortOn_perm _ es

theorem inserted_of_apart (h : es.KeysApart Datum.compare) : es.inserted.Perm es := by
  rw [inserted, byKey, SortKey.filterMap_runs h.nodup fun e => rfl]
  exact SortKey.sortOn_perm _ es

/-- Elements that come with ascending places are put back where they were. -/
theorem mergeSort_places {α : Type} {place : α → Nat} {xs ys : List α} (perm : ys.Perm xs)
    (places : (xs.map place).Pairwise (· < ·)) :
    ys.mergeSort (fun a b => place a ≤ place b) = xs := by
  have trans (a b c : α) : decide (place a ≤ place b) → decide (place b ≤ place c) →
      decide (place a ≤ place c) := by
    simp only [decide_eq_true_eq]
    exact Nat.le_trans
  have total (a b : α) : decide (place a ≤ place b) || decide (place b ≤ place a) := by
    simp [Nat.le_total]
  have ascending : xs.Pairwise fun a b => decide (place a ≤ place b) = true := by
    rw [List.pairwise_map] at places
    exact places.imp fun lt => decide_eq_true (Nat.le_of_lt lt)
  have sorted := (List.mergeSort_perm ys fun a b => place a ≤ place b).trans perm
  apply sorted.eq_of_pairwise _ (List.pairwise_mergeSort trans total ys) ascending
  intro a b ha hb hab hba
  have same : place a = place b := Nat.le_antisymm (of_decide_eq_true hab) (of_decide_eq_true hba)
  exact List.inj_on_of_nodup_map (places.imp Nat.ne_of_lt) (sorted.mem_iff.mp ha) hb same

theorem unordered_of_apart (h : es.KeysApart Datum.compare) : es.unordered = es := by
  let placed := es.zipIdx.map fun e => ((e.2, e.1.1), e.1.2)
  have distinct : (placed.map fun e => e.1.2.sortKey).Nodup := by
    have keys : placed.map (fun e => e.1.2.sortKey) = es.map fun e => e.1.sortKey := by
      calc
        placed.map (fun e => e.1.2.sortKey) = (es.zipIdx.map Prod.fst).map (·.1.sortKey) := by
          rw [List.map_map, List.map_map]
          rfl
        _ = es.map fun e => e.1.sortKey := by rw [List.zipIdx_map_fst]
    rw [keys]
    exact h.nodup
  have places : (placed.map fun e => e.1.1).Pairwise (· < ·) := by
    have range : placed.map (fun e => e.1.1) = List.range' 0 es.length := by
      rw [← List.zipIdx_map_snd 0 es, List.map_map]
      rfl
    rw [range]
    exact List.pairwise_lt_range'
  have merged : (SortKey.runs (fun e => e.1.2.sortKey) placed).filterMap firstKeyLastValue =
      SortKey.sortOn (fun e => e.1.2.sortKey) placed :=
    SortKey.filterMap_runs distinct fun e => rfl
  change (((SortKey.runs _ placed).filterMap firstKeyLastValue).mergeSort _).map _ = es
  rw [merged, mergeSort_places (SortKey.sortOn_perm _ placed) places, List.map_map]
  exact List.zipIdx_map_fst 0 es

end Entries

end BinCodec
