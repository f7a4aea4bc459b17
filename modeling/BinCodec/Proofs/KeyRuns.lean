import BinCodec.Proofs.Collecting

/-!
# What is given last

A map keeps one entry of each run of equal keys. If what is kept has the key of the run and shows
what the last element of the run shows, then the kept entries show, for every key, what was given
last (`SortKey.Keeps.lastAt_runs`).
-/

namespace BinCodec

/-! ## Runs -/

section Runs

variable {α β : Type} {key : α → SortKey} {val : α → β} {xs ys : List α} {runs : List (List α)}

/-- What the last element with a key has to show. -/
def SortKey.lastAt (key : α → SortKey) (val : α → β) (xs : List α) (k : SortKey) : Option β :=
  (xs.filter fun x => (key x).same k).getLast?.map val

namespace SortKey

theorem lastAt_append (k : SortKey) :
    lastAt key val (xs ++ ys) k = (lastAt key val ys k).or (lastAt key val xs k) := by
  unfold lastAt
  rw [List.filter_append, List.getLast?_append]
  cases (ys.filter fun x => (key x).same k).getLast? <;> rfl

theorem lastAt_map (f : β → α) {γ : Type} {val : α → γ} (xs : List β) (k : SortKey) :
    lastAt key val (xs.map f) k = lastAt (fun x => key (f x)) (fun x => val (f x)) xs k := by
  rw [lastAt, List.filter_map, List.getLast?_map, Option.map_map]
  rfl

theorem lastAt_run {run : List α} (ne : run ≠ []) (constant : ∀ a ∈ run, ∀ b ∈ run, key a = key b)
    (k : SortKey) : lastAt key val run k =
      if (key (run.getLast ne)).same k then some (val (run.getLast ne)) else none := by
  have all : ∀ a ∈ run, (key a).same k = (key (run.getLast ne)).same k := by
    intro a ha
    rw [constant a ha _ (List.getLast_mem ne)]
  rw [lastAt, List.filter_congr all]
  cases (key (run.getLast ne)).same k with
  | true =>
    rw [List.filter_true, List.getLast?_eq_some_getLast ne]
    rfl
  | false =>
    rw [List.filter_false]
    rfl

theorem filter_sortOn (key : α → SortKey) (xs : List α) (k : SortKey) :
    (sortOn key xs).filter (fun x => (key x).same k) = xs.filter fun x => (key x).same k := by
  let cmp (a b : α) := (key a).compare (key b)
  have trans : Std.TransCmp cmp := transCmp_on inferInstance key
  have arranged : Arranged cmp xs (sortOn key xs) := by
    rw [sortOn_eq_mergeSort]
    exact arranged_mergeSort trans xs
  by_cases given : ∃ a ∈ xs, key a = k
  · obtain ⟨a, -, rfl⟩ := given
    have tied : (fun b => (key b).same (key a)) = fun b => cmp a b == .eq := by
      funext b
      rw [Bool.eq_iff_iff, same_iff, beq_iff_eq]
      constructor
      · intro same
        change (key a).compare (key b) = .eq
        rw [same, compare_self]
      · exact fun tie => (eq_of_compare tie).symm
    rw [tied]
    exact arranged.stable a
  · have absent : ∀ a ∈ xs, ¬ (key a).same k = true := by
      intro a ha
      rw [same_iff]
      exact fun same => given ⟨a, ha, same⟩
    rw [List.filter_eq_nil_iff.mpr absent]
    apply List.filter_eq_nil_iff.mpr
    intro a ha
    exact absent a (arranged.perm.mem_iff.mp ha)

section Keep

variable {keep : List α → Option α}

theorem Keeps.lastAt_filterMap (h : Keeps key val keep) (areRuns : AreRuns key runs) (k : SortKey) :
    lastAt key val (runs.filterMap keep) k = lastAt key val runs.flatten k := by
  have kept : ∀ run ∈ runs, ∃ e, keep run = some e ∧
      lastAt key val [e] k = lastAt key val run k := by
    intro run hrun
    obtain ⟨e, kept, sameKey, sameValue⟩ :=
      h run (areRuns.nonempty run hrun) (areRuns.constant run hrun)
    refine ⟨e, kept, ?_⟩
    rw [lastAt_run (areRuns.nonempty run hrun) (areRuns.constant run hrun),
      lastAt_run (List.cons_ne_nil e []) (by simp), List.getLast_singleton, sameKey, sameValue]
  clear areRuns
  induction runs with
  | nil => rfl
  | cons run rest ih =>
    obtain ⟨⟨e, kept, same⟩, kept'⟩ := List.forall_mem_cons.mp kept
    rw [List.filterMap_cons_some kept, List.flatten_cons, lastAt_append, ← ih kept', ← same,
      ← lastAt_append, List.singleton_append]

/-- What is kept of the runs of a list shows with every key what the list shows. -/
theorem Keeps.lastAt_runs (h : Keeps key val keep) (xs : List α) (k : SortKey) :
    lastAt key val ((SortKey.runs key xs).filterMap keep) k = lastAt key val xs k := by
  rw [h.lastAt_filterMap (areRuns_runs key xs), flatten_runs, lastAt, filter_sortOn, ← lastAt]

end Keep

end SortKey

end Runs

end BinCodec
