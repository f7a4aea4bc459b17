import BinCodec.SortKey

/-!
# Runs of equal keys

A map that is built from entries sorts them by their keys, splits them into runs of equal keys and
keeps one entry of each run. The runs are nonempty, each is of one key, and the keys ascend from run
to run (`SortKey.areRuns_runs`). So what is kept strictly ascends if it has the key of its run
(`SortKey.Keeps.ascending`).
-/

namespace BinCodec.SortKey

variable {α β : Type} {key : α → SortKey} {val : α → β} {x : α} {xs : List α}
  {parts : List (List α)}

/-! ## Splitting a list -/

/-- Puts an element before the runs of what follows it: into the first run if it is the same as the
first element there, and else as a run of its own. -/
def startRun (same : α → α → Bool) (x : α) : List (List α) → List (List α)
  | (y :: ys) :: rest => if same x y then (x :: y :: ys) :: rest else [x] :: (y :: ys) :: rest
  | rest => [x] :: rest

def splitRuns (same : α → α → Bool) (xs : List α) : List (List α) := xs.foldr (startRun same) []

theorem flatten_startRun (same : α → α → Bool) (x : α) (parts : List (List α)) :
    (startRun same x parts).flatten = x :: parts.flatten := by
  unfold startRun
  split
  · split <;> rfl
  · rfl

theorem flatten_splitRuns (same : α → α → Bool) (xs : List α) :
    (splitRuns same xs).flatten = xs := by
  induction xs with
  | nil => rfl
  | cons x xs ih => rw [splitRuns, List.foldr_cons, flatten_startRun, ← splitRuns, ih]

theorem splitRuns_of_distinct {same : α → α → Bool}
    (distinct : xs.Pairwise fun a b => same a b = false) :
    splitRuns same xs = xs.map fun x => [x] := by
  induction xs with
  | nil => rfl
  | cons x xs ih =>
    obtain ⟨first, rest⟩ := List.pairwise_cons.mp distinct
    rw [splitRuns, List.foldr_cons, ← splitRuns, ih rest]
    cases xs with
    | nil => rfl
    | cons y ys => simp [startRun, first y List.mem_cons_self]

/-! ## Runs of one key -/

/-- Every run is of one key, and the keys ascend from run to run. -/
structure AreRuns (key : α → SortKey) (parts : List (List α)) : Prop where
  nonempty : ∀ run ∈ parts, run ≠ []
  constant : ∀ run ∈ parts, ∀ a ∈ run, ∀ b ∈ run, key a = key b
  ascending : parts.Pairwise fun r s => ∀ a ∈ r, ∀ b ∈ s, (key a).compare (key b) = .lt

theorem AreRuns.cons (h : AreRuns key parts)
    (below : ∀ run ∈ parts, ∀ y ∈ run, (key x).compare (key y) = .lt) :
    AreRuns key ([x] :: parts) where
  nonempty := List.forall_mem_cons.mpr ⟨List.cons_ne_nil x [], h.nonempty⟩
  constant := by
    refine List.forall_mem_cons.mpr ⟨?_, h.constant⟩
    intro a ha b hb
    rw [List.mem_singleton.mp ha, List.mem_singleton.mp hb]
  ascending := by
    refine List.pairwise_cons.mpr ⟨?_, h.ascending⟩
    intro run hrun a ha
    rw [List.mem_singleton.mp ha]
    exact below run hrun

theorem AreRuns.cons_head {y : α} {ys : List α} (h : AreRuns key ((y :: ys) :: parts))
    (tie : key x = key y) : AreRuns key ((x :: y :: ys) :: parts) := by
  obtain ⟨-, nonempty⟩ := List.forall_mem_cons.mp h.nonempty
  obtain ⟨constant, constant'⟩ := List.forall_mem_cons.mp h.constant
  obtain ⟨above, ascending⟩ := List.pairwise_cons.mp h.ascending
  have first : ∀ a ∈ x :: y :: ys, key a = key y :=
    List.forall_mem_cons.mpr ⟨tie, fun a ha => constant a ha y List.mem_cons_self⟩
  refine ⟨List.forall_mem_cons.mpr ⟨List.cons_ne_nil _ _, nonempty⟩,
    List.forall_mem_cons.mpr ⟨?_, constant'⟩, List.pairwise_cons.mpr ⟨?_, ascending⟩⟩
  · intro a ha b hb
    rw [first a ha, first b hb]
  · intro run hrun a ha
    rw [first a ha]
    exact above run hrun y List.mem_cons_self

/-- What is below the first element of the first run is below everything in the runs. -/
theorem AreRuns.below {y : α} {ys : List α} (h : AreRuns key ((y :: ys) :: parts))
    (lt : (key x).compare (key y) = .lt) :
    ∀ run ∈ (y :: ys) :: parts, ∀ a ∈ run, (key x).compare (key a) = .lt := by
  obtain ⟨constant, -⟩ := List.forall_mem_cons.mp h.constant
  obtain ⟨above, -⟩ := List.pairwise_cons.mp h.ascending
  refine List.forall_mem_cons.mpr ⟨?_, ?_⟩
  · intro a ha
    rwa [constant a ha y List.mem_cons_self]
  · intro run hrun a ha
    exact Std.TransCmp.lt_trans lt (above run hrun y List.mem_cons_self a ha)

/-- An element that is above nothing in the runs starts a run, or is put into the first one. -/
theorem AreRuns.startRun (h : AreRuns key parts)
    (below : ∀ run ∈ parts, ∀ y ∈ run, ((key x).compare (key y)).isLE) :
    AreRuns key (startRun (fun a b => (key a).same (key b)) x parts) := by
  cases parts with
  | nil => exact h.cons nofun
  | cons run rest =>
    cases run with
    | nil => exact absurd rfl (h.nonempty [] List.mem_cons_self)
    | cons y ys =>
      have le := below _ List.mem_cons_self y List.mem_cons_self
      rw [SortKey.startRun]
      split
      next tie => exact h.cons_head (same_iff.mp tie)
      next differ =>
        have ne : (key x).compare (key y) ≠ .eq := fun order => differ (beq_iff_eq.mpr order)
        have lt := (Ordering.isLE_iff_eq_lt_or_eq_eq.mp le).resolve_right ne
        exact h.cons (h.below lt)

theorem areRuns_splitRuns (ascending : xs.Pairwise fun a b => ((key a).compare (key b)).isLE) :
    AreRuns key (splitRuns (fun a b => (key a).same (key b)) xs) := by
  induction xs with
  | nil => exact ⟨nofun, nofun, .nil⟩
  | cons x xs ih =>
    obtain ⟨below, rest⟩ := List.pairwise_cons.mp ascending
    apply (ih rest).startRun
    intro run hrun y hy
    apply below
    rw [← flatten_splitRuns (fun a b => (key a).same (key b)) xs]
    exact List.mem_flatten_of_mem hrun hy

theorem AreRuns.map {f : β → α} {key' : β → SortKey} {parts : List (List β)}
    (h : AreRuns key' parts) (keys : ∀ run ∈ parts, ∀ b ∈ run, key (f b) = key' b) :
    AreRuns key (parts.map (List.map f)) where
  nonempty run hrun := by
    obtain ⟨r, hr, rfl⟩ := List.mem_map.mp hrun
    exact mt List.map_eq_nil_iff.mp (h.nonempty r hr)
  constant run hrun a ha a' ha' := by
    obtain ⟨r, hr, rfl⟩ := List.mem_map.mp hrun
    obtain ⟨b, hb, rfl⟩ := List.mem_map.mp ha
    obtain ⟨b', hb', rfl⟩ := List.mem_map.mp ha'
    rw [keys r hr b hb, keys r hr b' hb', h.constant r hr b hb b' hb']
  ascending := by
    rw [List.pairwise_map]
    apply h.ascending.imp_of_mem
    intro r s hr hs below a ha a' ha'
    obtain ⟨b, hb, rfl⟩ := List.mem_map.mp ha
    obtain ⟨b', hb', rfl⟩ := List.mem_map.mp ha'
    rw [keys r hr b hb, keys s hs b' hb', below b hb b' hb']

/-! ## Sorting into runs -/

/-- Elements beside their keys, in ascending order of keys. -/
def keyed (key : α → SortKey) (xs : List α) : List (SortKey × α) :=
  (xs.map fun x => (key x, x)).mergeSort fun a b => (a.1.compare b.1).isLE

/-- Sorts by key; elements of one key keep their order. Every key is computed once. -/
def sortOn (key : α → SortKey) (xs : List α) : List α := (keyed key xs).map (·.2)

/-- Sorts by key and splits the result into the runs of equal keys. -/
def runs (key : α → SortKey) (xs : List α) : List (List α) :=
  (splitRuns (fun a b => a.1.same b.1) (keyed key xs)).map fun run => run.map (·.2)

theorem key_of_mem_keyed {p : SortKey × α} (h : p ∈ keyed key xs) : key p.2 = p.1 := by
  obtain ⟨x, -, rfl⟩ := List.mem_map.mp (List.mem_mergeSort.mp h)
  rfl

theorem ascending_keyed (key : α → SortKey) (xs : List α) :
    (keyed key xs).Pairwise fun a b => (a.1.compare b.1).isLE := by
  apply List.pairwise_mergeSort
  · exact fun _ _ _ => isLE_trans
  · intro a b
    rw [compare_swap b.1 a.1]
    cases compare a.1 b.1 <;> rfl

theorem areRuns_runs (key : α → SortKey) (xs : List α) : AreRuns key (runs key xs) := by
  apply (areRuns_splitRuns (ascending_keyed key xs)).map
  intro run hrun p hp
  apply key_of_mem_keyed
  rw [← flatten_splitRuns (fun a b => a.1.same b.1) (keyed key xs)]
  exact List.mem_flatten_of_mem hrun hp

theorem flatten_runs (key : α → SortKey) (xs : List α) :
    (runs key xs).flatten = sortOn key xs := by
  rw [SortKey.runs, ← List.map_flatten, flatten_splitRuns, sortOn]

/-! ## Keeping one element of a run -/

/-- Of every run something is kept that has its key and shows what its last element shows. -/
def Keeps (key : α → SortKey) (val : α → β) (keep : List α → Option α) : Prop :=
  ∀ run (ne : run ≠ []), (∀ a ∈ run, ∀ b ∈ run, key a = key b) →
    ∃ e, keep run = some e ∧ key e = key (run.getLast ne) ∧ val e = val (run.getLast ne)

theorem Keeps.ascending {keep : List α → Option α} (h : Keeps key val keep) (xs : List α) :
    ((runs key xs).filterMap keep).Pairwise fun a b =>
      (key a).compare (key b) = .lt := by
  have areRuns := areRuns_runs key xs
  rw [List.pairwise_filterMap]
  apply areRuns.ascending.imp_of_mem
  intro r s hr hs below a ha b hb
  obtain ⟨a, kept, keyA, -⟩ := h r (areRuns.nonempty r hr) (areRuns.constant r hr)
  obtain ⟨b, kept', keyB, -⟩ := h s (areRuns.nonempty s hs) (areRuns.constant s hs)
  cases kept.symm.trans ha
  cases kept'.symm.trans hb
  rw [keyA, keyB]
  exact below _ (List.getLast_mem _) _ (List.getLast_mem _)

theorem keeps_getLast (key : α → SortKey) (val : α → β) : Keeps key val List.getLast? :=
  fun _ ne _ => ⟨_, List.getLast?_eq_some_getLast ne, rfl, rfl⟩

end BinCodec.SortKey
