/-!
# The first fault

A check that stops at its first fault does the same as one that collects the faults of all parts in
order and reports the first of them (`report`). In this form the checks of the parts of a whole are
put together by putting their faults together.
-/

namespace BinCodec

variable {ε δ α β : Type} {faults : List ε} {xs : List α}

/-- The first of some faults, or a value if there are none. -/
def report (faults : List ε) (value : α) : Except ε α :=
  match faults with
  | [] => .ok value
  | fault :: _ => .error fault

theorem report_eq_ok_iff {a b : α} : report faults a = .ok b ↔ faults = [] ∧ a = b := by
  cases faults <;> simp [report]

theorem report_eq_error_iff {a : α} {fault : ε} :
    report faults a = .error fault ↔ ∃ later, faults = fault :: later := by
  cases faults <;> simp [report]

theorem report_map (f : α → β) (faults : List ε) (a : α) :
    (report faults a).map f = report faults (f a) := by
  cases faults <;> rfl

theorem report_mapError (f : ε → δ) (faults : List ε) (a : α) :
    (report faults a).mapError f = report (faults.map f) a := by
  cases faults <;> rfl

theorem report_congr {a b : α} (h : faults = [] → a = b) : report faults a = report faults b := by
  cases faults with
  | nil => rw [h rfl]
  | cons => rfl

/-- What is checked later has its faults later. -/
theorem report_bind (front back : List ε) (a : α) (f : α → β) :
    ((report front a).bind fun a => report back (f a)) = report (front ++ back) (f a) := by
  cases front <;> rfl

theorem mapM_eq_report {f : α → Except ε β} {faults : α → List ε} {value : α → β}
    (h : ∀ x ∈ xs, f x = report (faults x) (value x)) :
    xs.mapM f = report (xs.flatMap faults) (xs.map value) := by
  induction xs with
  | nil => rfl
  | cons x xs ih =>
    obtain ⟨first, rest⟩ := List.forall_mem_cons.mp h
    rw [List.mapM_cons, first, ih rest, List.flatMap_cons, List.map_cons]
    cases faults x with
    | cons fault later => rfl
    | nil => exact report_map (value x :: ·) (xs.flatMap faults) (xs.map value)

end BinCodec
