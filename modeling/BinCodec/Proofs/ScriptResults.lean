import BinCodec.Proofs.CacheCoherence

/-!
# Results of script values

Taking a script value leaves caches and a log behind. Without them it is a plain recursion that
stops at the first error: `Datum.scripted` and `Value.scripted` are what it comes to, and the
lemmas below give a collection's in terms of its members'.
-/

namespace BinCodec

def Datum.scripted (c : Config) (d : Datum) : Except Error Script := (d.toScript c).outcome.result

def Value.scripted (c : Config) (v : Value) : Except Error Script := (v.toScript c).outcome.result

/-- The script values of a map entry, its key before its value. -/
def scriptedEntry (c : Config) (e : Datum × Datum) : Except Error (Script × Script) :=
  (e.1.scripted c).bind fun k => (e.2.scripted c).map fun v => (k, v)

theorem scriptedEntry_congr {c : Config} {e f : Datum × Datum}
    (key : e.1.scripted c = f.1.scripted c) (value : e.2.scripted c = f.2.scripted c) :
    scriptedEntry c e = scriptedEntry c f := by
  rw [scriptedEntry, scriptedEntry, key, value]

section Runs

variable {σ τ α β : Type}

theorem Run.result_both (r : Run σ α) (s : Run τ β) : (r.both s).outcome.result =
    r.outcome.result.bind fun a => s.outcome.result.map fun b => (a, b) := by
  unfold Run.both Traced.bind
  cases r.outcome.result <;> rfl

theorem Run.result_all (runs : List (Run σ α)) :
    (Run.all runs).outcome.result = runs.mapM fun r => r.outcome.result := by
  induction runs with
  | nil => rfl
  | cons r rs ih =>
    rw [List.mapM_cons, ← ih]
    change ((r.both (Run.all rs)).outcome.result.map fun v => v.1 :: v.2) = _
    rw [Run.result_both]
    cases r.outcome.result with
    | error e => rfl
    | ok a => cases (Run.all rs).outcome.result <;> rfl

section Members

variable {ε : Type} {f g : σ → Except ε α} {xs front back : List σ} {x y : σ}

theorem mapM_congr_left (h : ∀ x ∈ xs, f x = g x) : xs.mapM f = xs.mapM g := by
  induction xs with
  | nil => rfl
  | cons x xs ih =>
    obtain ⟨first, rest⟩ := List.forall_mem_cons.mp h
    rw [List.mapM_cons, List.mapM_cons, first, ih rest]

theorem mapM_replace (same : f x = f y) :
    (front ++ x :: back).mapM f = (front ++ y :: back).mapM f := by
  rw [List.mapM_append, List.mapM_append, List.mapM_cons, List.mapM_cons, same]

theorem mapM_eq_ok {ys : List α} :
    xs.mapM f = .ok ys ↔ List.Forall₂ (fun x y => f x = .ok y) xs ys := by
  induction xs generalizing ys with
  | nil => cases ys <;> simp [pure, Except.pure]
  | cons x xs ih =>
    rw [List.mapM_cons, List.forall₂_cons_left_iff]
    cases f x with
    | error e => simp [bind, Except.bind]
    | ok y =>
      cases rest : xs.mapM f with
      | error e => simp [bind, Except.bind, ← ih, rest]
      | ok zs => simp [bind, Except.bind, pure, Except.pure, ← ih, rest, eq_comm]

end Members

end Runs

section Collections

variable {c : Config}

theorem result_scriptItems (items : List Datum) :
    (Run.all (scriptItems c items)).outcome.result = items.mapM (Datum.scripted c) := by
  rw [Run.result_all, scriptItems_eq_map, List.mapM_map]
  rfl

theorem result_scriptValues (values : List Value) :
    (Run.all (scriptValues c values)).outcome.result = values.mapM (Value.scripted c) := by
  rw [Run.result_all, scriptValues_eq_map, List.mapM_map]
  rfl

theorem result_scriptEntries (entries : Entries) :
    (Run.all (scriptEntries c entries)).outcome.result = entries.mapM (scriptedEntry c) := by
  rw [Run.result_all, scriptEntries_eq_map, List.mapM_map]
  congr 1
  funext e
  exact Run.result_both _ _

theorem Datum.scripted_list (items : List Datum) :
    (Datum.list items).scripted c = (items.mapM (Datum.scripted c)).map .list :=
  congrArg (Except.map Script.list) (result_scriptItems items)

theorem Datum.scripted_map (kind : MapKind) (entries : Entries) :
    (Datum.map kind entries).scripted c = (entries.mapM (scriptedEntry c)).map .map :=
  congrArg (Except.map Script.map) (result_scriptEntries entries)

theorem Value.scripted_array (values : List Value) (cache : Cache) :
    (Value.array values cache).scripted c = (values.mapM (Value.scripted c)).map .list :=
  congrArg (Except.map Script.list) (result_scriptValues values)

theorem Value.scripted_list (items : List Datum) (cache : Cache) :
    (Value.list items cache).scripted c = (items.mapM (Datum.scripted c)).map .list :=
  congrArg (Except.map Script.list) (result_scriptItems items)

theorem Value.scripted_map (kind : MapKind) (entries : Entries) (order : MapOrder)
    (cache : Cache) :
    (Value.map kind entries order cache).scripted c =
      (entries.mapM (scriptedEntry c)).map .map :=
  congrArg (Except.map Script.map) (result_scriptEntries entries)

theorem Value.scripted_entryList (entries : Entries) (order : MapOrder) (cache : Cache) :
    (Value.entryList entries order cache).scripted c =
      (entries.mapM (scriptedEntry c)).map .map :=
  congrArg (Except.map Script.map) (result_scriptEntries entries)

end Collections

end BinCodec
