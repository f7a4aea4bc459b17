import BinCodec.Error

/-!
# Traced results

A traced result is a value or an error, together with the log lines written on the way.
Sequencing stops at the first error and keeps the log up to it.
-/

namespace BinCodec

/-- A value or an error, with the log of getting there. -/
structure Traced (α : Type) where
  result : Except Error α
  log : List Event

namespace Traced

variable {α β : Type}

def pure (value : α) : Traced α := ⟨.ok value, []⟩

def fail (error : Error) : Traced α := ⟨.error error, []⟩

def map (f : α → β) (t : Traced α) : Traced β := ⟨t.result.map f, t.log⟩

/-- Goes on with the value, if there is one. -/
def bind (t : Traced α) (f : α → Traced β) : Traced β :=
  match t.result with
  | .error error => ⟨.error error, t.log⟩
  | .ok value => ⟨(f value).result, t.log ++ (f value).log⟩

/-- All values in order, or the first error. -/
def collect (results : List (Traced α)) : Traced (List α) :=
  results.foldr (fun t rest => t.bind fun value => rest.map (value :: ·)) (pure [])

@[simp] theorem collect_nil : collect ([] : List (Traced α)) = pure [] := rfl

@[simp] theorem collect_cons (t : Traced α) (rest : List (Traced α)) :
    collect (t :: rest) = t.bind fun value => (collect rest).map (value :: ·) := rfl

@[simp] theorem pure_bind (value : α) (f : α → Traced β) : (pure value).bind f = f value := by
  simp [pure, bind]

@[simp] theorem fail_bind (error : Error) (f : α → Traced β) :
    (fail error : Traced α).bind f = fail error := rfl

end Traced

/-- What a call does to something that carries caches: what it was, what it is left as, and
the traced result. -/
structure Run (σ α : Type) where
  before : σ
  after : σ
  outcome : Traced α

namespace Run

variable {σ τ α β : Type}

/-- A call that changes nothing. -/
def still (s : σ) (outcome : Traced α) : Run σ α := ⟨s, s, outcome⟩

/-- A value at hand: nothing changes and nothing is logged. -/
def plain (s : σ) (value : α) : Run σ α := still s (Traced.pure value)

def map (f : α → β) (r : Run σ α) : Run σ β := ⟨r.before, r.after, r.outcome.map f⟩

/-- Sees the states of a run as parts of something larger. -/
def within (f : σ → τ) (r : Run σ α) : Run τ α := ⟨f r.before, f r.after, r.outcome⟩

/-- One run after the other. If the first fails, the second is not started. -/
def both (r : Run σ α) (s : Run τ β) : Run (σ × τ) (α × β) :=
  { before := (r.before, s.before)
    after := (r.after, match r.outcome.result with
      | .error _ => s.before
      | .ok _ => s.after)
    outcome := r.outcome.bind fun a => s.outcome.map fun b => (a, b) }

/-- Runs in order. Those after the first failure are not started. -/
def all (runs : List (Run σ α)) : Run (List σ) (List α) :=
  runs.foldr
    (fun r rest => ((r.both rest).map fun v => v.1 :: v.2).within fun s => s.1 :: s.2)
    (still [] (Traced.pure []))

@[simp] theorem all_nil : all ([] : List (Run σ α)) = still [] (Traced.pure []) := rfl

@[simp] theorem all_cons (r : Run σ α) (rest : List (Run σ α)) :
    all (r :: rest) =
      ((r.both (all rest)).map fun v => v.1 :: v.2).within fun s => s.1 :: s.2 := rfl

end Run

end BinCodec
