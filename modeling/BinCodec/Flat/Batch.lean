import BinCodec.Flat

/-!
# Batches

A batch of values shares one buffer. All values are estimated first; if that succeeds, each
is written right behind the one before, into a buffer of exactly the summed size.
-/

namespace BinCodec.Batch

/-- The estimates of a batch: the values with their caches, the sizes up to the first
failure, and that failure. -/
structure Estimates where
  values : List Value
  sizes : List Nat
  failure? : Option Error
  log : List Event

def estimate (c : Config) : List Value → Estimates
  | [] => ⟨[], [], none, []⟩
  | v :: vs =>
    let run := v.estimateSize c
    match run.outcome.result with
    | .error e => ⟨run.after :: vs, [], some e, run.outcome.log⟩
    | .ok size =>
      let rest := estimate c vs
      { values := run.after :: rest.values
        sizes := size :: rest.sizes
        failure? := rest.failure?
        log := run.outcome.log ++ rest.log }

/-- The number of bytes of a buffer that holds all values with a size. -/
def Estimates.total (e : Estimates) : Nat := e.sizes.foldr (· + ·) 0

/-- The state of a buffer that is being written. -/
structure Cursor where
  buffer : Bytes
  offset : Nat
  /-- Where each value so far begins. -/
  offsets : List Nat
deriving DecidableEq, Repr

def write (values : List Value) (cursor : Cursor) : Except WriteFault Cursor :=
  values.foldlM (fun cursor v =>
    (v.write cursor.buffer cursor.offset).map fun written =>
      { buffer := written.buffer
        offset := cursor.offset + written.count
        offsets := cursor.offsets ++ [cursor.offset] }) cursor

/-- Writes estimated values into a zeroed buffer of the summed size. -/
def fill (e : Estimates) : Except WriteFault Cursor :=
  write e.values ⟨List.replicate e.total 0, 0, []⟩

end BinCodec.Batch
