import BinCodec.Object.Serialize
import BinCodec.Pack.Header

/-!
# Emissions

Packing emits bytes and log lines, possibly up to an error. What was emitted before an error
stays emitted. Emissions follow one another until one fails.
-/

namespace BinCodec

structure Emission where
  bytes : Bytes
  log : List Event
  error? : Option Error

namespace Emission

def ofBytes (b : Bytes) : Emission := ⟨b, [], none⟩

def empty : Emission := ofBytes []

/-- The second emission after the first, unless the first failed. -/
def andThen (a b : Emission) : Emission :=
  match a.error? with
  | some _ => a
  | none => ⟨a.bytes ++ b.bytes, a.log ++ b.log, b.error?⟩

/-- Emissions one after the other, up to the first failure. -/
def concat (es : List Emission) : Emission := es.foldr andThen empty

@[simp] theorem concat_nil : concat [] = empty := rfl

@[simp] theorem concat_cons (e : Emission) (es : List Emission) :
    concat (e :: es) = e.andThen (concat es) := rfl

@[simp] theorem empty_andThen (e : Emission) : empty.andThen e = e := by
  simp [andThen, empty, ofBytes]

@[simp] theorem andThen_empty (e : Emission) : e.andThen empty = e := by
  obtain ⟨bytes, log, error?⟩ := e
  cases error? <;> simp [andThen, empty, ofBytes]

theorem andThen_assoc (a b c : Emission) : (a.andThen b).andThen c = a.andThen (b.andThen c) := by
  cases ha : a.error? <;> cases hb : b.error? <;> simp [andThen, ha, hb, List.append_assoc]

/-- The payload of a result, if there is one. -/
def ofTraced (t : Traced Bytes) : Emission :=
  match t.result with
  | .ok b => ⟨b, t.log, none⟩
  | .error e => ⟨[], t.log, some e⟩

/-- All emitted bytes, or the error. -/
def toTraced (e : Emission) : Traced Bytes :=
  ⟨match e.error? with
    | none => .ok e.bytes
    | some error => .error error, e.log⟩

def blob (c : Config) (o : Object) : Emission :=
  ofTraced ((o.serialize c).map (Pack.payload .jblob))

end Emission

end BinCodec
