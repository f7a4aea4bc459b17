import BinCodec.Flat.Batch
import BinCodec.Proofs.Packing
import Mathlib.Tactic.SplitIfs

/-!
# The flat encoding in two phases

Estimating and writing are two separate descriptions of one encoding. `Value.flat?` is what
they have in common: the bytes that writing puts down, which estimating measures. Successful
estimates of one value agree whatever the configurations (`estimated_agree`). A batch keeps
an invariant while it is written: what lies before the offset is the concatenation of the
encodings so far, and what lies behind has not been touched (`write_batch`).
-/

namespace BinCodec

namespace Value

/-- Null and the range sentinels, which have no flat encoding. -/
def isBlank : Value → Bool
  | null | infinity | wildcard => true
  | _ => false

/-- Writing puts down the given bytes, wherever they fit, and nothing else. Where they do not
fit the write fails, unless there is nothing to put down anyway. -/
structure Writes (v : Value) (b : Bytes) : Prop where
  of_le : ∀ {buffer : Bytes} {offset : Nat}, offset + b.length ≤ buffer.length →
    v.write buffer offset =
      .ok ⟨b.length, buffer.take offset ++ b ++ buffer.drop (offset + b.length)⟩
  of_lt : ∀ {buffer : Bytes} {offset : Nat}, buffer.length < offset + b.length →
    v.write buffer offset = if v.isBlank then .ok ⟨0, buffer⟩ else .error .outOfBounds

/-- The bytes that writing puts down, if they are known. -/
def flat? : Value → Option Bytes
  | null | infinity | wildcard => some []
  | bytes b _ | segment b | hll b => some b
  | byte n => some (Bytes.ofLong n.toUInt64.toInt64)
  | text s => some (Bytes.ofText s)
  | int n => some (Bytes.ofLong n.toInt64)
  | long n => some (Bytes.ofLong n)
  | double x => some x.toBytes
  | float x => some x.widen.toBytes
  | bool b => some [if b then 1 else 0]
  | boolInt b => some (Bytes.ofLong (if b then 1 else 0))
  | geoJson s => some (0 :: Bytes.ofShort 0 ++ Bytes.ofText s)
  | blob _ cache | array _ cache | list _ cache | map _ _ _ cache | entryList _ _ cache => cache

/-! ## Writing -/

theorem writes_of_writeAt {v : Value} {b : Bytes} (blank : v.isBlank = false)
    (h : ∀ buffer offset, v.write buffer offset = b.writeAt buffer offset) : v.Writes b := by
  constructor
  · intro buffer offset fits
    rw [h, Bytes.writeAt_of_le fits]
  · intro buffer offset long
    rw [h, Bytes.writeAt_of_lt long, blank]
    rfl

theorem writes_of_isBlank {v : Value} (blank : v.isBlank = true)
    (h : ∀ buffer offset, v.write buffer offset = .ok ⟨0, buffer⟩) : v.Writes [] := by
  constructor
  · intro buffer offset _
    rw [h, List.append_nil, List.length_nil, Nat.add_zero, List.take_append_drop]
  · intro buffer offset _
    rw [h, if_pos blank]

theorem writes_flat {v : Value} {b : Bytes} (h : v.flat? = some b) : v.Writes b := by
  cases v
  case null | infinity | wildcard =>
    cases h
    exact writes_of_isBlank rfl fun _ _ => rfl
  all_goals
    cases h
    exact writes_of_writeAt rfl fun _ _ => rfl

theorem write_of_cache {v : Value} {cache : Cache} (h : v.cache? = some cache) :
    v.write = writeCache cache := by
  cases v <;> first | cases h; rfl | cases h

theorem write_of_empty_cache {v : Value} (h : v.cache? = some none) (buffer : Bytes)
    (offset : Nat) : v.write buffer offset = .error .notEstimated := by
  rw [write_of_cache h]
  rfl

/-! ## Estimating -/

section Estimating

variable {c c' : Config} {v : Value} {b : Bytes} {n : Nat}

def estimated (c : Config) (v : Value) : Value := (v.estimateSize c).after

def Sized (c : Config) (v : Value) (n : Nat) : Prop :=
  (v.estimateSize c).outcome.result = .ok n

theorem utf8ByteSize_eq (s : String) : s.utf8ByteSize = (Bytes.ofText s).length := by
  simp [Bytes.ofText]

theorem result_gate {α : Type} {t : Traced α} {x : α} :
    (v.gate c t).result = .ok x ↔
      (c.disableSerializer && v.holdsObject) = false ∧ t.result = .ok x := by
  unfold gate
  split_ifs with h <;> simp [h]

theorem freshEncoding_of_enabled (h : (v.freshEncoding c).result = .ok b)
    (enabled : c'.disableSerializer = false) : (v.freshEncoding c').result = .ok b := by
  have packed (h : (v.packed c).result = .ok b) : (v.packed c').result = .ok b := by
    have succeeds := (Emission.toTraced_eq_ok.mp h).1
    rwa [Value.packed, (pack_of_enabled enabled).2 v succeeds]
  unfold freshEncoding at h ⊢
  cases v with
  | blob o cache =>
    simp only [Object.serialize, enabled] at h ⊢
    split_ifs at h
    exact h
  | _ => exact packed h

theorem freshEncoding_agree {b' : Bytes} (h : (v.freshEncoding c).result = .ok b)
    (h' : (v.freshEncoding c').result = .ok b') : b = b' := by
  have enabled : Config.disableSerializer {} = false := rfl
  have hb := freshEncoding_of_enabled h enabled
  have hb' := freshEncoding_of_enabled h' enabled
  rw [hb] at hb'
  exact Except.ok.inj hb'

theorem encoding_of_filled (filled : v.cache? = some (some b)) :
    v.encoding c = v.gate c (.pure b) := by
  rw [encoding, filled]

theorem encoding_of_empty (empty : v.cache? = some none) :
    v.encoding c = v.gate c (v.freshEncoding c) := by
  rw [encoding, empty]

theorem estimateSize_of_cache {cache : Cache} (h : v.cache? = some cache) (c : Config) :
    v.estimateSize c = (v.encodeOnce c).map List.length := by
  cases v <;> first | rfl | cases h

theorem estimateSize_of_fixed (h : v.cache? = none) :
    ∃ b, v.flat? = some b ∧ ∀ c, v.estimateSize c = .still v (.pure b.length) := by
  cases v with
  | text s => exact ⟨_, rfl, fun c => by rw [estimateSize, utf8ByteSize_eq]⟩
  | geoJson s =>
    have length : 1 + 2 + s.utf8ByteSize =
        (0 :: Bytes.ofShort 0 ++ Bytes.ofText s).length := by
      rw [utf8ByteSize_eq, List.length_append]
      rfl
    exact ⟨_, rfl, fun c => by rw [estimateSize, length]⟩
  | blob | array | list | map | entryList => cases h
  | _ => exact ⟨_, rfl, fun c => rfl⟩

theorem flat?_of_cache {cache : Cache} (h : v.cache? = some cache) : v.flat? = cache := by
  cases v <;> first | cases h; rfl | cases h

theorem cache?_fill {cache : Cache} (h : v.cache? = some cache) (b : Bytes) :
    (v.fill b).cache? = some (some b) := by
  cases v <;> first | rfl | cases h

theorem estimated_of_fixed (h : v.cache? = none) (c : Config) : v.estimated c = v := by
  obtain ⟨b, -, size⟩ := estimateSize_of_fixed h
  rw [estimated, size]
  rfl

/-- A successful estimate of a blob or collection leaves it with its bytes, and tells their
number. -/
theorem sized_of_cache {cache : Cache} (h : v.cache? = some cache) (sized : v.Sized c n) :
    ∃ b, (v.encoding c).result = .ok b ∧ n = b.length ∧ v.estimated c = v.fill b := by
  unfold Sized at sized
  rw [estimateSize_of_cache h] at sized
  rw [estimated, estimateSize_of_cache h]
  cases hb : (v.encoding c).result with
  | error e => simp [Run.map, Traced.map, encodeOnce, hb, Except.map] at sized
  | ok b =>
    refine ⟨b, rfl, ?_, ?_⟩
    · simpa [Run.map, Traced.map, encodeOnce, hb, Except.map, eq_comm] using sized
    · simp [Run.map, encodeOnce, hb]

theorem flat?_estimated (sized : v.Sized c n) :
    ∃ b, (v.estimated c).flat? = some b ∧ b.length = n := by
  cases h : v.cache? with
  | none =>
    obtain ⟨b, flat, size⟩ := estimateSize_of_fixed h
    rw [Sized, size] at sized
    rw [estimated_of_fixed h]
    exact ⟨b, flat, Except.ok.inj sized⟩
  | some cache =>
    obtain ⟨b, -, length, after⟩ := sized_of_cache h sized
    rw [after]
    exact ⟨b, flat?_of_cache (cache?_fill h b), length.symm⟩

/-- The bytes of a blob or collection do not depend on the configuration. -/
theorem encoding_agree {b' : Bytes} {cache : Cache} (h : v.cache? = some cache)
    (hb : (v.encoding c).result = .ok b) (hb' : (v.encoding c').result = .ok b') : b = b' := by
  cases cache with
  | none =>
    rw [encoding_of_empty h] at hb hb'
    exact freshEncoding_agree (result_gate.mp hb).2 (result_gate.mp hb').2
  | some kept =>
    rw [encoding_of_filled h] at hb hb'
    have hk := Except.ok.inj (result_gate.mp hb).2
    have hk' := Except.ok.inj (result_gate.mp hb').2
    rw [← hk, ← hk']

theorem estimated_agree {m : Nat} (h : v.Sized c n) (h' : v.Sized c' m) :
    v.estimated c = v.estimated c' := by
  cases hc : v.cache? with
  | none => rw [estimated_of_fixed hc, estimated_of_fixed hc]
  | some cache =>
    obtain ⟨b, hb, -, after⟩ := sized_of_cache hc h
    obtain ⟨b', hb', -, after'⟩ := sized_of_cache hc h'
    rw [after, after', encoding_agree hc hb hb']

end Estimating

/-- The flat encoding of a value, which a successful estimate makes known. -/
def flat (c : Config) (v : Value) : Bytes := (v.estimated c).flat?.getD []

theorem sized_flat {c : Config} {v : Value} {n : Nat} (sized : v.Sized c n) :
    (v.flat c).length = n ∧ (v.estimated c).Writes (v.flat c) := by
  obtain ⟨b, known, length⟩ := flat?_estimated sized
  rw [flat, known, Option.getD_some]
  constructor
  · exact length
  · exact writes_flat known

end Value

/-! ## Batches -/

namespace Batch

theorem estimate_of_sized {c : Config} {values : List Value}
    (h : ∀ v ∈ values, ∃ n, v.Sized c n) :
    (estimate c values).failure? = none ∧
      (estimate c values).values = values.map (Value.estimated c) ∧
      (estimate c values).total = (values.map (Value.flat c)).flatten.length := by
  induction values with
  | nil => exact ⟨rfl, rfl, rfl⟩
  | cons v vs ih =>
    obtain ⟨⟨n, sized⟩, rest⟩ := List.forall_mem_cons.mp h
    obtain ⟨failure, values, total⟩ := ih rest
    have result : (v.estimateSize c).outcome.result = .ok n := sized
    rw [estimate, List.map_cons, List.map_cons, List.flatten_cons, List.length_append, ← values,
      ← total, (Value.sized_flat sized).1]
    simp only [result, failure, Value.estimated, Estimates.total, List.foldr_cons, and_self]

/-- Values that know their encodings are written right behind what has been written before.
The room behind them stays as it was. -/
theorem write_batch {enc : Value → Bytes} {c : Config} {values : List Value}
    (h : ∀ v ∈ values, (v.estimated c).Writes (enc v)) (done room : Bytes) (offsets : List Nat)
    (fits : (values.map enc).flatten.length ≤ room.length) :
    ∃ starts, write (values.map (Value.estimated c)) ⟨done ++ room, done.length, offsets⟩ =
      .ok ⟨done ++ (values.map enc).flatten ++ room.drop (values.map enc).flatten.length,
        done.length + (values.map enc).flatten.length, starts⟩ := by
  -- Each step moves the bytes of one value from the room to what is done.
  induction values generalizing done room offsets with
  | nil => exact ⟨offsets, by simp [write, pure, Except.pure]⟩
  | cons v vs ih =>
    obtain ⟨first, rest⟩ := List.forall_mem_cons.mp h
    rw [List.map_cons, List.flatten_cons, List.length_append] at fits
    have step : (v.estimated c).write (done ++ room) done.length =
        .ok ⟨(enc v).length, (done ++ enc v) ++ room.drop (enc v).length⟩ := by
      rw [first.of_le (by rw [List.length_append]; omega), List.take_left, List.drop_append]
      simp
    have room' : (vs.map enc).flatten.length ≤ (room.drop (enc v).length).length := by
      rw [List.length_drop]
      omega
    obtain ⟨starts, ih⟩ := ih rest (done ++ enc v) _ (offsets ++ [done.length]) room'
    refine ⟨starts, ?_⟩
    unfold write at ih ⊢
    rw [List.map_cons, List.foldlM_cons, step]
    rw [List.length_append] at ih
    refine Eq.trans ih ?_
    rw [List.map_cons, List.flatten_cons, List.length_append, List.drop_drop, Nat.add_assoc]
    simp only [List.append_assoc]

theorem write_exact {enc : Value → Bytes} {c : Config} {values : List Value}
    (h : ∀ v ∈ values, (v.estimated c).Writes (enc v)) {buffer : Bytes}
    (total : (values.map enc).flatten.length = buffer.length) :
    ∃ cursor, write (values.map (Value.estimated c)) ⟨buffer, 0, []⟩ = .ok cursor ∧
      cursor.offset = buffer.length ∧ cursor.buffer = (values.map enc).flatten := by
  obtain ⟨starts, run⟩ := write_batch h [] buffer [] (Nat.le_of_eq total)
  refine ⟨_, run, ?_, ?_⟩
  · exact (Nat.zero_add _).trans total
  · change [] ++ (values.map enc).flatten ++ buffer.drop _ = _
    rw [total, List.drop_length, List.nil_append, List.append_nil]

theorem write_next {enc : Value → Bytes} {c : Config} {front back : List Value} {v : Value}
    (h : ∀ u ∈ front ++ v :: back, (u.estimated c).Writes (enc u)) {buffer : Bytes}
    (total : ((front ++ v :: back).map enc).flatten.length = buffer.length) :
    ∃ sofar written, write (front.map (Value.estimated c)) ⟨buffer, 0, []⟩ = .ok sofar ∧
      (v.estimated c).write sofar.buffer sofar.offset = .ok written ∧
      written.count = (enc v).length := by
  obtain ⟨hfront, hback⟩ := List.forall_mem_append.mp h
  rw [List.map_append, List.flatten_append, List.length_append, List.map_cons, List.flatten_cons,
    List.length_append] at total
  obtain ⟨starts, run⟩ := write_batch hfront [] buffer [] (by omega)
  refine ⟨_, _, run, (List.forall_mem_cons.mp hback).1.of_le ?_, rfl⟩
  simp only [List.length_append, List.length_nil, List.length_drop]
  omega

end Batch

/-- The two phases fit together. A batch in a buffer of exactly the summed size is written
without fault: every write returns its own estimate, the last one ends with the buffer, and
the buffer is the concatenation of the flat encodings of the single values. A value that was
estimated on its own writes its bytes at any offset of any buffer that has room, and these are
the same bytes whatever the configuration. A cache that is still empty cannot be written. -/
theorem two_phase_encoding (c : Config) :
    (∀ (values : List Value) (buffer : Bytes), (∀ v ∈ values, ∃ n, v.Sized c n) →
      buffer.length = (Batch.estimate c values).total →
      (Batch.estimate c values).failure? = none ∧
      ∃ (enc : Value → Bytes) (cursor : Batch.Cursor),
        Batch.write (Batch.estimate c values).values ⟨buffer, 0, []⟩ = .ok cursor ∧
        cursor.offset = buffer.length ∧
        cursor.buffer = (values.map enc).flatten ∧
        (∀ v ∈ values, v.Sized c (enc v).length ∧ (v.estimated c).Writes (enc v)) ∧
        ∀ front v back, values = front ++ v :: back → ∃ sofar written,
          Batch.write (front.map (Value.estimated c)) ⟨buffer, 0, []⟩ = .ok sofar ∧
          (v.estimated c).write sofar.buffer sofar.offset = .ok written ∧
          v.Sized c written.count) ∧
    (∀ (v : Value) (n : Nat), v.Sized c n → ∃ b : Bytes, b.length = n ∧
      (v.estimated c).Writes b ∧ ∀ c' m, v.Sized c' m → (v.estimated c').Writes b) ∧
    ∀ v : Value, v.cache? = some none →
      ∀ buffer offset, v.write buffer offset = .error .notEstimated := by
  refine ⟨?_, ?_, fun v empty => Value.write_of_empty_cache empty⟩
  · intro values buffer h room
    obtain ⟨failure, estimates, total⟩ := Batch.estimate_of_sized h
    rw [← room] at total
    have sized : ∀ v ∈ values, v.Sized c (v.flat c).length := by
      intro v hv
      obtain ⟨n, sized⟩ := h v hv
      rwa [(Value.sized_flat sized).1]
    have writes : ∀ v ∈ values, (v.estimated c).Writes (v.flat c) :=
      fun v hv => (Value.sized_flat (sized v hv)).2
    obtain ⟨cursor, run, offset, filled⟩ := Batch.write_exact writes total.symm
    rw [estimates]
    refine ⟨failure, Value.flat c, cursor, run, offset, filled,
      fun v hv => ⟨sized v hv, writes v hv⟩, ?_⟩
    rintro front v back rfl
    obtain ⟨sofar, written, reached, next, count⟩ := Batch.write_next writes total.symm
    refine ⟨sofar, written, reached, next, ?_⟩
    rw [count]
    exact sized v (List.mem_append_right front List.mem_cons_self)
  · intro v n sized
    obtain ⟨length, writes⟩ := Value.sized_flat sized
    refine ⟨v.flat c, length, writes, ?_⟩
    intro c' m sized'
    rwa [Value.estimated_agree sized' sized]

/-- A batch of a boolean, a list, a null and a GeoJSON text, written over what the buffer held. -/
theorem two_phase_encoding_mixed :
    let values := [Value.bool true, .list [.null, .int 7] none, .null, .geoJson "\x7b\x7d"]
    ∃ cursor, Batch.write (Batch.estimate {} values).values ⟨List.replicate 9 0xaa, 0, []⟩ =
      .ok cursor ∧ cursor.offset = 9 := by
  intro values
  have sized : ∀ v ∈ values, ∃ n, v.Sized {} n := by
    simp only [values, List.forall_mem_cons]
    exact ⟨⟨1, rfl⟩, ⟨3, rfl⟩, ⟨0, rfl⟩, ⟨5, rfl⟩, nofun⟩
  obtain ⟨-, enc, cursor, run, offset, -⟩ :=
    (two_phase_encoding {}).1 values (List.replicate 9 0xaa) sized rfl
  exact ⟨cursor, run, offset⟩

end BinCodec
