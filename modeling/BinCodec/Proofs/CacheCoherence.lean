import BinCodec.Datum.Display
import BinCodec.Packer
import BinCodec.Proofs.CacheErasure
import BinCodec.Proofs.FlatEncoding
import BinCodec.Script

/-!
# Caches over whole runs

A cache is filled from two places: by estimating a value, and by taking the script value of
something that a blob is nested in. `Later` says all that either of them may do to one value
of a tree, and `Value.Evolves` that this is all that happened, position by position. Every
operation lets a value evolve (`run_evolves`), so a run of operations does (`after_evolves`),
and what the caches hold at any time follows.
-/

namespace BinCodec

/-! ## The values in a tree -/

mutual

/-- The values nested in a datum, at any depth. -/
def Datum.nested : Datum → List Value
  | .value v => v :: v.nested
  | .list items => nestedItems items
  | .map _ entries => nestedEntries entries
  | _ => []

def Value.nested : Value → List Value
  | .array values _ => nestedValues values
  | .list items _ => nestedItems items
  | .map _ entries _ _ => nestedEntries entries
  | .entryList entries _ _ => nestedEntries entries
  | _ => []

def nestedItems : List Datum → List Value
  | [] => []
  | x :: xs => x.nested ++ nestedItems xs

def nestedValues : List Value → List Value
  | [] => []
  | v :: vs => v :: v.nested ++ nestedValues vs

def nestedEntries : List (Datum × Datum) → List Value
  | [] => []
  | (k, v) :: es => k.nested ++ v.nested ++ nestedEntries es

end

def Value.tree (v : Value) : List Value := v :: v.nested

/-! ## What may become of a cache -/

/-- The bytes that a cache is for: of a blob its serialized object, of a collection what
packing it gives wherever objects may be serialized. -/
def Value.Holds (v : Value) (b : Bytes) : Prop :=
  match v with
  | .blob o _ => o.encode = .ok b
  | v => ∀ c : Config, c.disableSerializer = false → (v.packed c).result = .ok b

/-- The same value at a later time. Its cache is what it was, or was empty and has got the
bytes that it is for. -/
structure Later (u w : Value) : Prop where
  bare : w.bare = u.bare
  cache : w.cache? = u.cache? ∨
    u.cache? = some none ∧ ∃ b, w.cache? = some (some b) ∧ w.Holds b

/-- A value at a later time, with everything nested in it. -/
def Value.Evolves (v w : Value) : Prop := List.Forall₂ Later v.tree w.tree

structure Datum.Evolves (d d' : Datum) : Prop where
  bare : d'.bare = d.bare
  nested : List.Forall₂ Later d.nested d'.nested

structure EntryEvolves (e e' : Datum × Datum) : Prop where
  key : e.1.Evolves e'.1
  value : e.2.Evolves e'.2

theorem holds_iff {v : Value} {b : Bytes} : v.Holds b ↔
    ∀ c : Config, c.disableSerializer = false → (v.freshEncoding c).result = .ok b := by
  cases v with
  | blob o cache =>
    constructor
    · intro h c enabled
      rw [Value.freshEncoding, Object.serialize, enabled]
      exact h
    · intro h
      exact h {} rfl
  | _ => exact Iff.rfl

theorem freshEncoding_bare (c : Config) (v : Value) :
    v.bare.freshEncoding c = v.freshEncoding c := by
  cases v with
  | blob o cache => rfl
  | array | list | map | entryList => exact congrArg Emission.toTraced ((pack_bare c).2 _)
  | _ => rfl

/-- What a cache is for does not depend on the caches there are. -/
theorem holds_of_bare {v w : Value} {b : Bytes} (h : w.bare = v.bare) (holds : v.Holds b) :
    w.Holds b := by
  rw [holds_iff] at holds ⊢
  intro c enabled
  rw [← freshEncoding_bare, h, freshEncoding_bare]
  exact holds c enabled

theorem Later.refl (v : Value) : Later v v := by
  constructor
  · rfl
  · left
    rfl

theorem Later.trans {u v w : Value} (h : Later u v) (h' : Later v w) : Later u w := by
  constructor
  · rw [h'.bare, h.bare]
  · rcases h'.cache with same | ⟨empty, filled⟩
    · rw [same]
      rcases h.cache with same' | ⟨empty, b, filled, holds⟩
      · left
        exact same'
      · right
        exact ⟨empty, b, filled, holds_of_bare h'.bare holds⟩
    · right
      rcases h.cache with same' | ⟨-, b, full, -⟩
      · exact ⟨same' ▸ empty, filled⟩
      · rw [full] at empty
        cases empty

theorem forall₂_later_refl (vs : List Value) : List.Forall₂ Later vs vs :=
  List.forall₂_same.mpr fun v _ => Later.refl v

theorem Value.Evolves.refl (v : Value) : v.Evolves v := forall₂_later_refl v.tree

theorem Datum.Evolves.refl (d : Datum) : d.Evolves d := ⟨rfl, forall₂_later_refl d.nested⟩

theorem EntryEvolves.refl (e : Datum × Datum) : EntryEvolves e e := ⟨.refl e.1, .refl e.2⟩

theorem forall₂_later_trans {us vs ws : List Value} (h : List.Forall₂ Later us vs)
    (h' : List.Forall₂ Later vs ws) : List.Forall₂ Later us ws := by
  induction h generalizing ws with
  | nil => exact h'
  | cons first _ ih =>
    cases h' with
    | cons first' rest' => exact .cons (first.trans first') (ih rest')

theorem Value.Evolves.trans {u v w : Value} (h : u.Evolves v) (h' : v.Evolves w) : u.Evolves w :=
  forall₂_later_trans h h'

theorem Value.Evolves.later {v w : Value} (h : v.Evolves w) : Later v w :=
  (List.forall₂_cons.mp h).1

/-! ## Collections whose members evolve -/

section Members

variable {xs ys : List Datum} {vs ws : List Value} {es fs : Entries}

theorem items_evolve (h : List.Forall₂ Datum.Evolves xs ys) :
    bareItems ys = bareItems xs ∧ List.Forall₂ Later (nestedItems xs) (nestedItems ys) := by
  induction h with
  | nil => exact ⟨rfl, .nil⟩
  | cons first _ ih =>
    constructor
    · rw [bareItems, bareItems, first.bare, ih.1]
    · exact List.rel_append first.nested ih.2

theorem values_evolve (h : List.Forall₂ Value.Evolves vs ws) :
    bareValues ws = bareValues vs ∧ List.Forall₂ Later (nestedValues vs) (nestedValues ws) := by
  induction h with
  | nil => exact ⟨rfl, .nil⟩
  | cons first _ ih =>
    constructor
    · rw [bareValues, bareValues, first.later.bare, ih.1]
    · exact List.rel_append first ih.2

theorem entries_evolve (h : List.Forall₂ EntryEvolves es fs) :
    bareEntries fs = bareEntries es ∧
      List.Forall₂ Later (nestedEntries es) (nestedEntries fs) := by
  induction h with
  | nil => exact ⟨rfl, .nil⟩
  | cons first _ ih =>
    constructor
    · rw [bareEntries, bareEntries, first.key.bare, first.value.bare, ih.1]
    · exact List.rel_append (List.rel_append first.key.nested first.value.nested) ih.2

theorem Value.evolves_of_nested {v w : Value} (bare : w.bare = v.bare)
    (cache : w.cache? = v.cache?) (nested : List.Forall₂ Later v.nested w.nested) :
    v.Evolves w := List.forall₂_cons.mpr ⟨⟨bare, .inl cache⟩, nested⟩

end Members

/-! ## Estimating -/

section Estimating

variable {c : Config} {v : Value}

theorem fill_bare (b : Bytes) (v : Value) : (v.fill b).bare = v.bare := by
  cases v <;> rfl

theorem nested_fill (b : Bytes) (v : Value) : (v.fill b).nested = v.nested := by
  cases v <;> rfl

theorem fill_of_fixed (h : v.cache? = none) (b : Bytes) : v.fill b = v := by
  cases v <;> first | rfl | cases h

theorem holds_of_encoding {b : Bytes} (empty : v.cache? = some none)
    (h : (v.encoding c).result = .ok b) : v.Holds b := by
  rw [Value.encoding_of_empty empty] at h
  rw [holds_iff]
  intro c' enabled
  exact Value.freshEncoding_of_enabled (Value.result_gate.mp h).2 enabled

theorem later_fill {b : Bytes} (h : (v.encoding c).result = .ok b) : Later v (v.fill b) := by
  constructor
  · exact fill_bare b v
  · cases hc : v.cache? with
    | none =>
      left
      rw [fill_of_fixed hc, hc]
    | some cache =>
      rw [Value.cache?_fill hc]
      cases cache with
      | none =>
        right
        exact ⟨rfl, b, rfl, holds_of_bare (fill_bare b v) (holds_of_encoding hc h)⟩
      | some kept =>
        left
        rw [Value.encoding_of_filled hc] at h
        rw [Except.ok.inj (Value.result_gate.mp h).2]

theorem encodeOnce_evolves (c : Config) (v : Value) : v.Evolves (v.encodeOnce c).after := by
  unfold Value.encodeOnce
  cases h : (v.encoding c).result with
  | error e =>
    simp only [h]
    exact .refl v
  | ok b =>
    simp only [h]
    apply List.forall₂_cons.mpr
    rw [nested_fill]
    exact ⟨later_fill h, forall₂_later_refl v.nested⟩

theorem estimateSize_evolves (c : Config) (v : Value) : v.Evolves (v.estimateSize c).after := by
  cases h : v.cache? with
  | none =>
    change v.Evolves (v.estimated c)
    rw [Value.estimated_of_fixed h]
    exact .refl v
  | some cache =>
    rw [Value.estimateSize_of_cache h]
    exact encodeOnce_evolves c v

theorem estimateSize_of_error {e : Error} (h : (v.estimateSize c).outcome.result = .error e) :
    (v.estimateSize c).after = v := by
  cases hc : v.cache? with
  | none => exact Value.estimated_of_fixed hc c
  | some cache =>
    rw [Value.estimateSize_of_cache hc] at h ⊢
    cases hb : (v.encoding c).result with
    | error e => simp [Run.map, Value.encodeOnce, hb]
    | ok b => simp [Run.map, Traced.map, Value.encodeOnce, hb, Except.map] at h

end Estimating

/-! ## Script values -/

section Scripts

variable {σ τ α β : Type}

theorem Run.before_all (runs : List (Run σ α)) : (Run.all runs).before = runs.map Run.before := by
  induction runs with
  | nil => rfl
  | cons r rs ih => rw [List.map_cons, ← ih]; rfl

theorem Run.after_all_of_error {r : Run σ α} {e : Error} (h : r.outcome.result = .error e)
    (rs : List (Run σ α)) : (Run.all (r :: rs)).after = r.after :: rs.map Run.before := by
  rw [← Run.before_all]
  simp [Run.map, Run.both, Run.within, h]

theorem Run.after_all_of_ok {r : Run σ α} {a : α} (h : r.outcome.result = .ok a)
    (rs : List (Run σ α)) : (Run.all (r :: rs)).after = r.after :: (Run.all rs).after := by
  simp [Run.map, Run.both, Run.within, h]

/-- Of runs in order, those before the first failure have happened and the others have not. -/
theorem Run.after_all {R : σ → σ → Prop} (refl : ∀ s, R s s) {runs : List (Run σ α)}
    (h : ∀ r ∈ runs, R r.before r.after) :
    List.Forall₂ R (runs.map Run.before) (Run.all runs).after := by
  induction runs with
  | nil => exact .nil
  | cons r rs ih =>
    obtain ⟨first, rest⟩ := List.forall_mem_cons.mp h
    cases result : r.outcome.result with
    | error e =>
      rw [Run.after_all_of_error result]
      exact .cons first (List.forall₂_same.mpr fun s _ => refl s)
    | ok a =>
      rw [Run.after_all_of_ok result]
      exact .cons first (ih rest)

theorem scriptItems_eq_map (c : Config) (items : List Datum) :
    scriptItems c items = items.map (Datum.toScript c) := by
  induction items with
  | nil => rfl
  | cons x xs ih => rw [scriptItems, ih, List.map_cons]

theorem scriptValues_eq_map (c : Config) (values : List Value) :
    scriptValues c values = values.map (Value.toScript c) := by
  induction values with
  | nil => rfl
  | cons v vs ih => rw [scriptValues, ih, List.map_cons]

theorem scriptEntries_eq_map (c : Config) (entries : Entries) :
    scriptEntries c entries = entries.map fun e => (e.1.toScript c).both (e.2.toScript c) := by
  induction entries with
  | nil => rfl
  | cons e es ih => rw [scriptEntries, ih, List.map_cons]

theorem map_before {f : σ → Run σ α} {xs : List σ} (h : ∀ x ∈ xs, (f x).before = x) :
    (xs.map f).map Run.before = xs := by
  rw [List.map_map]
  exact (List.map_congr_left h).trans (List.map_id xs)

theorem members_evolve {R : σ → σ → Prop} (refl : ∀ s, R s s) {f : σ → Run σ α} {xs : List σ}
    (start : ∀ x ∈ xs, (f x).before = x) (h : ∀ x ∈ xs, R x (f x).after) :
    (Run.all (xs.map f)).before = xs ∧ List.Forall₂ R xs (Run.all (xs.map f)).after := by
  have evolved : ∀ r ∈ xs.map f, R r.before r.after := by
    intro r hr
    obtain ⟨x, hx, rfl⟩ := List.mem_map.mp hr
    rw [start x hx]
    exact h x hx
  have all := Run.after_all refl evolved
  rw [map_before start] at all
  exact ⟨(Run.before_all _).trans (map_before start), all⟩

theorem both_evolves {c : Config} {e : Datum × Datum}
    (start : (e.1.toScript c).before = e.1 ∧ (e.2.toScript c).before = e.2)
    (key : e.1.Evolves (e.1.toScript c).after) (value : e.2.Evolves (e.2.toScript c).after) :
    EntryEvolves e ((e.1.toScript c).both (e.2.toScript c)).after := by
  constructor
  · exact key
  · unfold Run.both
    dsimp only
    split
    · rw [start.2]
      exact .refl e.2
    · exact value

theorem scriptItems_evolve {c : Config} {xs : List Datum}
    (ih : ∀ x ∈ xs, (x.toScript c).before = x ∧ x.Evolves (x.toScript c).after) :
    (Run.all (scriptItems c xs)).before = xs ∧
      List.Forall₂ Datum.Evolves xs (Run.all (scriptItems c xs)).after := by
  rw [scriptItems_eq_map]
  exact members_evolve .refl (fun x hx => (ih x hx).1) fun x hx => (ih x hx).2

theorem scriptValues_evolve {c : Config} {vs : List Value}
    (ih : ∀ v ∈ vs, (v.toScript c).before = v ∧ v.Evolves (v.toScript c).after) :
    (Run.all (scriptValues c vs)).before = vs ∧
      List.Forall₂ Value.Evolves vs (Run.all (scriptValues c vs)).after := by
  rw [scriptValues_eq_map]
  exact members_evolve .refl (fun v hv => (ih v hv).1) fun v hv => (ih v hv).2

theorem scriptEntries_evolve {c : Config} {es : Entries}
    (ih : ∀ e ∈ es, ((e.1.toScript c).before = e.1 ∧ e.1.Evolves (e.1.toScript c).after) ∧
      (e.2.toScript c).before = e.2 ∧ e.2.Evolves (e.2.toScript c).after) :
    (Run.all (scriptEntries c es)).before = es ∧
      List.Forall₂ EntryEvolves es (Run.all (scriptEntries c es)).after := by
  rw [scriptEntries_eq_map]
  apply members_evolve .refl
  · intro e he
    obtain ⟨⟨hk, -⟩, hv, -⟩ := ih e he
    exact Prod.ext hk hv
  · intro e he
    obtain ⟨⟨hk, key⟩, hv, value⟩ := ih e he
    exact both_evolves ⟨hk, hv⟩ key value

/-- Taking a script value starts from the value at hand and lets it evolve. -/
theorem toScript_evolves (c : Config) :
    (∀ d : Datum, (d.toScript c).before = d ∧ d.Evolves (d.toScript c).after) ∧
      ∀ v : Value, (v.toScript c).before = v ∧ v.Evolves (v.toScript c).after := by
  apply nested_induction
  case value =>
    intro v ⟨start, evolves⟩
    refine ⟨congrArg Datum.value start, congrArg Datum.value evolves.later.bare, evolves⟩
  case list =>
    intro xs ih
    obtain ⟨start, evolve⟩ := scriptItems_evolve ih
    obtain ⟨bare, nested⟩ := items_evolve evolve
    exact ⟨congrArg Datum.list start, congrArg Datum.list bare, nested⟩
  case map =>
    intro kind es ih
    obtain ⟨start, evolve⟩ := scriptEntries_evolve ih
    obtain ⟨bare, nested⟩ := entries_evolve evolve
    exact ⟨congrArg (Datum.map kind) start, congrArg (Datum.map kind) bare, nested⟩
  case valueBlob => exact fun o cache => ⟨rfl, encodeOnce_evolves c (.blob o cache)⟩
  case valueArray =>
    intro vs cache ih
    obtain ⟨start, evolve⟩ := scriptValues_evolve ih
    obtain ⟨bare, nested⟩ := values_evolve evolve
    refine ⟨congrArg (Value.array · cache) start, ?_⟩
    exact Value.evolves_of_nested (congrArg (Value.array · none) bare) rfl nested
  case valueList =>
    intro xs cache ih
    obtain ⟨start, evolve⟩ := scriptItems_evolve ih
    obtain ⟨bare, nested⟩ := items_evolve evolve
    refine ⟨congrArg (Value.list · cache) start, ?_⟩
    exact Value.evolves_of_nested (congrArg (Value.list · none) bare) rfl nested
  case valueMap =>
    intro kind es order cache ih
    obtain ⟨start, evolve⟩ := scriptEntries_evolve ih
    obtain ⟨bare, nested⟩ := entries_evolve evolve
    refine ⟨congrArg (Value.map kind · order cache) start, ?_⟩
    exact Value.evolves_of_nested (congrArg (Value.map kind · order none) bare) rfl nested
  case valueEntryList =>
    intro es order cache ih
    obtain ⟨start, evolve⟩ := scriptEntries_evolve ih
    obtain ⟨bare, nested⟩ := entries_evolve evolve
    refine ⟨congrArg (Value.entryList · order cache) start, ?_⟩
    exact Value.evolves_of_nested (congrArg (Value.entryList · order none) bare) rfl nested
  all_goals
    intros
    exact ⟨rfl, .refl _⟩

end Scripts

/-! ## Runs of operations -/

inductive Operation where
  | estimate (c : Config)
  | write (buffer : Bytes) (offset : Nat)
  | pack (p : Packer)
  | packToVec (c : Config)
  | script (c : Config)
  | native
  | compare (other : Value)
  | display
  | clone

/-- What an operation returns. A write reports its fault, and packing its error with the packer
that it leaves. -/
inductive Outcome where
  | size (n : Nat)
  | written (w : Except WriteFault Written)
  | packed (p : Packer) (error? : Option Error)
  | bytes (b : Bytes)
  | script (s : Script)
  | datum (d : Datum)
  | ordering (o : Ordering)
  | text (s : String)
  | value (v : Value)

def Operation.run (v : Value) : Operation → Run Value Outcome
  | estimate c => (v.estimateSize c).map .size
  | write buffer offset => .plain v (.written (v.write buffer offset))
  | pack p =>
    let e := v.pack p.config
    .still v ⟨.ok (.packed (p.append e) e.error?), e.log⟩
  | packToVec c => .still v ((v.packed c).map .bytes)
  | script c => (v.toScript c).map .script
  | native => .plain v (.datum v.toDatum)
  | compare other => .plain v (.ordering (v.compare other))
  | display => .plain v (.text v.display)
  | clone => .plain v (.value v)

/-- The value that operations leave, carried out one after the other. -/
def Value.after (v : Value) (operations : List Operation) : Value :=
  operations.foldl (fun v operation => (operation.run v).after) v

def serializerRuns (log : List Event) : Nat :=
  log.countP fun
    | .serializing _ => true
    | _ => false

theorem run_evolves (v : Value) (operation : Operation) :
    v.Evolves (operation.run v).after := by
  cases operation with
  | estimate c => exact estimateSize_evolves c v
  | script c => exact ((toScript_evolves c).2 v).2
  | _ => exact .refl v

theorem after_evolves (v : Value) (operations : List Operation) :
    v.Evolves (v.after operations) := by
  induction operations generalizing v with
  | nil => exact .refl v
  | cons operation operations ih => exact (run_evolves v operation).trans (ih _)

theorem serializerRuns_estimateSize {v : Value} (known : v.cache? ≠ some none) (c : Config) :
    serializerRuns (v.estimateSize c).outcome.log = 0 := by
  cases h : v.cache? with
  | none =>
    obtain ⟨b, -, size⟩ := Value.estimateSize_of_fixed h
    rw [size]
    rfl
  | some cache =>
    cases cache with
    | none => exact absurd h known
    | some b =>
      rw [Value.estimateSize_of_cache h]
      change serializerRuns (v.encoding c).log = 0
      rw [Value.encoding_of_filled h]
      unfold Value.gate
      split_ifs <;> rfl

theorem cache?_estimated {c : Config} {v : Value} {n : Nat} (sized : v.Sized c n) :
    (v.estimated c).cache? ≠ some none := by
  cases h : v.cache? with
  | none =>
    rw [Value.estimated_of_fixed h, h]
    exact nofun
  | some cache =>
    obtain ⟨b, -, -, after⟩ := Value.sized_of_cache h sized
    rw [after, Value.cache?_fill h]
    exact nofun

theorem Later.known {u w : Value} (h : Later u w) (known : u.cache? ≠ some none) :
    w.cache? ≠ some none := by
  rcases h.cache with same | ⟨empty, -⟩
  · rw [same]
    exact known
  · exact absurd empty known

theorem Later.filled {u w : Value} (h : Later u w) {b : Bytes}
    (filled : u.cache? = some (some b)) : w.cache? = some (some b) := by
  rcases h.cache with same | ⟨empty, -⟩
  · rw [same, filled]
  · rw [filled] at empty
    cases empty

/-- What has become of an empty cache is what it is for. -/
theorem Later.holds {u w : Value} (h : Later u w) (fresh : ∀ b, u.cache? ≠ some (some b))
    {b : Bytes} (filled : w.cache? = some (some b)) : w.Holds b := by
  rcases h.cache with same | ⟨-, b', filled', holds⟩
  · rw [same] at filled
    exact absurd filled (fresh b)
  · rw [filled] at filled'
    cases filled'
    exact holds

/-- Every cache in a value is empty or holds the bytes that it is for. -/
def Value.Coherent (v : Value) : Prop := ∀ u ∈ v.tree, ∀ b, u.cache? = some (some b) → u.Holds b

theorem Value.Coherent.own {v : Value} (h : v.Coherent) {b : Bytes}
    (filled : v.cache? = some (some b)) : v.Holds b := h v List.mem_cons_self b filled

theorem Value.Coherent.of_empty {v : Value}
    (empty : v.tree.all (fun u => u.cache?.join.isNone) = true) : v.Coherent := by
  intro u hu b filled
  have none := List.all_eq_true.mp empty u hu
  rw [filled] at none
  cases none

/-- Operations keep a value coherent. -/
theorem Value.Coherent.after {v : Value} (h : v.Coherent) (operations : List Operation) :
    (v.after operations).Coherent := by
  intro w hw b filled
  obtain ⟨u, hu, later⟩ := exists_of_forall₂ (after_evolves v operations) hw
  rcases later.cache with same | ⟨-, b', filled', holds⟩
  · exact holds_of_bare later.bare (h u hu b (same ▸ filled))
  · rw [filled] at filled'
    cases filled'
    exact holds

/-- Starting with empty caches, whatever operations are carried out in whatever order: every
cache in the tree is empty or holds the bytes that it is for. From then on a filled cache stays
as it is, an estimate that fails changes nothing, writing never runs the serializer, and once
an estimate has succeeded no later one does. -/
theorem caches_coherent {v : Value} (fresh : ∀ u ∈ v.tree, ∀ b, u.cache? ≠ some (some b))
    (operations : List Operation) :
    (∀ u ∈ (v.after operations).tree, ∀ b, u.cache? = some (some b) → u.Holds b) ∧
    (∀ later, List.Forall₂ (fun u w => ∀ b, u.cache? = some (some b) → w.cache? = some (some b))
      (v.after operations).tree ((v.after operations).after later).tree) ∧
    (∀ c e, ((v.after operations).estimateSize c).outcome.result = .error e →
      ((v.after operations).estimateSize c).after = v.after operations) ∧
    (∀ buffer offset,
      serializerRuns ((Operation.write buffer offset).run (v.after operations)).outcome.log = 0) ∧
    (∀ c n, (v.after operations).Sized c n → ∀ later c',
      serializerRuns ((((v.after operations).estimated c).after later).estimateSize c').outcome.log
        = 0) := by
  refine ⟨?_, ?_, fun c e => estimateSize_of_error, fun _ _ => rfl, ?_⟩
  · intro w hw b filled
    obtain ⟨u, hu, h⟩ := exists_of_forall₂ (after_evolves v operations) hw
    exact h.holds (fresh u hu) filled
  · intro later
    apply (after_evolves (v.after operations) later).imp
    intro u w h b
    exact h.filled
  · intro c n sized later c'
    apply serializerRuns_estimateSize
    exact (after_evolves _ later).later.known (cache?_estimated sized)

/-- Taking the script value of a list fails at its second item and has then filled the cache of
its first; estimating fills that of the list. -/
theorem caches_coherent_after_failure :
    let v : Value := .list [.value (.blob ⟨"Point", .integer 7⟩ none), .value .infinity] none
    let w := v.after [.script {}, .estimate {}]
    w.tree.map Value.cache? =
      [some (some [0x92, 0xa2, 7, 7, 0xd4, 0xff, 1]), some (some [7]), none] ∧
      ∀ u ∈ w.tree, ∀ b, u.cache? = some (some b) → u.Holds b := by
  intro v w
  have fresh : ∀ u ∈ v.tree, ∀ b, u.cache? ≠ some (some b) := by
    intro u hu b
    simp only [v, Value.tree, Value.nested, nestedItems, Datum.nested, List.mem_cons,
      List.append_nil, List.cons_append, List.nil_append, List.not_mem_nil, or_false] at hu
    rcases hu with rfl | rfl | rfl <;> nofun
  exact ⟨by rfl, (caches_coherent fresh [.script {}, .estimate {}]).1⟩

end BinCodec
