import BinCodec.Flat.Batch
import BinCodec.Proofs.ScriptResults
import BinCodec.Proofs.SerializerGate

/-!
# What a value does not tell of its past

Operations leave nothing behind but bytes in caches, and these are the right ones. `Twins` are
values that have come from one by any operations, equal but for what is cached. Call by call
this cannot be told from results, except by what a blob displays and by a write before any
estimate: `Value.Alike` lists the calls, and `twins_alike` shows it.
-/

namespace BinCodec

/-! ## Calls that read no cache -/

theorem cache?_bare (v : Value) : v.bare.cache? = v.cache?.map fun _ => none := by
  cases v <;> rfl

theorem bare_of_fixed {v : Value} (h : v.cache? = none) : v.bare = v := by
  cases v <;> first | rfl | cases h

theorem particleType_bare (v : Value) : v.bare.particleType = v.particleType := by
  cases v <;> rfl

theorem validateKey_bare (v : Value) : v.bare.validateKey = v.validateKey := by
  cases v <;> rfl

theorem toLong_bare (v : Value) : v.bare.toLong = v.toLong := by
  cases v <;> rfl

theorem holdsObject_bare (v : Value) : v.bare.holdsObject = v.holdsObject :=
  holdsObject_of_pack fun c => (pack_bare c).2 v

/-! ## Calls that read caches -/

def Datum.Coherent (d : Datum) : Prop := ∀ u ∈ d.nested, ∀ b, u.cache? = some (some b) → u.Holds b

section Coherence

variable {items : List Datum} {values : List Value} {entries : Entries}

theorem nestedItems_eq_flatMap (items : List Datum) :
    nestedItems items = items.flatMap Datum.nested := by
  induction items with
  | nil => rfl
  | cons x xs ih => rw [nestedItems, ih, List.flatMap_cons]

theorem nestedValues_eq_flatMap (values : List Value) :
    nestedValues values = values.flatMap Value.tree := by
  induction values with
  | nil => rfl
  | cons v vs ih => rw [nestedValues, ih, List.flatMap_cons, Value.tree]

theorem nestedEntries_eq_flatMap (entries : Entries) :
    nestedEntries entries = entries.flatMap fun e => e.1.nested ++ e.2.nested := by
  induction entries with
  | nil => rfl
  | cons e es ih => rw [nestedEntries, ih, List.flatMap_cons]

theorem mem_nestedItems {x : Datum} {u : Value} (hx : x ∈ items) (hu : u ∈ x.nested) :
    u ∈ nestedItems items := by
  rw [nestedItems_eq_flatMap]
  exact List.mem_flatMap_of_mem hx hu

theorem mem_nestedValues {v u : Value} (hv : v ∈ values) (hu : u ∈ v.tree) :
    u ∈ nestedValues values := by
  rw [nestedValues_eq_flatMap]
  exact List.mem_flatMap_of_mem hv hu

theorem mem_nestedEntries {e : Datum × Datum} {u : Value} (he : e ∈ entries)
    (hu : u ∈ e.1.nested ∨ u ∈ e.2.nested) : u ∈ nestedEntries entries := by
  rw [nestedEntries_eq_flatMap]
  exact List.mem_flatMap_of_mem he (List.mem_append.mpr hu)

theorem coherent_items (h : (Datum.list items).Coherent) : ∀ x ∈ items, x.Coherent :=
  fun _ hx u hu => h u (mem_nestedItems hx hu)

theorem coherent_values {cache : Cache} (h : (Value.array values cache).Coherent) :
    ∀ v ∈ values, v.Coherent :=
  fun _ hv u hu => h u (List.mem_cons_of_mem _ (mem_nestedValues hv hu))

theorem coherent_entries (kind : MapKind) (h : (Datum.map kind entries).Coherent) :
    ∀ e ∈ entries, e.1.Coherent ∧ e.2.Coherent := by
  intro e he
  constructor
  · exact fun u hu => h u (mem_nestedEntries he (.inl hu))
  · exact fun u hu => h u (mem_nestedEntries he (.inr hu))

end Coherence

section Cached

variable {c : Config} {v : Value}

theorem freshEncoding_of_holds {b : Bytes} (holds : v.Holds b)
    (passes : (c.disableSerializer && v.holdsObject) = false) :
    (v.freshEncoding c).result = .ok b := by
  cases disabled : c.disableSerializer with
  | false => exact holds_iff.mp holds c disabled
  | true =>
    rw [disabled, Bool.true_and] at passes
    obtain ⟨b', fresh⟩ := freshEncoding_of_objects_nil (c := c) (objects_of_not_holdsObject passes)
    have result : (v.freshEncoding c).result = .ok b' := congrArg Traced.result fresh
    rw [result, Value.freshEncoding_agree result (holds_iff.mp holds {} rfl)]

theorem result_encoding_bare (coherent : v.Coherent) :
    (v.bare.encoding c).result = (v.encoding c).result := by
  cases gated : c.disableSerializer && v.holdsObject with
  | true => simp [Value.encoding, Value.gate, holdsObject_bare, gated]
  | false =>
    rw [encoding_of_open gated, encoding_of_open (by rw [holdsObject_bare, gated]), cache?_bare,
      freshEncoding_bare]
    cases filled : v.cache? with
    | none => rfl
    | some cache =>
      cases cache with
      | none => rfl
      | some b => exact freshEncoding_of_holds (coherent.own filled) gated

theorem result_estimateSize_bare (coherent : v.Coherent) :
    (v.bare.estimateSize c).outcome.result = (v.estimateSize c).outcome.result := by
  cases h : v.cache? with
  | none => rw [bare_of_fixed h]
  | some cache =>
    have h' : v.bare.cache? = some none := by rw [cache?_bare, h]; rfl
    rw [outcome_estimateSize h, outcome_estimateSize h']
    exact congrArg (Except.map List.length) (result_encoding_bare coherent)

theorem mapM_bareItems {items : List Datum}
    (ih : ∀ x ∈ items, x.Coherent → x.bare.scripted c = x.scripted c)
    (coherent : ∀ x ∈ items, x.Coherent) :
    (bareItems items).mapM (Datum.scripted c) = items.mapM (Datum.scripted c) := by
  rw [bareItems_eq_map, List.mapM_map]
  exact mapM_congr_left fun x hx => ih x hx (coherent x hx)

theorem mapM_bareEntries {entries : Entries}
    (ih : ∀ e ∈ entries, (e.1.Coherent → e.1.bare.scripted c = e.1.scripted c) ∧
      (e.2.Coherent → e.2.bare.scripted c = e.2.scripted c))
    (coherent : ∀ e ∈ entries, e.1.Coherent ∧ e.2.Coherent) :
    (bareEntries entries).mapM (scriptedEntry c) = entries.mapM (scriptedEntry c) := by
  rw [bareEntries_eq_map, List.mapM_map]
  apply mapM_congr_left
  intro e he
  obtain ⟨key, value⟩ := ih e he
  obtain ⟨keyCoherent, valueCoherent⟩ := coherent e he
  exact scriptedEntry_congr (key keyCoherent) (value valueCoherent)

theorem scripted_bare (c : Config) :
    (∀ d : Datum, d.Coherent → d.bare.scripted c = d.scripted c) ∧
      ∀ v : Value, v.Coherent → v.bare.scripted c = v.scripted c := by
  -- What is nested in a collection value is nested in the collection as a datum.
  have inside {v : Value} (coherent : v.Coherent) {d : Datum} (same : d.nested = v.nested) :
      d.Coherent := fun u hu => coherent u (List.mem_cons_of_mem v (same ▸ hu))
  apply nested_induction
  case value => exact fun v ih coherent => ih coherent
  case list =>
    intro items ih coherent
    rw [Datum.bare, Datum.scripted_list, Datum.scripted_list,
      mapM_bareItems ih (coherent_items coherent)]
  case map =>
    intro kind entries ih coherent
    rw [Datum.bare, Datum.scripted_map, Datum.scripted_map,
      mapM_bareEntries ih (coherent_entries kind coherent)]
  case valueBlob =>
    intro o cache coherent
    exact congrArg (Except.map (Script.bytes · .jblob)) (result_encoding_bare coherent)
  case valueArray =>
    intro values cache ih coherent
    rw [Value.bare, Value.scripted_array, Value.scripted_array, bareValues_eq_map, List.mapM_map]
    congr 1
    exact mapM_congr_left fun v hv => ih v hv (coherent_values coherent v hv)
  case valueList =>
    intro items cache ih coherent
    rw [Value.bare, Value.scripted_list, Value.scripted_list,
      mapM_bareItems ih (coherent_items (inside coherent rfl))]
  case valueMap =>
    intro kind entries order cache ih coherent
    rw [Value.bare, Value.scripted_map, Value.scripted_map,
      mapM_bareEntries ih (coherent_entries kind (inside coherent rfl))]
  case valueEntryList =>
    intro entries order cache ih coherent
    rw [Value.bare, Value.scripted_entryList, Value.scripted_entryList,
      mapM_bareEntries ih (coherent_entries .unordered (inside coherent rfl))]
  all_goals
    intros
    rfl

end Cached

/-! ## Display -/

/-- What a blob displays: the diagnostic text of its object, until its bytes are known. -/
def blobText (o : Object) : Cache → String
  | none => o.content.debug
  | some b => b.toHex

mutual

/-- The display text of a datum, given what a blob displays. -/
def Datum.displayBy (shown : Object → Cache → String) : Datum → String
  | .value v => v.displayBy shown
  | .list items => bracketed "[" "]" (displayItemsBy shown items)
  | .map _ entries => bracketed "\x7b" "\x7d" (displayEntriesBy shown entries)
  | d => d.display

def Value.displayBy (shown : Object → Cache → String) : Value → String
  | .blob o cache => shown o cache
  | .array values _ => bracketed "[" "]" (displayValuesBy shown values)
  | .list items _ => bracketed "[" "]" (displayItemsBy shown items)
  | .map _ entries _ _ => bracketed "\x7b" "\x7d" (displayEntriesBy shown entries)
  | .entryList entries _ _ => bracketed "\x7b" "\x7d" (displayEntriesBy shown entries)
  | v => v.display

def displayItemsBy (shown : Object → Cache → String) : List Datum → List String
  | [] => []
  | x :: xs => x.displayBy shown :: displayItemsBy shown xs

def displayValuesBy (shown : Object → Cache → String) : List Value → List String
  | [] => []
  | v :: vs => v.displayBy shown :: displayValuesBy shown vs

def displayEntriesBy (shown : Object → Cache → String) : List (Datum × Datum) → List String
  | [] => []
  | (k, v) :: es => (k.displayBy shown ++ "=" ++ v.displayBy shown) :: displayEntriesBy shown es

end

section Display

variable (shown : Object → Cache → String)

theorem displayItems_eq_map (items : List Datum) :
    displayItems items = items.map Datum.display := by
  induction items with
  | nil => rfl
  | cons x xs ih => rw [displayItems, ih, List.map_cons]

theorem displayValues_eq_map (values : List Value) :
    displayValues values = values.map Value.display := by
  induction values with
  | nil => rfl
  | cons v vs ih => rw [displayValues, ih, List.map_cons]

theorem displayEntries_eq_map (entries : Entries) :
    displayEntries entries = entries.map fun e => e.1.display ++ "=" ++ e.2.display := by
  induction entries with
  | nil => rfl
  | cons e es ih => rw [displayEntries, ih, List.map_cons]

theorem displayItemsBy_eq_map (items : List Datum) :
    displayItemsBy shown items = items.map (Datum.displayBy shown) := by
  induction items with
  | nil => rfl
  | cons x xs ih => rw [displayItemsBy, ih, List.map_cons]

theorem displayValuesBy_eq_map (values : List Value) :
    displayValuesBy shown values = values.map (Value.displayBy shown) := by
  induction values with
  | nil => rfl
  | cons v vs ih => rw [displayValuesBy, ih, List.map_cons]

theorem displayEntriesBy_eq_map (entries : Entries) : displayEntriesBy shown entries =
    entries.map fun e => e.1.displayBy shown ++ "=" ++ e.2.displayBy shown := by
  induction entries with
  | nil => rfl
  | cons e es ih => rw [displayEntriesBy, ih, List.map_cons]

theorem displayBy_blobText :
    (∀ d : Datum, d.displayBy blobText = d.display) ∧
      ∀ v : Value, v.displayBy blobText = v.display := by
  have ofItems {items : List Datum} (ih : ∀ x ∈ items, x.displayBy blobText = x.display) :
      displayItemsBy blobText items = displayItems items := by
    rw [displayItemsBy_eq_map, displayItems_eq_map]
    exact List.map_congr_left ih
  have ofEntries {entries : Entries} (ih : ∀ e ∈ entries, e.1.displayBy blobText = e.1.display ∧
      e.2.displayBy blobText = e.2.display) :
      displayEntriesBy blobText entries = displayEntries entries := by
    rw [displayEntriesBy_eq_map, displayEntries_eq_map]
    apply List.map_congr_left
    intro e he
    rw [(ih e he).1, (ih e he).2]
  apply nested_induction
  case value => exact fun v ih => ih
  case list => exact fun items ih => congrArg (bracketed "[" "]") (ofItems ih)
  case map => exact fun kind entries ih => congrArg (bracketed "\x7b" "\x7d") (ofEntries ih)
  case valueBlob =>
    intro o cache
    cases cache <;> rfl
  case valueArray =>
    intro values _ ih
    rw [Value.displayBy, Value.display, displayValuesBy_eq_map, displayValues_eq_map]
    exact congrArg (bracketed "[" "]") (List.map_congr_left ih)
  case valueList => exact fun items _ ih => congrArg (bracketed "[" "]") (ofItems ih)
  case valueMap => exact fun _ _ _ _ ih => congrArg (bracketed "\x7b" "\x7d") (ofEntries ih)
  case valueEntryList => exact fun _ _ _ ih => congrArg (bracketed "\x7b" "\x7d") (ofEntries ih)
  all_goals
    intros
    rfl

theorem displayBy_bare (blind : ∀ o k k', shown o k = shown o k') :
    (∀ d : Datum, d.bare.displayBy shown = d.displayBy shown) ∧
      ∀ v : Value, v.bare.displayBy shown = v.displayBy shown := by
  have ofItems {items : List Datum} (ih : ∀ x ∈ items, x.bare.displayBy shown = x.displayBy shown) :
      displayItemsBy shown (bareItems items) = displayItemsBy shown items := by
    rw [displayItemsBy_eq_map, displayItemsBy_eq_map, bareItems_eq_map, List.map_map]
    exact List.map_congr_left ih
  have ofEntries {entries : Entries}
      (ih : ∀ e ∈ entries, e.1.bare.displayBy shown = e.1.displayBy shown ∧
        e.2.bare.displayBy shown = e.2.displayBy shown) :
      displayEntriesBy shown (bareEntries entries) = displayEntriesBy shown entries := by
    rw [displayEntriesBy_eq_map, displayEntriesBy_eq_map, bareEntries_eq_map, List.map_map]
    apply List.map_congr_left
    intro e he
    simp only [Function.comp_apply, bareEntry, (ih e he).1, (ih e he).2]
  apply nested_induction
  case value => exact fun v ih => ih
  case list => exact fun items ih => congrArg (bracketed "[" "]") (ofItems ih)
  case map => exact fun kind entries ih => congrArg (bracketed "\x7b" "\x7d") (ofEntries ih)
  case valueBlob => exact fun o cache => blind o none cache
  case valueArray =>
    intro values _ ih
    rw [Value.bare, Value.displayBy, Value.displayBy, displayValuesBy_eq_map,
      displayValuesBy_eq_map, bareValues_eq_map, List.map_map]
    exact congrArg (bracketed "[" "]") (List.map_congr_left ih)
  case valueList => exact fun items _ ih => congrArg (bracketed "[" "]") (ofItems ih)
  case valueMap => exact fun _ _ _ _ ih => congrArg (bracketed "\x7b" "\x7d") (ofEntries ih)
  case valueEntryList => exact fun _ _ _ ih => congrArg (bracketed "\x7b" "\x7d") (ofEntries ih)
  all_goals
    intros
    rfl

end Display

/-! ## Twins -/

/-- Coherent values that are equal but for what is cached. -/
structure Twins (v w : Value) : Prop where
  bare : v.bare = w.bare
  left : v.Coherent
  right : w.Coherent

/-- Every call gives the same on both values. Only a write tells whether the value was estimated
before, and only by its fault. -/
structure Value.Alike (v w : Value) : Prop where
  size : ∀ c, (v.estimateSize c).outcome.result = (w.estimateSize c).outcome.result
  pack : ∀ c, v.pack c = w.pack c
  packed : ∀ c, (v.packed c).result = (w.packed c).result
  script : ∀ c, v.scripted c = w.scripted c
  particleType : v.particleType = w.particleType
  validateKey : v.validateKey = w.validateKey
  toLong : v.toLong = w.toLong
  compare : ∀ u, v.compare u = w.compare u ∧ u.compare v = u.compare w
  same : ∀ u, v.same u = w.same u ∧ u.same v = u.same w
  native : v.toDatum.same w.toDatum = true
  write : ∀ buffer offset, v.write buffer offset = w.write buffer offset ∨
    v.write buffer offset = .error .notEstimated ∨ w.write buffer offset = .error .notEstimated

section Twins

variable {v w : Value}

theorem Twins.refl (h : v.Coherent) : Twins v v := ⟨rfl, h, h⟩

/-- Twins stay twins, whatever operations either of them goes through. -/
theorem Twins.after (h : Twins v w) (first second : List Operation) :
    Twins (v.after first) (w.after second) := by
  constructor
  · rw [(after_evolves v first).later.bare, (after_evolves w second).later.bare, h.bare]
  · exact h.left.after first
  · exact h.right.after second

/-- Twins with a cache have been given it for the same bytes. -/
theorem Twins.holds_unique (h : Twins v w) {b b' : Bytes} (holds : v.Holds b)
    (holds' : w.Holds b') : b = b' := by
  have fresh := holds_iff.mp (holds_of_bare h.bare.symm holds) {} rfl
  rw [holds_iff.mp holds' {} rfl] at fresh
  exact (Except.ok.inj fresh).symm

theorem Twins.write_eq (h : Twins v w) (known : v.cache? ≠ some none)
    (known' : w.cache? ≠ some none) : v.write = w.write := by
  have kinds := congrArg Value.cache? h.bare
  rw [cache?_bare, cache?_bare] at kinds
  cases hv : v.cache? with
  | none =>
    have hw : w.cache? = none := by
      rw [hv] at kinds
      exact Option.map_eq_none_iff.mp kinds.symm
    rw [← bare_of_fixed hv, ← bare_of_fixed hw, h.bare]
  | some cache =>
    cases hw : w.cache? with
    | none => simp [hv, hw] at kinds
    | some cache' =>
      obtain ⟨b, rfl⟩ := Option.ne_none_iff_exists'.mp fun empty => known (hv ▸ empty ▸ rfl)
      obtain ⟨b', rfl⟩ := Option.ne_none_iff_exists'.mp fun empty => known' (hw ▸ empty ▸ rfl)
      have unique : b = b' := h.holds_unique (h.left.own hv) (h.right.own hw)
      rw [Value.write_of_cache hv, Value.write_of_cache hw, unique]

theorem twins_alike (h : Twins v w) : v.Alike w := by
  have pack (c : Config) : v.pack c = w.pack c := by
    rw [← (pack_bare c).2, h.bare, (pack_bare c).2]
  have key : v.sortKey = w.sortKey := by
    rw [← sortKey_bare.2, h.bare, sortKey_bare.2]
  constructor
  case size =>
    intro c
    rw [← result_estimateSize_bare h.left, h.bare, result_estimateSize_bare h.right]
  case pack => exact pack
  case packed =>
    intro c
    rw [Value.packed, pack, Value.packed]
  case script =>
    intro c
    rw [← (scripted_bare c).2 v h.left, h.bare, (scripted_bare c).2 w h.right]
  case particleType => rw [← particleType_bare, h.bare, particleType_bare]
  case validateKey => rw [← validateKey_bare, h.bare, validateKey_bare]
  case toLong => rw [← toLong_bare, h.bare, toLong_bare]
  case compare =>
    intro u
    simp only [Value.compare, key, and_self]
  case same =>
    intro u
    simp only [Value.same, key, and_self]
  case native =>
    rw [Datum.same_iff, ← sortKey_bare.1, ← toDatum_bare, h.bare, toDatum_bare, sortKey_bare.1]
  case write =>
    intro buffer offset
    by_cases known : v.cache? = some none
    · right; left
      exact Value.write_of_empty_cache known buffer offset
    · by_cases known' : w.cache? = some none
      · right; right
        exact Value.write_of_empty_cache known' buffer offset
      · left
        rw [h.write_eq known known']

end Twins

/-! ## Batches -/

namespace Batch

variable {c : Config} {values vs ws : List Value}

/-- A batch that was estimated, wherever that stopped, is made of twins of the values given. -/
theorem estimate_values (c : Config) (h : List.Forall₂ Twins vs ws) :
    List.Forall₂ Twins (estimate c vs).values ws := by
  induction h with
  | nil => exact .nil
  | @cons v w vs ws first rest ih =>
    unfold estimate
    dsimp only
    cases (v.estimateSize c).outcome.result with
    | error e => exact .cons (first.after [.estimate c] []) rest
    | ok n => exact .cons (first.after [.estimate c] []) ih

theorem write_cons_congr {v w : Value} (first : v.write = w.write)
    (rest : ∀ cursor, write vs cursor = write ws cursor) (cursor : Cursor) :
    write (v :: vs) cursor = write (w :: ws) cursor := by
  unfold write at rest ⊢
  rw [List.foldlM_cons, List.foldlM_cons, first]
  exact congrArg _ (funext fun written => rest written)

theorem estimate_twins (c : Config) (h : List.Forall₂ Twins vs ws) :
    (estimate c vs).sizes = (estimate c ws).sizes ∧
      (estimate c vs).failure? = (estimate c ws).failure? ∧
      ((estimate c ws).failure? = none → ∀ cursor,
        write (estimate c vs).values cursor = write (estimate c ws).values cursor) := by
  induction h with
  | nil => exact ⟨rfl, rfl, fun _ _ => rfl⟩
  | @cons v w vs ws first rest ih =>
    obtain ⟨sizes, failure, written⟩ := ih
    have size := (twins_alike first).size c
    cases result : (w.estimateSize c).outcome.result with
    | error e =>
      rw [result] at size
      simp only [estimate, size, result, true_and]
      intro done
      cases done
    | ok n =>
      have sized : v.Sized c n := size.trans result
      have same : (v.estimated c).write = (w.estimated c).write :=
        (first.after [.estimate c] [.estimate c]).write_eq (cache?_estimated sized)
          (cache?_estimated result)
      rw [result] at size
      simp only [estimate, size, result, sizes, failure, true_and]
      exact fun done => write_cons_congr same (written done)

theorem sized_of_done (h : (estimate c values).failure? = none) :
    ∀ v ∈ values, ∃ n, v.Sized c n := by
  induction values with
  | nil => exact nofun
  | cons v vs ih =>
    cases result : (v.estimateSize c).outcome.result with
    | error e => simp [estimate, result] at h
    | ok n =>
      simp only [estimate, result] at h
      exact List.forall_mem_cons.mpr ⟨⟨n, result⟩, ih h⟩

theorem fill_of_done (h : (estimate c values).failure? = none) :
    ∃ cursor, fill (estimate c values) = .ok cursor := by
  have sized := sized_of_done h
  obtain ⟨-, estimated, total⟩ := estimate_of_sized sized
  have writes : ∀ v ∈ values, (v.estimated c).Writes (v.flat c) := by
    intro v hv
    obtain ⟨n, sized⟩ := sized v hv
    exact (Value.sized_flat sized).2
  have length : (values.map (Value.flat c)).flatten.length =
      (List.replicate (estimate c values).total (0 : UInt8)).length := by
    rw [List.length_replicate, total]
  obtain ⟨cursor, run, -⟩ := write_exact writes length
  refine ⟨cursor, ?_⟩
  rw [fill, estimated]
  exact run

end Batch

/-- The history of a value is invisible: after any two runs of operations every call gives the
same. What is displayed is the same but for what blobs display, which is the text of their
object or their serialized bytes. And a batch that was refused on the way is estimated and
written again as if that had never happened. -/
theorem history_invisible {v : Value} (coherent : v.Coherent) (first second : List Operation)
    {values : List Value} (batch : ∀ u ∈ values, u.Coherent) :
    let w := v.after first
    let w' := v.after second
    w.Alike w' ∧
    (∀ u : Value, u.displayBy blobText = u.display) ∧
    (∀ shown, (∀ o k k', shown o k = shown o k') → w.displayBy shown = w'.displayBy shown) ∧
    (∀ o b, .blob o (some b) ∈ w.tree → o.encode = .ok b) ∧
    ∀ refusing enabling : Config,
      let again := Batch.estimate enabling (Batch.estimate refusing values).values
      let fresh := Batch.estimate enabling values
      again.sizes = fresh.sizes ∧ again.failure? = fresh.failure? ∧
        (fresh.failure? = none → ∃ cursor, Batch.fill again = .ok cursor ∧
          Batch.fill fresh = .ok cursor) := by
  intro w w'
  have twins : Twins w w' := (Twins.refl coherent).after first second
  refine ⟨twins_alike twins, displayBy_blobText.2, ?_, ?_, ?_⟩
  · intro shown blind
    rw [← (displayBy_bare shown blind).2, twins.bare, (displayBy_bare shown blind).2]
  · intro o b inside
    exact twins.left _ inside b rfl
  · intro refusing enabling again fresh
    have members : List.Forall₂ Twins values values :=
      List.forall₂_same.mpr fun u hu => .refl (batch u hu)
    obtain ⟨sizes, failure, written⟩ :=
      Batch.estimate_twins enabling (Batch.estimate_values refusing members)
    refine ⟨sizes, failure, ?_⟩
    intro done
    obtain ⟨cursor, run⟩ := Batch.fill_of_done done
    refine ⟨cursor, ?_, run⟩
    rw [← run, Batch.fill, Batch.fill, written done, Batch.Estimates.total, sizes,
      ← Batch.Estimates.total]

/-- A list that was refused with its batch, and whose blob has been cached for a script value. -/
theorem history_invisible_refused :
    let v : Value := .list [.value (.blob ⟨"Point", .integer 7⟩ none), .null] none
    let refusing : Config := { disableSerializer := true }
    let refused := Batch.estimate refusing [.bool true, v]
    let w := v.after [.estimate refusing, .script {}]
    refused.failure? = some .serializerDisabled ∧
      w.tree.map Value.cache? = [some none, some (some [7])] ∧ w.Alike v ∧
      ∃ cursor, Batch.fill (Batch.estimate {} refused.values) = .ok cursor ∧
        cursor.buffer = [1, 0x92, 0xa2, 7, 7, 0xc0] := by
  intro v refusing refused w
  have coherent : v.Coherent := .of_empty rfl
  have batch : ∀ u ∈ [.bool true, v], u.Coherent :=
    List.forall_mem_cons.mpr ⟨.of_empty rfl, List.forall_mem_singleton.mpr coherent⟩
  obtain ⟨alike, -, -, -, batches⟩ :=
    history_invisible coherent [.estimate refusing, .script {}] [] batch
  obtain ⟨-, -, written⟩ := batches refusing {}
  obtain ⟨cursor, again, fresh⟩ := written rfl
  refine ⟨rfl, rfl, alike, cursor, again, ?_⟩
  have run : Batch.fill (Batch.estimate {} [.bool true, v]) =
      .ok ⟨[1, 0x92, 0xa2, 7, 7, 0xc0], 6, [0, 1]⟩ := by rfl
  rw [run] at fresh
  rw [← Except.ok.inj fresh]

end BinCodec
