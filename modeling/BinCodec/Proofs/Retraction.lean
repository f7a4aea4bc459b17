import BinCodec.Proofs.Classification
import BinCodec.Proofs.History

/-!
# Classifying and going back

Classifying a datum and taking the datum of its value again gives the datum itself, or what it is
rendered as (`Datum.rendered`): characters, names, identifiers and buffers are data on the way in
only. Classifying that once more gives the value back, so a round of both settles at once. This
holds at any time of the value's life. What it has cached stays behind, but it is a twin of the
value that comes out of the round, and no call tells the two apart
(`classification_retracts`).
-/

namespace BinCodec

/-! ## What is rendered -/

/-- The data that are already in wire form. -/
def Datum.IsClassified : Datum → Prop
  | .value _ => True
  | _ => False

/-- The data that come back as other data. -/
def Datum.IsRendered : Datum → Prop
  | .char _ | .symbol _ | .uuid _ | .buffer _ => True
  | _ => False

/-- What a datum comes back as: a character as its code point, a name and an identifier as their
text, a buffer as its bytes, and anything else as it is. -/
def Datum.rendered : Datum → Datum
  | .char ch => .int (codePoint ch)
  | .symbol s => .text s
  | .uuid id => .text id.toText
  | .buffer b => .bytes b
  | d => d

section Rounds

variable {c : Config} {d : Datum} {v : Value}

theorem same_rendered_iff (d : Datum) : d.rendered.same d = true ↔ ¬ d.IsRendered := by
  rw [Datum.same_iff]
  constructor
  · intro same
    cases d <;> first | exact not_false | cases same
  · intro kept
    cases d <;> first | rfl | exact absurd trivial kept

theorem toDatum_classify (unclassified : ¬ d.IsClassified) :
    (d.classify c).toDatum = d.rendered := by
  cases d with
  | value v => exact absurd trivial unclassified
  | bool b =>
    unfold Datum.classify Value.boolean
    split_ifs <;> rfl
  | _ => rfl

theorem classify_rendered (c : Config) (d : Datum) : d.rendered.classify c = d.classify c := by
  cases d <;> rfl

theorem rendered_toDatum (v : Value) : v.toDatum.rendered = v.toDatum := by
  cases v <;> rfl

theorem classify_toDatum_classify (unclassified : ¬ d.IsClassified) :
    (d.classify c).toDatum.classify c = d.classify c := by
  rw [toDatum_classify unclassified, classify_rendered]

/-- A round leads to what a further round leads to, whatever value it starts from. -/
theorem toDatum_classify_toDatum (c : Config) (v : Value) :
    (v.toDatum.classify c).toDatum = v.toDatum := by
  by_cases classified : v.toDatum.IsClassified
  · -- Only a segment stays in wire form, and it is a fixed point.
    cases v <;> first | rfl | exact classified.elim
  · rw [toDatum_classify classified, rendered_toDatum]

/-! ## Caches on the way -/

theorem classify_bare (c : Config) (d : Datum) : d.bare.classify c = (d.classify c).bare := by
  cases d with
  | bool b =>
    change Value.boolean c b = (Value.boolean c b).bare
    unfold Value.boolean
    split_ifs <;> rfl
  | _ => rfl

theorem nestedItems_wrapAll (values : List Value) :
    nestedItems (Value.wrapAll values) = nestedValues values := by
  rw [nestedItems_eq_flatMap, nestedValues_eq_flatMap, Value.wrapAll, List.flatMap_map]
  rfl

theorem nestedItems_pairLists (entries : Entries) :
    nestedItems (Value.pairLists entries) = nestedEntries entries := by
  rw [nestedItems_eq_flatMap, nestedEntries_eq_flatMap, Value.pairLists, List.flatMap_map]
  simp [Datum.nested, nestedItems]

theorem mem_tree_of_mem_toDatum {u : Value} (h : u ∈ v.toDatum.nested) : u ∈ v.tree := by
  cases v with
  | segment b => exact h
  | array values cache =>
    apply List.mem_cons_of_mem
    rwa [Value.toDatum, Datum.nested, nestedItems_wrapAll] at h
  | entryList entries order cache =>
    apply List.mem_cons_of_mem
    rwa [Value.toDatum, Datum.nested, nestedItems_pairLists] at h
  | _ => exact List.mem_cons_of_mem _ h

theorem Value.Coherent.toDatum (h : v.Coherent) : v.toDatum.Coherent :=
  fun u hu => h u (mem_tree_of_mem_toDatum hu)

theorem Datum.Coherent.classify (h : d.Coherent) (c : Config) : (d.classify c).Coherent := by
  cases d with
  | value v => exact h
  | bool b =>
    unfold Datum.classify Value.boolean
    split_ifs <;> exact .of_empty rfl
  | list items | map kind entries =>
    intro u hu
    rcases List.mem_cons.mp hu with rfl | hu
    · exact nofun
    · exact h u hu
  | _ => exact .of_empty rfl

/-- A value from a datum, whatever has been cached for it since, comes out of a round as its
twin. -/
theorem twins_redispatched (unclassified : ¬ d.IsClassified) (coherent : d.Coherent)
    (operations : List Operation) :
    Twins (((d.classify c).after operations).toDatum.classify c)
      ((d.classify c).after operations) := by
  have settled := (coherent.classify c).after operations
  refine ⟨?_, settled.toDatum.classify c, settled⟩
  have bare := (after_evolves (d.classify c) operations).later.bare
  rw [← classify_bare, ← toDatum_bare, bare, toDatum_bare, classify_bare,
    classify_toDatum_classify unclassified]

end Rounds

/-! ## The round -/

/-- A datum that is not in wire form yet comes back from its value as itself, unless it is rendered,
and classifying what comes back gives the value. At any later time of the value the same round gives
an equal value on which every call gives the same, and a further round changes nothing. What is in
wire form already stays as it is. -/
theorem classification_retracts (c : Config) :
    (∀ n : Datum, ¬ n.IsClassified →
      (n.classify c).toDatum = n.rendered ∧ (n.rendered.same n = true ↔ ¬ n.IsRendered) ∧
      (n.classify c).toDatum.classify c = n.classify c) ∧
    (∀ ch : Char, (Datum.codePoint ch).toInt = ch.toNat) ∧
    (∀ n : Datum, ¬ n.IsClassified → n.Coherent → ∀ operations : List Operation,
      let v := (n.classify c).after operations
      let back := v.toDatum.classify c
      v.toDatum.same n.rendered = true ∧ back.same v = true ∧ back.Alike v ∧
      (∀ c' size, v.Sized c' size → (back.estimated c').write = (v.estimated c').write) ∧
      back.toDatum = v.toDatum ∧ back.toDatum.classify c = back) ∧
    ∀ v : Value, (Datum.value v).classify c = v := by
  refine ⟨?_, Datum.toInt_codePoint, ?_, Datum.classify_value c⟩
  · intro n unclassified
    exact ⟨toDatum_classify unclassified, same_rendered_iff n,
      classify_toDatum_classify unclassified⟩
  · intro n unclassified coherent operations v back
    have twins : Twins back v := twins_redispatched unclassified coherent operations
    have alike : back.Alike v := twins_alike twins
    have past : v.Alike (n.classify c) :=
      twins_alike ((Twins.refl (coherent.classify c)).after operations [])
    have round : back.toDatum = v.toDatum := toDatum_classify_toDatum c v
    refine ⟨?_, ?_, alike, ?_, round, ?_⟩
    · rw [← toDatum_classify unclassified]
      exact past.native
    · rw [(alike.same v).1]
      exact Value.same_iff.mpr rfl
    · intro c' size sized
      have sized' : back.Sized c' size := (alike.size c').trans sized
      exact (twins.after [.estimate c'] [.estimate c']).write_eq (cache?_estimated sized')
        (cache?_estimated sized)
    · rw [round]

/-- A list that has been scripted and estimated. The cache of the list is left behind and that of
the blob in it is kept; a character in a list is not rendered, and an identifier is. -/
theorem classification_retracts_cached :
    let n : Datum := .list [.char 'a', .value (.blob ⟨"Point", .integer 7⟩ none)]
    let v := (n.classify {}).after [.script {}, .estimate {}]
    let back := v.toDatum.classify {}
    v.tree.map Value.cache? = [some (some [0x92, 97, 0xa2, 7, 7]), some (some [7])] ∧
      back.tree.map Value.cache? = [some none, some (some [7])] ∧
      back.same v = true ∧ back.Alike v ∧ v.toDatum.same n = true ∧
      ((Datum.uuid ⟨0⟩).classify {}).toDatum.same (.uuid ⟨0⟩) = false := by
  intro n v back
  obtain ⟨returned, -, later, -⟩ := classification_retracts {}
  have coherent : n.Coherent := by
    intro u hu
    rw [List.mem_singleton.mp hu]
    exact nofun
  obtain ⟨native, same, alike, -⟩ := later n not_false coherent [.script {}, .estimate {}]
  refine ⟨rfl, rfl, same, alike, native, ?_⟩
  obtain ⟨rendered, kept, -⟩ := returned (.uuid ⟨0⟩) not_false
  rw [rendered, ← Bool.not_eq_true, kept]
  exact not_not_intro trivial

end BinCodec
