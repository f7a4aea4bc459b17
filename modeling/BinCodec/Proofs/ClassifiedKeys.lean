import BinCodec.Proofs.Classification
import BinCodec.Proofs.PackedMaps

/-!
# Keys that are already classified

Classification changes the variant of a datum: characters become ints, symbols and identifiers
texts, buffers bytes. The order of keys takes back only the outermost value, not the change of
variant. Still it places a classified key where it places the datum it came from
(`keyOrder_classify`), because the class of a key and what is compared of it stay the same. So the
entries of a map are arranged alike whether their keys and values are classified or not.
-/

namespace BinCodec

/-! ## One key -/

section Key

variable (ord : ObjectOrder) (c : Config) (a b : Datum)

theorem keyParts_classify (r : Comparison) (d : Datum) :
    (Datum.value (d.classify c)).keyForm.keyClass = d.keyForm.keyClass ∧
      (Datum.value (d.classify c)).keyForm.keyParts r = d.keyForm.keyParts r := by
  cases d with
  | bool b =>
    unfold Datum.classify Value.boolean
    split_ifs <;> exact ⟨rfl, rfl⟩
  | char ch =>
    refine ⟨rfl, ?_⟩
    change ({ key := .number (Datum.codePoint ch).toInt } : Parts) = { key := .number ch.toNat }
    rw [Datum.toInt_codePoint]
  | _ => exact ⟨rfl, rfl⟩

theorem keyOrder_classify :
    ord.keyOrder (.value (a.classify c)) b = ord.keyOrder a b ∧
      ord.keyOrder b (.value (a.classify c)) = ord.keyOrder b a := by
  obtain ⟨sameClass, sameParts⟩ := keyParts_classify c ord.structural a
  unfold ObjectOrder.keyOrder
  simp only [plainKeyOrder_eq, sameClass, sameParts, and_self]

theorem packBy_classify (c' : Config) (d : Datum) :
    (Datum.value (d.classify c)).packBy ord c' = d.packBy ord c' := by
  cases d with
  | bool b =>
    unfold Datum.classify Value.boolean
    split_ifs <;> rfl
  | char ch => exact pack_classify c c' (.char ch)
  | _ => rfl

end Key

/-! ## Entries -/

/-- A datum as it is or classified, under whatever configuration. -/
inductive Datum.MaybeClassified (d : Datum) : Datum → Prop
  | same : MaybeClassified d d
  | classified (c : Config) : MaybeClassified d (.value (d.classify c))

section Entries

variable {a a' b b' : Datum} {e e' f f' : Datum × Datum}

theorem Datum.MaybeClassified.keyOrder (ha : a.MaybeClassified a') (hb : b.MaybeClassified b')
    (ord : ObjectOrder) : ord.keyOrder a b = ord.keyOrder a' b' := by
  have left : ord.keyOrder a' b = ord.keyOrder a b := by
    cases ha with
    | same => rfl
    | classified c => exact (keyOrder_classify ord c a b).1
  rw [← left]
  cases hb with
  | same => rfl
  | classified c => exact (keyOrder_classify ord c b a').2.symm

theorem Datum.MaybeClassified.packBy (h : a.MaybeClassified a') (ord : ObjectOrder) (c : Config) :
    a.packBy ord c = a'.packBy ord c := by
  cases h with
  | same => rfl
  | classified c' => exact (packBy_classify ord c' c a).symm

/-- An entry with its key, its value, both or neither classified. -/
structure EntryClassified (e f : Datum × Datum) : Prop where
  key : e.1.MaybeClassified f.1
  value : e.2.MaybeClassified f.2

theorem EntryClassified.compareEntries (he : EntryClassified e e') (hf : EntryClassified f f')
    (ord : ObjectOrder) (order : MapOrder) :
    order.compareEntries ord.keyOrder e f = order.compareEntries ord.keyOrder e' f' := by
  unfold MapOrder.compareEntries
  rw [he.key.keyOrder hf.key, he.value.keyOrder hf.value]

theorem EntryClassified.packBy (h : EntryClassified e f) (ord : ObjectOrder) (c : Config) :
    packEntryBy ord c e = packEntryBy ord c f := by
  rw [packEntryBy, packEntryBy, h.key.packBy, h.value.packBy]

theorem packBy_entryList {es fs : Entries} (replaced : List.Forall₂ EntryClassified es fs)
    (ord : ObjectOrder) (order : MapOrder) (cache cache' : Cache) (c : Config) :
    (Value.entryList fs order cache').packBy ord c =
      (Value.entryList es order cache).packBy ord c := by
  have sorted : List.Forall₂ EntryClassified (order.entriesBy ord es) (order.entriesBy ord fs) := by
    apply forall₂_mergeSort replaced
    intro e e' f f' he hf
    rw [he.compareEntries hf]
  have packed : (order.entriesBy ord es).map (packEntryBy ord c) =
      (order.entriesBy ord fs).map (packEntryBy ord c) :=
    forall₂_iff_map_eq.mp (sorted.imp fun _ _ h => h.packBy ord c)
  rw [Value.packBy, Value.packBy, packArrangedBy_packEntriesBy, packArrangedBy_packEntriesBy,
    replaced.length_eq, packed]

end Entries

/-- Whether a key is classified is invisible to the order of keys, on either side and over any
order of objects. So an entry list packs to the same bytes under every map order, or fails with the
same error after the same bytes, if any of its keys and values are replaced by their classified
forms. This, too, holds over any order of objects. -/
theorem key_order_blind_to_classification :
    (∀ (ord : ObjectOrder) (c : Config) (a b : Datum),
      ord.keyOrder (.value (a.classify c)) b = ord.keyOrder a b ∧
        ord.keyOrder b (.value (a.classify c)) = ord.keyOrder b a) ∧
    (∀ (c : Config) (a b : Datum),
      (Datum.value (a.classify c)).serverCompare b = a.serverCompare b ∧
        b.serverCompare (.value (a.classify c)) = b.serverCompare a) ∧
    ∀ (es fs : Entries), List.Forall₂ EntryClassified es fs →
      ∀ (order : MapOrder) (cache cache' : Cache) (c : Config),
        (∀ ord : ObjectOrder, (Value.entryList fs order cache').packBy ord c =
          (Value.entryList es order cache).packBy ord c) ∧
        (Value.entryList fs order cache').pack c = (Value.entryList es order cache).pack c ∧
        (Value.entryList fs order cache').packed c = (Value.entryList es order cache).packed c := by
  refine ⟨keyOrder_classify, ?_, ?_⟩
  · intro c a b
    rw [← keyOrder_fieldwise]
    exact keyOrder_classify .fieldwise c a b
  · intro es fs replaced order cache cache' c
    have packed (ord : ObjectOrder) := packBy_entryList replaced ord order cache cache' c
    have same : (Value.entryList fs order cache').pack c =
        (Value.entryList es order cache).pack c := by
      rw [← (packBy_fieldwise c).2, ← (packBy_fieldwise c).2]
      exact packed .fieldwise
    exact ⟨packed, same, congrArg Emission.toTraced same⟩

/-- An object, bytes that belong before it, and an int tied with a character, classified in
part. -/
theorem key_order_blind_to_classification_mixed :
    let point : Datum := .object ⟨"Point", .integer 7⟩
    let es : Entries := [(point, .symbol "a"), (.buffer [9], .null), (.int 65, .null),
      (.char 'A', .bool true)]
    let fs : Entries := [(.value (point.classify {}), .value ((Datum.symbol "a").classify {})),
      (.value ((Datum.buffer [9]).classify {}), .null), (.int 65, .null),
      (.value ((Datum.char 'A').classify {}), .value ((Datum.bool true).classify {}))]
    (Value.entryList fs .key none).pack {} = (Value.entryList es .key none).pack {} := by
  intro point es fs
  have replaced : List.Forall₂ EntryClassified es fs :=
    .cons ⟨.classified _, .classified _⟩ <| .cons ⟨.classified _, .same⟩ <|
      .cons ⟨.same, .same⟩ <| .cons ⟨.classified _, .classified _⟩ .nil
  exact (key_order_blind_to_classification.2.2 es fs replaced .key none none {}).2.1

end BinCodec
