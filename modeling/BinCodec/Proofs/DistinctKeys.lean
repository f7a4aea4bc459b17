import BinCodec.Proofs.PackedMaps
import BinCodec.Proofs.Spelling

/-!
# Distinct keys on the wire

The keys of a map are pairwise unequal, which says nothing of what the server receives: keys that
differ only in their spelling are one key to it. A packed map has the trees of its keys as keys, so
keys from one unambiguous vocabulary stay distinct. Data in standard spelling are such a vocabulary
(`unambiguous_standard`).
-/

namespace BinCodec

/-! ## Members of a packed map -/

section Members

variable {x : Packable} {es : Entries} {order : MapOrder} {c : Config}

theorem Packable.wire_of_mapEntries (h : x.mapEntries? = some (es, order)) :
    x.wire = .map order ((order.entries es).map fun e => (e.1.wire, e.2.wire)) := by
  rw [← MapOrder.along_map, ← wireEntries_eq_map]
  apply Packable.by_mapEntries h
  case datum =>
    rintro kind rfl
    rfl
  case lifted => exact fun v ih => ih
  all_goals intros; rfl

theorem Packable.Sendable.key (sendable : x.Sendable c) (h : x.mapEntries? = some (es, order))
    {e : Datum × Datum} (he : e ∈ es) : (Packable.datum e.1).Sendable c := by
  obtain ⟨packs, fits⟩ := sendable
  rw [Packable.pack_of_mapEntries h, error?_packArranged] at packs
  rw [Packable.wire_of_mapEntries h] at fits
  constructor
  · exact (packs e he).1
  · cases fits with
    | map _ keys _ =>
      exact keys (e.1.wire, e.2.wire) (List.mem_map_of_mem (MapOrder.mem_arrange.mpr he))

end Members

/-! ## A vocabulary -/

/-- Data in standard spelling: nothing is classified, integers are long, texts are texts, bytes are
bytes, and there are no objects. -/
inductive Datum.Standard : Datum → Prop
  | null : Standard .null
  | bytes (b : Bytes) : Standard (.bytes b)
  | text (s : String) : Standard (.text s)
  | long (n : Int64) : Standard (.long n)
  | double (x : Binary64) : Standard (.double x)
  | float (x : Binary32) : Standard (.float x)
  | bool (b : Bool) : Standard (.bool b)
  | list {items : List Datum} (members : ∀ x ∈ items, Standard x) : Standard (.list items)
  | map (m : MapEntries) (keys : ∀ e ∈ m.entries, Standard e.1)
    (values : ∀ e ∈ m.entries, Standard e.2) : Standard (.map m.kind m.entries)

theorem unambiguous_standard : Unambiguous Datum.Standard where
  members d hd m hm := by
    cases hd with
    | list members => exact members m hm
    | map m keys values =>
      obtain ⟨e, he, hm⟩ := List.mem_flatMap.mp hm
      rcases List.mem_pair.mp hm with rfl | rfl
      · exact keys e he
      · exact values e he
    | _ => cases hm
  variant a b ha hb same := by
    cases ha <;> cases hb <;> first
      | rfl
      | cases same
      | skip
    case map.map m _ _ n _ _ =>
      change (Datum.map m.kind m.entries).rank = (Datum.map n.kind n.entries).rank
      cases hm : m.kind <;> cases hn : n.kind <;> first
        | rfl
        | simp [hm, hn, Datum.wire, MapKind.order] at same
  objects a b ha _ o ho := by
    cases ha <;> cases ho
  held d hd kind es h := by
    cases hd with
    | map m =>
      cases h
      exact m.held
    | _ => cases h
  given v hv := by cases hv

/-! ## Distinct keys -/

theorem nodup_map_of_pairwise {α β : Type} {f : α → β} {R : α → α → Prop} {xs : List α}
    (h : xs.Pairwise R) (ne : ∀ x ∈ xs, ∀ y ∈ xs, R x y → f x ≠ f y) : (xs.map f).Nodup := by
  rw [List.Nodup, List.pairwise_map]
  exact h.imp_of_mem fun {x y} hx hy hxy => ne x hx y hy hxy

/-- A map that packs, with counts and lengths that fit the headers, is read with the trees of its
keys as keys. Two of the keys pack to the same bytes exactly if they have the same tree. Keys that
are pairwise unequal, as those of a collection are (`MapEntries.held`), pack to pairwise different
bytes if they are taken from a vocabulary with one spelling for each item, and the server reads
pairwise different keys. -/
theorem distinct_keys_stay_distinct {x : Packable} {es : Entries} {order : MapOrder} {c : Config}
    (entries : x.mapEntries? = some (es, order)) (sendable : x.Sendable c) :
    ∃ fs, Wire.read (x.pack c).bytes = some (.map order fs, []) ∧
      (fs.map Prod.fst).Perm (es.map fun e => e.1.wire) ∧
      (∀ e ∈ es, ∀ f ∈ es, (e.1.pack c).bytes = (f.1.pack c).bytes ↔ e.1.wire = f.1.wire) ∧
      ∀ S, Unambiguous S → (∀ e ∈ es, S e.1) → es.KeysApart Datum.compare →
        (es.map fun e => (e.1.pack c).bytes).Nodup ∧ (fs.map Prod.fst).Nodup := by
  have bytes_iff : ∀ e ∈ es, ∀ f ∈ es,
      (e.1.pack c).bytes = (f.1.pack c).bytes ↔ e.1.wire = f.1.wire :=
    fun e he f hf => (sendable.key entries he).bytes_eq_iff (sendable.key entries hf)
  have perm : (((order.entries es).map fun e => (e.1.wire, e.2.wire)).map Prod.fst).Perm
      (es.map fun e => e.1.wire) := by
    rw [List.map_map]
    exact (order.arrange_perm id es).map _
  refine ⟨_, ?_, perm, bytes_iff, ?_⟩
  · rw [sendable.read, Packable.wire_of_mapEntries entries]
  · intro S unambiguous inS unequal
    have apart : ∀ e ∈ es, ∀ f ∈ es, e.1.compare f.1 ≠ .eq → e.1.wire ≠ f.1.wire := by
      intro e he f hf ne same
      have key := unambiguous.determined.1 e.1 f.1 ⟨⟨inS e he, inS f hf⟩, same⟩
      rw [Datum.compare, key] at ne
      exact ne (SortKey.compare_self _)
    constructor
    · apply nodup_map_of_pairwise unequal
      intro e he f hf ne same
      exact apart e he f hf ne ((bytes_iff e he f hf).mp same)
    · exact perm.nodup_iff.mpr (nodup_map_of_pairwise unequal apart)

/-- Keys of several kinds and depths in standard spelling, among them maps. -/
theorem distinct_keys_stay_distinct_standard :
    let es : Entries := [(.long 1, .null), (.list [.long 1], .null), (.text "1", .null),
      (.map .sorted [(.text "1", .bool true), (.long 1, .null)], .null), (.float ⟨0⟩, .null)]
    (es.map fun e => (e.1.pack {}).bytes).Nodup := by
  intro es
  have entries : (Packable.datum (.map .unordered es)).mapEntries? = some (es, .unordered) := rfl
  have packs : ((Packable.datum (.map .unordered es)).pack {}).error? = none := by
    apply error?_packArranged.mpr
    simp only [es, List.forall_mem_cons]
    refine ⟨⟨rfl, rfl⟩, ⟨rfl, rfl⟩, ⟨rfl, rfl⟩, ⟨?_, rfl⟩, ⟨rfl, rfl⟩, List.forall_mem_nil _⟩
    apply error?_packArranged.mpr
    simp only [List.forall_mem_cons]
    exact ⟨⟨rfl, rfl⟩, ⟨rfl, rfl⟩, List.forall_mem_nil _⟩
  have fits : (Packable.datum (.map .unordered es)).wire.Fits := by
    have tree : (Datum.map .unordered es).wire = .map .unordered
        [(.integer 1, .nil), (.array [.integer 1], .nil), (.payload .string [0x31], .nil),
          (.map .key [(.integer 1, .nil), (.payload .string [0x31], .boolean true)], .nil),
          (.float ⟨0⟩, .nil)] := by
      have inner : (Datum.map .sorted [(.text "1", .bool true), (.long 1, .null)]).wire =
          .map .key [(.integer 1, .nil), (.payload .string [0x31], .boolean true)] := by
        apply congrArg (Wire.map .key)
        exact (MapOrder.along_pair _ _ _ _).trans (if_neg (by decide))
      exact congrArg (fun w => Wire.map .unordered [(.integer 1, .nil),
        (.array [.integer 1], .nil), (.payload .string [0x31], .nil), (w, .nil),
        (.float ⟨0⟩, .nil)]) inner
    rw [Packable.wire, tree]
    apply Wire.Fits.map (by decide) <;>
      simp [Wire.Fits.nil, Wire.Fits.boolean, Wire.Fits.integer, Wire.Fits.float,
        Wire.Fits.payload, Wire.Fits.array, Wire.Fits.map, MapOrder.extraEntries]
  have standard : ∀ e ∈ es, e.1.Standard := by
    simp only [es, List.forall_mem_cons]
    have inner : MapKind.sorted.Holds [(.text "1", .bool true), (.long 1, .null)] :=
      MapKind.holds_of_ascend (by decide) _
    refine ⟨.long 1, .list ?_, .text "1", .map ⟨.sorted, _, inner⟩ ?_ ?_, .float ⟨0⟩,
      List.forall_mem_nil _⟩
    · simp [Datum.Standard.long]
    · simp [Datum.Standard.long, Datum.Standard.text]
    · simp [Datum.Standard.null, Datum.Standard.bool]
  have held : MapKind.unordered.Holds es := ⟨by decide, nofun⟩
  obtain ⟨_, -, -, -, distinct⟩ := distinct_keys_stay_distinct entries ⟨packs, fits⟩
  exact (distinct _ unambiguous_standard standard held.apart).1

/-- An int and a long are unequal keys and one key on the wire. -/
theorem distinct_keys_may_collide :
    ¬ ∀ (m : MapEntries) (c : Config), (m.toDatum.pack c).error? = none → m.toDatum.wire.Fits →
      (m.entries.map fun e => (e.1.pack c).bytes).Nodup := by
  intro distinct
  have held : MapKind.unordered.Holds [(.int 1, .null), (.long 1, .null)] :=
    MapKind.holds_of_ascend (by decide) _
  have fits : (Datum.map .unordered [(.int 1, .null), (.long 1, .null)]).wire.Fits := by
    change (Wire.map .unordered [(.integer 1, .nil), (.integer 1, .nil)]).Fits
    apply Wire.Fits.map (by decide) <;> simp [Wire.Fits.nil, Wire.Fits.integer]
  have apart : ([.int 1, .long 1].map fun key => (Datum.pack {} key).bytes).Nodup :=
    distinct ⟨.unordered, _, held⟩ {} rfl fits
  exact absurd apart (by decide)

end BinCodec
