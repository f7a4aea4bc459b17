import BinCodec.Proofs.Classification
import BinCodec.Proofs.History
import BinCodec.Proofs.Reordering

/-!
# Script values and wire trees

Values reach the server in two ways, packed and as script values. `Wire.script?` is what a script
would be given of a tree that the server has read. For inputs without the kinds that are tagged
differently on the two ways (`Value.Plain`), and whose caches hold the right bytes, the script
value of the input is the image of its tree up to the order of entries (`image_of_scripted`).
-/

namespace BinCodec

/-! ## The script value of a tree -/

namespace Wire

mutual

/-- The script value of a tree. The range sentinels have none. -/
def script? : Wire → Option Script
  | .nil => some .nil
  | .boolean b => some (.boolean b)
  | .integer n => some (.integer n)
  | .float x => some (.number x.widen)
  | .double x => some (.number x)
  | .payload .string b | .payload .geoJson b => some (.string b)
  | .payload particle b => some (.bytes b particle)
  | .array items => (scripts? items).map .list
  | .map _ entries => (entryScripts? entries).map .map
  | .infinity | .wildcard => none

def scripts? : List Wire → Option (List Script)
  | [] => some []
  | w :: ws =>
    match w.script?, scripts? ws with
    | some s, some ss => some (s :: ss)
    | _, _ => none

def entryScripts? : List (Wire × Wire) → Option (List (Script × Script))
  | [] => some []
  | (k, v) :: es =>
    match k.script?, v.script?, entryScripts? es with
    | some sk, some sv, some ss => some ((sk, sv) :: ss)
    | _, _, _ => none

end

theorem scripts?_of_forall₂ {ws : List Wire} {ss : List Script}
    (h : List.Forall₂ (fun w s => w.script? = some s) ws ss) : scripts? ws = some ss := by
  induction h with
  | nil => rfl
  | cons first _ ih => simp only [scripts?, first, ih]

theorem entryScripts?_of_forall₂ {es : List (Wire × Wire)} {ss : List (Script × Script)}
    (h : List.Forall₂ (fun e s => e.1.script? = some s.1 ∧ e.2.script? = some s.2) es ss) :
    entryScripts? es = some ss := by
  induction h with
  | nil => rfl
  | cons first _ ih => simp only [entryScripts?, first.1, first.2, ih]

end Wire

/-! ## Inputs that are sent alike -/

/-- Values of a kind that scripts get as the server does. Segments become strings, sketches keep a
particle type of their own, and bytes stay bytes even when they have the particle type of a text. -/
def Value.Plain : Value → Prop
  | .segment _ | .hll _ => False
  | .bytes _ particle => particle ≠ .string ∧ particle ≠ .geoJson
  | _ => True

def Packable.values : Packable → List Value
  | datum d => d.nested
  | value v => v.tree

/-- A tree whose script value is the given one, up to the order of entries. -/
def Wire.Imaged (w : Wire) (s : Script) : Prop := ∃ w', w.Reordered w' ∧ w'.script? = some s

namespace Wire.Imaged

variable {w : Wire} {s : Script} {ws : List Wire} {ss : List Script}

theorem of_eq (h : w.script? = some s) : w.Imaged s := ⟨w, .refl w, h⟩

theorem array (h : List.Forall₂ Imaged ws ss) : (Wire.array ws).Imaged (.list ss) := by
  obtain ⟨vs, reordered, scripts⟩ := exists_between_of_forall₂ h
  refine ⟨.array vs, .of_items reordered, ?_⟩
  rw [script?, scripts?_of_forall₂ scripts, Option.map_some]

/-- The entries of the tree may be in any order. -/
theorem map {order : MapOrder} {es fs : List (Wire × Wire)} {ss : List (Script × Script)}
    (h : List.Forall₂ (fun e s => e.1.Imaged s.1 ∧ e.2.Imaged s.2) es ss) (perm : fs.Perm es) :
    (Wire.map order fs).Imaged (.map ss) := by
  have between : List.Forall₂ (fun e s => ∃ f : Wire × Wire, EntryReordered e f ∧
      f.1.script? = some s.1 ∧ f.2.script? = some s.2) es ss := by
    apply h.imp
    rintro e s ⟨⟨k, keys, keyScript⟩, v, values, valueScript⟩
    exact ⟨(k, v), ⟨keys, values⟩, keyScript, valueScript⟩
  obtain ⟨gs, reordered, scripts⟩ := exists_between_of_forall₂ between
  obtain ⟨hs, reordered', perm'⟩ := List.perm_comp_forall₂ perm reordered
  refine ⟨.map order gs, .of_entries reordered' perm', ?_⟩
  rw [script?, entryScripts?_of_forall₂ scripts, Option.map_some]

end Wire.Imaged

/-! ## The script value of an input -/

/-- What is asked of every value in an input: it is of a plain kind, and its cache is empty or
holds the bytes that it is for. -/
structure Value.Faithful (v : Value) : Prop where
  plain : v.Plain
  holds : ∀ b, v.cache? = some (some b) → v.Holds b

theorem map_eq_ok {ε α β : Type} {f : α → β} {t : Except ε α} {b : β} :
    t.map f = .ok b ↔ ∃ a, t = .ok a ∧ f a = b := by
  cases t <;> simp [Except.map]

section Image

variable {c : Config} {items : List Datum} {values : List Value} {entries : Entries}

theorem imaged_list {ss : List Script}
    (ih : ∀ x ∈ items, (∀ u ∈ x.nested, u.Faithful) → ∀ s, x.scripted c = .ok s → x.wire.Imaged s)
    (faithful : ∀ u ∈ nestedItems items, u.Faithful)
    (scripted : items.mapM (Datum.scripted c) = .ok ss) :
    (Wire.array (wireItems items)).Imaged (.list ss) := by
  rw [wireItems_eq_map]
  apply Wire.Imaged.array
  rw [List.forall₂_map_left_iff]
  apply forall₂_imp_mem (mapM_eq_ok.mp scripted)
  intro x hx s _ hs
  exact ih x hx (fun u hu => faithful u (mem_nestedItems hx hu)) s hs

theorem scriptedEntry_eq_ok {e : Datum × Datum} {s : Script × Script}
    (h : scriptedEntry c e = .ok s) : e.1.scripted c = .ok s.1 ∧ e.2.scripted c = .ok s.2 := by
  unfold scriptedEntry at h
  cases hk : e.1.scripted c <;> cases hv : e.2.scripted c <;>
    simp_all [Except.bind, Except.map]
  cases h
  exact ⟨rfl, rfl⟩

theorem imaged_map {order : MapOrder} {ss : List (Script × Script)}
    (ih : ∀ e ∈ entries,
      ((∀ u ∈ e.1.nested, u.Faithful) → ∀ s, e.1.scripted c = .ok s → e.1.wire.Imaged s) ∧
      ((∀ u ∈ e.2.nested, u.Faithful) → ∀ s, e.2.scripted c = .ok s → e.2.wire.Imaged s))
    (faithful : ∀ u ∈ nestedEntries entries, u.Faithful)
    (scripted : entries.mapM (scriptedEntry c) = .ok ss) :
    (Wire.map order (order.along entries (wireEntries entries))).Imaged (.map ss) := by
  have arranged : (order.entries entries).Perm entries := order.arrange_perm id entries
  rw [wireEntries_eq_map, MapOrder.along_map]
  refine Wire.Imaged.map ?_ (arranged.map _)
  rw [List.forall₂_map_left_iff]
  apply forall₂_imp_mem (mapM_eq_ok.mp scripted)
  intro e he s _ hs
  obtain ⟨key, value⟩ := scriptedEntry_eq_ok hs
  constructor
  · exact (ih e he).1 (fun u hu => faithful u (mem_nestedEntries he (.inl hu))) s.1 key
  · exact (ih e he).2 (fun u hu => faithful u (mem_nestedEntries he (.inr hu))) s.2 value

theorem imaged_object {o : Object} {s : Script} (h : (Datum.object o).scripted c = .ok s) :
    (Wire.payload .jblob o.serialized).Imaged s := by
  change (o.serialize c).result.map (Script.bytes · .jblob) = .ok s at h
  cases disabled : c.disableSerializer with
  | true => simp [Object.serialize, disabled, Except.map] at h
  | false =>
    cases encoded : o.encode with
    | error e => simp [Object.serialize, disabled, encoded, Except.map] at h
    | ok b =>
      simp only [Object.serialize, disabled, encoded, Except.map, Bool.false_eq_true, if_false] at h
      cases h
      rw [Object.serialized, encoded]
      exact .of_eq rfl

theorem scripted_blob {o : Object} {cache : Cache} (h : (Value.blob o cache).Faithful) :
    (Value.blob o cache).scripted c = (Datum.object o).scripted c := by
  have coherent : (Value.blob o cache).Coherent := by
    intro u hu
    obtain rfl := List.mem_singleton.mp hu
    exact h.holds
  rw [← (scripted_bare c).2 _ coherent]
  exact scripted_classify c c (.object o)

theorem image_of_scripted :
    (∀ d : Datum, (∀ u ∈ d.nested, u.Faithful) → ∀ s, d.scripted c = .ok s → d.wire.Imaged s) ∧
      ∀ v : Value, (∀ u ∈ v.tree, u.Faithful) → ∀ s, v.scripted c = .ok s → v.wire.Imaged s := by
  apply nested_induction
  case value => exact fun v ih => ih
  case object => exact fun o _ s => imaged_object
  case list =>
    intro items ih faithful s h
    rw [Datum.scripted_list] at h
    obtain ⟨ss, scripted, rfl⟩ := map_eq_ok.mp h
    exact imaged_list ih faithful scripted
  case map =>
    intro kind entries ih faithful s h
    rw [Datum.scripted_map] at h
    obtain ⟨ss, scripted, rfl⟩ := map_eq_ok.mp h
    exact imaged_map ih faithful scripted
  case valueBytes =>
    intro b particle faithful s h
    obtain ⟨notString, notGeoJson⟩ := (faithful _ List.mem_cons_self).plain
    cases h
    cases particle <;> first | exact .of_eq rfl | contradiction
  case valueSegment => exact fun b faithful => (faithful _ List.mem_cons_self).plain.elim
  case valueHll => exact fun b faithful => (faithful _ List.mem_cons_self).plain.elim
  case valueBlob =>
    intro o cache faithful s h
    rw [scripted_blob (faithful _ List.mem_cons_self)] at h
    exact imaged_object h
  case valueArray =>
    intro values cache ih faithful s h
    rw [Value.scripted_array] at h
    obtain ⟨ss, scripted, rfl⟩ := map_eq_ok.mp h
    rw [Value.wire, wireValues_eq_map]
    apply Wire.Imaged.array
    rw [List.forall₂_map_left_iff]
    apply forall₂_imp_mem (mapM_eq_ok.mp scripted)
    intro v hv s _ hs
    exact ih v hv (fun u hu => faithful u (.tail _ (mem_nestedValues hv hu))) s hs
  case valueList =>
    intro items cache ih faithful s h
    rw [Value.scripted_list] at h
    obtain ⟨ss, scripted, rfl⟩ := map_eq_ok.mp h
    exact imaged_list ih (fun u hu => faithful u (.tail _ hu)) scripted
  case valueMap =>
    intro kind entries order cache ih faithful s h
    rw [Value.scripted_map] at h
    obtain ⟨ss, scripted, rfl⟩ := map_eq_ok.mp h
    exact imaged_map ih (fun u hu => faithful u (.tail _ hu)) scripted
  case valueEntryList =>
    intro entries order cache ih faithful s h
    rw [Value.scripted_entryList] at h
    obtain ⟨ss, scripted, rfl⟩ := map_eq_ok.mp h
    exact imaged_map ih (fun u hu => faithful u (.tail _ hu)) scripted
  case valueInfinity | valueWildcard =>
    intro _ s h
    cases h
  all_goals
    intros
    rename_i h
    cases h
    exact .of_eq rfl

end Image

namespace Packable

def scripted (c : Config) : Packable → Except Error Script
  | datum d => d.scripted c
  | value v => v.scripted c

/-- Every cache in an input is empty or holds the bytes that it is for. Inputs are built like this
and no operation changes it (`Value.Coherent.of_empty`, `Value.Coherent.after`). -/
def Coherent : Packable → Prop
  | datum d => d.Coherent
  | value v => v.Coherent

end Packable

/-- An input of plain kinds, with nothing wrong in its caches, is packed and taken into scripts
with the same content: where both succeed and everything fits the headers, the script value is
the image of the tree that is read from the packed bytes, up to the order of entries. The
configurations need not be the same. -/
theorem script_is_image_of_packed {x : Packable} {c c' : Config} {s : Script}
    (plain : ∀ u ∈ x.values, u.Plain) (coherent : x.Coherent)
    (scripted : x.scripted c = .ok s) (sendable : x.Sendable c') :
    ∃ w w', Wire.read (x.pack c').bytes = some (w, []) ∧ w.Reordered w' ∧
      w'.script? = some s := by
  have image : x.wire.Imaged s := by
    cases x with
    | datum d => exact image_of_scripted.1 d (fun u hu => ⟨plain u hu, coherent u hu⟩) s scripted
    | value v => exact image_of_scripted.2 v (fun u hu => ⟨plain u hu, coherent u hu⟩) s scripted
  obtain ⟨w', reordered, script⟩ := image
  exact ⟨x.wire, w', sendable.read, reordered, script⟩

/-- A map that is packed in another order than it is iterated in, with a float, a text and a blob
whose bytes are in its cache. -/
theorem script_is_image_of_packed_arranged :
    let point : Value := .blob ⟨"Point", .integer 7⟩ (some [0x07])
    let v : Value := .map .unordered [(.text "b", .value point),
      (.int 1, .list [.value (.geoJson "a"), .float ⟨0x3f800000⟩])] .key none
    ∃ w w', Wire.read (v.pack {}).bytes = some (w, []) ∧ w.Reordered w' ∧
      w'.script? = some (.map [(.string [0x62], .bytes [0x07] .jblob),
        (.integer 1, .list [.string [0x61], .number ⟨0x3ff0000000000000⟩])]) := by
  intro point v
  have plain : ∀ u ∈ v.tree, u.Plain := by
    change ∀ u ∈ [v, point, .geoJson "a"], u.Plain
    simp [v, point, Value.Plain]
  have coherent : v.Coherent := by
    change ∀ u ∈ [v, point, .geoJson "a"], ∀ b, u.cache? = some (some b) → u.Holds b
    simp [v, point, Value.cache?, Value.Holds]
    rfl
  have tree : v.wire = .map .key [(.integer 1, .array [.payload .geoJson [0x61],
      .float ⟨0x3f800000⟩]), (.payload .string [0x62], .payload .jblob [0x07])] := by
    apply congrArg (Wire.map .key)
    exact (MapOrder.along_pair _ _ _ _).trans (if_neg (by decide))
  have scripted : v.scripted {} = .ok (.map [(.string [0x62], .bytes [0x07] .jblob),
      (.integer 1, .list [.string [0x61], .number ⟨0x3ff0000000000000⟩])]) := by
    rfl
  have sendable : (Packable.value v).Sendable {} := by
    constructor
    · apply error?_packArranged.mpr
      simp only [List.forall_mem_cons]
      exact ⟨⟨rfl, rfl⟩, ⟨rfl, rfl⟩, List.forall_mem_nil _⟩
    · rw [Packable.wire, tree]
      apply Wire.Fits.map (by decide)
      · simp [Wire.Fits.integer, Wire.Fits.payload]
      · simp [Wire.Fits.payload, Wire.Fits.array, Wire.Fits.float]
  exact script_is_image_of_packed (x := .value v) plain coherent scripted sendable

end BinCodec
