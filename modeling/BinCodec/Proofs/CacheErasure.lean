import BinCodec.Proofs.Packing

/-!
# Values without their caches

`Datum.bare` and `Value.bare` empty every cache, at every depth. Keys, the server's keys and
the packed encoding are the same for a value and its bare form, so none of them depends on
which caches happen to be filled.
-/

namespace BinCodec

mutual

/-- The datum with all caches empty. -/
def Datum.bare : Datum → Datum
  | .value v => .value v.bare
  | .list items => .list (bareItems items)
  | .map kind entries => .map kind (bareEntries entries)
  | d => d

def Value.bare : Value → Value
  | .blob o _ => .blob o none
  | .array values _ => .array (bareValues values) none
  | .list items _ => .list (bareItems items) none
  | .map kind entries order _ => .map kind (bareEntries entries) order none
  | .entryList entries order _ => .entryList (bareEntries entries) order none
  | v => v

def bareItems : List Datum → List Datum
  | [] => []
  | x :: xs => x.bare :: bareItems xs

def bareValues : List Value → List Value
  | [] => []
  | v :: vs => v.bare :: bareValues vs

def bareEntries : List (Datum × Datum) → List (Datum × Datum)
  | [] => []
  | (k, v) :: es => (k.bare, v.bare) :: bareEntries es

end

def bareEntry (e : Datum × Datum) : Datum × Datum := (e.1.bare, e.2.bare)

theorem bareItems_eq_map (items : List Datum) : bareItems items = items.map Datum.bare := by
  induction items with
  | nil => rfl
  | cons x xs ih => rw [bareItems, ih, List.map_cons]

theorem bareValues_eq_map (values : List Value) : bareValues values = values.map Value.bare := by
  induction values with
  | nil => rfl
  | cons v vs ih => rw [bareValues, ih, List.map_cons]

theorem bareEntries_eq_map (entries : Entries) : bareEntries entries = entries.map bareEntry := by
  induction entries with
  | nil => rfl
  | cons e es ih => rw [bareEntries, ih, List.map_cons, bareEntry]

/-! ## Keys -/

section Keys

variable {items : List Datum} {entries : Entries}

theorem itemKeys_bare (ih : ∀ x ∈ items, x.bare.sortKey = x.sortKey) :
    itemKeys (bareItems items) = itemKeys items := by
  rw [itemKeys_eq_map, itemKeys_eq_map, bareItems_eq_map, List.map_map]
  exact List.map_congr_left ih

theorem entryKeys_bare
    (ih : ∀ e ∈ entries, e.1.bare.sortKey = e.1.sortKey ∧ e.2.bare.sortKey = e.2.sortKey) :
    entryKeys (bareEntries entries) = entryKeys entries := by
  rw [entryKeys_eq_map, entryKeys_eq_map, bareEntries_eq_map, List.map_map]
  apply List.map_congr_left
  intro e he
  obtain ⟨hk, hv⟩ := ih e he
  simp only [Function.comp_apply, entrySortKey, bareEntry, hk, hv]

theorem sortKey_bare :
    (∀ d : Datum, d.bare.sortKey = d.sortKey) ∧ ∀ v : Value, v.bare.sortKey = v.sortKey := by
  apply nested_induction
  case value => exact fun v ih => congrArg (fun key => SortKey.node 1 [key]) ih
  case list => exact fun items ih => congrArg (SortKey.node 13) (itemKeys_bare ih)
  case map =>
    intro kind entries ih
    cases kind with
    | unordered =>
      exact congrArg (fun keys => SortKey.node 14 (ascending keys)) (entryKeys_bare ih)
    | sorted => exact congrArg (SortKey.node 15) (entryKeys_bare ih)
  case valueArray =>
    intro values _ ih
    rw [Value.bare, Value.sortKey, Value.sortKey, valueKeys_eq_map, valueKeys_eq_map,
      bareValues_eq_map, List.map_map]
    exact congrArg (SortKey.node 14) (List.map_congr_left ih)
  case valueList => exact fun items _ ih => congrArg (SortKey.node 15) (itemKeys_bare ih)
  case valueMap =>
    intro kind entries order _ ih
    rw [Value.bare, Value.sortKey, Value.sortKey, entryKeys_bare ih]
  case valueEntryList =>
    intro entries order _ ih
    rw [Value.bare, Value.sortKey, Value.sortKey, entryKeys_bare ih]
  all_goals intros; rfl

end Keys

theorem toDatum_bare (v : Value) : v.bare.toDatum = v.toDatum.bare := by
  cases v with
  | array values _ =>
    have wrapped : Value.wrapAll (bareValues values) = bareItems (Value.wrapAll values) := by
      rw [bareValues_eq_map, bareItems_eq_map, Value.wrapAll, Value.wrapAll, List.map_map,
        List.map_map]
      rfl
    exact congrArg Datum.list wrapped
  | entryList entries _ _ =>
    have paired : Value.pairLists (bareEntries entries) = bareItems (Value.pairLists entries) := by
      rw [bareEntries_eq_map, bareItems_eq_map, Value.pairLists, Value.pairLists, List.map_map,
        List.map_map]
      rfl
    exact congrArg Datum.list paired
  | _ => rfl

theorem keyForm_bare (d : Datum) : d.bare.keyForm = d.keyForm.bare := by
  cases d with
  | value v =>
    cases v with
    | array values cache => exact toDatum_bare (.array values cache)
    | entryList entries order cache => exact toDatum_bare (.entryList entries order cache)
    | _ => rfl
  | _ => rfl

theorem plainServerKey_bare (d : Datum) : d.bare.plainServerKey = d.plainServerKey := by
  cases d with
  | value v => exact congrArg (fun key => SortKey.node 8 [key]) (sortKey_bare.2 v)
  | list items =>
    exact congrArg (SortKey.node 4) (itemKeys_bare fun x _ => sortKey_bare.1 x)
  | map kind entries =>
    exact congrArg (fun key => SortKey.node 5 [key]) (sortKey_bare.1 (.map kind entries))
  | _ => rfl

theorem serverKey_bare (d : Datum) : d.bare.serverKey = d.serverKey := by
  rw [Datum.serverKey, keyForm_bare, plainServerKey_bare, Datum.serverKey]

/-! ## Packing -/

theorem entryKey_bareEntry (order : MapOrder) (e : Datum × Datum) :
    order.entryKey (bareEntry e) = order.entryKey e := by
  cases order with
  | unordered => rfl
  | key => exact serverKey_bare e.1
  | keyValue => simp only [MapOrder.entryKey, bareEntry, serverKey_bare]

theorem packArranged_bareEntries (entries : Entries) (order : MapOrder) (packed : List Emission) :
    packArranged (bareEntries entries) order packed = packArranged entries order packed := by
  have arranged : order.arrange (·.1) ((bareEntries entries).zip packed) =
      (order.arrange (·.1) (entries.zip packed)).map (Prod.map bareEntry id) := by
    rw [bareEntries_eq_map, List.zip_map_left, MapOrder.arrange_map]
    unfold MapOrder.arrange
    simp only [Prod.map_fst, entryKey_bareEntry]
  have length : (bareEntries entries).length = entries.length := by
    rw [bareEntries_eq_map, List.length_map]
  unfold packArranged
  dsimp only
  rw [arranged, length, List.map_map]
  rfl

theorem packItems_bare {c : Config} {items : List Datum}
    (ih : ∀ x ∈ items, x.bare.pack c = x.pack c) :
    packItems c (bareItems items) = packItems c items := by
  rw [packItems_eq_map, packItems_eq_map, bareItems_eq_map, List.map_map]
  exact List.map_congr_left ih

theorem packEntries_bare {c : Config} {entries : Entries}
    (ih : ∀ e ∈ entries, e.1.bare.pack c = e.1.pack c ∧ e.2.bare.pack c = e.2.pack c) :
    packEntries c (bareEntries entries) = packEntries c entries := by
  rw [packEntries_eq_map, packEntries_eq_map, bareEntries_eq_map, List.map_map]
  apply List.map_congr_left
  intro e he
  obtain ⟨hk, hv⟩ := ih e he
  simp only [Function.comp_apply, packEntry, bareEntry, hk, hv]

/-- Packing neither reads nor needs caches. -/
theorem pack_bare (c : Config) :
    (∀ d : Datum, d.bare.pack c = d.pack c) ∧ ∀ v : Value, v.bare.pack c = v.pack c := by
  have length (items : List Datum) : (bareItems items).length = items.length := by
    rw [bareItems_eq_map, List.length_map]
  apply nested_induction
  case value => exact fun v ih => ih
  case list =>
    intro items ih
    rw [Datum.bare, Datum.pack, Datum.pack, packItems_bare ih, length]
  case valueList =>
    intro items _ ih
    rw [Value.bare, Value.pack, Value.pack, packItems_bare ih, length]
  case valueArray =>
    intro values _ ih
    rw [Value.bare, Value.pack, Value.pack, packValues_eq_map, packValues_eq_map,
      bareValues_eq_map, List.map_map, List.length_map]
    congr 2
    exact List.map_congr_left ih
  case map =>
    intro kind entries ih
    rw [Datum.bare, Datum.pack, Datum.pack, packArranged_bareEntries, packEntries_bare ih]
  case valueMap =>
    intro kind entries order _ ih
    rw [Value.bare, Value.pack, Value.pack, packArranged_bareEntries, packEntries_bare ih]
  case valueEntryList =>
    intro entries order _ ih
    rw [Value.bare, Value.pack, Value.pack, packArranged_bareEntries, packEntries_bare ih]
  all_goals intros; rfl

end BinCodec
