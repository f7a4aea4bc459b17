import BinCodec.Derivation
import BinCodec.Proofs.FirstFault
import Mathlib.Data.List.Basic

/-!
# Which declarations have symbols

A declaration is sound if it is an enumeration without generic parameters, no variant has fields,
and every symbol attribute is a list of renamings. `Declaration.faults` collects all that keeps a
declaration from being sound, from the kind down to the settings, in the order in which a reader
meets it. Derivation reports the first of these faults. Without any, each variant has a symbol: its
last renaming over all attributes, or else its name (`sound_declarations_have_symbols`).
-/

namespace BinCodec.Derivation

/-! ## Sound declarations -/

/-- The setting gives a variant another name. -/
def Renames (item : String × Setting) : Prop := ∃ s, item = (renameKey, .text s)

/-- The attribute is read only if it has the path for it, and is a list of renamings then. -/
def Attribute.Sound (a : Attribute) : Prop :=
  a.path = attributePath → ∃ items, a.arguments = .settings items ∧ ∀ item ∈ items, Renames item

structure Variant.Sound (v : Variant) : Prop where
  bare : v.hasFields = false
  attributes : ∀ a ∈ v.attributes, a.Sound

structure Declaration.Sound (d : Declaration) (variants : List Variant) : Prop where
  enumeration : d.body = .enumeration variants
  concrete : d.generics = []
  variants : ∀ v ∈ variants, v.Sound

/-! ## Names -/

/-- The name that a setting gives. -/
def renaming? : String × Setting → Option String
  | (key, .text s) => if key = renameKey then some s else none
  | _ => none

def Arguments.items : Arguments → List (String × Setting)
  | .settings items | .broken items _ => items
  | .none | .assigned => []

def Attribute.renamings (a : Attribute) : List String :=
  if a.path = attributePath then a.arguments.items.filterMap renaming? else []

def Variant.renamings (v : Variant) : List String := v.attributes.flatMap Attribute.renamings

/-- The last renaming of a variant, or else its name. -/
def Variant.lastName (v : Variant) : String := v.renamings.getLast?.getD v.name

/-! ## Faults -/

/-- The faults of all elements in order, each located by the index of its element. -/
def faultsOfEach {ε δ α : Type} (locate : Nat → ε → δ) (faults : α → List ε) (xs : List α) :
    List δ := xs.zipIdx.flatMap fun x => (faults x.1).map (locate x.2)

def settingFaults (item : String × Setting) : List SettingFault :=
  if item.1 = renameKey then
    match item.2 with
    | .bare => [.missingValue]
    | .text _ => []
    | .other => [.notText]
  else [.unsupportedKey]

def Arguments.faults : Arguments → List AttributeFault
  | .none => [.missingArguments]
  | .assigned => [.assignedArguments]
  | .settings items => faultsOfEach .inSetting settingFaults items
  | .broken items reason => faultsOfEach .inSetting settingFaults items ++ [.unreadable reason]

/-- The fields of a variant come before its attributes. -/
def Variant.faults (v : Variant) : List VariantFault :=
  (if v.hasFields then [.fields] else []) ++
    faultsOfEach .inAttribute (fun a => a.arguments.faults) v.symbolAttributes

def Body.faults : Body → List Fault
  | .record => [.record]
  | .union => [.union]
  | .enumeration _ => []

def Body.variants : Body → List Variant
  | .enumeration variants => variants
  | .record | .union => []

/-- The kind of a declaration comes before its generic parameters, and these before its variants. -/
def Declaration.faults (d : Declaration) : List Fault :=
  d.body.faults ++ (if d.generics = [] then [] else [.generic]) ++
    faultsOfEach .inVariant Variant.faults d.body.variants

section Each

variable {ε δ α β : Type} {locate : Nat → ε → δ} {faults : α → List ε} {xs : List α}

theorem faultsOfEach_eq_nil_iff : faultsOfEach locate faults xs = [] ↔ ∀ x ∈ xs, faults x = [] := by
  have elements : (∀ x ∈ xs.zipIdx.map Prod.fst, faults x = []) ↔
      ∀ x ∈ xs.zipIdx, faults x.1 = [] := List.forall_mem_map
  rw [List.zipIdx_map_fst] at elements
  simp only [elements, faultsOfEach, List.flatMap_eq_nil_iff, List.map_eq_nil_iff]

theorem faultsOfEach_map (f : β → α) (ys : List β) :
    faultsOfEach locate faults (ys.map f) = faultsOfEach locate (fun y => faults (f y)) ys := by
  rw [faultsOfEach, List.zipIdx_map, List.flatMap_map]
  rfl

theorem checkEach_eq_report {check : α → Except ε β} {value : α → β}
    (h : ∀ x, check x = report (faults x) (value x)) :
    checkEach locate check xs = report (faultsOfEach locate faults xs) (xs.map value) := by
  have located : ∀ x ∈ xs.zipIdx, (check x.1).mapError (locate x.2) =
      report ((faults x.1).map (locate x.2)) (value x.1) := by
    intro x _
    rw [h, report_mapError]
  have values : (xs.zipIdx.map Prod.fst).map value = xs.zipIdx.map fun x => value x.1 :=
    List.map_map ..
  rw [List.zipIdx_map_fst] at values
  rw [checkEach, mapM_eq_report located, values, faultsOfEach]

end Each

section Derived

variable {item : String × Setting} {items : List (String × Setting)} {v : Variant}
  {d : Declaration}

theorem settingFaults_eq_nil_iff : settingFaults item = [] ↔ Renames item := by
  obtain ⟨key, setting⟩ := item
  by_cases named : key = renameKey
  · cases setting <;> simp [settingFaults, Renames, named]
  · simp [settingFaults, Renames, named]

theorem Arguments.faults_eq_nil_iff {arguments : Arguments} : arguments.faults = [] ↔
    ∃ items, arguments = .settings items ∧ ∀ item ∈ items, Renames item := by
  cases arguments with
  | settings items => simp [faults, faultsOfEach_eq_nil_iff, settingFaults_eq_nil_iff]
  | _ => simp [faults]

theorem Variant.faults_eq_nil_iff : v.faults = [] ↔ v.Sound := by
  have attributes :
      faultsOfEach VariantFault.inAttribute (fun a => a.arguments.faults) v.symbolAttributes = [] ↔
        ∀ a ∈ v.attributes, a.Sound := by
    simp [faultsOfEach_eq_nil_iff, Arguments.faults_eq_nil_iff, symbolAttributes, Attribute.Sound]
  rw [faults, List.append_eq_nil_iff, attributes]
  constructor
  · rintro ⟨bare, attributes⟩
    exact ⟨by simpa using bare, attributes⟩
  · rintro ⟨bare, attributes⟩
    exact ⟨by simp [bare], attributes⟩

theorem Declaration.faults_eq_nil_iff : d.faults = [] ↔ d.Sound d.body.variants := by
  rw [faults, List.append_eq_nil_iff, List.append_eq_nil_iff, faultsOfEach_eq_nil_iff]
  simp only [Variant.faults_eq_nil_iff]
  constructor
  · rintro ⟨⟨kind, generics⟩, variants⟩
    refine ⟨?_, by simpa using generics, variants⟩
    cases body : d.body with
    | enumeration variants => rfl
    | _ => simp [body, Body.faults] at kind
  · rintro ⟨enumeration, concrete, variants⟩
    refine ⟨⟨?_, by simp [concrete]⟩, variants⟩
    rw [enumeration, Body.faults]

/-! ## Derivation -/

theorem newName_eq_report (item : String × Setting) :
    newName item = report (settingFaults item) ((renaming? item).getD "") := by
  obtain ⟨key, setting⟩ := item
  by_cases named : key = renameKey
  · cases setting <;> simp [newName, settingFaults, renaming?, named, report]
  · simp [newName, settingFaults, named, report]

theorem checkEach_newName (items : List (String × Setting)) :
    checkEach AttributeFault.inSetting newName items =
      report (faultsOfEach .inSetting settingFaults items) (items.filterMap renaming?) := by
  rw [checkEach_eq_report newName_eq_report]
  apply report_congr
  intro none
  rw [← List.filterMap_eq_map]
  apply List.filterMap_congr
  intro item hitem
  obtain ⟨s, rfl⟩ := settingFaults_eq_nil_iff.mp (faultsOfEach_eq_nil_iff.mp none item hitem)
  simp [renaming?]

theorem newNames_eq_report (arguments : Arguments) :
    arguments.newNames = report arguments.faults (arguments.items.filterMap renaming?) := by
  cases arguments with
  | settings items => exact checkEach_newName items
  | broken items reason =>
    rw [Arguments.newNames, checkEach_newName]
    exact report_bind _ [AttributeFault.unreadable reason] _ id
  | _ => rfl

theorem symbolAttributes_renamings (v : Variant) :
    v.symbolAttributes.flatMap (fun a => a.arguments.items.filterMap renaming?) = v.renamings := by
  unfold Variant.symbolAttributes Variant.renamings Attribute.renamings
  induction v.attributes with
  | nil => rfl
  | cons a as ih =>
    by_cases read : a.path = attributePath
    · rw [List.filter_cons_of_pos (by simpa using read), List.flatMap_cons, ih, List.flatMap_cons,
        if_pos read]
    · rw [List.filter_cons_of_neg (by simpa using read), ih, List.flatMap_cons, if_neg read]
      rfl

theorem symbol_eq_report (v : Variant) : v.symbol = report v.faults v.lastName := by
  unfold Variant.symbol Variant.faults
  cases v.hasFields with
  | true => rfl
  | false =>
    rw [checkEach_eq_report fun a : Attribute => newNames_eq_report a.arguments, Variant.lastName,
      ← symbolAttributes_renamings, List.flatMap_def]
    exact report_map _ _ _

theorem symbols_eq_report (d : Declaration) :
    d.symbols = report d.faults (d.body.variants.map fun v => (v.name, v.lastName)) := by
  unfold Declaration.symbols Declaration.symbolVariants Declaration.faults
  cases d.body with
  | enumeration variants =>
    cases d.generics with
    | cons parameter parameters => rfl
    | nil =>
      apply checkEach_eq_report
      intro v
      rw [symbol_eq_report]
      exact report_map _ _ _
  | _ => rfl

/-! ## Attributes of other names -/

/-- The variant without the attributes that are not read. -/
def Variant.pruned (v : Variant) : Variant := { v with attributes := v.symbolAttributes }

def Body.pruned : Body → Body
  | .enumeration variants => .enumeration (variants.map Variant.pruned)
  | body => body

def Declaration.pruned (d : Declaration) : Declaration := { d with body := d.body.pruned }

theorem symbolAttributes_pruned (v : Variant) : v.pruned.symbolAttributes = v.symbolAttributes := by
  simp [Variant.pruned, Variant.symbolAttributes]

theorem faults_pruned (v : Variant) : v.pruned.faults = v.faults := by
  rw [Variant.faults, symbolAttributes_pruned]
  rfl

theorem lastName_pruned (v : Variant) : v.pruned.lastName = v.lastName := by
  rw [Variant.lastName, Variant.lastName, ← symbolAttributes_renamings, symbolAttributes_pruned,
    symbolAttributes_renamings]
  rfl

theorem symbols_pruned (d : Declaration) : d.pruned.symbols = d.symbols := by
  have variants : d.pruned.body.variants = d.body.variants.map Variant.pruned := by
    unfold Declaration.pruned
    cases d.body <;> rfl
  have kind : d.pruned.body.faults = d.body.faults := by
    unfold Declaration.pruned
    cases d.body <;> rfl
  rw [symbols_eq_report, symbols_eq_report, Declaration.faults, variants, kind, faultsOfEach_map,
    List.map_map]
  simp only [faults_pruned, Function.comp_def, lastName_pruned]
  rfl

end Derived

/-- Derivation succeeds exactly for sound declarations, with one symbol for each variant in the
order of declaration, the last of the variant's renamings or else its name. Otherwise it reports the
first fault of the declaration, with its place. Attributes that are not read make no difference. -/
theorem sound_declarations_have_symbols (d : Declaration) :
    ((∃ symbols, d.symbols = .ok symbols) ↔ ∃ variants, d.Sound variants) ∧
    (∀ variants, d.Sound variants →
      d.symbols = .ok (variants.map fun v => (v.name, v.lastName))) ∧
    (∀ fault, d.symbols = .error fault ↔ ∃ later, d.faults = fault :: later) ∧
    ∀ d' : Declaration, d'.pruned = d.pruned → d'.symbols = d.symbols := by
  have derived (variants : List Variant) (sound : d.Sound variants) :
      d.symbols = .ok (variants.map fun v => (v.name, v.lastName)) := by
    have same : d.body.variants = variants := by rw [sound.enumeration, Body.variants]
    subst same
    rw [symbols_eq_report, Declaration.faults_eq_nil_iff.mpr sound, report]
  refine ⟨?_, derived, ?_, ?_⟩
  · constructor
    · rintro ⟨symbols, done⟩
      rw [symbols_eq_report, report_eq_ok_iff] at done
      exact ⟨_, Declaration.faults_eq_nil_iff.mp done.1⟩
    · rintro ⟨variants, sound⟩
      exact ⟨_, derived variants sound⟩
  · intro fault
    rw [symbols_eq_report, report_eq_error_iff]
  · intro d' same
    rw [← symbols_pruned, same, symbols_pruned]

/-- A variant that is renamed three times, between attributes that are not read. A declaration in
which a variant with fields follows one with a bare key is refused for the key. -/
theorem sound_declarations_have_symbols_renamed :
    let symbol (items : List (String × Setting)) : Attribute := ⟨"symbol", .settings items⟩
    let plain : Variant := ⟨"Plain", false, [⟨"doc", .assigned⟩]⟩
    let twice : Variant := ⟨"Twice", false, [symbol [("rename", .text "first")],
      ⟨"serde", .none⟩, symbol [("rename", .text "second"), ("rename", .text "third")]]⟩
    let bare : Variant := ⟨"Bare", false, [symbol [("rename", .text "b"), ("rename", .bare)]]⟩
    let filled : Variant := ⟨"Filled", true, [⟨"symbol", .none⟩]⟩
    (⟨"Odd", [], .enumeration [plain, twice]⟩ : Declaration).symbols =
        .ok [("Plain", "Plain"), ("Twice", "third")] ∧
      (⟨"Odd", [], .enumeration [twice, bare, filled]⟩ : Declaration).symbols =
        .error (.inVariant 1 (.inAttribute 0 (.inSetting 1 .missingValue))) := by
  intro symbol plain twice bare filled
  constructor
  · have sound := Declaration.faults_eq_nil_iff
      (d := ⟨"Odd", [], .enumeration [plain, twice]⟩).mp (by decide)
    exact (sound_declarations_have_symbols _).2.1 [plain, twice] sound
  · exact ((sound_declarations_have_symbols _).2.2.1 _).mpr
      ⟨[.inVariant 2 .fields, .inVariant 2 (.inAttribute 0 .missingArguments)], by decide⟩

end BinCodec.Derivation
