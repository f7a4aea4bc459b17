/-!
# Symbols of enumerations

An enumerated value travels as its symbol. The symbols of an enumeration are derived from
its declaration: the name of each variant, unless a `symbol` attribute renames it; of several
renamings the last one counts. Only enumerations without generic parameters and without
fields in their variants have symbols. The first thing that is wrong with a declaration is
reported, with its place: its kind, its generic parameters, then variant by variant the fields
and the attributes.
-/

namespace BinCodec.Derivation

/-- An item in the list of an attribute: a key and what is assigned to it. -/
inductive Setting where
  | bare
  | text (s : String)
  /-- Something other than a text is assigned. -/
  | other
deriving DecidableEq, Repr

/-- What follows the path of an attribute. -/
inductive Arguments where
  | none
  /-- A single assigned value. -/
  | assigned
  /-- A list of settings in parentheses. -/
  | settings (items : List (String × Setting))
  /-- A list that goes on after some settings with what cannot be read as one, and why not. -/
  | broken (items : List (String × Setting)) (reason : String)
deriving DecidableEq, Repr

structure Attribute where
  path : String
  arguments : Arguments
deriving DecidableEq, Repr

structure Variant where
  name : String
  /-- Whether it has a field list, even an empty one. -/
  hasFields : Bool
  attributes : List Attribute
deriving DecidableEq, Repr

inductive Body where
  | enumeration (variants : List Variant)
  | record
  | union
deriving DecidableEq, Repr

structure Declaration where
  name : String
  generics : List String
  body : Body
deriving DecidableEq, Repr

inductive SettingFault where
  | missingValue
  | notText
  | unsupportedKey
deriving DecidableEq, Repr

/-- What is wrong with the arguments of an attribute, as a whole or in one of the settings. -/
inductive AttributeFault where
  | missingArguments
  | assignedArguments
  | inSetting (index : Nat) (fault : SettingFault)
  | unreadable (reason : String)
deriving DecidableEq, Repr

/-- What is wrong with a variant. Of its attributes those count that are read. -/
inductive VariantFault where
  | fields
  | inAttribute (index : Nat) (fault : AttributeFault)
deriving DecidableEq, Repr

/-- What is wrong with a declaration, and where. -/
inductive Fault where
  | record
  | union
  | generic
  | inVariant (index : Nat) (fault : VariantFault)
deriving DecidableEq, Repr

def SettingFault.message : SettingFault → String
  | missingValue => "expected `=`"
  | notText => "expected string literal"
  | unsupportedKey => "unsupported symbol attribute"

def AttributeFault.message : AttributeFault → String
  | missingArguments => "expected attribute arguments in parentheses: #[symbol(...)]"
  | assignedArguments => "expected parentheses: #[symbol(...)]"
  | inSetting _ fault => fault.message
  | unreadable reason => reason

def VariantFault.message : VariantFault → String
  | fields => "Symbol variants cannot carry fields"
  | inAttribute _ fault => fault.message

def Fault.message : Fault → String
  | record => "Symbol can only be derived for enums"
  | union => "Symbol cannot be derived for unions"
  | generic => "Symbol cannot be derived for generic enums"
  | inVariant _ fault => fault.message

/-- Checks elements one after the other, up to the first fault, which is located by the index of
its element. -/
def checkEach {ε δ α β : Type} (locate : Nat → ε → δ) (check : α → Except ε β) (xs : List α) :
    Except δ (List β) :=
  xs.zipIdx.mapM fun x => (check x.1).mapError (locate x.2)

/-- The path of the attributes that are read. -/
def attributePath : String := "symbol"

/-- The key that renames a variant. -/
def renameKey : String := "rename"

def newName (item : String × Setting) : Except SettingFault String :=
  if item.1 = renameKey then
    match item.2 with
    | .bare => .error .missingValue
    | .text s => .ok s
    | .other => .error .notText
  else
    .error .unsupportedKey

/-- The renamings of an attribute that is read, in order. -/
def Arguments.newNames : Arguments → Except AttributeFault (List String)
  | none => .error .missingArguments
  | assigned => .error .assignedArguments
  | settings items => checkEach .inSetting newName items
  | broken items reason =>
    (checkEach .inSetting newName items).bind fun _ => .error (.unreadable reason)

def Variant.symbolAttributes (v : Variant) : List Attribute :=
  v.attributes.filter fun a => a.path = attributePath

def Variant.symbol (v : Variant) : Except VariantFault String :=
  if v.hasFields then .error .fields
  else (checkEach .inAttribute (fun a => a.arguments.newNames) v.symbolAttributes).map fun names =>
    names.flatten.getLast?.getD v.name

/-- The variants of a declaration that may have symbols. -/
def Declaration.symbolVariants (d : Declaration) : Except Fault (List Variant) :=
  match d.body with
  | .record => .error .record
  | .union => .error .union
  | .enumeration variants => if d.generics.isEmpty then .ok variants else .error .generic

/-- The name of each variant with its symbol, in the order of declaration. -/
def Declaration.symbols (d : Declaration) : Except Fault (List (String × String)) :=
  match d.symbolVariants with
  | .error fault => .error fault
  | .ok variants =>
    checkEach .inVariant (fun v => v.symbol.map fun symbol => (v.name, symbol)) variants

end BinCodec.Derivation
