/-!
# Errors and log events

Every failure of the codec is a value of `Error`, with the text shown to the user and the
result code that the server would report. Calls also leave log events, in order.
-/

namespace BinCodec

/-- Why serialized bytes could not be read as a value of the expected shape. -/
inductive DecodeError where
  /-- The input ends inside an item. -/
  | endOfInput
  /-- A malformed item head or text. -/
  | malformed
  /-- A well-formed item of another shape, range or length than expected. -/
  | mismatch
  | tooDeep
deriving DecidableEq, Repr

inductive ResultCode where
  | clientError
  | serializeError
  | parameterError
deriving DecidableEq, Repr

namespace ResultCode

def number : ResultCode → Int
  | clientError => -1
  | serializeError => -10
  | parameterError => 4

def name : ResultCode → String
  | clientError => "ClientError"
  | serializeError => "SerializeError"
  | parameterError => "ParameterError"

end ResultCode

/-- Failures of encoding, validation, projection and reading back. -/
inductive Error where
  | serializerDisabled
  | deserializerDisabled
  /-- The serializer rejected an object for the given reason, written as a quoted text. -/
  | serialize (reason : String)
  | deserialize (cause : DecodeError)
  /-- A value of the named type cannot be a record key. -/
  | invalidKeyType (typeName : String)
  /-- A range sentinel of the given name has no particle type. -/
  | invalidParticleType (typeName : String)
  /-- A range sentinel of the given name has no script value. -/
  | invalidScriptType (typeName : String)
  | configInstalled
deriving DecidableEq, Repr

namespace Error

/-- The text of an error. What exactly was wrong with serialized bytes is not spelled out. -/
def message : Error → String
  | serializerDisabled => "object serializer has been disabled"
  | deserializerDisabled => "object deserializer has been disabled"
  | serialize reason => "serialize: Value(" ++ reason ++ ")"
  | deserialize .endOfInput => "deserialize: unexpected end of input"
  | deserialize .malformed => "deserialize: malformed item"
  | deserialize .mismatch => "deserialize: unexpected item"
  | deserialize .tooDeep => "deserialize: items nested too deeply"
  | invalidKeyType typeName => "invalid key type: " ++ typeName
  | invalidParticleType typeName => "invalid particle type: " ++ typeName
  | invalidScriptType typeName => "invalid script type: " ++ typeName
  | configInstalled => "codec configuration is already installed"

def resultCode : Error → ResultCode
  | serialize _ | deserialize _ => .serializeError
  | invalidKeyType _ | invalidParticleType _ | invalidScriptType _ => .parameterError
  | serializerDisabled | deserializerDisabled | configInstalled => .clientError

end Error

/-- A line of the log. -/
inductive Event where
  /-- An object of the named type goes through the serializer. -/
  | serializing (typeName : String)
  /-- The serializer is disabled and an object of the named type asked for it. -/
  | refusedObject (typeName : String)
  /-- The serializer is disabled and a value of the named type holds an object. -/
  | refusedValue (typeName : String)
  /-- The deserializer is disabled and was given so many bytes. -/
  | refusedBytes (count : Nat)
  /-- Classification found no wire type for an object of the named type. -/
  | opaqueFallback (typeName : String)
  /-- A configuration was already installed. -/
  | installIgnored
deriving DecidableEq, Repr

/-- The text of a log line, level first. -/
def Event.line : Event → String
  | serializing typeName => "DEBUG serializing " ++ typeName ++ " with the generic serializer"
  | refusedObject typeName =>
    "WARN refusing to serialize " ++ typeName ++ ": serializer disabled"
  | refusedValue typeName => "WARN refusing to encode " ++ typeName ++ ": serializer disabled"
  | refusedBytes count =>
    "WARN refusing to deserialize " ++ toString count ++ " bytes: deserializer disabled"
  | opaqueFallback typeName => "TRACE " ++ typeName ++ " falls back to an opaque blob"
  | installIgnored => "WARN ignoring second codec configuration install"

end BinCodec
