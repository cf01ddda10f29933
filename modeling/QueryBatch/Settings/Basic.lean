/-
Settings: which names are fields of every entity, how many bytes are read at a
time, and how bytes of undeclared charset are read.
-/
import QueryBatch.Payload.Charset

namespace QueryBatch

/-- Settings of search conditions. -/
structure SearchSettings where
  /-- The fields that every entity has. -/
  anyFields : List Text
deriving DecidableEq, Repr

namespace SearchSettings

/-- The fields of an entity that need no schema. -/
def standardFields : List Text :=
  ["key", "username", "name", "realm", "status", "token", "creationDate", "creator",
    "lastChangeDate", "lastModifier", "changePwdDate", "failedLogins", "lastLoginDate",
    "suspended", "mustChangePassword", "securityQuestion", "cipherAlgorithm", "type",
    "userOwner", "groupOwner"].map String.toList

/-- The settings in force where none are given. -/
def standard : SearchSettings :=
  ⟨standardFields⟩

/-- Whether a name is a field that every entity has. -/
def isAnyField (settings : SearchSettings) (name : Text) : Bool :=
  settings.anyFields.contains name

end SearchSettings

/-- Settings of the reading of payloads. -/
structure BatchSettings where
  /-- How many bytes are read at a time, at most. -/
  bufferSize : Nat
  /-- The label of the charset of headers and of bodies that declare none. -/
  defaultCharset : Text
deriving DecidableEq, Repr

namespace BatchSettings

/-- The settings in force where none are given. -/
def standard : BatchSettings :=
  ⟨8192, "UTF-8".toList⟩

/-- The charset of headers and of bodies that declare none. -/
def charset (settings : BatchSettings) : Except Error Charset :=
  Charset.ofLabel settings.defaultCharset

/-- Fails unless something can be read with the settings: a buffer of at least one
byte and a charset that is known. -/
def validate (settings : BatchSettings) : Except Error Unit :=
  if settings.bufferSize = 0 then .error (.settings .emptyBuffer)
  else settings.charset.map fun _ => ()

end BatchSettings

/-- All settings. -/
structure Settings where
  search : SearchSettings
  batch : BatchSettings
deriving DecidableEq, Repr

/-- The settings in force where none are given. -/
def Settings.standard : Settings :=
  ⟨.standard, .standard⟩

end QueryBatch
