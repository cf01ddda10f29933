/-
Settings written in JSON.  Every structure may be written as an object, whose
unknown members are ignored, or as an array of its members in order; what is
missing has its standard value.
-/
import QueryBatch.Settings.Basic
import QueryBatch.Settings.Json

namespace QueryBatch

namespace Json

/-- The value of a member, if there is one; a name may not occur twice. -/
def member? (members : List (Option Text × Json)) (name : Text) :
    Except SettingsFault (Option Json) :=
  match members.filter fun entry => entry.1 == some name with
  | [] => .ok none
  | [entry] => .ok (some entry.2)
  | _ => .error (.repeatedMember name)

/-- The values of the members of a structure, in the order of their names. -/
def fields (structureName : Text) (names : List Text) :
    Json → Except SettingsFault (List (Option Json))
  | .object members =>
      if members.any fun entry => entry.1.isNone then .error (.badMember structureName)
      else names.mapM (member? members)
  | .array items =>
      if items.length ≤ names.length then
        .ok (items.map some ++ List.replicate (names.length - items.length) none)
      else .error (.badMember structureName)
  | _ => .error (.badMember structureName)

/-- The text of a string that has one. -/
def text (name : Text) : Json → Except SettingsFault Text
  | .string (some content) => .ok content
  | _ => .error (.badMember name)

/-- The texts of an array of strings. -/
def texts (name : Text) : Json → Except SettingsFault (List Text)
  | .array items => items.mapM (text name)
  | _ => .error (.badMember name)

/-- The value of an integer numeral without sign, below 2^64. -/
def size (name : Text) : Json → Except SettingsFault Nat
  | .number spelling =>
      let value := spelling.foldl (fun n c => 10 * n + (c.toNat - 48)) 0
      if spelling.all Char.isDigit && value < UInt64.size then .ok value
      else .error (.badMember name)
  | _ => .error (.badMember name)

end Json

/-- A member's value, or the standard one where the member is missing. -/
def orStandard {α : Type} (standard : α) (read : Json → Except SettingsFault α) :
    Option Json → Except SettingsFault α
  | none => .ok standard
  | some value => read value

namespace SearchSettings

/-- Reads settings of search conditions. -/
def ofJson (value : Json) : Except SettingsFault SearchSettings := do
  let name := "any_fields".toList
  let members ← Json.fields "search".toList [name] value
  let anyFields ← orStandard standard.anyFields (Json.texts name) (members.getD 0 none)
  return ⟨anyFields⟩

end SearchSettings

namespace BatchSettings

/-- Reads settings of the reading of payloads. -/
def ofJson (value : Json) : Except SettingsFault BatchSettings := do
  let sizeName := "buffer_size".toList
  let charsetName := "default_charset".toList
  let members ← Json.fields "batch".toList [sizeName, charsetName] value
  let bufferSize ← orStandard standard.bufferSize (Json.size sizeName) (members.getD 0 none)
  let charset ← orStandard standard.defaultCharset (Json.text charsetName) (members.getD 1 none)
  return ⟨bufferSize, charset⟩

end BatchSettings

namespace Settings

/-- Reads all settings. -/
def ofJson (value : Json) : Except SettingsFault Settings := do
  let members ← Json.fields "settings".toList ["search".toList, "batch".toList] value
  let search ← orStandard SearchSettings.standard SearchSettings.ofJson (members.getD 0 none)
  let batch ← orStandard BatchSettings.standard BatchSettings.ofJson (members.getD 1 none)
  return ⟨search, batch⟩

/-- Reads settings from a text; settings that nothing can be read with are refused. -/
def parse (t : Text) : Except Error Settings :=
  match Json.parse? t with
  | none => .error (.settings .notJson)
  | some value =>
      match ofJson value with
      | .error fault => .error (.settings fault)
      | .ok settings => settings.batch.validate.map fun _ => settings

end Settings

end QueryBatch
