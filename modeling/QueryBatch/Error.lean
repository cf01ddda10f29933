/-
What can go wrong, as causes.  The wording of every failure is in `Error.message`
and the messages of the faults it carries; nothing else in the library writes it.
-/
import QueryBatch.Condition.Basic
import QueryBatch.Payload.MediaType

namespace QueryBatch

/-- Why a text is no query expression. -/
inductive ExpressionFault where
  | blank
  /-- A bracket closes that nothing opened, at this byte. -/
  | unmatchedClose (position : Nat)
  | unmatchedBrackets (expression : Text)
  /-- Nothing follows the last separator, which this operand precedes. -/
  | dangling (operand : Text) (connective : Connective)
  /-- An operand opens with a bracket but does not end with one. -/
  | afterBrackets (operand : Text)
  | emptyBrackets
  | noComparison (expression : Text)
  | noProperty (expression : Text)
  /-- A fault that a caller words. -/
  | stated (text : Text)
deriving DecidableEq, Repr

namespace ExpressionFault

/-- The wording of a fault. -/
def message : ExpressionFault → Text
  | .blank => "Empty expression".toList
  | .unmatchedClose position =>
      "Unexpected closing bracket at position ".toList ++ Text.ofNat position
  | .unmatchedBrackets expression =>
      "Unmatched opening and closing brackets in expression: ".toList ++ expression
  | .dangling operand connective =>
      "Dangling operator at the end of expression: ...".toList ++ operand ++ [connective.symbol]
  | .afterBrackets operand => "Unexpected content after closing bracket: ".toList ++ operand
  | .emptyBrackets => "Empty brackets".toList
  | .noComparison expression => "Not a comparison expression: ".toList ++ expression
  | .noProperty expression => "Missing property name: ".toList ++ expression
  | .stated text => text

end ExpressionFault

/-- Why a value cannot be decoded. -/
inductive EncodingFault where
  /-- Two hexadecimal digits do not follow the `%` at this byte of the value. -/
  | badEscape (position : Nat) (value : Text)
  /-- A fault that a caller words. -/
  | stated (text : Text)
deriving DecidableEq, Repr

/-- The wording of a fault. -/
def EncodingFault.message : EncodingFault → Text
  | .badEscape position value =>
      "Illegal hex characters in escape (%) pattern at position ".toList ++
        Text.ofNat position ++ " of ".toList ++ value
  | .stated text => text

/-- Why a text announces no multipart payload. -/
inductive ContentTypeFault where
  | malformed (contentType : Text) (fault : MediaType.Fault)
  | otherType (essence : Text)
  | noBoundary (contentType : Text)
  /-- A fault that a caller words. -/
  | stated (text : Text)
deriving DecidableEq, Repr

/-- The wording of a fault. -/
def ContentTypeFault.message : ContentTypeFault → Text
  | .malformed contentType fault => contentType ++ ": ".toList ++ fault.message
  | .otherType essence => "Expected multipart/mixed, got ".toList ++ essence
  | .noBoundary contentType => "Missing boundary parameter: ".toList ++ contentType
  | .stated text => text

/-- Why settings are refused. -/
inductive SettingsFault where
  | emptyBuffer
  /-- The text is no JSON value. -/
  | notJson
  /-- The named part has the wrong form. -/
  | badMember (name : Text)
  | repeatedMember (name : Text)
  /-- A fault that a caller words. -/
  | stated (text : Text)
deriving DecidableEq, Repr

/-- The wording of a fault. -/
def SettingsFault.message : SettingsFault → Text
  | .emptyBuffer => "buffer_size must be greater than zero".toList
  | .notJson => "malformed JSON".toList
  | .badMember name => "malformed ".toList ++ name
  | .repeatedMember name => "repeated ".toList ++ name
  | .stated text => text

/-- What can go wrong in the library. -/
inductive Error where
  | expression (fault : ExpressionFault)
  | encoding (fault : EncodingFault)
  /-- A comparison with no known meaning. -/
  | unsupportedCondition (comparator : Text)
  /-- A special attribute where none may stand. -/
  | unsupportedSpecialAttr (name : Text)
  /-- A value that the target cannot match. -/
  | unsupportedValue (value : Text)
  /-- A failed conversion, with the expression it was asked for. -/
  | searchParameters (query : Text) (cause : Error)
  /-- No close delimiter among the lines that start with this one. -/
  | missingCloseDelimiter (line : Nat)
  | contentType (fault : ContentTypeFault)
  | unsupportedCharset (label : Text)
  | settings (fault : SettingsFault)
  /-- The source of the bytes failed. -/
  | source (reason : Text)
deriving DecidableEq, Repr

namespace Error

/-- The wording of a failure. -/
def message : Error → Text
  | .expression fault => "Invalid FIQL expression: ".toList ++ fault.message
  | .encoding fault => "Invalid percent-encoding: ".toList ++ fault.message
  | .unsupportedCondition comparator =>
      "Condition type ".toList ++ comparator ++ " is not supported".toList
  | .unsupportedSpecialAttr name =>
      "Special attr name ".toList ++ name ++ " is not supported".toList
  | .unsupportedValue value => "Unsupported search value ".toList ++ value
  | .searchParameters query cause =>
      "Invalid search parameters: ".toList ++ query ++ ": ".toList ++ cause.message
  | .missingCloseDelimiter line =>
      "Missing close boundary delimiter around line ".toList ++ Text.ofNat line
  | .contentType fault => "Invalid content type: ".toList ++ fault.message
  | .unsupportedCharset label => "Unsupported charset: ".toList ++ label
  | .settings fault => "Invalid configuration: ".toList ++ fault.message
  | .source reason => "I/O error: ".toList ++ reason

/-- The failure inside all wrappers. -/
def rootCause : Error → Error
  | .searchParameters _ cause => cause.rootCause
  | e => e

/-- What a client is told: the expression and the root cause, or the failure alone. -/
def elements : Error → List Text
  | .searchParameters query cause => [query, cause.rootCause.message]
  | e => [e.message]

/-- Whether the client's input is at fault, and not the source of the bytes, the
payload's end or the settings. -/
def isClientFault : Error → Bool
  | .source _ | .missingCloseDelimiter _ | .settings _ => false
  | _ => true

/-- Attaches the expression to a failed conversion, unless one is attached already. -/
def wrap (query : Text) : Error → Error
  | .searchParameters inner cause => .searchParameters inner cause
  | e => .searchParameters query e

theorem rootCause_wrap (query : Text) (e : Error) :
    (wrap query e).rootCause = e.rootCause := by
  cases e <;> rfl

end Error

end QueryBatch
