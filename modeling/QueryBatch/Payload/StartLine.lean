/-
Start lines of the messages in a payload: request lines and status lines.  A start
line is read from a line of text and written as one; a line that is no start line
of the kind reads as none.
-/
import QueryBatch.Payload.MediaType

namespace QueryBatch

/-- The protocol of every message in a payload. -/
def protocol : Text := "HTTP/1.1".toList

/-- The method of a request: a token. -/
structure Method where
  token : Text
  isToken : token ≠ [] ∧ token.all MediaType.isToken = true
deriving DecidableEq, Repr

namespace Method

/-- The method of that name, if a method may have it. -/
def ofText? (t : Text) : Option Method :=
  if h : t ≠ [] ∧ t.all MediaType.isToken = true then some ⟨t, h⟩ else none

/-- The methods that a payload's requests may use. -/
def supported : List Text :=
  ["DELETE".toList, "PATCH".toList, "POST".toList, "PUT".toList]

end Method

/-- A kind of start line. -/
class StartLine (σ : Type) where
  /-- What is known before any line is read. -/
  unknown : σ
  /-- The start line that replaces the given one when a line of text is read. -/
  read : σ → Text → σ
  /-- A start line as text, without line ending, if there is one to write. -/
  write? : σ → Option Text

/-- The first line of a request, as far as it is known. -/
structure RequestLine where
  method? : Option Method := none
  uri? : Option Text := none
  query? : Option Text := none
deriving DecidableEq, Repr

namespace RequestLine

/-- The target of a request line, when the method and the space after it are read:
a run without blanks, followed by the protocol and blanks only. -/
def readTarget? (t : Text) : Option Text :=
  let target := t.takeWhile fun c => !Text.isBlank c
  if target = [] then none
  else
    (Text.dropStart? (' ' :: protocol) (t.dropWhile fun c => !Text.isBlank c)).bind fun rest =>
      if Text.allBlank rest then some target else none

/-- The method and the target of a line. -/
def split? (line : Text) : Option (Text × Text) :=
  Method.supported.findSome? fun method =>
    (Text.dropStart? (method ++ [' ']) line).bind fun rest =>
      (readTarget? rest).map fun target => (method, target)

/-- Reads a request line.  The query starts after the first `?` of the target. -/
def read? (line : Text) : Option RequestLine :=
  (split? line).map fun (method, target) =>
    match Text.splitAt? '?' target with
    | some (path, query) => ⟨Method.ofText? method, some path, some query⟩
    | none => ⟨Method.ofText? method, some target, none⟩

/-- The target of a request line; without a path it is the root. -/
def target (r : RequestLine) : Text :=
  match r.query? with
  | some query => r.uri?.getD ['/'] ++ '?' :: query
  | none => r.uri?.getD ['/']

/-- Writes a request line, if it has a method. -/
def write? (r : RequestLine) : Option Text :=
  r.method?.map fun method => method.token ++ ' ' :: r.target ++ ' ' :: protocol

instance : StartLine RequestLine where
  unknown := {}
  read old line := (read? line).getD old
  write? := write?

end RequestLine

/-- The first line of a response, as far as it is known. -/
structure StatusLine where
  status? : Option UInt16 := none
deriving DecidableEq, Repr

namespace StatusLine

/-- The number that digits spell. -/
def numeral (digits : Text) : Nat :=
  digits.foldl (fun n c => 10 * n + (c.toNat - 48)) 0

/-- A status of at most 16 bits, in digits, possibly after a `+`. -/
def readStatus? (t : Text) : Option UInt16 :=
  let digits := if t.head? = some '+' then t.tail else t
  if digits ≠ [] ∧ digits.all Char.isDigit ∧ numeral digits < 65536 then
    some (UInt16.ofNat (numeral digits))
  else none

/-- Reads the status of a status line: the run without blanks after the protocol. -/
def read? (line : Text) : Option StatusLine :=
  (Text.dropStart? (protocol ++ [' ']) line).bind fun rest =>
    (readStatus? (rest.takeWhile fun c => !Text.isBlank c)).map fun status => ⟨some status⟩

/-- The phrases that go with the statuses known to the protocol. -/
def reasons : List (Nat × String) :=
  [(100, "Continue"), (101, "Switching Protocols"), (102, "Processing"), (103, "Early Hints"),
    (200, "OK"), (201, "Created"), (202, "Accepted"), (203, "Non Authoritative Information"),
    (204, "No Content"), (205, "Reset Content"), (206, "Partial Content"), (207, "Multi-Status"),
    (208, "Already Reported"), (226, "IM Used"), (300, "Multiple Choices"),
    (301, "Moved Permanently"), (302, "Found"), (303, "See Other"), (304, "Not Modified"),
    (305, "Use Proxy"), (307, "Temporary Redirect"), (308, "Permanent Redirect"),
    (400, "Bad Request"), (401, "Unauthorized"), (402, "Payment Required"), (403, "Forbidden"),
    (404, "Not Found"), (405, "Method Not Allowed"), (406, "Not Acceptable"),
    (407, "Proxy Authentication Required"), (408, "Request Timeout"), (409, "Conflict"),
    (410, "Gone"), (411, "Length Required"), (412, "Precondition Failed"),
    (413, "Payload Too Large"), (414, "URI Too Long"), (415, "Unsupported Media Type"),
    (416, "Range Not Satisfiable"), (417, "Expectation Failed"), (418, "I'm a teapot"),
    (421, "Misdirected Request"), (422, "Unprocessable Entity"), (423, "Locked"),
    (424, "Failed Dependency"), (425, "Too Early"), (426, "Upgrade Required"),
    (428, "Precondition Required"), (429, "Too Many Requests"),
    (431, "Request Header Fields Too Large"), (451, "Unavailable For Legal Reasons"),
    (500, "Internal Server Error"), (501, "Not Implemented"), (502, "Bad Gateway"),
    (503, "Service Unavailable"), (504, "Gateway Timeout"), (505, "HTTP Version Not Supported"),
    (506, "Variant Also Negotiates"), (507, "Insufficient Storage"), (508, "Loop Detected"),
    (510, "Not Extended"), (511, "Network Authentication Required")]

/-- A space and the phrase that goes with a status, if one does. -/
def reason (status : Nat) : Text :=
  match reasons.lookup status with
  | some phrase => ' ' :: phrase.toList
  | none => []

/-- Writes a status line, if there is a status. -/
def write? (s : StatusLine) : Option Text :=
  s.status?.map fun status =>
    protocol ++ ' ' :: Text.ofNat status.toNat ++ reason status.toNat

instance : StartLine StatusLine where
  unknown := {}
  read old line := (read? line).getD old
  write? := write?

end StatusLine

end QueryBatch
