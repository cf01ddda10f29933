/-
Request lines in requests.  Reading a line that can begin a request makes the request write
that line, whatever it began with before, and no other line changes anything.  What a request
writes is read as what it was.
-/
import QueryBatch.Payload.Item
import QueryBatch.Proofs.Payload.StartLines

namespace QueryBatch

namespace RequestLine

/-- A line that can begin a request. -/
def Supported (line : Text) : Prop :=
  ∃ method target ending, Spells method target ending line

theorem supported_iff {line : Text} : Supported line ↔ ∃ r, read? line = some r := by
  constructor
  · rintro ⟨name, target, ending, hspells⟩
    have hmethod := isMethod_of_supported name hspells.supported
    exact ⟨_, read?_eq_some_iff.mpr ⟨⟨name, hmethod⟩, target, ending, hspells, rfl⟩⟩
  · rintro ⟨r, hread⟩
    obtain ⟨method, target, ending, hspells, -⟩ := read?_eq_some_iff.mp hread
    exact ⟨method.token, target, ending, hspells⟩

/-- Behind the protocol a line holds nothing but blanks. -/
theorem Spells.trimEnd_line {method target ending line : Text}
    (h : Spells method target ending line) :
    Text.trimEnd line = method ++ ' ' :: target ++ ' ' :: protocol := by
  have hlast : (method ++ ' ' :: target ++ ' ' :: protocol).getLast? = some '1' := by
    rw [List.getLast?_append]
    rfl
  rw [Text.trimEnd, Text.dropEndWhile_eq_iff]
  refine ⟨ending, h.joined, h.blank, fun c hc => ?_⟩
  rw [hlast] at hc
  obtain rfl := Option.some.inj hc
  decide

/-- A request line that was read is written as the line, without the blanks at its end. -/
theorem write?_of_read? {line : Text} {r : RequestLine} (h : read? line = some r) :
    write? r = some (Text.trimEnd line) := by
  obtain ⟨method, target, ending, hspells, rfl⟩ := read?_eq_some_iff.mp h
  rw [hspells.trimEnd_line, write?, method?_ofTarget, target_ofTarget]
  rfl

/-- What a request line is written as reads as the request line. -/
theorem read?_write?_append {r : RequestLine} (h : r.Legible) :
    ∃ line, write? r = some line ∧
      ∀ ending, Text.allBlank ending = true → read? (line ++ ending) = some r := by
  obtain ⟨method, target, hsupported, hne, hblank, rfl⟩ := h
  refine ⟨method.token ++ ' ' :: target ++ ' ' :: protocol, ?_, fun ending hending => ?_⟩
  · rw [write?, method?_ofTarget, target_ofTarget]
    rfl
  · exact read?_eq_some_iff.mpr
      ⟨method, target, ending, ⟨hsupported, hne, hblank, hending, rfl⟩, rfl⟩

end RequestLine

namespace Request

theorem readStart_of_read? {line : Text} {r : RequestLine} (item : Request)
    (h : RequestLine.read? line = some r) : item.readStart line = { item with start := r } := by
  have hstart : StartLine.read item.start line = (RequestLine.read? line).getD item.start := rfl
  rw [Item.readStart, hstart, h, Option.getD_some]

theorem readStart_of_not_supported {line : Text} (item : Request)
    (h : ¬ RequestLine.Supported line) : item.readStart line = item := by
  have hstart : StartLine.read item.start line = (RequestLine.read? line).getD item.start := rfl
  have hread : RequestLine.read? line = none := by
    rw [RequestLine.supported_iff] at h
    exact Option.eq_none_iff_forall_ne_some.mpr fun r hr => h ⟨r, hr⟩
  rw [Item.readStart, hstart, hread, Option.getD_none]

/-- A line that can begin a request takes the place of what the request began with, so that the
request writes the line without the blanks at its end.  Any other line leaves the request as it
is.  In both cases header fields and content stay.  A complete request line is written as a line
that sets the same request line in every request, with or without an ending. -/
theorem startLine?_readStart (item : Request) :
    (∀ line, RequestLine.Supported line →
      (item.readStart line).startLine? = some (Text.trimEnd line) ∧
        ∀ other : Request, (other.readStart line).start = (item.readStart line).start) ∧
    (∀ line, ¬ RequestLine.Supported line → item.readStart line = item) ∧
    (∀ line, (item.readStart line).headers = item.headers ∧
      (item.readStart line).content = item.content) ∧
    ∀ sent : Request, sent.start.Complete → ∃ line, sent.startLine? = some line ∧
      ∀ ending, Text.allBlank ending = true →
        item.readStart (line ++ ending) = { item with start := sent.start } := by
  refine ⟨fun line hline => ?_, fun line => readStart_of_not_supported item,
    fun line => ⟨rfl, rfl⟩, fun sent hsent => ?_⟩
  · obtain ⟨r, hread⟩ := RequestLine.supported_iff.mp hline
    constructor
    · rw [readStart_of_read? item hread]
      exact RequestLine.write?_of_read? hread
    · intro other
      rw [readStart_of_read? item hread, readStart_of_read? other hread]
  · obtain ⟨line, hline, hread⟩ :=
      RequestLine.read?_write?_append (RequestLine.legible_of_complete hsent)
    exact ⟨line, hline, fun ending hending => readStart_of_read? item (hread ending hending)⟩

/-- A request with a query, for which another one without a query is read. -/
def outdated : Request where
  start := ⟨some ⟨"PUT".toList, by decide⟩, some "/old".toList, some "stale".toList⟩
  headers := Headers.appendElements {} "Accept".toList "text/plain, */*".toList
  content := "kept".toList

/-- A request whose query looks like the end of a request line. -/
def misleading : Request where
  start := ⟨some ⟨"PATCH".toList, by decide⟩, some "/a".toList, some "?HTTP/1.1".toList⟩

theorem misleading_complete : misleading.start.Complete where
  method := ⟨_, rfl, by decide⟩
  path := ⟨_, rfl, by decide, by decide, List.all_iff_forall_prop.mp (by decide)⟩
  query query h := by
    obtain rfl := Option.some.inj h
    exact List.all_iff_forall_prop.mp (by decide)

theorem startLine?_readStart_outdated :
    (RequestLine.Supported "POST /new HTTP/1.1 \r\n".toList ∧
      (outdated.readStart "POST /new HTTP/1.1 \r\n".toList).startLine? =
        some "POST /new HTTP/1.1".toList) ∧
    (¬ RequestLine.Supported "GET /new HTTP/1.1".toList ∧
      outdated.readStart "GET /new HTTP/1.1".toList = outdated) ∧
    misleading.start.Complete ∧ ∃ line, misleading.startLine? = some line ∧
      outdated.readStart (line ++ "\r\n".toList) = { outdated with start := misleading.start } := by
  have hspells : RequestLine.Spells "POST".toList "/new".toList " \r\n".toList
      "POST /new HTTP/1.1 \r\n".toList :=
    ⟨by decide, by decide, List.all_iff_forall_prop.mp (by decide), by decide, by decide⟩
  have hother : ¬ RequestLine.Supported "GET /new HTTP/1.1".toList := by
    rw [RequestLine.supported_iff]
    rintro ⟨r, hread⟩
    have hnone : RequestLine.read? "GET /new HTTP/1.1".toList = none := by decide
    cases hnone.symm.trans hread
  obtain ⟨hread, hunread, -, hwritten⟩ := startLine?_readStart outdated
  obtain ⟨line, hline, hrestored⟩ := hwritten misleading misleading_complete
  refine ⟨⟨⟨_, _, _, hspells⟩, ?_⟩, ⟨hother, hunread _ hother⟩, misleading_complete,
    line, hline, hrestored _ (by decide)⟩
  rw [(hread _ ⟨_, _, _, hspells⟩).1]
  decide

end Request

end QueryBatch
