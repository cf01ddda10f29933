import QueryBatch.Condition.Basic
import QueryBatch.Condition.Brackets
import QueryBatch.Condition.Parser
import QueryBatch.Condition.Printer
import QueryBatch.Condition.Query
import QueryBatch.Condition.Test
import QueryBatch.Condition.Value
import QueryBatch.Conversion
import QueryBatch.Error
import QueryBatch.Filter.Basic
import QueryBatch.Filter.OfCondition
import QueryBatch.Memo
import QueryBatch.Payload.Batch
import QueryBatch.Payload.Charset
import QueryBatch.Payload.Headers
import QueryBatch.Payload.Item
import QueryBatch.Payload.LineReader
import QueryBatch.Payload.MediaType
import QueryBatch.Payload.Multipart
import QueryBatch.Payload.Part
import QueryBatch.Payload.Source
import QueryBatch.Payload.StartLine
import QueryBatch.Proofs.Condition.BuiltQueries
import QueryBatch.Proofs.Condition.Comparator
import QueryBatch.Proofs.Condition.Grammar
import QueryBatch.Proofs.Condition.Matched
import QueryBatch.Proofs.Condition.Meaning
import QueryBatch.Proofs.Condition.Parsing
import QueryBatch.Proofs.Condition.Rendering
import QueryBatch.Proofs.Condition.Reparsing
import QueryBatch.Proofs.Condition.Shape
import QueryBatch.Proofs.Conversion
import QueryBatch.Proofs.Failure
import QueryBatch.Proofs.Filter.Meaning
import QueryBatch.Proofs.Filter.Names
import QueryBatch.Proofs.Memo
import QueryBatch.Proofs.Payload.Announcement
import QueryBatch.Proofs.Payload.BodyCharsets
import QueryBatch.Proofs.Payload.Chunking
import QueryBatch.Proofs.Payload.Declarations
import QueryBatch.Proofs.Payload.Grouping
import QueryBatch.Proofs.Payload.HeaderHistory
import QueryBatch.Proofs.Payload.Headers
import QueryBatch.Proofs.Payload.Isolation
import QueryBatch.Proofs.Payload.Layout
import QueryBatch.Proofs.Payload.PartReading
import QueryBatch.Proofs.Payload.Parts
import QueryBatch.Proofs.Payload.Recognition
import QueryBatch.Proofs.Payload.Regeneration
import QueryBatch.Proofs.Payload.RequestLines
import QueryBatch.Proofs.Payload.RoundTrip
import QueryBatch.Proofs.Payload.Sections
import QueryBatch.Proofs.Payload.StartLines
import QueryBatch.Proofs.Payload.SteadySource
import QueryBatch.Proofs.Payload.Truncation
import QueryBatch.Proofs.Payload.WrittenLines
import QueryBatch.Proofs.SearchCond.Meaning
import QueryBatch.Proofs.SearchCond.Timestamps
import QueryBatch.Proofs.Shape
import QueryBatch.Proofs.Text.Cutting
import QueryBatch.Proofs.Text.Decoding
import QueryBatch.Proofs.Text.Encoding
import QueryBatch.Proofs.Text.Escapes
import QueryBatch.Proofs.Text.FormValues
import QueryBatch.Proofs.Text.Lines
import QueryBatch.Proofs.Text.Matching
import QueryBatch.SearchCond.Basic
import QueryBatch.SearchCond.Timestamp
import QueryBatch.SearchCond.OfCondition
import QueryBatch.Settings.Basic
import QueryBatch.Settings.Document
import QueryBatch.Settings.Json
import QueryBatch.SpecialAttr
import QueryBatch.Text.Basic
import QueryBatch.Text.FormEncoding
import QueryBatch.Text.Utf8
import QueryBatch.Text.Word
import QueryBatch.Wildcard
