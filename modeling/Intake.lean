import Intake.Bytes
import Intake.Checksum.Crc32
import Intake.Checksum.XxHash64
import Intake.Net.Address
import Intake.Net.Address.Reader
import Intake.Text.Blank
import Intake.Text.Quoted
import Intake.Text.Shown
import Intake.Text.Utf8
import Intake.Bits
import Intake.PrefixCode
import Intake.Deflate.Block
import Intake.Gzip.Member
import Intake.Zstd.Fse
import Intake.Zstd.Fault
import Intake.Zstd.Release
import Intake.Zstd.Literals
import Intake.Zstd.Sequences
import Intake.Zstd.Header
import Intake.Zstd.Portion
import Intake.Zstd.Frame
import Intake.Zstd.Body
import Intake.Codec
import Intake.Codec.Registry
import Intake.Settings
import Intake.Json.Numeral
import Intake.Json.Value
import Intake.Json.Fault
import Intake.Json.Reader
import Intake.Json.Numeral.Reader
import Intake.Json.Escape
import Intake.Json.Quote
import Intake.Json.Unsuitable
import Intake.Json.Value.Reader
import Intake.Json.Value.Printer
import Intake.Ack
import Intake.Batch
import Intake.Decimal.Shortest
import Intake.Json.Numeral.Approximation
import Intake.Json.Word
import Intake.Json.Skip
import Intake.Ack.Reader
import Intake.Store
import Intake.Ingest
import Intake.Log
import Intake.Http.Percent
import Intake.Http.Message
import Intake.Http.Server
import Intake.Text.Hex
import Intake.Proofs.Ascending
import Intake.Proofs.Local
import Intake.Proofs.Json.Literal
import Intake.Proofs.Text.Order
import Intake.Proofs.Json.Quoted
import Intake.Proofs.Json.Objects
import Intake.Proofs.Json.Reading
import Intake.Proofs.Json.Written
import Intake.Proofs.Json.Document
import Intake.Proofs.Json.Means
import Intake.Proofs.Json.Writing
import Intake.Proofs.Json.RoundTrip
import Intake.Proofs.Json.Denotes
import Intake.Proofs.Json.Verbatim
import Intake.Proofs.Json.Kinds
import Intake.Proofs.Json.Parts
import Intake.Proofs.Batch
import Intake.Proofs.Batch.RoundTrip
import Intake.Proofs.Batch.Kinds
import Intake.Proofs.Http.Step
import Intake.Proofs.Http.Ingestion
import Intake.Proofs.Http.ReadBack
import Intake.Proofs.Http.Shown
import Intake.Proofs.Http.Numbers
import Intake.Proofs.Deflate.Local
import Intake.Proofs.Bytes
import Intake.Proofs.Gzip.Members
import Intake.Proofs.Bits
import Intake.Proofs.PrefixCode
import Intake.Proofs.Deflate.Reading
import Intake.Proofs.Deflate.Expansion
import Intake.Proofs.Gzip.Writing
import Intake.Proofs.Gzip.Stored
import Intake.Proofs.Deflate.Writing
import Intake.Proofs.Zstd.Room
import Intake.Proofs.Zstd.Steps
import Intake.Proofs.Zstd.Local
import Intake.Proofs.Zstd.Frames
import Intake.Proofs.Zstd.Bodies
import Intake.Proofs.Zstd.Integrity
import Intake.Proofs.Zstd.Writing
import Intake.Proofs.Zstd.RoundTrip
import Intake.Proofs.Http.Coding
import Intake.Proofs.Http.Interleaving
import Intake.Proofs.Http.Spelling
import Intake.Proofs.Json.CutTokens
import Intake.Proofs.Json.CutValues
import Intake.Proofs.Batch.Truncation
import Intake.Proofs.Batch.Canonical
import Intake.Proofs.Http.Routing
import Intake.Proofs.Net.Numbers
import Intake.Proofs.Net.Written
import Intake.Proofs.Net.RoundTrip
import Intake.Proofs.Text.Blank
import Intake.Proofs.Settings.Listening
import Intake.Proofs.Codec.Registry
import Intake.Proofs.Settings.Codecs
import Intake.Proofs.Deflate.Size
import Intake.Proofs.Gzip.Size
import Intake.Proofs.Json.Skipping
import Intake.Proofs.Json.Typed
import Intake.Proofs.Ack
import Intake.Proofs.Ack.ReadBack
