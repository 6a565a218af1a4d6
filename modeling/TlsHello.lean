import TlsHello.Bytes
import TlsHello.Error
import TlsHello.Grease
import TlsHello.Reader
import TlsHello.Entry
import TlsHello.EntryReader
import TlsHello.Extension.Registry
import TlsHello.Extension.Basic
import TlsHello.Extension.ListFormat
import TlsHello.Extension.Decode
import TlsHello.Extension.Run
import TlsHello.Extension.Query
import TlsHello.Text.Utf8
import TlsHello.Hello.Basic
import TlsHello.Hello.Decode
import TlsHello.Hello.Fields
import TlsHello.Cursor
import TlsHello.Proofs.Reading
import TlsHello.Proofs.Tiling
import TlsHello.Proofs.Sequence
import TlsHello.Proofs.EntryLoop
import TlsHello.Proofs.ListWalk
import TlsHello.Extension.Layout
import TlsHello.Hello.Layout
import TlsHello.Proofs.Atomic
import TlsHello.Proofs.BlockWalk
import TlsHello.Proofs.Dissection
import TlsHello.Proofs.Prefix
import TlsHello.Proofs.Grease
import TlsHello.Proofs.Description
import TlsHello.Proofs.RoundTrip
import TlsHello.Proofs.Failing
import TlsHello.Proofs.Refusal
import TlsHello.Proofs.Normal
import TlsHello.Proofs.Transparency
import TlsHello.Proofs.Lookup
import TlsHello.Proofs.Reorder
import TlsHello.Proofs.Verbatim
import TlsHello.Proofs.Size
import TlsHello.Proofs.Utf8
import TlsHello.Proofs.LongestRun
import TlsHello.Proofs.ListGrammar
import TlsHello.Proofs.Block
import TlsHello.Proofs.HostName
import TlsHello.Proofs.FirstList
import TlsHello.Proofs.CutExtension
import TlsHello.Proofs.CutBody
import TlsHello.Proofs.Dispatch
import TlsHello.Proofs.Utf8Append
import TlsHello.Proofs.ErrorText
import TlsHello.Proofs.CursorRun
