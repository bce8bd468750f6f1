import RequestLang.Arith.Evaluate
import RequestLang.Arith.Number
import RequestLang.Auth.Apply
import RequestLang.Auth.Aws
import RequestLang.Auth.AwsHost
import RequestLang.Auth.Azure
import RequestLang.Auth.Digest
import RequestLang.Auth.Hawk
import RequestLang.Auth.Outgoing
import RequestLang.Auth.TokenCache
import RequestLang.Calendar
import RequestLang.CommandLine
import RequestLang.Compile
import RequestLang.Compile.Target
import RequestLang.Compile.Credentials
import RequestLang.Compile.Payload
import RequestLang.Curl
import RequestLang.Definition
import RequestLang.Document
import RequestLang.Document.Clause
import RequestLang.Document.Outline
import RequestLang.Document.Printer
import RequestLang.Document.Reader
import RequestLang.Document.Term
import RequestLang.Execution
import RequestLang.Failure
import RequestLang.Files
import RequestLang.Hash
import RequestLang.Headers
import RequestLang.Json.Reader
import RequestLang.Json.Printer
import RequestLang.Json.Skip
import RequestLang.Json.Value
import RequestLang.Literal
import RequestLang.Loading
import RequestLang.Main
import RequestLang.MediaType
import RequestLang.Network
import RequestLang.Network.Fault
import RequestLang.Number.Decimal
import RequestLang.Number.Shortest
import RequestLang.Path
import RequestLang.Program
import RequestLang.Property.Generator
import RequestLang.Property.Evaluate
import RequestLang.Property.File
import RequestLang.Property.Function
import RequestLang.Property.Placeholder
import RequestLang.Property.Resolver
import RequestLang.Property.Scalar
import RequestLang.Property.Toml
import RequestLang.Property.Toml.Scalar
import RequestLang.Property.Yaml
import RequestLang.Property.Yaml.Layout
import RequestLang.Property.Yaml.Node
import RequestLang.Property.Yaml.Text
import RequestLang.Script.Outcome
import RequestLang.Server
import RequestLang.Server.Call
import RequestLang.Session
import RequestLang.Shell.Command
import RequestLang.Shell.Words
import RequestLang.Source
import RequestLang.SyntaxError
import RequestLang.Text.Base64
import RequestLang.Text.Blank
import RequestLang.Text.Place
import RequestLang.Text.Quoted
import RequestLang.Text.Search
import RequestLang.Text.Utf8
import RequestLang.Text.Word
import RequestLang.Token
import RequestLang.Token.Cursor
import RequestLang.Token.Lexer
import RequestLang.Url
import RequestLang.Url.Domain
import RequestLang.Url.Percent
import RequestLang.Url.Host
import RequestLang.World
import RequestLang.Proofs.Compile.Ancestry
import RequestLang.Proofs.Compile.Fields
import RequestLang.Proofs.Compile.Gate
import RequestLang.Proofs.Compile.Merge
import RequestLang.Proofs.Loading.Canonical
import RequestLang.Proofs.Loading.Imports
import RequestLang.Proofs.Loading.InMemory
import RequestLang.Proofs.Loading.Spelling
import RequestLang.Proofs.Loading.Visits
import RequestLang.Proofs.Document.Arithmetic
import RequestLang.Proofs.Document.Legible
import RequestLang.Proofs.Document.Lexemes
import RequestLang.Proofs.Document.Outline
import RequestLang.Proofs.Document.Placed
import RequestLang.Proofs.Document.Reread.Call
import RequestLang.Proofs.Document.Reread.Term
import RequestLang.Proofs.Document.Solid
import RequestLang.Proofs.Document.Spans
import RequestLang.Proofs.Property.Expansion
import RequestLang.Proofs.Property.Holes
import RequestLang.Proofs.Property.Run
import RequestLang.Proofs.Steps
import RequestLang.Proofs.Text.Word
import RequestLang.Proofs.Text.Place
import RequestLang.Proofs.Text.Search
import RequestLang.Proofs.Token.Lexeme
import RequestLang.Proofs.Token.Cuts
import RequestLang.Proofs.Token.Excerpt
import RequestLang.Proofs.Token.Number
import RequestLang.Proofs.Token.Place
import RequestLang.Proofs.Token.Scan
import RequestLang.Proofs.Token.Shape
import RequestLang.Proofs.Token.Stops
import RequestLang.Proofs.Document.Clean
import RequestLang.Proofs.Document.Exact.Run
import RequestLang.Proofs.Document.Exact.Term
import RequestLang.Proofs.Document.Read.Document
import RequestLang.Proofs.Document.Reread.Clause
import RequestLang.Proofs.Document.Reread.Document
import RequestLang.Proofs.Json.Number
import RequestLang.Proofs.Document.Printable
import RequestLang.Proofs.Document.RoundTrip
import RequestLang.Proofs.Session
import RequestLang.Proofs.Property.Gate
import RequestLang.Proofs.Property.Lookup
import RequestLang.Proofs.Property.Lenient
import RequestLang.Proofs.Compile.Lenient
import RequestLang.Proofs.Json.OneLine
import RequestLang.Proofs.Server.Workers
import RequestLang.Proofs.Shell.Words
import RequestLang.Proofs.Curl
import RequestLang.Proofs.Auth.Canonical
import RequestLang.Proofs.Auth.Signed
import RequestLang.Proofs.Json.Read.Number
import RequestLang.Proofs.Json.Read.Value
import RequestLang.Proofs.Document.Reread.Spaced
import RequestLang.Proofs.Document.Pasted
import RequestLang.Proofs.Compile.Addressing
import RequestLang.Proofs.Json.RoundTrip
import RequestLang.Proofs.Loading.Comments
import RequestLang.Proofs.Document.Faults
import RequestLang.Proofs.Document.Slices
import RequestLang.Proofs.Arith.Words
import RequestLang.Proofs.Arith.Exact
import RequestLang.Proofs.Arith.Cut
import RequestLang.Proofs.Arith.Laid
import RequestLang.Proofs.Property.Pieces
import RequestLang.Proofs.Property.Substitution
import RequestLang.Proofs.Property.Words
import RequestLang.Proofs.Property.Formula
import RequestLang.Proofs.Property.Causes
import RequestLang.Proofs.Document.Negative
import RequestLang.Proofs.Document.Gapped
import RequestLang.Proofs.Property.Spaced
import RequestLang.Proofs.Property.Respaced
import RequestLang.Proofs.Compile.Walk
import RequestLang.Proofs.Compile.Origin
import RequestLang.Proofs.Property.Mining
import RequestLang.Proofs.Property.Remining
import RequestLang.Proofs.Token.Tiling
import RequestLang.Proofs.Compile.Schemeless
import RequestLang.Proofs.Url.Query
import RequestLang.Proofs.Document.Terms
import RequestLang.Proofs.Curl.Headers
import RequestLang.Proofs.Curl.Uploads
import RequestLang.Proofs.Auth.Digest
import RequestLang.Proofs.Document.Rearranged
import RequestLang.Proofs.Auth.AwsHost
import RequestLang.Proofs.Document.Quoting
import RequestLang.Proofs.Property.Generated
import RequestLang.Proofs.Auth.TokenCache
import RequestLang.Proofs.Headers
import RequestLang.Proofs.Curl.Sockets
