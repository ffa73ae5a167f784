import FuncScript.Body
import FuncScript.Command.Arguments
import FuncScript.Command.Environment
import FuncScript.Command.Log
import FuncScript.Command.Outcome
import FuncScript.Command.Parse
import FuncScript.Command.Run
import FuncScript.Command.Serve
import FuncScript.Definition
import FuncScript.Entries
import FuncScript.Expectation
import FuncScript.FailureLog
import FuncScript.Json
import FuncScript.Json.Encoding
import FuncScript.Keyword
import FuncScript.Main
import FuncScript.Number.Binary64
import FuncScript.Number.Shortest
import FuncScript.Number.Written
import FuncScript.Position
import FuncScript.Rule.Basic
import FuncScript.Rule.Block
import FuncScript.Rule.Configuration
import FuncScript.Rule.Scalar
import FuncScript.Rule.Script
import FuncScript.Rule.Terminal
import FuncScript.Script
import FuncScript.Service.Address
import FuncScript.Service.Endpoint
import FuncScript.Service.Envelope
import FuncScript.Service.Message
import FuncScript.Service.RateLimiter
import FuncScript.Service.Router
import FuncScript.Service.Runtime
import FuncScript.Summary
import FuncScript.SyntaxError
import FuncScript.Text.Blank
import FuncScript.Text.CharClass
import FuncScript.Text.Hex
import FuncScript.Text.Quoted
import FuncScript.Text.Units
import FuncScript.Text.Utf8
import FuncScript.Value
import FuncScript.Value.Printer
import FuncScript.Proofs.Phrase
import FuncScript.Proofs.Outcome
import FuncScript.Proofs.Reading.Basic
import FuncScript.Proofs.Reading.Choice
import FuncScript.Proofs.Reading.Repetition
import FuncScript.Proofs.Reading.Rule
import FuncScript.Proofs.Reading.Blanks
import FuncScript.Proofs.Denotation
import FuncScript.Proofs.Grammar
import FuncScript.Proofs.Values
import FuncScript.Proofs.Reading.Scalar
import FuncScript.Proofs.Magnitude
import FuncScript.Proofs.Reading.Number
import FuncScript.Proofs.Reading.Listing
import FuncScript.Proofs.Merging
import FuncScript.Proofs.Reading.Configuration
import FuncScript.Proofs.Blocks
import FuncScript.Proofs.Reading.Block
import FuncScript.Proofs.Reading.Script
import FuncScript.Proofs.Acceptance
import FuncScript.Proofs.Honesty
import FuncScript.Proofs.Levels
import FuncScript.Proofs.Places
import FuncScript.Proofs.Notes
import FuncScript.Proofs.Complaints
import FuncScript.Proofs.Exactness
import FuncScript.Proofs.Boundary
import FuncScript.Proofs.Plan
import FuncScript.Proofs.Discipline
import FuncScript.Proofs.Moments
import FuncScript.Proofs.Nonterminals
import FuncScript.Proofs.LineBreak.Text
import FuncScript.Proofs.LineBreak.Rule
import FuncScript.Proofs.LineBreak.Block
import FuncScript.Proofs.LineBreak.Complaint
import FuncScript.Proofs.LineBreak.Script
import FuncScript.Proofs.Nesting.Openings
import FuncScript.Proofs.Nesting.Crossing
import FuncScript.Proofs.Nesting.Limit
import FuncScript.Proofs.Nesting.Value
import FuncScript.Proofs.Nesting.Block
import FuncScript.Proofs.Nesting.Script
import FuncScript.Proofs.Shortest
import FuncScript.Proofs.Writing.Number
import FuncScript.Proofs.Writing.Quoted
import FuncScript.Proofs.Reading.Quoted
import FuncScript.Proofs.Writing.Value
import FuncScript.Proofs.RoundTrip
import FuncScript.Proofs.Fences.Scan
import FuncScript.Proofs.Fences.Embedding
import FuncScript.Proofs.Limiting.Calls
import FuncScript.Proofs.Limiting.Counters
import FuncScript.Proofs.Limiting.Alone
import FuncScript.Proofs.Limiting.Retrying
import FuncScript.Proofs.Serving.Answers
import FuncScript.Proofs.Serving.Layers
import FuncScript.Proofs.Serving.Budget
import FuncScript.Proofs.Serving.Agreement
import FuncScript.Proofs.Limiting.Bursts
import FuncScript.Proofs.Queries
import FuncScript.Proofs.Furthest
import FuncScript.Proofs.Summaries
import FuncScript.Proofs.Alternatives.Agreement
import FuncScript.Proofs.Alternatives.Order
import FuncScript.Proofs.Wording.Codes
import FuncScript.Proofs.Wording.Lossless
import FuncScript.Proofs.Foresight.Plan
import FuncScript.Proofs.Foresight.Block
import FuncScript.Proofs.Foresight.Script
import FuncScript.Proofs.Brink.Grammar
import FuncScript.Proofs.Brink.Crossing
import FuncScript.Proofs.Brink.Rule
import FuncScript.Proofs.Brink.Configuration
import FuncScript.Proofs.Brink.Block
import FuncScript.Proofs.Brink.Script
