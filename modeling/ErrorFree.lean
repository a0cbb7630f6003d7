import ErrorFree.Binary64.Rounding
import ErrorFree.Binary64.Basic
import ErrorFree.Binary64.Arithmetic
import ErrorFree.Decimal.Basic
import ErrorFree.Decimal.Shortest
import ErrorFree.Decimal.Layout
import ErrorFree.Number.Coercion
import ErrorFree.Number.Text
import ErrorFree.Number.Lenient
import ErrorFree.Opcode
import ErrorFree.Machine.Jump
import ErrorFree.Machine.Progress
import ErrorFree.Stats
import ErrorFree.Text.Escape
import ErrorFree.Text.Blank
import ErrorFree.Text.Unsigned
import ErrorFree.Stack
import ErrorFree.Heap
import ErrorFree.IoError
import ErrorFree.Text.Utf8
import ErrorFree.Console.Input
import ErrorFree.Console.Output
import ErrorFree.Console.Basic
import ErrorFree.Random.ChaCha
import ErrorFree.Random.Source
import ErrorFree.Settings
import ErrorFree.Machine.Basic
import ErrorFree.Machine.Step
import ErrorFree.Machine.Run
import ErrorFree.Toml.Value
import ErrorFree.Toml.Layout
import ErrorFree.Toml.Quoted
import ErrorFree.Toml.Numeral
import ErrorFree.Toml.Moment
import ErrorFree.Toml.Reading
import ErrorFree.Toml.Document
import ErrorFree.Files.Path
import ErrorFree.Files.Entry
import ErrorFree.Files.Tree
import ErrorFree.Config.Error
import ErrorFree.Config.File
import ErrorFree.Config.Schema
import ErrorFree.Config.Environment
import ErrorFree.Config.Load
import ErrorFree.Session
import ErrorFree.Command.Arguments
import ErrorFree.Command.Request
import ErrorFree.Command.Failure
import ErrorFree.Command.Help
import ErrorFree.Command.Host
import ErrorFree.Command.Perform
import ErrorFree.Command.World
import ErrorFree.Main
import ErrorFree.Proofs.Stack.Access
import ErrorFree.Proofs.Heap.Write
import ErrorFree.Proofs.Machine.Instruction
import ErrorFree.Proofs.Console.Requests
import ErrorFree.Proofs.Machine.Turn
import ErrorFree.Proofs.Machine.NeverFails
import ErrorFree.Proofs.Stack.DropOldest
import ErrorFree.Proofs.Stack.History
import ErrorFree.Proofs.Stack.Peek
import ErrorFree.Proofs.Binary64.Exact
import ErrorFree.Proofs.Binary64.Whole
import ErrorFree.Proofs.Heap.Addresses
import ErrorFree.Proofs.Heap.History
import ErrorFree.Proofs.Machine.Capacity
import ErrorFree.Proofs.Console.Delivery
import ErrorFree.Proofs.Machine.Requests
import ErrorFree.Proofs.Machine.OutputFailure
import ErrorFree.Proofs.Machine.Limit
import ErrorFree.Proofs.Binary64.Faithful
import ErrorFree.Proofs.Machine.InputFailure
import ErrorFree.Proofs.Machine.Landing
import ErrorFree.Proofs.Config.Layers
import ErrorFree.Proofs.Config.Precedence
import ErrorFree.Proofs.Config.Faults
import ErrorFree.Proofs.Config.Positive
import ErrorFree.Proofs.Config.Overlay
import ErrorFree.Proofs.Files.Ancestors
import ErrorFree.Proofs.Config.Nearest
import ErrorFree.Proofs.Toml.Literals
import ErrorFree.Proofs.Toml.Lines
import ErrorFree.Proofs.Toml.Tables
import ErrorFree.Proofs.Command.Simulation
import ErrorFree.Proofs.Command.Succession
import ErrorFree.Proofs.Config.Lookup
import ErrorFree.Proofs.Command.Replay
import ErrorFree.Proofs.Machine.Course
import ErrorFree.Proofs.Machine.AutoZero
import ErrorFree.Proofs.Machine.Prompts
import ErrorFree.Proofs.Text.Utf8
import ErrorFree.Proofs.Text.Lossy
import ErrorFree.Proofs.Number.Characters
import ErrorFree.Proofs.Machine.Printing
import ErrorFree.Proofs.Command.Status
import ErrorFree.Proofs.Machine.Straight
import ErrorFree.Proofs.Machine.Postfix
import ErrorFree.Proofs.Binary64.Nearest
import ErrorFree.Proofs.Decimal.Shortest
import ErrorFree.Proofs.Number.Numeral
import ErrorFree.Proofs.Number.Format
import ErrorFree.Proofs.Console.Lines
import ErrorFree.Proofs.Console.Reads
import ErrorFree.Proofs.Number.ReadBack
import ErrorFree.Proofs.Number.Garbled
import ErrorFree.Proofs.Number.Kept
import ErrorFree.Proofs.Binary64.Monotone
import ErrorFree.Proofs.Binary64.Quotient
import ErrorFree.Proofs.Machine.Remainder
import ErrorFree.Proofs.Heap.Frame
import ErrorFree.Proofs.Heap.Eviction
import ErrorFree.Proofs.Heap.Window
import ErrorFree.Proofs.Config.Rendering
import ErrorFree.Proofs.Machine.Progress
import ErrorFree.Proofs.Random.Stream
import ErrorFree.Proofs.Config.Numbers
import ErrorFree.Proofs.Binary64.Root
import ErrorFree.Proofs.Machine.Operators
