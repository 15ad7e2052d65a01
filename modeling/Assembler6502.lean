import Assembler6502.AnonymousLabels
import Assembler6502.Assembly
import Assembler6502.Assembly.Run
import Assembler6502.Calculator
import Assembler6502.CommandLine
import Assembler6502.CommandLine.Arguments
import Assembler6502.Diagnostic
import Assembler6502.Disk
import Assembler6502.Disk.Path
import Assembler6502.Expression
import Assembler6502.Expression.Grammar
import Assembler6502.Expression.Operator
import Assembler6502.Expression.Progress
import Assembler6502.FiniteMap
import Assembler6502.Image
import Assembler6502.Machine.Instruction
import Assembler6502.Machine.Mnemonic
import Assembler6502.Machine.Mode
import Assembler6502.Main
import Assembler6502.Proofs.Assembly.Alike
import Assembler6502.Proofs.Assembly.Capacity
import Assembler6502.Proofs.Assembly.Definitions
import Assembler6502.Proofs.Assembly.Effect
import Assembler6502.Proofs.Assembly.Faults
import Assembler6502.Proofs.Assembly.OpenFiles
import Assembler6502.Proofs.Assembly.Recovery
import Assembler6502.Proofs.Assembly.Refusals
import Assembler6502.Proofs.Assembly.SourceFiles
import Assembler6502.Proofs.Assembly.Spelling
import Assembler6502.Proofs.Assembly.Splicing
import Assembler6502.Proofs.Assembly.Termination
import Assembler6502.Proofs.Assembly.Twins
import Assembler6502.Proofs.Assembly.Visits
import Assembler6502.Proofs.CommandLine.Sources
import Assembler6502.Proofs.Disk.Changes
import Assembler6502.Proofs.Expression.Agreement
import Assembler6502.Proofs.Expression.ByteOperators
import Assembler6502.Proofs.Expression.Evaluation
import Assembler6502.Proofs.Expression.Names
import Assembler6502.Proofs.Expression.Phrase
import Assembler6502.Proofs.Expression.Recognition
import Assembler6502.Proofs.Expression.Resolution
import Assembler6502.Proofs.Machine.Decoding
import Assembler6502.Proofs.Machine.Encoding
import Assembler6502.Proofs.Scope.Naming
import Assembler6502.Proofs.Scope.Refinement
import Assembler6502.Proofs.Scope.Tree
import Assembler6502.Proofs.Scope.View
import Assembler6502.Proofs.Scope.Worklist
import Assembler6502.Proofs.Session.AddressSpace
import Assembler6502.Proofs.Session.AnonymousLabels
import Assembler6502.Proofs.Session.BoundNames
import Assembler6502.Proofs.Session.Calculation
import Assembler6502.Proofs.Session.Capacity
import Assembler6502.Proofs.Session.Faults
import Assembler6502.Proofs.Session.Formats
import Assembler6502.Proofs.Session.ImageLayout
import Assembler6502.Proofs.Session.Labels
import Assembler6502.Proofs.Session.Lockstep
import Assembler6502.Proofs.Session.NameListing
import Assembler6502.Proofs.Session.Outcome
import Assembler6502.Proofs.Session.Output
import Assembler6502.Proofs.Session.OutputFile
import Assembler6502.Proofs.Session.Passes
import Assembler6502.Proofs.Session.Phase
import Assembler6502.Proofs.Session.Provenance
import Assembler6502.Proofs.Session.RoundTrip
import Assembler6502.Proofs.Session.Spelling
import Assembler6502.Proofs.Session.Splicing
import Assembler6502.Proofs.Session.StableWidth
import Assembler6502.Proofs.Session.StartAddress
import Assembler6502.Proofs.Statement.Agreement
import Assembler6502.Proofs.Statement.BothPasses
import Assembler6502.Proofs.Statement.Exactness
import Assembler6502.Proofs.Statement.Extent
import Assembler6502.Proofs.Statement.Framing
import Assembler6502.Proofs.Statement.InStep
import Assembler6502.Proofs.Statement.Inversion
import Assembler6502.Proofs.Statement.LabelColumns
import Assembler6502.Proofs.Statement.Listing
import Assembler6502.Proofs.Statement.Noting
import Assembler6502.Proofs.Statement.ShortestMode
import Assembler6502.Proofs.Statement.Spelling
import Assembler6502.Proofs.Statement.Values
import Assembler6502.Proofs.Statement.Width
import Assembler6502.Proofs.Text.ByteOrder
import Assembler6502.Proofs.Text.Numerals
import Assembler6502.Proofs.Text.Trace
import Assembler6502.Proofs.Token.Agenda
import Assembler6502.Proofs.Token.Boundaries
import Assembler6502.Proofs.Token.Canonical
import Assembler6502.Proofs.Token.FilledLines
import Assembler6502.Proofs.Token.Lines
import Assembler6502.Proofs.Token.Lookahead
import Assembler6502.Proofs.Token.Names
import Assembler6502.Proofs.Token.Numbers
import Assembler6502.Proofs.Token.Points
import Assembler6502.Proofs.Token.Sequence
import Assembler6502.Proofs.Token.Spelling
import Assembler6502.Scope
import Assembler6502.Scope.Arena
import Assembler6502.Scope.Request
import Assembler6502.Session
import Assembler6502.Source
import Assembler6502.Statement
import Assembler6502.Statement.Grammar
import Assembler6502.Statement.Progress
import Assembler6502.Text.Byte
import Assembler6502.Text.CharacterSet
import Assembler6502.Text.Radix
import Assembler6502.Text.Utf8
import Assembler6502.Token
import Assembler6502.Token.Reading
import Assembler6502.Token.Scan
