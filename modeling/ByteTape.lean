import ByteTape.Assembly
import ByteTape.Block
import ByteTape.Code
import ByteTape.Counters
import ByteTape.Layout
import ByteTape.Machine.Console
import ByteTape.Machine.Event
import ByteTape.Machine.Load
import ByteTape.Machine.Run
import ByteTape.Machine.Store
import ByteTape.Minify
import ByteTape.Notation.Lexeme
import ByteTape.Notation.Printer
import ByteTape.Notation.Reader
import ByteTape.Numeral
import ByteTape.Opcode
import ByteTape.Operation
import ByteTape.Phrase
import ByteTape.Program
import ByteTape.Proofs.Brackets
import ByteTape.Proofs.Evaluation
import ByteTape.Proofs.Nesting
import ByteTape.Proofs.Link
import ByteTape.Source
import ByteTape.Tape
import ByteTape.Text.Blank
import ByteTape.Text.Lossy
import ByteTape.Text.Printable
import ByteTape.Text.Quoted
import ByteTape.Proofs.Run
import ByteTape.Proofs.StructuredRun
import ByteTape.Proofs.Band
import ByteTape.Proofs.Phrase
import ByteTape.Proofs.Digit
import ByteTape.Proofs.Chain
import ByteTape.Proofs.Growth
import ByteTape.Proofs.Chains
import ByteTape.Proofs.Minify
import ByteTape.Proofs.Fragment
import ByteTape.Proofs.Placement
import ByteTape.Proofs.Simulation
import ByteTape.Proofs.Stages
import ByteTape.Proofs.Reading
import ByteTape.Proofs.Rendering
import ByteTape.Proofs.Decode
import ByteTape.Proofs.Representation
import ByteTape.Proofs.Source
import ByteTape.Proofs.Compiler
import ByteTape.Proofs.Limit
import ByteTape.Proofs.CompiledLoops
import ByteTape.Proofs.Minified
import ByteTape.Proofs.Margin
import ByteTape.Proofs.Cutoff
import ByteTape.Proofs.Extensional
import ByteTape.Proofs.Items
import ByteTape.Proofs.Roundtrip
import ByteTape.Proofs.Lexing
import ByteTape.Proofs.FrontEnds
import ByteTape.Proofs.Displacement
import ByteTape.Proofs.Footprint
import ByteTape.Proofs.Input
import ByteTape.Proofs.Routine
import ByteTape.Proofs.Increment
import ByteTape.Proofs.Contract
import ByteTape.Proofs.Decrement
import ByteTape.Proofs.Navigation
import ByteTape.Proofs.ReadWrite
import ByteTape.Proofs.BracketCount
import ByteTape.Proofs.NormalForm
import ByteTape.Proofs.Faults
import ByteTape.Proofs.Grammar
import ByteTape.Proofs.Words
import ByteTape.Proofs.Values
import ByteTape.Proofs.Storage
import ByteTape.Proofs.Blame
