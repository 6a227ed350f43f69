import JourneyMachine.Code.Assembler
import JourneyMachine.Code.Instruction
import JourneyMachine.Code.Interrupt
import JourneyMachine.Code.Listing
import JourneyMachine.Code.Opcode
import JourneyMachine.CommandLine
import JourneyMachine.Complaint
import JourneyMachine.Fault
import JourneyMachine.Form
import JourneyMachine.Frame
import JourneyMachine.Genus
import JourneyMachine.Handlers
import JourneyMachine.Heap.Arena
import JourneyMachine.Heap.Basic
import JourneyMachine.Heap.Dump
import JourneyMachine.Heap.Hierarchy
import JourneyMachine.Heap.Object
import JourneyMachine.Host.Commands
import JourneyMachine.Host.Entry
import JourneyMachine.Host.Files
import JourneyMachine.Host.Inspection
import JourneyMachine.Host.System
import JourneyMachine.Host.Programs.Basic
import JourneyMachine.Host.Programs.Cat
import JourneyMachine.Host.Programs.Echo
import JourneyMachine.Host.Programs.Format
import JourneyMachine.Host.Programs.Number
import JourneyMachine.Host.Programs.Printf
import JourneyMachine.Host.Programs.Test
import JourneyMachine.Host.Shell.Arithmetic
import JourneyMachine.Host.Shell.Basic
import JourneyMachine.Host.Shell.Builtins
import JourneyMachine.Host.Shell.Builtins.Basic
import JourneyMachine.Host.Shell.Builtins.Names
import JourneyMachine.Host.Shell.Builtins.Output
import JourneyMachine.Host.Shell.Builtins.Variables
import JourneyMachine.Host.Shell.Condition
import JourneyMachine.Host.Shell.Engine
import JourneyMachine.Host.Shell.Expansion
import JourneyMachine.Host.Shell.Fields
import JourneyMachine.Host.Shell.Grammar
import JourneyMachine.Host.Shell.Lines
import JourneyMachine.Host.Shell.Pattern
import JourneyMachine.Host.Shell.Reader
import JourneyMachine.Host.Shell.Redirection
import JourneyMachine.Host.Shell.Run
import JourneyMachine.Host.Shell.Simple
import JourneyMachine.Host.Shell.Tokens
import JourneyMachine.Host.Shell.Words
import JourneyMachine.Host.World
import JourneyMachine.Image.Basic
import JourneyMachine.Image.Codec
import JourneyMachine.Image.Load
import JourneyMachine.Journey
import JourneyMachine.Machine.Attributes
import JourneyMachine.Machine.Basic
import JourneyMachine.Machine.Convert
import JourneyMachine.Machine.Dispatch
import JourneyMachine.Machine.Equality
import JourneyMachine.Machine.Interrupts
import JourneyMachine.Machine.Operators
import JourneyMachine.Machine.Scrolls
import JourneyMachine.Machine.Start
import JourneyMachine.Machine.Step
import JourneyMachine.Main
import JourneyMachine.Numeral
import JourneyMachine.Program
import JourneyMachine.Random
import JourneyMachine.Scroll
import JourneyMachine.Text.Characters
import JourneyMachine.Text.Quoted
import JourneyMachine.Text.Utf8
import JourneyMachine.Value
import JourneyMachine.Proofs.Heap.Marking
import JourneyMachine.Proofs.Heap.Operations
import JourneyMachine.Proofs.Heap.Allocation
import JourneyMachine.Proofs.Closure.Shapes
import JourneyMachine.Proofs.Closure.Attributes
import JourneyMachine.Proofs.Closure.Calls
import JourneyMachine.Proofs.Closure.Loading
import JourneyMachine.Proofs.Closure.Runs
import JourneyMachine.Proofs.Control.Faults
import JourneyMachine.Proofs.Control.Conversions
import JourneyMachine.Proofs.Control.Operators
import JourneyMachine.Proofs.Control.Calls
import JourneyMachine.Proofs.Control.Steps
import JourneyMachine.Proofs.Control.Loading
import JourneyMachine.Proofs.Control.Restoration
import JourneyMachine.Proofs.Control.Throws
import JourneyMachine.Proofs.Control.Exits
import JourneyMachine.Proofs.Dispatch.Specification
import JourneyMachine.Proofs.Dispatch.Binding
import JourneyMachine.Proofs.Dispatch.Stages
import JourneyMachine.Proofs.Dispatch.Registers
import JourneyMachine.Proofs.Dispatch.Keywords
import JourneyMachine.Proofs.Dispatch.Patterns
import JourneyMachine.Proofs.Dispatch.Guards
import JourneyMachine.Proofs.Image.RoundTrip
import JourneyMachine.Proofs.Image.Faithfulness
import JourneyMachine.Proofs.Closure.Permanence
import JourneyMachine.Proofs.Code.Operands
import JourneyMachine.Proofs.Code.Agreement
import JourneyMachine.Proofs.Code.Encoding
import JourneyMachine.Proofs.Code.Orders
import JourneyMachine.Proofs.Code.Assembly
import JourneyMachine.Proofs.Equality.Bisimilarity
import JourneyMachine.Proofs.Equality.Decision
import JourneyMachine.Proofs.Equality.Termination
import JourneyMachine.Proofs.Containers.Throws
import JourneyMachine.Proofs.Containers.Pages
import JourneyMachine.Proofs.Containers.Dictionary
import JourneyMachine.Proofs.Containers.Histories
import JourneyMachine.Proofs.Containers.Reentrancy
import JourneyMachine.Proofs.Containers.Insertion
import JourneyMachine.Proofs.Closure.Extents
import JourneyMachine.Proofs.Matching.Equations
import JourneyMachine.Proofs.Matching.Meaning
import JourneyMachine.Proofs.Seclusion.Basic
import JourneyMachine.Proofs.Seclusion.Conversions
import JourneyMachine.Proofs.Seclusion.Operators
import JourneyMachine.Proofs.Seclusion.Calls
import JourneyMachine.Proofs.Seclusion.Steps
import JourneyMachine.Proofs.Seclusion.Fresh
import JourneyMachine.Proofs.Containers.Snapshots
import JourneyMachine.Proofs.Numerals.Powers
import JourneyMachine.Proofs.Attributes.Lineage
import JourneyMachine.Proofs.Control.Shedding
import JourneyMachine.Proofs.Control.Nesting
import JourneyMachine.Proofs.Control.SubPrograms
import JourneyMachine.Proofs.Attributes.Silence
import JourneyMachine.Proofs.Attributes.Fields
import JourneyMachine.Proofs.Attributes.Assignment
import JourneyMachine.Proofs.Containers.Room
import JourneyMachine.Proofs.Texts.Spelling
import JourneyMachine.Proofs.Texts.Characters
import JourneyMachine.Proofs.Numerals.Arabic
import JourneyMachine.Proofs.Numerals.Roman
import JourneyMachine.Proofs.Rendering.Marks
import JourneyMachine.Proofs.Rendering.Totality
import JourneyMachine.Proofs.Image.Truncation
import JourneyMachine.Proofs.Heap.Bookkeeping
import JourneyMachine.Proofs.Image.Failure
import JourneyMachine.Proofs.Exhaustion.Runs
import JourneyMachine.Proofs.Randomness.Runs
