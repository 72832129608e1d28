import CppLox.Library.LittleEndian
import CppLox.Library.LongestPrefix
import CppLox.Library.Marking
import CppLox.Library.Binary64
import CppLox.Library.Mixing
import CppLox.Library.RunLength
import CppLox.Library.Crc32
import CppLox.Library.SmallStep
import CppLox.Object.Value
import CppLox.Object.Context
import CppLox.Container.HashMap
import CppLox.Container.Probing
import CppLox.Container.Insertion
import CppLox.Container.Refinement
import CppLox.Container.Agreement
import CppLox.Container.Searches
import CppLox.Container.Room
import CppLox.Object.Map
import CppLox.Memory.Heap
import CppLox.Memory.Text
import CppLox.Memory.Collector
import CppLox.Memory.Interning
import CppLox.Memory.CollectorSpec
import CppLox.Memory.StringPool
import CppLox.Serialization.Serializer
import CppLox.Serialization.Deserializer
import CppLox.Library.Except
import CppLox.Serialization.Layout
import CppLox.Serialization.WriterSpec
import CppLox.Serialization.LoaderSafety
import CppLox.Serialization.LoaderSpec
import CppLox.Serialization.RoundTrip
import CppLox.Serialization.FileHeader
import CppLox.Compiler.Token
import CppLox.Compiler.Lexer
import CppLox.Compiler.Parser
import CppLox.Bytecode.OpCode
import CppLox.Bytecode.Chunk
import CppLox.Bytecode.Layout
import CppLox.Bytecode.Lines
import CppLox.Bytecode.WriteCalls
import CppLox.Bytecode.Disassembler
import CppLox.Compiler.State
import CppLox.Compiler.Expressions
import CppLox.Compiler.Statements
import CppLox.Syntax.Ast
import CppLox.Syntax.Parse
import CppLox.Compiler.Code
import CppLox.Compiler.Layout
import CppLox.Compiler.Progress
import CppLox.Compiler.Scanning
import CppLox.Compiler.Reading
import CppLox.Compiler.Keywords
import CppLox.Compiler.Tokenization
import CppLox.Compiler.Terminates
import CppLox.Compiler.Discipline
import CppLox.Compiler.Accepts
import CppLox.Compiler.Emits
import CppLox.Compiler.Emission
import CppLox.Compiler.Resolution
import CppLox.Compiler.ExpressionCode
import CppLox.Compiler.StatementCode
import CppLox.Compiler.VariableCode
import CppLox.Compiler.LoopCode
import CppLox.Compiler.FunctionCode
import CppLox.Compiler.ClassCode
import CppLox.Compiler.SwitchCode
import CppLox.Compiler.ProgramCode
import CppLox.VM.State
import CppLox.VM.Printing
import CppLox.Library.Descent
import CppLox.VM.Execute
import CppLox.VM.Preserves
import CppLox.VM.Silent
import CppLox.VM.Run
import CppLox.VM.OpenUpvalues
import CppLox.VM.UpvalueList
import CppLox.VM.Control
import CppLox.VM.Operands
import CppLox.VM.Fetch
import CppLox.VM.Boundaries
import CppLox.VM.CompiledCode
import CppLox.VM.Reports
import CppLox.VM.Properties
import CppLox.VM.Constructors
import CppLox.VM.Evaluation
import CppLox.VM.ListLiterals
import CppLox.VM.MapLiterals
import CppLox.Lox.Constructors
import CppLox.Lox.Literals
import CppLox.VM.Equality
import CppLox.VM.Keys
import CppLox.Native.Result
import CppLox.Native.Math
import CppLox.Native.Stdlib
import CppLox.Native.Classes
import CppLox.Native.List
import CppLox.Native.Map
import CppLox.Native.Registration
import CppLox.Native.Arguments
import CppLox.Native.Hashability
import CppLox.Native.Collecting
import CppLox.Native.Totality
import CppLox.VM.Indexing
import CppLox.Lox.ControlState
import CppLox.Compiler.LongPrograms
import CppLox.Lox.Disassembly
import CppLox.Lox.ErrorLines
import CppLox.Lox.Repl
import CppLox.Lox.Printing
import CppLox.Lox.Conditional
import CppLox.Lox.Negation
import CppLox.Lox.CompiledExpressions
import CppLox.Semantics.Evaluator
import CppLox.Semantics.Values
import CppLox.VM.Script
import CppLox.VM.ScriptInstructions
import CppLox.Semantics.Expressions
import CppLox.Semantics.Simulation
import CppLox.Semantics.Statements
import CppLox.Lox.Preservation
import CppLox.Object.Evolution
import CppLox.VM.Evolution
import CppLox.Compiler.Respects
import CppLox.Compiler.Evolution
import CppLox.Compiler.Addresses
import CppLox.Lox.Globals
import CppLox.Library.BurstErrors
import CppLox.Serialization.Damage
import CppLox.Container.Renaming
import CppLox.Object.Relabelling
import CppLox.VM.Relabelling
import CppLox.VM.RelabelledInstructions
import CppLox.Native.Relabelling
import CppLox.Serialization.Reload
import CppLox.VM.Observation
import CppLox.Lox.CompiledPrograms
