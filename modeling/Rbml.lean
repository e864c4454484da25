import Rbml.Word
import Rbml.Lib.Table
import Rbml.Asm.Symbol
import Rbml.Asm.Code
import Rbml.Asm.Actions
import Rbml.Asm.Tracks
import Rbml.Asm.History
import Rbml.Asm.TwoPass
import Rbml.Asm.Acceptance
import Rbml.Machine.Console
import Rbml.Machine.Handlers
import Rbml.Machine.Step
import Rbml.Lib.Path
import Rbml.Machine.Effects
import Rbml.Machine.Run
import Rbml.Machine.CallStack
import Rbml.Machine.Calls
import Rbml.Machine.Restore
import Rbml.Machine.Branches
import Rbml.Machine.Memory
import Rbml.Asm.Lexer
import Rbml.Asm.Grammar
import Rbml.Asm.FrontEnd
import Rbml.Asm.Program
import Rbml.Asm.Fields
import Rbml.Interpreter.Processor
import Rbml.Interpreter.Interpreter
import Rbml.Interpreter.Simulation
import Rbml.Lib.Signed
import Rbml.Machine.Arithmetic
import Rbml.Machine.Products
import Rbml.Machine.Roles
import Rbml.Machine.Frame
import Rbml.Asm.Storage
import Rbml.Asm.Release
import Rbml.Asm.Walk
import Rbml.Asm.Literals
import Rbml.Mpc.Ast
import Rbml.Asm.MpcGrammar
import Rbml.Asm.Agreement
import Rbml.Asm.Numerals
import Rbml.Reassembly
import Rbml.Asm.Printing
import Rbml.Asm.ErrorLines
import Rbml.Asm.Output
import Rbml.Machine.ConsoleInput
import Rbml.Machine.Disks
import Rbml.Asm.MpcLines
import Rbml.Asm.Invariant
import Rbml.Encoding
import Rbml.Lib.RedBlack
import Rbml.Tree.Macros
import Rbml.Tree.Spells
import Rbml.Tree.Rotate
import Rbml.Tree.Color
import Rbml.Tree.Insert
import Rbml.Tree.Walk
import Rbml.Asm.SymbolTree
import Rbml.Tree.Runs
import Rbml.Machine.Options
import Rbml.Machine.Unread
import Rbml.Asm.Renaming
import Rbml.Machine.Numbers
import Rbml.Asm.Linking
import Rbml.Lib.Routine
import Rbml.Mpc.Engine
import Rbml.Mpc.Recursion
import Rbml.Mpc.Errors
import Rbml.Mpc.Backtracking
import Rbml.Mpc.Graph
import Rbml.Mpc.Constructors
import Rbml.Asm.MpcGraph
import Rbml.Asm.MpcEngine
import Rbml.Asm.MpcMessages
