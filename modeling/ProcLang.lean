import ProcLang.Main
import ProcLang.Tree.Edit
import ProcLang.Proofs.Pass
import ProcLang.Proofs.Tree
import ProcLang.Proofs.Typing.Relation
import ProcLang.Proofs.Typing.Rules
import ProcLang.Proofs.Typing.Exact
import ProcLang.Proofs.Typing.Program
import ProcLang.Proofs.Grammar.Declaration
import ProcLang.Proofs.Grammar.Body
import ProcLang.Proofs.Grammar.Program
import ProcLang.Proofs.Grammar.Parts
import ProcLang.Proofs.Grammar.Sites
import ProcLang.Proofs.Grammar.Tables
import ProcLang.Proofs.Safety.Source
import ProcLang.Proofs.Binding
import ProcLang.Proofs.Safety.Check
import ProcLang.Proofs.Safety.Generate
import ProcLang.Proofs.Safety.Compile
import ProcLang.Proofs.Machine.Execution
import ProcLang.Proofs.Correctness.Stack
import ProcLang.Proofs.Semantics
import ProcLang.Proofs.Correctness.Operator
import ProcLang.Proofs.Correctness.Expression
import ProcLang.Proofs.Correctness.Labels
import ProcLang.Proofs.Correctness.Statement
import ProcLang.Proofs.Correctness.Positions
import ProcLang.Proofs.Correctness.Frame
import ProcLang.Proofs.Correctness.Procedure
import ProcLang.Proofs.Correctness.Compile
import ProcLang.Proofs.Arity
import ProcLang.Proofs.Discipline.Height
import ProcLang.Proofs.Discipline.Code
import ProcLang.Proofs.Codegen.Sites
import ProcLang.Proofs.Discipline.Compile
import ProcLang.Proofs.Calls.Sequence
import ProcLang.Proofs.Calls.Compile
import ProcLang.Proofs.Symbols.Names
import ProcLang.Proofs.Symbols.Label
import ProcLang.Proofs.Symbols.Compile
import ProcLang.Proofs.Relocation.Basic
import ProcLang.Proofs.Relocation.Parser
import ProcLang.Proofs.Relocation.Binding
import ProcLang.Proofs.Relocation.Check
import ProcLang.Proofs.Relocation.Code
import ProcLang.Proofs.Relocation.Compile
import ProcLang.Proofs.Lexing.Relation
import ProcLang.Proofs.Lexing.Scan
import ProcLang.Proofs.Lexing.Printing
import ProcLang.Proofs.Symbols.References
import ProcLang.Proofs.Order.Renumbering
import ProcLang.Proofs.Order.Check
import ProcLang.Proofs.Order.Code
import ProcLang.Proofs.Order.Program
import ProcLang.Proofs.Order.Build
import ProcLang.Proofs.Repetition.Binding
import ProcLang.Proofs.Repetition.Check
import ProcLang.Proofs.Scoping.Names
import ProcLang.Proofs.Scoping.Binding
import ProcLang.Proofs.Correctness.Faults
import ProcLang.Proofs.Correctness.Value
import ProcLang.Proofs.Machine.Trace
import ProcLang.Proofs.Cleanliness.Code
import ProcLang.Proofs.Cleanliness.Expression
import ProcLang.Proofs.Cleanliness.Compile
import ProcLang.Proofs.Lexing.Bytes
import ProcLang.Proofs.Decoration.Frame
import ProcLang.Proofs.Decoration.Visits
import ProcLang.Proofs.Decoration.Binding
import ProcLang.Proofs.Decoration.Check
import ProcLang.Proofs.Strings.Encoding
import ProcLang.Proofs.Strings.Compile
import ProcLang.Proofs.Integers.Compile
import ProcLang.Proofs.Display.Literal
import ProcLang.Proofs.Display.Expression
import ProcLang.Proofs.Scoping.Tables
import ProcLang.Proofs.Calls.Variadic
import ProcLang.Proofs.Typing.Warnings
import ProcLang.Proofs.Diagnostics
import ProcLang.Proofs.Reports
import ProcLang.Proofs.Command.Arguments
import ProcLang.Proofs.Command.FileTree
import ProcLang.Proofs.Command.Run
import ProcLang.Proofs.Blanks
import ProcLang.Proofs.Display.Type
import ProcLang.Proofs.Progress.Program
import ProcLang.Proofs.Boundary.Positions
