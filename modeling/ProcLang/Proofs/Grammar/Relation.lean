import Mathlib.Data.Nat.Digits.Defs
import ProcLang.Parser.Program

/-! The grammar, apart from the way it is parsed. Each production relates a list of significant
tokens to the tree that its beginning derives and to the tokens that are left over. -/
namespace ProcLang.Grammar

/-- The kind of the next token. -/
def next? (ts : List Token) : Option Token.Kind :=
  ts.head?.map Token.kind

/-- The number that a row of decimal digits stands for. -/
def decimal (digits : List Char) : Nat :=
  Nat.ofDigits 10 (digits.reverse.map fun c => c.toNat - '0'.toNat)

/-- A row of digits, with at most one sign in front of it. -/
inductive Numeral : String → Int → Prop
  | plain {digits : List Char} (some : digits ≠ []) (all : ∀ c ∈ digits, c.isDigit) :
    Numeral (String.ofList digits) (decimal digits)
  | plus {digits : List Char} (some : digits ≠ []) (all : ∀ c ∈ digits, c.isDigit) :
    Numeral (String.ofList ('+' :: digits)) (decimal digits)
  | minus {digits : List Char} (some : digits ≠ []) (all : ∀ c ∈ digits, c.isDigit) :
    Numeral (String.ofList ('-' :: digits)) (-decimal digits)

/-- The four names that spell a type. -/
inductive BaseType : Token → TypeAt → Prop
  | int {t : Token} (name : t.kind = .name) (text : t.text = "int") : BaseType t (.int t.loc)
  | char {t : Token} (name : t.kind = .name) (text : t.text = "char") : BaseType t (.char t.loc)
  | bool {t : Token} (name : t.kind = .name) (text : t.text = "bool") : BaseType t (.bool t.loc)
  | void {t : Token} (name : t.kind = .name) (text : t.text = "void") : BaseType t (.void t.loc)

/-- Each star makes a pointer. -/
inductive Stars : TypeAt → List Token → TypeAt → List Token → Prop
  | none (base : TypeAt) (rest : List Token) : Stars base rest base rest
  | more {base type : TypeAt} {t : Token} {ts rest : List Token} (star : t.kind = .sign .star)
    (others : Stars (.pointer base t.loc) ts type rest) : Stars base (t :: ts) type rest

/-- `type ::= ('int' | 'char' | 'bool' | 'void') '*'*` -/
inductive TypeName : List Token → TypeAt → List Token → Prop
  | intro {t : Token} {ts rest : List Token} {base type : TypeAt} (spelled : BaseType t base)
    (stars : Stars base ts type rest) : TypeName (t :: ts) type rest

/-- `declaration ::= type NAME` -/
inductive Decl : List Token → Declaration → List Token → Prop
  | intro {ts rest : List Token} {type : TypeAt} {t : Token} (typed : TypeName ts type (t :: rest))
    (name : t.kind = .name) : Decl ts ⟨t.text, type, t.loc⟩ rest

/-- `parameter ::= declaration | 'etcetera'` -/
inductive Param : List Token → Parameter → List Token → Prop
  | var {ts rest : List Token} {d : Declaration} (declared : Decl ts d rest) :
    Param ts (.var d) rest
  | etcetera {t : Token} {rest : List Token} (word : t.kind = .keyword .etcetera) :
    Param (t :: rest) (.etcetera t.loc) rest

/-- `item (',' item)* close` -/
inductive Items (item : List Token → α → List Token → Prop) (close : Token.Kind) :
    List Token → List α → List Token → Prop
  | last {ts rest : List Token} {a : α} {t : Token} (first : item ts a (t :: rest))
    (closing : t.kind = close) : Items item close ts [a] rest
  | more {ts mid rest : List Token} {a : α} {as : List α} {t : Token}
    (first : item ts a (t :: mid)) (comma : t.kind = .delimiter .comma)
    (others : Items item close mid as rest) : Items item close ts (a :: as) rest

/-- What follows an opening delimiter: `(item (',' item)*)? close` -/
inductive Closed (item : List Token → α → List Token → Prop) (close : Token.Kind) :
    List Token → List α → List Token → Prop
  | empty {t : Token} {rest : List Token} (closing : t.kind = close) :
    Closed item close (t :: rest) [] rest
  | items {ts rest : List Token} {as : List α} (all : Items item close ts as rest) :
    Closed item close ts as rest

/-- `variableList ::= ('[' (declaration (',' declaration)*)? ']')?` -/
inductive VarList : List Token → List Declaration → List Token → Prop
  | absent (rest : List Token) : VarList rest [] rest
  | present {t : Token} {ts rest : List Token} {ds : List Declaration}
    (opening : t.kind = .delimiter .openBracket)
    (inside : Closed Decl (.delimiter .closeBracket) ts ds rest) : VarList (t :: ts) ds rest

/-- `parameters ::= '(' (parameter (',' parameter)*)? ')'` -/
inductive Params : List Token → List Parameter → List Token → Prop
  | intro {t : Token} {ts rest : List Token} {ps : List Parameter}
    (opening : t.kind = .delimiter .openParen)
    (inside : Closed Param (.delimiter .closeParen) ts ps rest) : Params (t :: ts) ps rest

mutual

/-- `expression ::= literal | 'sizeof' '(' type ')' | '(' operator expression* ')' | NAME` -/
inductive Expr : List Token → Expression → List Token → Prop
  | integer {t : Token} {value : Int64} (rest : List Token) (kind : t.kind = .integer)
    (numeral : Numeral t.text value.toInt) :
    Expr (t :: rest) (.literal ⟨.integer value, t.loc⟩) rest
  | character {t : Token} (rest : List Token) (kind : t.kind = .character) :
    Expr (t :: rest) (.literal ⟨.character ((Text.bytes t.text).headD 0), t.loc⟩) rest
  | boolean {t : Token} (rest : List Token) (kind : t.kind = .boolean) :
    Expr (t :: rest) (.literal ⟨.boolean (t.text = "true"), t.loc⟩) rest
  | text {t : Token} (rest : List Token) (kind : t.kind = .text) :
    Expr (t :: rest) (.literal ⟨.text (Text.bytes t.text), t.loc⟩) rest
  | size {t u w : Token} {ts rest : List Token} {type : TypeAt} {size : Nat}
    (word : t.kind = .keyword .sizeof) (opening : u.kind = .delimiter .openParen)
    (typed : TypeName ts type (w :: rest)) (closing : w.kind = .delimiter .closeParen)
    (sized : type.ty.size? = some size) :
    Expr (t :: u :: ts) (.literal ⟨.integer (Int64.ofNat size), t.loc⟩) rest
  | var {t : Token} (rest : List Token) (kind : t.kind = .name) :
    Expr (t :: rest) (.var ⟨t.text, t.loc, none, none⟩) rest
  | operation {t u w : Token} {ts rest : List Token} {es : List Expression}
    (opening : t.kind = .delimiter .openParen) (operator : u.kind.isSign ∨ u.kind = .name)
    (operands : Operands ts es (w :: rest)) (closing : w.kind = .delimiter .closeParen) :
    Expr (t :: u :: ts) (.operation t.loc u es none none) rest

inductive Operands : List Token → List Expression → List Token → Prop
  | nil (rest : List Token) : Operands rest [] rest
  | cons {ts mid rest : List Token} {e : Expression} {es : List Expression}
    (first : Expr ts e mid) (others : Operands mid es rest) : Operands ts (e :: es) rest

end

mutual

/-- `statement ::= '{' statement* '}' | 'if' expression statement ('else' statement)? |
'while' expression statement | 'return' expression? | expression`

An `else` belongs to the nearest `if`, and `return` takes any expression that follows it. -/
inductive Stmt : List Token → Statement → List Token → Prop
  | block {t u : Token} {ts rest : List Token} {body : List Statement}
    (opening : t.kind = .delimiter .openBrace) (inside : Stmts ts body (u :: rest))
    (closing : u.kind = .delimiter .closeBrace) : Stmt (t :: ts) (.block t.loc body) rest
  | ifThen {t : Token} {ts mid rest : List Token} {condition : Expression} {yes : Statement}
    (word : t.kind = .keyword .if_) (test : Expr ts condition mid) (branch : Stmt mid yes rest)
    (alone : next? rest ≠ some (.keyword .else_)) :
    Stmt (t :: ts) (.ifThen t.loc condition yes) rest
  | ifThenElse {t u : Token} {ts mid after rest : List Token} {condition : Expression}
    {yes no : Statement} (word : t.kind = .keyword .if_) (test : Expr ts condition mid)
    (branch : Stmt mid yes (u :: after)) (other : u.kind = .keyword .else_)
    (branch' : Stmt after no rest) : Stmt (t :: ts) (.ifThenElse t.loc condition yes no) rest
  | loop {t : Token} {ts mid rest : List Token} {condition : Expression} {body : Statement}
    (word : t.kind = .keyword .while_) (test : Expr ts condition mid)
    (inside : Stmt mid body rest) : Stmt (t :: ts) (.loop t.loc condition body) rest
  | ret {t : Token} {rest : List Token} (word : t.kind = .keyword .return_)
    (alone : ∀ e rest', ¬Expr rest e rest') : Stmt (t :: rest) (.ret t.loc none) rest
  | retValue {t : Token} {ts rest : List Token} {value : Expression}
    (word : t.kind = .keyword .return_) (returned : Expr ts value rest) :
    Stmt (t :: ts) (.ret t.loc (some value)) rest
  | expression {ts rest : List Token} {e : Expression} (evaluated : Expr ts e rest) :
    Stmt ts (.expression e) rest

inductive Stmts : List Token → List Statement → List Token → Prop
  | nil (rest : List Token) : Stmts rest [] rest
  | cons {ts mid rest : List Token} {s : Statement} {ss : List Statement}
    (first : Stmt ts s mid) (others : Stmts mid ss rest) : Stmts ts (s :: ss) rest

end

/-- No two of the names that are declared together are the same; the table has them all. -/
def Table (entries : List (String × Nat × Symbol)) (table : SymbolTable) : Prop :=
  (entries.map Prod.fst).Nodup ∧ table = entries.map fun (name, _, symbol) => (name, symbol)

/-- `procedure ::= 'proc' type NAME parameters variableList statement | 'extern' type NAME
parameters` -/
inductive Proc : List Token → Procedure → List Token → Prop
  | internal {t u : Token} {ts afterName afterParams afterLocals rest : List Token}
    {returns : TypeAt} {ps : List Parameter} {locals : List Declaration} {body : Statement}
    {symbols : SymbolTable} (word : t.kind = .keyword .proc)
    (typed : TypeName ts returns (u :: afterName)) (name : u.kind = .name)
    (params : Params afterName ps afterParams) (vars : VarList afterParams locals afterLocals)
    (inside : Stmt afterLocals body rest) (table : Table (Procedure.entries ps locals) symbols) :
    Proc (t :: ts) ⟨u.text, u.loc, returns, ps, .internal locals body, symbols⟩ rest
  | external {t u : Token} {ts afterName rest : List Token} {returns : TypeAt}
    {ps : List Parameter} {symbols : SymbolTable} (word : t.kind = .keyword .extern_)
    (typed : TypeName ts returns (u :: afterName)) (name : u.kind = .name)
    (params : Params afterName ps rest) (table : Table (Procedure.entries ps []) symbols) :
    Proc (t :: ts) ⟨u.text, u.loc, returns, ps, .external, symbols⟩ rest

/-- Procedures up to the end of the input. -/
inductive Procs : List Token → List Procedure → Prop
  | nil : Procs [] []
  | cons {ts rest : List Token} {p : Procedure} {ps : List Procedure} (first : Proc ts p rest)
    (others : Procs rest ps) : Procs ts (p :: ps)

/-- `program ::= variableList procedure*` -/
inductive Derives : List Token → Program → Prop
  | intro {ts rest : List Token} {globals : List Declaration} {procedures : List Procedure}
    {globalTable procedureTable : SymbolTable} (vars : VarList ts globals rest)
    (procs : Procs rest procedures)
    (globalNames : Table (globals.zipIdx.map fun (d, i) => (d.name, d.loc, .var (.global i)))
      globalTable)
    (procedureNames : Table (procedures.zipIdx.map fun (p, i) => (p.name, p.loc, .procedure i))
      procedureTable) : Derives ts ⟨globals, procedures, globalTable, procedureTable⟩

end ProcLang.Grammar
