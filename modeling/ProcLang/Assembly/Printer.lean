import ProcLang.Assembly.Instruction

/-! Assembly text. Procedures carry a dollar sign, so that their names are never taken for registers
or instructions. Labels inside a procedure start with a dot, and data labels hold a dollar sign, so
that no name of the program spells them. -/
namespace ProcLang.Assembly

def Register.text : Register → String
  | .rax => "rax"
  | .rcx => "rcx"
  | .rdx => "rdx"
  | .rdi => "rdi"
  | .rsi => "rsi"
  | .r8 => "r8"
  | .r9 => "r9"
  | .r10 => "r10"
  | .rsp => "rsp"
  | .rbp => "rbp"

def Label.text : Label → String
  | .procedure name => s!"${name}"
  | .exit => ".return"
  | .afterIf loc => s!".POST_IF_{loc}"
  | .elseBranch loc => s!".ELSE_START_{loc}"
  | .afterIfElse loc => s!".POST_IF_ELSE_{loc}"
  | .loopStart loc => s!".WHILE_START_{loc}"
  | .afterLoop loc => s!".POST_WHILE_{loc}"
  | .global name => s!"{name}$global"
  | .character loc => s!"char${loc}"
  | .string loc => s!"string${loc}"

def Address.text : Address → String
  | .frame offset => s!"[rbp + {offset}]"
  | .data label => s!"[rel {label.text}]"
  | .pointer => "[rcx]"

def BinaryOp.text : BinaryOp → String
  | .add => "add rax, rcx"
  | .sub => "sub rax, rcx"
  | .imul => "imul rax, rcx"
  | .and => "and rax, rcx"
  | .or => "or rax, rcx"
  | .xor => "xor rax, rcx"
  | .sal => "sal rax, cl"
  | .sar => "sar rax, cl"

def UnaryOp.text : UnaryOp → String
  | .neg => "neg rax"
  | .not => "not rax"
  | .flip => "xor rax, 1"

def Comparison.text : Comparison → String
  | .equal => "sete al"
  | .notEqual => "setne al"
  | .less => "setl al"
  | .lessEqual => "setle al"
  | .greater => "setg al"
  | .greaterEqual => "setge al"

def Instruction.text : Instruction → String
  | .push r => s!"push {r.text}"
  | .pushValue value => s!"push {value}"
  | .pushZero => "push qword 0"
  | .pop r => s!"pop {r.text}"
  | .move target source => s!"mov {target.text}, {source.text}"
  | .moveValue target value => s!"mov {target.text}, {value}"
  | .load width address => s!"mov {width.accumulator}, {width.annotation} {address.text}"
  | .store width => s!"mov {width.annotation} {Address.pointer.text}, {width.accumulator}"
  | .loadAddress address => s!"lea rax, {address.text}"
  | .clear => "xor rax, rax"
  | .binary op => op.text
  | .unary op => op.text
  | .extendSign => "cqo"
  | .divide => "idiv rcx"
  | .compare => "cmp rdx, rcx"
  | .set c => c.text
  | .test => "cmp rax, 0"
  | .jumpIfEqual target => s!"je {target.text}"
  | .jump target => s!"jmp {target.text}"
  | .call target => s!"call {target.text}"
  | .drop bytes => s!"add rsp, {bytes}"
  | .alignStack => "and rsp, -16"
  | .extendByte => "movzx rax, al"
  | .ret => "ret"

def Line.text : Line → String
  | .label l => s!"{l.text}:\n"
  | .instruction i => s!"    {i.text}\n"

def Datum.text (d : Datum) : String :=
  s!"{d.label.text}: {d.width.directive} " ++ ", ".intercalate (d.values.map toString) ++ "\n"

/-- The whole text: the entry point, what is linked in, the code and the data. -/
def text (a : Assembly) : String :=
  "global main\n" ++
  String.join (a.externals.map fun name => s!"extern {(Label.procedure name).text}\n") ++
  "\nsection .text\n" ++
  String.join (a.procedures.flatten.map Line.text) ++
  "\nsection .data\n" ++
  String.join (a.data.map Datum.text)

end ProcLang.Assembly
