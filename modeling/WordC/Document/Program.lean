import WordC.Document.Basic
import WordC.Listing
import WordC.Stmt
import WordC.Token.Basic

/-!
# Tokens, trees and listings as documents

How the results of the stages describe themselves: the names of the fields and of the variants, in
the order in which they are written.
-/

namespace WordC
open Document

/-- The record of a node: what it is and where. -/
def nodeDocument (kind pos : Document) : Document := .record [("kind", kind), ("pos", pos)]

/-- A position: file, row and column. -/
def Position.document (p : Position) : Document :=
  .record [("file", .text p.file), ("row", .number p.row), ("col", .number p.column)]

/-! ### Tokens -/

/-- A kind of token: its name, and the value of a literal. -/
def Token.Kind.document : Token.Kind → Document
  | .number value => .tagged "Number" (.number value.toNat)
  | .character code => .tagged "Char" (.number code.toNat)
  | kind => .text kind.name

/-- A token: kind, text and position. -/
def Token.document (t : Token) : Document :=
  .record [("kind", t.kind.document), ("text", .text t.text), ("pos", t.pos.document)]

/-! ### Types -/

/-- A base type. -/
def Base.document : Base → Document
  | .void => .text "Void"
  | .int => .text "Int"
  | .char => .text "Char"

/-- An element type. -/
def Elem.document : Elem → Document
  | .int => .text "Int"
  | .char => .text "Char"
  | .pointer base => .tagged "Ptr" base.document

/-- A type. -/
def Ty.document : Ty → Document
  | .void => .text "Void"
  | .int => .text "Int"
  | .char => .text "Char"
  | .pointer base => .tagged "Ptr" base.document
  | .array elem count => .tagged "Array" (.seq [elem.document, .number count])

/-! ### Expressions -/

/-- The name of a logical operator. -/
def LogicalOp.document : LogicalOp → Document
  | .and => .text "And"
  | .or => .text "Or"

/-- The name of an operator with one operand. -/
def UnaryOp.document : UnaryOp → Document
  | .not => .text "Not"
  | .neg => .text "Neg"
  | .deref => .text "Deref"

/-- The name of an operator with two operands. -/
def BinaryOp.document : BinaryOp → Document
  | .add => .text "Add"
  | .sub => .text "Sub"
  | .mul => .text "Mul"
  | .div => .text "Div"
  | .eq => .text "Eq"
  | .ne => .text "Ne"
  | .lt => .text "Lt"
  | .le => .text "Le"
  | .gt => .text "Gt"
  | .ge => .text "Ge"

mutual

/-- An expression: a node tagged with its form. -/
def Expr.document : Expr → Document
  | .assign pos target value =>
    nodeDocument (.tagged "Assign" (.seq [target.document, value.document])) pos.document
  | .logical pos op operands =>
    nodeDocument (.tagged "Logical" (.seq [op.document, .seq (exprDocuments operands)]))
      pos.document
  | .binary pos op left right =>
    nodeDocument (.tagged "Binary" (.seq [op.document, left.document, right.document]))
      pos.document
  | .unary pos op operand =>
    nodeDocument (.tagged "Unary" (.seq [op.document, operand.document])) pos.document
  | .call pos callee args =>
    nodeDocument (.tagged "Call" (.seq [callee.document, .seq (exprDocuments args)])) pos.document
  | .name pos x => nodeDocument (.tagged "Ident" (.text x)) pos.document
  | .number pos value => nodeDocument (.tagged "NumberLit" (.number value.toNat)) pos.document
  | .text pos content => nodeDocument (.tagged "StringLit" (.text content)) pos.document
  | .character pos code => nodeDocument (.tagged "CharLit" (.number code.toNat)) pos.document
  | .bool pos value => nodeDocument (.tagged "BoolLit" (.bool value)) pos.document

/-- Expressions, one by one. -/
def exprDocuments : List Expr → List Document
  | [] => []
  | e :: es => e.document :: exprDocuments es

end

/-! ### Statements -/

/-- A parameter: the pair of its name and type. -/
def Param.document (param : Param) : Document := .seq [.text param.name, param.ty.document]

/-- The declaration of a variable; the initial value may be missing. -/
def Variable.document (decl : Variable) : Document :=
  .record [("name", .text decl.name), ("ty", decl.ty.document), ("constant", .bool decl.constant),
    ("init", .ofOption (decl.init.map Expr.document))]

/-- A function with its body, which is null for a prototype. -/
def Signature.document (head : Signature) (body : Document) : Document :=
  .record [("name", .text head.name), ("ret", head.result.document),
    ("params", .seq (head.params.map Param.document)), ("body", body)]

mutual

/-- A statement: a node tagged with its form. -/
def Stmt.document : Stmt → Document
  | .var pos decl => nodeDocument (.tagged "Var" decl.document) pos.document
  | .prototype pos head => nodeDocument (.tagged "Func" (head.document .null)) pos.document
  | .function pos head body =>
    nodeDocument (.tagged "Func" (head.document body.document)) pos.document
  | .block pos items =>
    nodeDocument (.tagged "Block" (.seq (stmtDocuments items))) pos.document
  | .expr pos value => nodeDocument (.tagged "Expr" value.document) pos.document
  | .ifThen pos cond yes =>
    nodeDocument (.tagged "If" (.seq [cond.document, yes.document, .null])) pos.document
  | .ifElse pos cond yes no =>
    nodeDocument (.tagged "If" (.seq [cond.document, yes.document, no.document])) pos.document
  | .whileLoop pos cond body =>
    nodeDocument (.tagged "While" (.seq [cond.document, body.document])) pos.document
  | .forLoop pos init cond step body =>
    nodeDocument (.tagged "For" (.record [("init", .ofOption (init.map Expr.document)),
      ("cond", .ofOption (cond.map Expr.document)), ("step", .ofOption (step.map Expr.document)),
      ("body", body.document)])) pos.document
  | .ret pos value =>
    nodeDocument (.tagged "Return" (.ofOption (value.map Expr.document))) pos.document

/-- Statements, one by one. -/
def stmtDocuments : List Stmt → List Document
  | [] => []
  | s :: ss => s.document :: stmtDocuments ss

end

/-! ### Listings -/

/-- The name of a register. -/
def Register.document (r : Register) : Document := .text r.name

/-- The name of a flag. -/
def Flag.document : Flag → Document
  | .equal => .text "Equal"
  | .lessEqual => .text "LessEq"

/-- A place in memory. -/
def Address.document : Address → Document
  | .frame offset => .tagged "Frame" (.integer offset.toInt)
  | .register r => .tagged "Reg" r.document
  | .label name => .tagged "Label" (.text name)

/-- An operand, tagged with its form. -/
def Operand.document : Operand → Document
  | .register r => .tagged "Reg" r.document
  | .immediate value => .tagged "Imm" (.number value.toNat)
  | .label name => .tagged "Label" (.text name)
  | .memory address => .tagged "Mem" address.document

/-- An instruction: its operands, tagged with its name. -/
def Instruction.document : Instruction → Document
  | .push r => .tagged "PUSH" r.document
  | .pop r => .tagged "POP" r.document
  | .mov target source => .tagged "MOV" (.seq [target.document, source.document])
  | .add target source => .tagged "ADD" (.seq [target.document, source.document])
  | .sub target source => .tagged "SUB" (.seq [target.document, source.document])
  | .mul target source => .tagged "MUL" (.seq [target.document, source.document])
  | .div target source => .tagged "DIV" (.seq [target.document, source.document])
  | .cmp left right => .tagged "CMP" (.seq [left.document, right.document])
  | .flg target flag => .tagged "FLG" (.seq [target.document, flag.document])
  | .call target => .tagged "CALL" target.document
  | .jmp label => .tagged "JMP" (.text label)
  | .jnz source label => .tagged "JNZ" (.seq [source.document, .text label])
  | .ret => .tagged "RET" (.seq [])

/-- A line, tagged with its form. -/
def Line.document : Line → Document
  | .label name => .tagged "Label" (.text name)
  | .instruction i => .tagged "Inst" i.document
  | .reserve bytes => .tagged "Reserve" (.number bytes)
  | .string content => .tagged "Str" (.text content)

/-- A listing: the name of its source and its lines. -/
def Listing.document (listing : Listing) : Document :=
  .record [("source", .text listing.source), ("lines", .seq (listing.lines.map Line.document))]

end WordC
