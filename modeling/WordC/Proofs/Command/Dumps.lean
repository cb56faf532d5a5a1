import WordC.Command.Run
import WordC.Proofs.Labels.Lines

/-!
# What can be dumped

A document is written unless it has a tag right inside a tag (`Document.IsWritable`). The documents
of tokens and of trees have no such place, whatever the tokens and the tree are. In the document of
a listing every instruction is one: it is tagged with its name, and the line with its form. So a
listing is written exactly if it has no instruction.

`Command.result_produce` says what comes out of a source, whatever is shown on the way: what
compiling it gives, except that a dump of a listing with instructions ends it.
-/

namespace WordC

namespace Document

/-- The document has no tag right inside a tag. -/
def IsWritable (d : Document) : Prop := d.layout?.isSome

/-- The value has a tag in front. -/
def isTagged : Document → Bool
  | .tagged _ _ => true
  | _ => false

@[simp] theorem isTagged_bool (value : Bool) : isTagged (.bool value) = false := rfl
@[simp] theorem isTagged_number (value : Nat) : isTagged (.number value) = false := rfl
@[simp] theorem isTagged_text (value : String) : isTagged (.text value) = false := rfl
@[simp] theorem isTagged_seq (ds : List Document) : isTagged (.seq ds) = false := rfl

@[simp] theorem isTagged_record (fs : List (String × Document)) :
    isTagged (.record fs) = false := rfl

theorem isSome_yaml? (d : Document) : d.yaml?.isSome ↔ d.IsWritable := by
  rw [yaml?, Option.isSome_map, IsWritable]

@[simp] theorem isWritable_null : IsWritable .null := rfl
@[simp] theorem isWritable_bool (value : Bool) : IsWritable (.bool value) := rfl
@[simp] theorem isWritable_number (value : Nat) : IsWritable (.number value) := rfl
@[simp] theorem isWritable_text (value : String) : IsWritable (.text value) := rfl

theorem isSome_itemLines? (ds : List Document) :
    (itemLines? ds).isSome ↔ ∀ d ∈ ds, d.IsWritable := by
  induction ds with
  | nil => simp [itemLines?]
  | cons d ds ih =>
    rw [List.forall_mem_cons, ← ih, IsWritable, itemLines?]
    cases d.layout? <;> cases itemLines? ds <;> simp

theorem isSome_fieldLines? (fs : List (String × Document)) :
    (fieldLines? fs).isSome ↔ ∀ f ∈ fs, f.2.IsWritable := by
  induction fs with
  | nil => simp [fieldLines?]
  | cons f fs ih =>
    obtain ⟨key, d⟩ := f
    rw [List.forall_mem_cons, ← ih, IsWritable, fieldLines?]
    cases d.layout? <;> cases fieldLines? fs <;> simp

@[simp] theorem isWritable_seq (ds : List Document) :
    IsWritable (.seq ds) ↔ ∀ d ∈ ds, d.IsWritable := by
  cases ds with
  | nil => simp [IsWritable, layout?]
  | cons d ds => rw [IsWritable, layout?, Option.isSome_map, isSome_itemLines?]

@[simp] theorem isWritable_record (fs : List (String × Document)) :
    IsWritable (.record fs) ↔ ∀ f ∈ fs, f.2.IsWritable := by
  cases fs with
  | nil => simp [IsWritable, layout?]
  | cons f fs => rw [IsWritable, layout?, Option.isSome_map, isSome_fieldLines?]

@[simp] theorem isWritable_tagged (name : String) (d : Document) :
    IsWritable (.tagged name d) ↔ d.isTagged = false ∧ d.IsWritable := by
  cases d <;> simp [IsWritable, layout?, isTagged]

end Document

open Document

/-! ### Tokens and trees -/

@[simp] theorem Position.isWritable_document (p : Position) : p.document.IsWritable := by
  simp [document]

@[simp] theorem isWritable_nodeDocument (kind : Document) (p : Position) :
    (nodeDocument kind p.document).IsWritable ↔ kind.IsWritable := by
  simp [nodeDocument]

theorem Token.isWritable_document (t : Token) : t.document.IsWritable := by
  have hkind : t.kind.document.IsWritable := by
    cases t.kind <;> simp [Kind.document]
  simp [document, hkind]

@[simp] theorem Ty.isWritable_document (ty : Ty) : ty.document.IsWritable := by
  have hbase : ∀ base : Base, (Document.tagged "Ptr" base.document).IsWritable := by
    intro base
    cases base <;> simp [Base.document]
  cases ty with
  | void | int | char => exact isWritable_text _
  | pointer base => exact hbase base
  | array elem count =>
    have helem : elem.document.IsWritable := by
      cases elem with
      | int | char => exact isWritable_text _
      | pointer base => exact hbase base
    simp [document, helem]

/-- The document of an expression is a record. -/
@[simp] theorem Expr.isTagged_document (e : Expr) : e.document.isTagged = false := by
  cases e <;> simp [document, nodeDocument]

mutual

theorem Expr.isWritable_document : ∀ e : Expr, e.document.IsWritable
  | .assign _ target value => by
    simp [Expr.document, target.isWritable_document, value.isWritable_document]
  | .logical _ op operands => by
    have hop : op.document.IsWritable := by cases op <;> exact isWritable_text _
    simpa [Expr.document, hop] using isWritable_exprDocuments operands
  | .binary _ op left right => by
    have hop : op.document.IsWritable := by cases op <;> exact isWritable_text _
    simp [Expr.document, hop, left.isWritable_document, right.isWritable_document]
  | .unary _ op operand => by
    have hop : op.document.IsWritable := by cases op <;> exact isWritable_text _
    simp [Expr.document, hop, operand.isWritable_document]
  | .call _ callee args => by
    simpa [Expr.document, callee.isWritable_document] using isWritable_exprDocuments args
  | .name .. | .number .. | .text .. | .character .. | .bool .. => by simp [Expr.document]

theorem isWritable_exprDocuments : ∀ es : List Expr, ∀ d ∈ exprDocuments es, d.IsWritable
  | [] => by simp [exprDocuments]
  | e :: es => by
    rw [exprDocuments, List.forall_mem_cons]
    exact ⟨e.isWritable_document, isWritable_exprDocuments es⟩

end

/-- An expression that may be missing is a record or null. -/
theorem Expr.isWritable_document? (e : Option Expr) :
    (ofOption (e.map Expr.document)).isTagged = false ∧
      (ofOption (e.map Expr.document)).IsWritable := by
  cases e with
  | none => exact ⟨rfl, isWritable_null⟩
  | some e => exact ⟨e.isTagged_document, e.isWritable_document⟩

theorem Variable.isWritable_document (decl : Variable) : decl.document.IsWritable := by
  simp [document, (Expr.isWritable_document? decl.init).2]

theorem Signature.isWritable_document (head : Signature) {body : Document}
    (h : body.IsWritable) : (head.document body).IsWritable := by
  have hparams : ∀ param ∈ head.params, param.document.IsWritable := by
    intro param _
    simp [Param.document]
  simpa [document, h] using hparams

mutual

theorem Stmt.isWritable_document : ∀ stmt : Stmt, stmt.document.IsWritable
  | .var _ decl => by
    simpa [Stmt.document, Variable.document] using decl.isWritable_document
  | .prototype _ head => by
    simpa [Stmt.document, Signature.document] using head.isWritable_document isWritable_null
  | .function _ head body => by
    simpa [Stmt.document, Signature.document] using
      head.isWritable_document body.isWritable_document
  | .block _ items => by
    simpa [Stmt.document] using isWritable_stmtDocuments items
  | .expr _ e => by simp [Stmt.document, e.isWritable_document]
  | .ifThen _ cond yes => by
    simp [Stmt.document, cond.isWritable_document, yes.isWritable_document]
  | .ifElse _ cond yes no => by
    simp [Stmt.document, cond.isWritable_document, yes.isWritable_document,
      no.isWritable_document]
  | .whileLoop _ cond body => by
    simp [Stmt.document, cond.isWritable_document, body.isWritable_document]
  | .forLoop _ init cond step body => by
    simp [Stmt.document, Expr.isWritable_document?, body.isWritable_document]
  | .ret _ value => by simp [Stmt.document, Expr.isWritable_document?]

theorem isWritable_stmtDocuments : ∀ items : List Stmt, ∀ d ∈ stmtDocuments items, d.IsWritable
  | [] => by simp [stmtDocuments]
  | item :: items => by
    rw [stmtDocuments, List.forall_mem_cons]
    exact ⟨item.isWritable_document, isWritable_stmtDocuments items⟩

end

/-! ### Listings -/

/-- There is an instruction among the lines of the listing. -/
def Listing.hasInstruction (listing : Listing) : Bool := listing.lines.any Line.isInstruction

theorem Instruction.isTagged_document (i : Instruction) : i.document.isTagged = true := by
  cases i <;> rfl

theorem Line.isWritable_document (line : Line) :
    line.document.IsWritable ↔ line.isInstruction = false := by
  cases line <;> simp [document, isInstruction, Instruction.isTagged_document]

theorem Listing.isWritable_document (listing : Listing) :
    listing.document.IsWritable ↔ listing.hasInstruction = false := by
  simp [document, hasInstruction, Line.isWritable_document]

/-! ### From source to listing -/

namespace Command

variable {α β : Type}

namespace Progress

@[simp] theorem result_pure (a : α) : (pure a : Progress α).result = .ok a := rfl

@[simp] theorem result_bind (x : Progress α) (f : α → Progress β) :
    (x >>= f).result = x.result.bind fun a => (f a).result := by
  change (Progress.bind x f).result = _
  unfold Progress.bind
  cases x.result <;> rfl

@[simp] theorem result_ofExcept (x : Except Diagnostic α) :
    (ofExcept x).result = x.mapError Fault.source := by
  cases x <;> rfl

end Progress

@[simp] theorem result_tell (asked : Bool) (lines : List String) :
    (tell asked lines).result = .ok () := by
  cases asked <;> rfl

theorem result_dump_of_isWritable (asked : Bool) {d : Document} (h : d.IsWritable) :
    (dump asked d).result = .ok () := by
  cases asked with
  | false => rfl
  | true =>
    obtain ⟨text, htext⟩ := Option.isSome_iff_exists.1 (d.isSome_yaml?.2 h)
    simp [dump, htext, Progress.display]

/-- A dump of a listing ends the command if there is an instruction. -/
theorem result_dump_listing (asked : Bool) (listing : Listing) :
    (dump asked listing.document).result =
      if asked && listing.hasInstruction then .error .nestedVariants else .ok () := by
  cases hi : listing.hasInstruction with
  | false => simpa using result_dump_of_isWritable asked (listing.isWritable_document.2 hi)
  | true =>
    cases asked with
    | false => rfl
    | true =>
      have hnone : listing.document.yaml? = none := by
        rw [← Option.not_isSome_iff_eq_none, isSome_yaml?, listing.isWritable_document, hi]
        simp
      simp [dump, hnone, Progress.stop]

/-- What comes out of a source is what compiling it gives, unless a listing with instructions is to
be dumped. -/
theorem result_produce (options : Options) (source : String) :
    (produce options source).result =
      match compile options.input source with
      | .error d => .error (.source d)
      | .ok listing =>
        if options.dumps .code && listing.hasInstruction then .error .nestedVariants
        else .ok listing.text := by
  unfold produce compile
  cases htokens : Token.ofSource options.input source with
  | error d => simp [Except.mapError, Except.bind]
  | ok tokens =>
    -- tokens and trees can always be dumped, so these steps only show something
    have hdump :
        (dump (options.dumps .tokens) (.seq (tokens.map Token.document))).result = .ok () :=
      result_dump_of_isWritable _ (by simp [Token.isWritable_document])
    cases hprogram : Program.ofTokens tokens with
    | error d => simp [hdump, hprogram, Except.mapError, Except.bind]
    | ok program =>
      have htree : (dump (options.dumps .tree) (.seq (stmtDocuments program))).result = .ok () :=
        result_dump_of_isWritable _ (by simpa using isWritable_stmtDocuments program)
      cases hlisting : Listing.ofProgram options.input program with
      | error d => simp [hdump, htree, hprogram, hlisting, Except.mapError, Except.bind]
      | ok listing =>
        simp only [Progress.result_bind, result_tell, Progress.result_ofExcept, hdump, htree,
          hprogram, hlisting, Except.mapError, Except.bind, result_dump_listing,
          Progress.result_pure]
        cases options.dumps .code && listing.hasInstruction <;> rfl

end Command

end WordC
