import StackScript.Tree.Grammar

/-!
# Places in trees
-/

namespace StackScript

/-! ## Places in a tree -/

mutual

/-- The places of a written type and of all types in it. -/
def TypeExpr.spans : TypeExpr → List Span
  | ⟨form, span⟩ => span :: form.spans

def TypeForm.spans : TypeForm → List Span
  | .named _ => []
  | .array elem => elem.spans
  | .result ok err => ok.spans ++ err.spans
  | .promise inner => inner.spans
  | .fn params ret => typeSpans params ++ ret.spans

def typeSpans : List TypeExpr → List Span
  | [] => []
  | t :: ts => t.spans ++ typeSpans ts

end

mutual

/-- The places of a pattern and of all patterns in it. -/
def Pattern.spans : Pattern → List Span
  | ⟨form, span⟩ => span :: form.spans

def PatternForm.spans : PatternForm → List Span
  | .variant _ _ (some payload) => payload.spans
  | _ => []

end

def Param.spans (p : Param) : List Span :=
  p.span :: p.ty.spans

mutual

/-- The places of an expression and of everything in it. -/
@[simp] def Expr.spans : Expr → List Span
  | ⟨_, form, span⟩ => span :: form.spans

@[simp] def ExprForm.spans : ExprForm → List Span
  | .int _ | .float _ | .bool _ | .str _ | .bytes _ | .ident _ | .path _ _ => []
  | .interp parts => partSpans parts
  | .binary _ lhs rhs => lhs.spans ++ rhs.spans
  | .unary _ e => e.spans
  | .cast e ty => e.spans ++ ty.spans
  | .call callee args => callee.spans ++ exprSpans args
  | .methodCall receiver _ args => receiver.spans ++ exprSpans args
  | .field object _ => object.spans
  | .index object position => object.spans ++ position.spans
  | .await e => e.spans
  | .try_ e => e.spans
  | .outcome _ e => e.spans
  | .array es => exprSpans es
  | .structLit _ fields => fieldSpans fields
  | .match_ scrutinee arms => scrutinee.spans ++ armSpans arms
  | .lambda params ret body => params.flatMap Param.spans ++ ret.toList.flatMap TypeExpr.spans ++ body.spans
  | .block b => b.spans

@[simp] def exprSpans : List Expr → List Span
  | [] => []
  | e :: es => e.spans ++ exprSpans es

@[simp] def partSpans : List InterpPart → List Span
  | [] => []
  | .text _ :: ps => partSpans ps
  | .expr e :: ps => e.spans ++ partSpans ps

@[simp] def fieldSpans : List FieldInit → List Span
  | [] => []
  | ⟨_, e, span⟩ :: fs => span :: (e.spans ++ fieldSpans fs)

@[simp] def armSpans : List MatchArm → List Span
  | [] => []
  | ⟨p, e, span⟩ :: as => span :: (p.spans ++ e.spans ++ armSpans as)

@[simp] def LambdaBody.spans : LambdaBody → List Span
  | .expr e => e.spans
  | .block b => b.spans

@[simp] def Block.spans : Block → List Span
  | ⟨ss, span⟩ => span :: stmtSpans ss

@[simp] def stmtSpans : List Stmt → List Span
  | [] => []
  | s :: ss => s.spans ++ stmtSpans ss

/-- The places of a statement and of everything in it. -/
@[simp] def Stmt.spans : Stmt → List Span
  | ⟨form, span⟩ => span :: form.spans

@[simp] def StmtForm.spans : StmtForm → List Span
  | .let_ _ _ _ ty init => ty.toList.flatMap TypeExpr.spans ++ init.spans
  | .assign target _ value => target.spans ++ value.spans
  | .if_ cond thenBlock none => cond.spans ++ thenBlock.spans
  | .if_ cond thenBlock (some elseBlock) => cond.spans ++ thenBlock.spans ++ elseBlock.spans
  | .while_ cond body => cond.spans ++ body.spans
  | .for_ _ _ iterable body => iterable.spans ++ body.spans
  | .break_ | .continue_ => []
  | .return_ none => []
  | .return_ (some e) => e.spans
  | .expr e => e.spans
  | .block b => b.spans

end

def FunctionDecl.spans (d : FunctionDecl) : List Span :=
  d.span :: (d.params.flatMap Param.spans ++ d.ret.toList.flatMap TypeExpr.spans ++ d.body.toList.flatMap Block.spans)

def FieldDecl.spans (d : FieldDecl) : List Span :=
  d.span :: d.ty.spans

def VariantDecl.spans (d : VariantDecl) : List Span :=
  d.span :: d.payload.toList.flatMap TypeExpr.spans

/-- The places of an item and of everything in it. -/
def Item.spans : Item → List Span
  | .function d => d.spans
  | .struct d => d.span :: (d.fields.flatMap FieldDecl.spans ++ d.methods.flatMap FunctionDecl.spans)
  | .enum d => d.span :: d.variants.flatMap VariantDecl.spans
  | .stmt s => s.spans

/-- The places of a program and of everything in it. -/
def Program.spans (p : Program) : List Span :=
  p.span :: p.items.flatMap Item.spans

/-! ### Lists -/

theorem typeSpans_eq (ts : List TypeExpr) : typeSpans ts = ts.flatMap TypeExpr.spans := by
  induction ts with
  | nil => rfl
  | cons t ts ih => rw [typeSpans, ih, List.flatMap_cons]

theorem exprSpans_eq (es : List Expr) : exprSpans es = es.flatMap Expr.spans := by
  induction es with
  | nil => rfl
  | cons e es ih => rw [exprSpans, ih, List.flatMap_cons]

theorem stmtSpans_eq (ss : List Stmt) : stmtSpans ss = ss.flatMap Stmt.spans := by
  induction ss with
  | nil => rfl
  | cons s ss ih => rw [stmtSpans, ih, List.flatMap_cons]

def FieldInit.spans (f : FieldInit) : List Span :=
  f.span :: f.value.spans

theorem fieldSpans_eq (fs : List FieldInit) : fieldSpans fs = fs.flatMap FieldInit.spans := by
  induction fs with
  | nil => rfl
  | cons f fs ih =>
    obtain ⟨name, value, span⟩ := f
    rw [fieldSpans, ih, List.flatMap_cons, FieldInit.spans, List.cons_append]

def MatchArm.spans (a : MatchArm) : List Span :=
  a.span :: (a.pattern.spans ++ a.body.spans)

theorem armSpans_eq (as : List MatchArm) : armSpans as = as.flatMap MatchArm.spans := by
  induction as with
  | nil => rfl
  | cons a as ih =>
    obtain ⟨pattern, body, span⟩ := a
    rw [armSpans, ih, List.flatMap_cons, MatchArm.spans, List.cons_append]

@[simp] theorem partSpans_ofText_append (s : String) (parts : List InterpPart) :
    partSpans (InterpPart.ofText s ++ parts) = partSpans parts := by
  unfold InterpPart.ofText
  split
  · rfl
  · rw [List.singleton_append, partSpans]

/-! ### Good places -/

section

variable {P : Span → Prop} {α : Type}

/-- All places in a list are good. -/
def AllGood (P : Span → Prop) (spans : List Span) : Prop :=
  ∀ s ∈ spans, P s

@[simp] theorem allGood_nil : AllGood P [] := nofun

@[simp] theorem allGood_cons {s : Span} {spans : List Span} : AllGood P (s :: spans) ↔ P s ∧ AllGood P spans :=
  List.forall_mem_cons

@[simp] theorem allGood_append {spans spans' : List Span} :
    AllGood P (spans ++ spans') ↔ AllGood P spans ∧ AllGood P spans' :=
  List.forall_mem_append

@[simp] theorem allGood_flatMap {as : List α} {f : α → List Span} :
    AllGood P (as.flatMap f) ↔ ∀ a ∈ as, AllGood P (f a) :=
  List.forall_mem_flatMap

end

end StackScript
