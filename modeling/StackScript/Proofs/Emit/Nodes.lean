import StackScript.Emit.Program
import StackScript.Proofs.Steps
import StackScript.Proofs.Typing.Flow

/-!
# The expressions of a tree
-/

namespace StackScript

namespace Typed

mutual

/-- An expression and all expressions in it, those of function literals included. -/
def Expr.nodes : Expr → List Expr
  | ⟨id, ty, form⟩ => ⟨id, ty, form⟩ :: form.nodes

/-- The expressions in a form. -/
def Form.nodes : Form → List Expr
  | .int _ | .float _ | .bool _ | .str _ | .bytes _ => []
  | .local_ _ | .captured _ | .function _ | .unit _ _ => []
  | .interp parts => partNodes parts
  | .binary _ lhs rhs => lhs.nodes ++ rhs.nodes
  | .unary _ e => e.nodes
  | .cast e => e.nodes
  | .call _ args => exprNodes args
  | .method _ _ receiver args => receiver.nodes ++ exprNodes args
  | .indirect callee args => callee.nodes ++ exprNodes args
  | .variant _ _ none => []
  | .variant _ _ (some e) => e.nodes
  | .push receiver value => receiver.nodes ++ value.nodes
  | .pop e => e.nodes
  | .arrayLength e => e.nodes
  | .byteLength e => e.nodes
  | .field e _ => e.nodes
  | .index e i => e.nodes ++ i.nodes
  | .await e => e.nodes
  | .try_ e => e.nodes
  | .outcome _ e => e.nodes
  | .array es => exprNodes es
  | .structLit _ fields => initNodes fields
  | .match_ e arms => e.nodes ++ armNodes arms
  | .lambda _ _ (.expr e) => e.nodes
  | .lambda _ _ (.block ss) => stmtNodes ss
  | .block ss => stmtNodes ss

/-- All expressions in expressions. -/
def exprNodes : List Expr → List Expr
  | [] => []
  | e :: es => e.nodes ++ exprNodes es

/-- All expressions in the pieces of a string. -/
def partNodes : List Part → List Expr
  | [] => []
  | .text _ :: ps => partNodes ps
  | .expr e :: ps => e.nodes ++ partNodes ps

/-- All expressions in field values. -/
def initNodes : List Init → List Expr
  | [] => []
  | ⟨_, _, e⟩ :: fs => e.nodes ++ initNodes fs

/-- All expressions in arms. -/
def armNodes : List Arm → List Expr
  | [] => []
  | ⟨_, e⟩ :: as => e.nodes ++ armNodes as

/-- All expressions in statements. -/
def stmtNodes : List Stmt → List Expr
  | [] => []
  | s :: ss => s.nodes ++ stmtNodes ss

/-- All expressions in a statement. -/
def Stmt.nodes : Stmt → List Expr
  | .let_ _ _ e => e.nodes
  | .assign t _ e => t.nodes ++ e.nodes
  | .if_ c t none => c.nodes ++ stmtNodes t
  | .if_ c t (some e) => c.nodes ++ stmtNodes t ++ stmtNodes e
  | .while_ c b => c.nodes ++ stmtNodes b
  | .for_ _ _ e b => e.nodes ++ stmtNodes b
  | .break_ | .continue_ => []
  | .return_ none => []
  | .return_ (some e) => e.nodes
  | .expr e => e.nodes
  | .block ss => stmtNodes ss

end

/-- All expressions in the body of a function literal. -/
def Body.nodes : Body → List Expr
  | .expr e => e.nodes
  | .block ss => stmtNodes ss

/-- All expressions of a program. -/
def Program.nodes (p : Program) : List Expr :=
  p.routines.flatMap (stmtNodes ·.body) ++ stmtNodes p.script

@[simp] theorem Form.nodes_lambda (params captures : List Variable) (body : Body) :
    (Form.lambda params captures body).nodes = body.nodes := by
  cases body <;> simp only [Form.nodes, Body.nodes]

/-! ## Literals -/

/-- An array literal of which the size has 32 bits when it has room for `capacity` elements; any other
expression. -/
def Expr.LiteralFits (capacity : Nat) (e : Expr) : Prop :=
  ∀ es, e.form = .array es → Layout.arrayHeader + Layout.word * max es.length capacity < Layout.addressLimit

/-- Whether an expression is a function literal. -/
def Expr.isLambda (e : Expr) : Bool :=
  match e.form with
  | .lambda _ _ _ => true
  | _ => false

/-- The number of function literals. -/
def lambdaCount (es : List Expr) : Nat :=
  es.countP Expr.isLambda

@[simp] theorem lambdaCount_append (es fs : List Expr) : lambdaCount (es ++ fs) = lambdaCount es + lambdaCount fs :=
  List.countP_append

theorem lambdaCount_cons (e : Expr) (es : List Expr) :
    lambdaCount (e :: es) = lambdaCount es + if e.isLambda then 1 else 0 :=
  List.countP_cons

/-- The numbers of function literals. -/
def literalIds (es : List Expr) : List Nat :=
  (es.filter Expr.isLambda).map (·.id)

@[simp] theorem literalIds_append (es fs : List Expr) : literalIds (es ++ fs) = literalIds es ++ literalIds fs := by
  simp [literalIds]

/-- An expression that is no function literal, and of which the size has 32 bits if it is an array literal. -/
structure Expr.Plain (capacity : Nat) (e : Expr) : Prop where
  fits : e.LiteralFits capacity
  noLambda : e.isLambda = false

/-- Whether a form is neither an array literal nor a function literal. -/
def Form.isPlain : Form → Bool
  | .array _ | .lambda _ _ _ => false
  | _ => true

/-- Whether a form is a variable, a field or an element. -/
def Form.isPlace : Form → Bool
  | .local_ _ | .field _ _ | .index _ _ => true
  | _ => false

variable {capacity : Nat} {es : List Expr}

theorem Expr.plain_of_form {e : Expr} (h : e.form.isPlain = true) : e.Plain capacity := by
  refine ⟨fun es hes => ?_, ?_⟩
  · rw [hes] at h
    cases h
  · unfold Expr.isLambda
    split
    · next hform =>
      rw [hform] at h
      cases h
    · rfl

theorem lambdaCount_eq_zero (h : ∀ e ∈ es, e.Plain capacity) : lambdaCount es = 0 :=
  List.countP_eq_zero.mpr fun e he => by simp [(h e he).noLambda]

theorem literalIds_eq_nil (h : ∀ e ∈ es, e.Plain capacity) : literalIds es = [] := by
  rw [literalIds, List.map_eq_nil_iff, List.filter_eq_nil_iff]
  exact fun e he => by simp [(h e he).noLambda]

/-! ## Constants -/

/-- The expressions that are constants, with the bytes of those that have any. -/
inductive Expr.Constant : Expr → Literal → Prop
  | int {id ty v w} : Constant ⟨id, ty, .int v⟩ (.word w)
  | float {id ty v w} : Constant ⟨id, ty, .float v⟩ (.word w)
  | bool {id ty v w} : Constant ⟨id, ty, .bool v⟩ (.word w)
  | str {id ty v} : Constant ⟨id, ty, .str v⟩ (.bytes (Utf8.encode v))
  | bytes {id ty v} : Constant ⟨id, ty, .bytes v⟩ (.bytes v)
  | negInt {id ty id' ty' v w} : Constant ⟨id, ty, .unary .neg ⟨id', ty', .int v⟩⟩ (.word w)
  | negFloat {id ty id' ty' v w} : Constant ⟨id, ty, .unary .neg ⟨id', ty', .float v⟩⟩ (.word w)

theorem constant_of_literal? {e : Expr} {l : Literal} (h : e.literal? = some l) : e.Constant l := by
  obtain ⟨id, ty, form⟩ := e
  cases form with
  | int | float | bool | str | bytes =>
    cases h
    constructor
  | unary op operand =>
    obtain ⟨id', ty', form'⟩ := operand
    cases op with
    | not => cases h
    | neg =>
      cases form' with
      | int | float =>
        cases h
        constructor
      | _ => cases h
  | _ => cases h

namespace Expr.Constant

variable {e : Expr} {l : Literal}

theorem plain (h : e.Constant l) : ∀ x ∈ e.nodes, x.Plain capacity := by
  have hforms : ∀ x ∈ e.nodes, x.form.isPlain = true := by
    cases h <;> simp [Expr.nodes, Form.nodes, Form.isPlain]
  exact fun x hx => plain_of_form (hforms x hx)

theorem reads (h : e.Constant l) : e.reads = [] := by
  cases h <;> simp [Expr.reads, Form.reads]

theorem flow (h : e.Constant l) : e.flow = [] := by
  cases h <;> simp [Expr.flow, Form.flow]

end Expr.Constant

/-- Constants in order: nothing else is in them. -/
theorem constants_of_literals : ∀ {es : List Expr} {ls : List Literal}, es.mapM (·.literal?) = some ls →
    exprReads es = [] ∧ exprFlow es = [] ∧ ∀ x ∈ exprNodes es, ∃ e : Expr, ∃ l ∈ ls, e.Constant l ∧ x ∈ e.nodes
  | [], _, _ => by simp [exprReads, exprFlow, exprNodes]
  | e :: _, _, h => by
    simp only [List.mapM_cons, Option.bind_eq_bind, Option.bind_eq_some_iff, Option.pure_def, Option.some.injEq] at h
    obtain ⟨l, hl, ls, hls, rfl⟩ := h
    have hconst := constant_of_literal? hl
    obtain ⟨hreads, hflow, hnodes⟩ := constants_of_literals hls
    rw [exprReads, exprFlow, exprNodes, hconst.reads, hconst.flow, hreads, hflow]
    refine ⟨rfl, rfl, fun x hx => ?_⟩
    rcases List.mem_append.1 hx with hx | hx
    · exact ⟨e, l, List.mem_cons_self, hconst, hx⟩
    · obtain ⟨e', l', hl', hrest⟩ := hnodes x hx
      exact ⟨e', l', List.mem_cons_of_mem _ hl', hrest⟩

/-- Constant field values are constants in order. -/
theorem literals_of_fields : ∀ {fs : List Init} {ls : List (Nat × Literal)},
    fs.mapM (fun f => f.value.literal?.map (f.place, ·)) = some ls →
      (fs.map (·.value)).mapM (·.literal?) = some (ls.map Prod.snd) ∧ initReads fs = exprReads (fs.map (·.value)) ∧
        initFlow fs = exprFlow (fs.map (·.value)) ∧ initNodes fs = exprNodes (fs.map (·.value))
  | [], _, h => by
    cases h
    simp [initReads, initFlow, initNodes, exprReads, exprFlow, exprNodes]
  | ⟨_, _, _⟩ :: _, _, h => by
    simp only [List.mapM_cons, Option.bind_eq_bind, Option.bind_eq_some_iff, Option.pure_def, Option.some.injEq,
      Option.map_eq_some_iff] at h
    obtain ⟨-, ⟨l, hl, rfl⟩, ls, hls, rfl⟩ := h
    simp [initReads, initFlow, initNodes, exprReads, exprFlow, exprNodes, hl, literals_of_fields hls]

/-! ## Facts -/

/-- There is a fact for each expression. -/
theorem stmtNodes_length_le (ss : List Stmt) : (stmtNodes ss).length ≤ (stmtFacts ss).length := by
  apply stmtNodes.induct (fun e => e.nodes.length ≤ e.facts.length) (fun f => f.nodes.length ≤ f.facts.length)
    (fun ss => (stmtNodes ss).length ≤ (stmtFacts ss).length) (fun s => s.nodes.length ≤ s.facts.length)
    (fun as => (armNodes as).length ≤ (armFacts as).length) (fun fs => (initNodes fs).length ≤ (initFacts fs).length)
    (fun es => (exprNodes es).length ≤ (exprFacts es).length) (fun ps => (partNodes ps).length ≤ (partFacts ps).length)
  all_goals
    intros
    simp only [Expr.nodes, Expr.facts, Form.nodes, Form.facts, exprNodes, exprFacts, partNodes, partFacts, initNodes,
      initFacts, armNodes, armFacts, stmtNodes, stmtFacts, Stmt.nodes, Stmt.facts, List.length_append,
      List.length_cons, List.length_nil]
    omega

/-- **There are fewer function literals than facts.** -/
theorem Program.lambdaCount_le (p : Program) : lambdaCount p.nodes ≤ p.facts.length := by
  have routines : ∀ rs : List Routine, (rs.flatMap (stmtNodes ·.body)).length ≤ (rs.flatMap Routine.facts).length := by
    intro rs
    induction rs with
    | nil => exact Nat.le_refl _
    | cons r rs ih =>
      have hbody := stmtNodes_length_le r.body
      simp only [List.flatMap_cons, List.length_append, Routine.facts, List.length_cons] at ih ⊢
      omega
  have hscript := stmtNodes_length_le p.script
  have hroutines := routines p.routines
  calc
    lambdaCount p.nodes ≤ p.nodes.length := List.countP_le_length
    _ ≤ p.facts.length := by
      simp only [Program.nodes, Program.facts, List.length_append]
      omega

end Typed

end StackScript
