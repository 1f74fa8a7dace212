import StackScript.Proofs.Emit.Nodes
import StackScript.Proofs.Tree.Numbers
import StackScript.Typing.Check

/-!
# Lexical scope

What a name stands for is given by the tree alone: by the bindings around it, the innermost first.  A binding
reaches from the statement, the arm, the loop or the parameter list that makes it to the end of its block, arm,
loop or function.

## Design Notes

Forms that bind nothing are all treated alike: only their parts matter.  Checking drops the name in front of a
direct call, and a path in front of any call.
-/

namespace StackScript

/-! ## Parts -/

/-- The expression in a piece of an interpolated string. -/
def InterpPart.expr? : InterpPart → Option Expr
  | .text _ => none
  | .expr e => some e

/-- The parts of a form that neither is a name nor binds one. -/
def ExprForm.parts? : ExprForm → Option (List Expr)
  | .ident _ | .match_ _ _ | .lambda _ _ _ | .block _ => none
  | .interp ps => some (ps.filterMap InterpPart.expr?)
  | .binary _ l r | .index l r => some [l, r]
  | .unary _ e | .cast e _ | .field e _ | .await e | .try_ e | .outcome _ e => some [e]
  | .call ⟨_, .path _ _, _⟩ es | .array es => some es
  | .call e es | .methodCall e _ es => some (e :: es)
  | .structLit _ fs => some (fs.map (·.value))
  | .int _ | .float _ | .bool _ | .str _ | .bytes _ | .path _ _ => some []

/-- The expression in a piece of an interpolated string. -/
def Typed.Part.expr? : Typed.Part → Option Typed.Expr
  | .text _ => none
  | .expr e => some e

/-- The parts of a checked form that neither is a name nor binds one. -/
def Typed.Form.parts? : Typed.Form → Option (List Typed.Expr)
  | .local_ _ | .captured _ | .function _ | .match_ _ _ | .lambda _ _ _ | .block _ => none
  | .interp ps => some (ps.filterMap Typed.Part.expr?)
  | .binary _ l r | .push l r | .index l r => some [l, r]
  | .unary _ e | .cast e | .pop e | .arrayLength e | .byteLength e | .field e _ | .await e | .try_ e
  | .outcome _ e => some [e]
  | .call _ es | .array es => some es
  | .method _ _ e es | .indirect e es => some (e :: es)
  | .variant _ _ payload => some payload.toList
  | .structLit _ fs => some (fs.map (·.value))
  | .int _ | .float _ | .bool _ | .str _ | .bytes _ | .unit _ _ => some []

/-! ## Names in sight -/

/-- Names and the variables they stand for, the innermost first. -/
abbrev Env := List (String × Variable)

/-- The names in sight after bindings, the last one the innermost. -/
def Env.bindAll (ρ : Env) : List Variable → Env
  | [] => ρ
  | v :: vs => Env.bindAll ((v.name, v) :: ρ) vs

/-- A tree and a checked tree, where names are in sight; statements have their own names in sight after them. -/
inductive Pairing where
  | expr (ρ : Env) (e : Expr) (t : Typed.Expr)
  | exprs (ρ : Env) (es : List Expr) (ts : List Typed.Expr)
  | arms (ρ : Env) (as : List MatchArm) (ts : List Typed.Arm)
  | stmt (ρ : Env) (s : Stmt) (t : Typed.Stmt) (ρ' : Env)
  | stmts (ρ : Env) (ss : List Stmt) (ts : List Typed.Stmt)

open Pairing

/-- **Names stand for what lexical scope says.** -/
inductive Lexical (t : SymbolTable) : Pairing → Prop
  -- names
  | bound {ρ id n span ty v form} (found : ρ.lookup n = some v)
      (form_eq : form = Typed.Form.local_ v ∨ form = Typed.Form.captured v) :
      Lexical t (expr ρ ⟨id, .ident n, span⟩ ⟨id, ty, form⟩)
  | function {ρ id n span ty sig} (free : ρ.lookup n = none) (declared : t.function? n = some sig)
      (kind : ∀ b, sig.kind ≠ .builtin b) : Lexical t (expr ρ ⟨id, .ident n, span⟩ ⟨id, ty, .function n⟩)
  | direct {ρ id id' n span span' es ty sig ts} (free : ρ.lookup n = none) (declared : t.function? n = some sig)
      (args : Lexical t (exprs ρ es ts)) :
      Lexical t (expr ρ ⟨id, .call ⟨id', .ident n, span'⟩ es, span⟩ ⟨id, ty, .call (Check.directTarget sig) ts⟩)
  -- other expressions
  | node {ρ id form span ty form' es ts} (source : form.parts? = some es) (target : form'.parts? = some ts)
      (parts : Lexical t (exprs ρ es ts)) : Lexical t (expr ρ ⟨id, form, span⟩ ⟨id, ty, form'⟩)
  | match_ {ρ id e as span ty u ts} (scrutinee : Lexical t (expr ρ e u)) (arms : Lexical t (arms ρ as ts)) :
      Lexical t (expr ρ ⟨id, .match_ e as, span⟩ ⟨id, ty, .match_ u ts⟩)
  | lambdaExpr {ρ id ps ret e span ty vs captures u} (names : vs.map (·.name) = ps.map (·.name))
      (body : Lexical t (expr (ρ.bindAll vs) e u)) :
      Lexical t (expr ρ ⟨id, .lambda ps ret (.expr e), span⟩ ⟨id, ty, .lambda vs captures (.expr u)⟩)
  | lambdaBlock {ρ id ps ret ss span span' ty vs captures ts} (names : vs.map (·.name) = ps.map (·.name))
      (body : Lexical t (stmts (ρ.bindAll vs) ss ts)) :
      Lexical t (expr ρ ⟨id, .lambda ps ret (.block ⟨ss, span'⟩), span⟩ ⟨id, ty, .lambda vs captures (.block ts)⟩)
  | block {ρ id ss span span' ty ts} (body : Lexical t (stmts ρ ss ts)) :
      Lexical t (expr ρ ⟨id, .block ⟨ss, span'⟩, span⟩ ⟨id, ty, .block ts⟩)
  | exprsNil {ρ} : Lexical t (exprs ρ [] [])
  | exprsCons {ρ e es u us} (head : Lexical t (expr ρ e u)) (tail : Lexical t (exprs ρ es us)) :
      Lexical t (exprs ρ (e :: es) (u :: us))
  -- arms, each with the variable of its pattern
  | armsNil {ρ} : Lexical t (arms ρ [] [])
  | armsCons {ρ p e span as k ty q u ts} (pattern : t.pattern k p ty = .ok q)
      (body : Lexical t (expr (ρ.bindAll q.binder?.toList) e u)) (rest : Lexical t (arms ρ as ts)) :
      Lexical t (arms ρ (⟨p, e, span⟩ :: as) (⟨q, u⟩ :: ts))
  -- statements
  | let_ {ρ id n isConst annotation e span u} {v : Variable} (init : Lexical t (expr ρ e u)) (name : v.name = n) :
      Lexical t (stmt ρ ⟨.let_ id n isConst annotation e, span⟩ (.let_ id v u) (ρ.bindAll [v]))
  | assign {ρ target op e span u w} (place : Lexical t (expr ρ target u)) (value : Lexical t (expr ρ e w)) :
      Lexical t (stmt ρ ⟨.assign target op e, span⟩ (.assign u op w) ρ)
  | ifThen {ρ e ss span span' u ts} (cond : Lexical t (expr ρ e u)) (body : Lexical t (stmts ρ ss ts)) :
      Lexical t (stmt ρ ⟨.if_ e ⟨ss, span'⟩ none, span⟩ (.if_ u ts none) ρ)
  | ifElse {ρ e ss es span span' span'' u ts us} (cond : Lexical t (expr ρ e u)) (body : Lexical t (stmts ρ ss ts))
      (other : Lexical t (stmts ρ es us)) :
      Lexical t (stmt ρ ⟨.if_ e ⟨ss, span'⟩ (some ⟨es, span''⟩), span⟩ (.if_ u ts (some us)) ρ)
  | while_ {ρ e ss span span' u ts} (cond : Lexical t (expr ρ e u)) (body : Lexical t (stmts ρ ss ts)) :
      Lexical t (stmt ρ ⟨.while_ e ⟨ss, span'⟩, span⟩ (.while_ u ts) ρ)
  | for_ {ρ id n e ss span span' u ts} {v : Variable} (iterable : Lexical t (expr ρ e u)) (name : v.name = n)
      (body : Lexical t (stmts (ρ.bindAll [v]) ss ts)) :
      Lexical t (stmt ρ ⟨.for_ id n e ⟨ss, span'⟩, span⟩ (.for_ id v u ts) ρ)
  | break_ {ρ span} : Lexical t (stmt ρ ⟨.break_, span⟩ .break_ ρ)
  | continue_ {ρ span} : Lexical t (stmt ρ ⟨.continue_, span⟩ .continue_ ρ)
  | returnNone {ρ span} : Lexical t (stmt ρ ⟨.return_ none, span⟩ (.return_ none) ρ)
  | returnSome {ρ e span u} (value : Lexical t (expr ρ e u)) :
      Lexical t (stmt ρ ⟨.return_ (some e), span⟩ (.return_ (some u)) ρ)
  | exprStmt {ρ e span u} (value : Lexical t (expr ρ e u)) : Lexical t (stmt ρ ⟨.expr e, span⟩ (.expr u) ρ)
  | blockStmt {ρ ss span span' ts} (body : Lexical t (stmts ρ ss ts)) :
      Lexical t (stmt ρ ⟨.block ⟨ss, span'⟩, span⟩ (.block ts) ρ)
  | stmtsNil {ρ} : Lexical t (stmts ρ [] [])
  | stmtsCons {ρ ρ' s ss u us} (head : Lexical t (stmt ρ s u ρ')) (tail : Lexical t (stmts ρ' ss us)) :
      Lexical t (stmts ρ (s :: ss) (u :: us))

/-! ## Functions -/

/-- A function, if it has a body. -/
def FunctionDecl.bodies (d : FunctionDecl) : List FunctionDecl :=
  if d.body.isSome then [d] else []

/-- The functions and methods of an item that have bodies of their own. -/
def Item.bodies : Item → List FunctionDecl
  | .function d => if d.isExternal then [] else d.bodies
  | .struct d => d.methods.flatMap FunctionDecl.bodies
  | .enum _ | .stmt _ => []

/-- In a function or method, names stand for what lexical scope says, with only its parameters around. -/
structure Typed.Routine.Scopes (t : SymbolTable) (d : FunctionDecl) (r : Typed.Routine) : Prop where
  params : r.params.map (·.name) = d.params.map (·.name)
  body : ∃ b, d.body = some b ∧ Lexical t (stmts (Env.bindAll [] r.params) b.stmts r.body)

/-! ## Numbers -/

variable {k : Nat}

namespace Typed

/-- How many of the expressions have the number `k`. -/
def occurs (k : Nat) (es : List Expr) : Nat :=
  es.countP (·.id = k)

@[simp] theorem occurs_nil : occurs k [] = 0 := rfl

@[simp] theorem occurs_append (es fs : List Expr) : occurs k (es ++ fs) = occurs k es + occurs k fs :=
  List.countP_append

@[simp] theorem occurs_cons (e : Expr) (es : List Expr) :
    occurs k (e :: es) = occurs k es + if e.id = k then 1 else 0 := by
  simp [occurs, List.countP_cons]

theorem Form.nodes_of_parts {form : Form} {es : List Expr} (h : form.parts? = some es) : form.nodes = exprNodes es := by
  have hinits (fs : List Init) : initNodes fs = exprNodes (fs.map (·.value)) := by
    induction fs with
    | nil => rfl
    | cons f fs ih => cases f; simp [initNodes, exprNodes, ih]
  have hparts (ps : List Part) : partNodes ps = exprNodes (ps.filterMap Part.expr?) := by
    induction ps with
    | nil => rfl
    | cons p ps ih => cases p <;> simp [partNodes, exprNodes, ih, Part.expr?, List.filterMap_cons]
  cases form with
  | local_ | captured | function | match_ | lambda | block => cases h
  | variant enum tag payload => cases payload <;> cases h <;> simp [Form.nodes, exprNodes]
  | _ => cases h; simp [Form.nodes, exprNodes, hinits, hparts]

end Typed

theorem ExprForm.count_parts_le {form : ExprForm} {es : List Expr} (h : form.parts? = some es) :
    (exprNumbers es).count k ≤ form.numbers.count k := by
  have hfields (fs : List FieldInit) : fieldNumbers fs = exprNumbers (fs.map (·.value)) := by
    rw [fieldNumbers_eq, exprNumbers_eq, List.flatMap_map]
  have hparts (ps : List InterpPart) : partNumbers ps = exprNumbers (ps.filterMap InterpPart.expr?) := by
    induction ps with
    | nil => rfl
    | cons p ps ih => cases p <;> simp [ih, InterpPart.expr?, List.filterMap_cons]
  unfold parts? at h
  split at h <;> cases h <;> simp [hfields, hparts, List.count_le_count_cons]

namespace Pairing

/-- The checked expressions of a pair of trees. -/
def nodes : Pairing → List Typed.Expr
  | expr _ _ t => t.nodes
  | exprs _ _ ts => Typed.exprNodes ts
  | arms _ _ ts => Typed.armNodes ts
  | stmt _ _ t _ => t.nodes
  | stmts _ _ ts => Typed.stmtNodes ts

/-- The numbers of the tree of a pair of trees. -/
def numbers : Pairing → List Nat
  | expr _ e _ => e.numbers
  | exprs _ es _ => exprNumbers es
  | arms _ as _ => armNumbers as
  | stmt _ s _ _ => s.numbers
  | stmts _ ss _ => stmtNumbers ss

end Pairing

open Typed (occurs)

/-- **A checked tree has a number at most as often as the tree.** -/
theorem Lexical.occurs_le {t : SymbolTable} {j : Pairing} (h : Lexical t j) : occurs k j.nodes ≤ j.numbers.count k := by
  induction h with
  | bound found form =>
    rcases form with rfl | rfl <;>
      simp [nodes, numbers, Typed.Expr.nodes, Typed.Form.nodes, List.count_singleton]
  | node source target _ ih =>
    have hle := ExprForm.count_parts_le (k := k) source
    simp only [nodes, numbers, Typed.Expr.nodes, Typed.Form.nodes_of_parts target, Expr.numbers, List.count_append,
      Typed.occurs_cons, List.count_singleton, beq_iff_eq] at ih ⊢
    omega
  | _ =>
    simp_all only [nodes, numbers, Typed.Expr.nodes, Typed.Form.nodes, Typed.exprNodes, Typed.armNodes,
      Typed.Stmt.nodes, Typed.stmtNodes, Expr.numbers, ExprForm.numbers, exprNumbers, armNumbers, LambdaBody.numbers,
      Block.numbers, Stmt.numbers, StmtForm.numbers, stmtNumbers, List.count_append, Typed.occurs_append,
      Typed.occurs_cons, List.count_singleton, beq_iff_eq, Typed.occurs_nil, List.count_nil] <;> omega

/-! ## Contexts -/

/-- A context with the names of an environment in sight, in open scopes. -/
structure Context.Shows (t : SymbolTable) (ρ : Env) (Γ : Context) : Prop where
  symbols : Γ.symbols = t
  find : ∀ n, Γ.scopes.find? n = ρ.lookup n
  scopes : Γ.scopes.scopes ≠ []

namespace Context.Shows

variable {t : SymbolTable} {ρ : Env} {Γ : Context}

theorem inner (h : Γ.Shows t ρ) : Γ.inner.Shows t ρ := ⟨h.symbols, h.find, by simp [Context.inner, ScopeChain.push]⟩

theorem loop (h : Γ.Shows t ρ) : Γ.loop.Shows t ρ := ⟨h.symbols, h.find, h.scopes⟩

theorem function (h : Γ.Shows t ρ) (first : Nat) (ret : Ty) : (Γ.function first ret).Shows t ρ :=
  ⟨h.symbols, h.find, by simp [Context.function, ScopeChain.push]⟩

theorem bind (h : Γ.Shows t ρ) (v : Variable) : (Γ.bind v).Shows t (ρ.bindAll [v]) := by
  obtain ⟨scope, outer, hscopes⟩ := List.exists_cons_of_ne_nil h.scopes
  refine ⟨h.symbols, fun n => ?_, by simp [Context.bind, ScopeChain.bind, hscopes]⟩
  have hn := h.find n
  simp only [ScopeChain.find?, ScopeChain.lookup, Context.bind, ScopeChain.bind, hscopes, ScopeChain.lookupIn,
    Env.bindAll, List.lookup_cons] at hn ⊢
  cases hname : n == v.name
  · simpa using hn
  · simp

end Context.Shows

end StackScript
