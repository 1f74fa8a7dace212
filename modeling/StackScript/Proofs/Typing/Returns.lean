import StackScript.Proofs.Compile
import StackScript.Proofs.Emit.Ledger
import StackScript.Proofs.Typing.Flow

/-!
# What return statements give back

## Design Notes

A function literal whose body is an expression may have no result before its body is checked.  A return
statement in such a body is checked as in a function without a result.
-/

namespace StackScript

open Typed

/-- What a function with a result gives back: nothing, if it has no result, or else a value that the
result accepts. -/
def Ty.Takes (ret : Ty) : Option Typed.Expr → Prop
  | none => ret = .void
  | some e => ret.accepts e.ty = true

/-- All return statements in a flow agree with a result. -/
def Typed.Flow.Returns (ret : Ty) (fl : List Flow) : Prop :=
  ∀ v, .return_ v ∈ Flow.stmts fl → ret.Takes v

namespace Typed.Flow

variable {ret : Ty} {a b inner : List Flow}

@[simp] theorem returns_nil : Returns ret [] := nofun

@[simp] theorem returns_append : Returns ret (a ++ b) ↔ Returns ret a ∧ Returns ret b := by
  simp only [Returns, stmts_append, List.mem_append, or_imp, forall_and]

@[simp] theorem returns_jump {isBreak : Bool} : Returns ret [.jump isBreak] := nofun

@[simp] theorem returns_leave : Returns ret [.leave] := nofun

@[simp] theorem returns_maybe : Returns ret [.maybe inner] ↔ Returns ret inner := by
  simp only [Returns, stmts, ownStmts, List.append_nil]

@[simp] theorem returns_loop : Returns ret [.loop inner] ↔ Returns ret inner := by
  simp only [Returns, stmts, ownStmts, List.append_nil]

@[simp] theorem returns_either : Returns ret [.either a b] ↔ Returns ret a ∧ Returns ret b := by
  rw [← returns_append]
  simp only [Returns, stmts, ownStmts, List.append_nil, stmts_append]

theorem returns_stmt {t : Stmt} :
    Returns ret [.stmt t inner] ↔ (∀ v, t = .return_ v → ret.Takes v) ∧ Returns ret inner := by
  simp only [Returns, stmts, ownStmts, List.append_nil, List.mem_cons, or_imp, forall_and, eq_comm]

end Typed.Flow

namespace Context

@[simp] theorem bindAll_ret (Γ : Context) (vs : List Variable) : (Γ.bindAll vs).ret = Γ.ret := by
  induction vs generalizing Γ with
  | nil => rfl
  | cons v vs ih => exact ih (Γ.bind v)

end Context

namespace Judgement

/-- The flow of the tree of a judgement. -/
def flow : Judgement → List Flow
  | expr _ _ e _ => e.flow
  | args _ _ _ es _ => exprFlow es
  | parts _ _ ps _ => partFlow ps
  | inits _ _ _ fs _ => initFlow fs
  | arms _ _ _ _ as _ => armFlow as
  | stmt _ _ s _ _ _ => [.stmt s s.flow]
  | stmts _ _ ss _ _ => stmtFlow ss

theorem Derivable.ret_after {Γ Γ' : Context} {n n' : Nat} {s : Typed.Stmt} {returns : Bool}
    (h : Derivable (stmt Γ n s returns Γ' n')) : Γ'.ret = Γ.ret := by
  cases h <;> rfl

/-- **Return statements agree with the result that the context knows.** -/
theorem Derivable.returns {j : Judgement} (h : Derivable j) : Flow.Returns j.context.ret j.flow := by
  induction h with
  | int | float | bool | str | bytes | local_ | captured | function | unit | negLiteral | variantOnly
  | lambdaExpr | lambdaBlock | argsNil | partsNil | initsNil | armsNil | stmtsNil =>
    simp [flow, Expr.flow, Form.flow, exprFlow, partFlow, initFlow, armFlow, stmtFlow]
  | interp _ ih | not _ _ ih | neg _ _ ih | cast _ _ _ ih | call _ _ ih | static _ _ _ _ ih
  | variantOf _ _ _ ih | pop _ _ _ ih | arrayLength _ _ ih | byteLength _ _ ih | field _ _ _ _ ih
  | array _ ih | structLit _ _ ih | await _ _ ih | try_ _ _ _ ih | outcome _ _ ih | partsText _ ih
  | block _ ih =>
    simp only [flow, Expr.flow, Form.flow, partFlow] at ih ⊢
    exact ih
  | logical _ _ _ _ _ ihl ihr | binary _ _ _ _ ihl ihr =>
    simp only [flow, context, Expr.flow, Form.flow, Flow.returns_append] at ihl ihr ⊢
    refine ⟨ihl, ?_⟩
    split <;> simpa using ihr
  | method _ _ _ _ _ _ ihl ihr | indirect _ _ _ ihl ihr | push _ _ _ _ _ ihl ihr | index _ _ _ _ ihl ihr
  | match_ _ _ ihl ihr | argsCons _ _ _ ihl ihr | partsExpr _ _ _ ihl ihr | initsCons _ _ _ _ ihl ihr =>
    simp only [flow, Expr.flow, Form.flow, exprFlow, partFlow, initFlow, Flow.returns_append]
    exact ⟨ihl, ihr⟩
  | armsCons _ _ _ _ ihb iht =>
    simp only [flow, armFlow, Flow.returns_either, context, Context.arm, Context.bindAll_ret] at ihb ⊢
    exact ⟨ihb, iht⟩
  | break_ | continue_ => simp [flow, Flow.returns_stmt, Stmt.flow]
  | returnNone ret =>
    refine Flow.returns_stmt.2 ⟨?_, by simp [Stmt.flow]⟩
    rintro v ⟨⟩
    exact ret
  | returnSome _ _ valueTy ih =>
    simp only [flow, Stmt.flow, Flow.returns_stmt, Flow.returns_append] at ih ⊢
    refine ⟨?_, ih, Flow.returns_leave⟩
    rintro v ⟨⟩
    exact valueTy
  | exprStmt _ ih | blockStmt _ ih | let_ _ _ _ ih =>
    simp only [flow, Stmt.flow, Flow.returns_stmt]
    exact ⟨fun _ heq => (by cases heq), ih⟩
  | assign _ _ _ _ _ ihl ihr | ifThen _ _ _ ihl ihr | while_ _ _ _ ihl ihr | for_ _ _ _ ihl ihr =>
    simp only [flow, Stmt.flow, Flow.returns_stmt, Flow.returns_append, Flow.returns_maybe, Flow.returns_loop]
    exact ⟨fun _ heq => (by cases heq), ihl, ihr⟩
  | ifElse _ _ _ _ ihc iht ihe =>
    simp only [flow, Stmt.flow, Flow.returns_stmt, Flow.returns_append, Flow.returns_either]
    exact ⟨fun _ heq => (by cases heq), ihc, iht, ihe⟩
  | stmtsCons head _ ihl ihr =>
    simp only [flow, stmtFlow, context, head.ret_after] at ihl ihr ⊢
    exact Flow.returns_append.2 ⟨ihl, ihr⟩

end Judgement

end StackScript
