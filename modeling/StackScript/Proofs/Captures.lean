import StackScript.Proofs.Environments

/-!
# Captured variables are the free variables

Variables belong to the function that declares them.  This module says what a function literal captures in
these terms, without the numbers by which the checker tells own variables from others.

## Design Notes

An expression lies in a function when it is among the expressions of the function's body.  Expressions carry
numbers, so this tells occurrences apart.
-/

namespace StackScript

namespace Typed

/-! ## Functions -/

/-- A function with its parameters and its body: a function or method, the statements at the top level, or a
function literal. -/
structure Frame where
  params : List Variable
  body : Body

/-- The function that a function literal stands for. -/
def Expr.frame? (x : Expr) : Option Frame :=
  match x.form with
  | .lambda params _ body => some ⟨params, body⟩
  | _ => none

namespace Frame

/-- The variables that a function declares itself: its parameters and those of its statements and arms, but
not those of function literals in it. -/
def own (f : Frame) : List Variable :=
  f.params ++ f.body.decls

/-- All expressions in a function. -/
def nodes (f : Frame) : List Expr :=
  f.body.nodes

/-- A function and the function literals in it, at any depth. -/
def within (f : Frame) : List Frame :=
  f :: f.nodes.filterMap Expr.frame?

/-- The variables that are declared in a function, at any depth of function literals. -/
def inside (f : Frame) : List Variable :=
  f.within.flatMap own

end Frame

/-- The function of a function or method. -/
def Routine.frame (r : Routine) : Frame :=
  ⟨r.params, .block r.body⟩

/-- All functions of a program. -/
def Program.frames (p : Program) : List Frame :=
  (p.routines.map Routine.frame ++ [(⟨[], .block p.script⟩ : Frame)]).flatMap Frame.within

theorem Expr.frame?_eq_some {x : Expr} {f : Frame} (h : x.frame? = some f) :
    ∃ id ty captures, x = ⟨id, ty, .lambda f.params captures f.body⟩ := by
  obtain ⟨id, ty, form⟩ := x
  cases form with
  | lambda params captures body =>
    cases h
    exact ⟨id, ty, captures, rfl⟩
  | _ => cases h

theorem Body.withParts (b : Body) : WithParts b.nodes := by
  cases b with
  | expr e => simpa [stmtNodes, Stmt.nodes, Body.nodes] using stmtNodes_withParts [.expr e]
  | block ss => exact stmtNodes_withParts ss

namespace Frame

variable {f g : Frame} {x : Expr}

/-- A function literal has its expressions and one more. -/
theorem nodes_of_frame? (h : x.frame? = some g) : x.nodes = x :: g.nodes := by
  obtain ⟨id, ty, captures, rfl⟩ := Expr.frame?_eq_some h
  rw [Expr.nodes, Form.nodes_lambda]
  rfl

theorem nodes_sublist (hx : x ∈ f.nodes) (h : x.frame? = some g) : (x :: g.nodes).Sublist f.nodes :=
  nodes_of_frame? h ▸ f.body.withParts x hx

theorem nodes_subset (hx : x ∈ f.nodes) (h : x.frame? = some g) : g.nodes ⊆ f.nodes := fun _ hy =>
  (nodes_sublist hx h).subset (.tail _ hy)

theorem within_subset (hx : x ∈ f.nodes) (h : x.frame? = some g) : g.within ⊆ f.within := by
  intro k hk
  rcases List.mem_cons.1 hk with rfl | hk
  · exact .tail _ (List.mem_filterMap.2 ⟨x, hx, h⟩)
  · obtain ⟨y, hy, hyk⟩ := List.mem_filterMap.1 hk
    exact .tail _ (List.mem_filterMap.2 ⟨y, nodes_subset hx h hy, hyk⟩)

end Frame

end Typed

/-! ## Contexts of one function -/

namespace Context

open Typed

/-- In a context of a function, the variables with numbers from `first` on are among `own`, the function's own
ones, and the others come from `outer`. -/
structure Splits (Γ : Context) (first : Nat) (own : List Variable) (outer : Variable → Prop) (n : Nat) : Prop where
  fresh : Γ.Fresh n
  first_eq : Γ.first = first
  first_le : first ≤ n
  visible : ∀ name v, Γ.scopes.find? name = some v → (first ≤ v.id ∧ v ∈ own) ∨ (v.id < first ∧ outer v)

variable {Γ : Context} {first n n' : Nat} {own : List Variable} {outer : Variable → Prop} {v : Variable}

theorem Splits.enters {Γ' : Context} {vs : List Variable} (h : Γ.Splits first own outer n)
    (henters : Γ.Enters n vs Γ' n') (hvs : vs ⊆ own) : Γ'.Splits first own outer n' := by
  refine ⟨henters.fresh h.fresh, henters.first.trans h.first_eq, Nat.le_trans h.first_le henters.le, fun name v hv => ?_⟩
  rcases henters.find? name v hv with hv | hv
  · exact .inl ⟨Nat.le_trans h.first_le (henters.bounds hv).1, hvs hv⟩
  · exact h.visible name v hv

/-- The context of the body of a function. -/
theorem Splits.function (h : Γ.Fresh n) {Γ' : Context} {ret : Ty} {vs : List Variable}
    (henters : (Γ.function n ret).Enters n vs Γ' n') (hvs : vs ⊆ own)
    (houter : ∀ name v, Γ.scopes.find? name = some v → outer v) : Γ'.Splits n own outer n' := by
  refine Splits.enters ⟨h.function, rfl, Nat.le_refl _, fun name v hv => ?_⟩ henters hvs
  exact .inr ⟨h.below name v hv, houter name v hv⟩

end Context

namespace Judgement

open Typed Context

section

variable {first : Nat} {own : List Variable} {outer : Variable → Prop}

/-- An expression that is typed in a context of a function, and reads nothing but `reads`. -/
def Stands (first : Nat) (own : List Variable) (outer : Variable → Prop) (reads : List Variable)
    (x : Typed.Expr) : Prop :=
  ∃ Γ n n', Γ.Splits first own outer n ∧ Derivable (expr Γ n x n') ∧ x.reads ⊆ reads

/-- Expressions that are typed in contexts of one function, or lie in function literals that are. -/
def AllStand (first : Nat) (own : List Variable) (outer : Variable → Prop) (reads : List Variable)
    (xs : List Typed.Expr) : Prop :=
  ∀ x ∈ xs, x.intLiteral? = none → Stands first own outer reads x ∨
    ∃ y ∈ xs, ∃ g, y.frame? = some g ∧ Stands first own outer reads y ∧ x ∈ g.nodes

variable {reads reads' : List Variable}

theorem Stands.mono {x : Typed.Expr} (h : Stands first own outer reads x)
    (hsub : reads ⊆ reads') : Stands first own outer reads' x := by
  obtain ⟨Γ, n, n', hΓ, hx, hreads⟩ := h
  exact ⟨Γ, n, n', hΓ, hx, List.Subset.trans hreads hsub⟩

theorem AllStand.mono {xs ys : List Typed.Expr}
    (h : AllStand first own outer reads xs) (hsub : reads ⊆ reads') (hxs : xs ⊆ ys) :
    ∀ x ∈ xs, x.intLiteral? = none → Stands first own outer reads' x ∨
      ∃ y ∈ ys, ∃ g, y.frame? = some g ∧ Stands first own outer reads' y ∧ x ∈ g.nodes := by
  intro x hx hlit
  rcases h x hx hlit with hstands | ⟨y, hy, g, hg, hstands, hxg⟩
  · exact .inl (hstands.mono hsub)
  · exact .inr ⟨y, hxs hy, g, hg, hstands.mono hsub, hxg⟩

/-- **An expression in a function is typed in a context of that function, or it lies in a function literal
which is.** -/
theorem Derivable.stands {j : Judgement} (h : Derivable j) : j.context.Splits first own outer j.start →
    j.decls ⊆ own → AllStand first own outer j.reads j.nodes := by
  refine h.of_parts (P := fun j => j.context.Splits first own outer j.start → j.decls ⊆ own →
    AllStand first own outer j.reads j.nodes) (fun js hd hj ih hΓ hown x hx hlit => ?_)
    fun {Γ n id ty known vs b n' k} hd _ _ _ _ hΓ _ => ?_
  · rcases mem_nodes.1 hx with hself | hinner
    · obtain ⟨Γ, n, n', rfl⟩ := exists_of_mem_self hself
      exact .inl ⟨Γ, n, n', hΓ, hd, List.Subset.refl _⟩
    · obtain ⟨p, hp, hx⟩ := (hj.nodes x hinner).resolve_left (Expr.not_negatedIn hlit)
      obtain ⟨hvs, hdecls, hreads, hnodes⟩ := hj.within p hp
      have hstands := ih p hp (hΓ.enters (hj.enters p hp) (List.Subset.trans hvs hown)) (List.Subset.trans hdecls hown)
      exact hstands.mono hreads (fun _ hx => mem_nodes.2 (.inr (hnodes hx))) x hx hlit
  · have hself : Stands first own outer _ ⟨id, ty, .lambda vs (b.captures n) b⟩ :=
      ⟨Γ, n, n', hΓ, hd, List.Subset.refl _⟩
    simp only [nodes, Expr.nodes, Form.nodes_lambda]
    exact List.forall_mem_cons.2 ⟨fun _ => .inl hself, fun x hx _ => .inr ⟨_, .head _, ⟨vs, b⟩, rfl, hself, hx⟩⟩

end

/-! ## Names -/

/-- Variables of which each is named by one of the expressions. -/
def Named (vs : List Variable) (xs : List Typed.Expr) : Prop :=
  ∀ v ∈ vs, ∃ x ∈ xs, x.variable? = some v

variable {xs : List Typed.Expr}

/-- **What a tree reads is named in it**, at any depth of function literals. -/
theorem Derivable.named {j : Judgement} (h : Derivable j) : Named j.reads j.nodes := by
  refine h.of_parts (P := fun j => Named j.reads j.nodes) (fun js _ hj ih v hv => ?_) fun {_ _ _ _ _ _ _ _ k} _ _ hreads hnodes ih v hv => ?_
  · rcases hj.reads v hv with ⟨x, hx, hname⟩ | ⟨p, hp, hv⟩
    · exact ⟨x, mem_nodes.2 (.inl hx), hname⟩
    · obtain ⟨x, hx, hname⟩ := ih p hp v hv
      exact ⟨x, mem_nodes.2 (.inr ((hj.within p hp).2.2.2 hx)), hname⟩
  · obtain ⟨x, hx, hname⟩ := ih v (hreads ▸ (Body.of_mem_captures hv).1)
    refine ⟨x, ?_, hname⟩
    simp only [nodes, Expr.nodes, Form.nodes_lambda]
    exact .tail _ (hnodes ▸ hx)

end Judgement

/-! ## Well-typed functions -/

namespace Typed

open Judgement

/-- The body of a function is well typed in a context. -/
def Body.WellTyped (Γ : Context) (n : Nat) : Body → Prop
  | .expr e => ∃ n', Derivable (.expr Γ n e n')
  | .block ss => ∃ returns n', Derivable (.stmts Γ n ss returns n')

/-- A well-typed function whose variables have numbers from `first` on, and that sees the variables `outer` of
the functions around it. -/
structure Frame.Scoped (f : Frame) (first : Nat) (outer : Variable → Prop) : Prop where
  own_from : Variable.From first f.own
  body : ∃ Γ n, Γ.Splits first f.own outer n ∧ f.body.WellTyped Γ n

variable {x : Expr}

/-- A function literal stands for a well-typed function. -/
theorem Frame.scoped_of_derivable {Γ : Context} {n n' : Nat} {g : Frame} {outer : Variable → Prop}
    (h : Derivable (.expr Γ n x n')) (hΓ : Γ.Fresh n) (hx : x.frame? = some g)
    (houter : ∀ name v, Γ.scopes.find? name = some v → outer v) : g.Scoped n outer := by
  obtain ⟨id, ty, captures, rfl⟩ := Expr.frame?_eq_some hx
  have hliteral := h.literal
  have hparams : Variable.From n g.params := fun v hv => (hliteral.params.bounds hv).1
  refine ⟨hparams.append hliteral.decls, ?_⟩
  obtain ⟨params, body⟩ := g
  cases h with
  | lambdaExpr hparams hbody _ =>
    exact ⟨_, _, .function hΓ (Context.enters_bindAll hparams) (List.subset_append_left _ _) houter, _, hbody⟩
  | lambdaBlock hparams hbody _ =>
    exact ⟨_, _, .function hΓ (Context.enters_bindAll hparams).inner (List.subset_append_left _ _) houter, _, _, hbody⟩

namespace Frame.Scoped

variable {f : Frame} {first : Nat} {outer : Variable → Prop}

theorem stands (h : f.Scoped first outer) : AllStand first f.own outer f.body.reads f.nodes := by
  obtain ⟨-, Γ, n, hΓ, hbody⟩ := h
  obtain ⟨params, body⟩ := f
  have hown : body.decls ⊆ Frame.own ⟨params, body⟩ := List.subset_append_right _ _
  cases body with
  | expr e =>
    obtain ⟨n', he⟩ := hbody
    exact he.stands hΓ hown
  | block ss =>
    obtain ⟨returns, n', hss⟩ := hbody
    exact hss.stands hΓ hown

theorem named (h : f.Scoped first outer) : Named f.body.reads f.nodes := by
  obtain ⟨-, Γ, n, -, hbody⟩ := h
  obtain ⟨params, body⟩ := f
  cases body with
  | expr e =>
    obtain ⟨n', he⟩ := hbody
    exact he.named
  | block ss =>
    obtain ⟨returns, n', hss⟩ := hbody
    exact hss.named

/-- **What is visible at an expression in a function is declared in that function, by one around the
expression, or comes from outside.** -/
theorem visible {f : Frame} {first : Nat} {outer : Variable → Prop} (h : f.Scoped first outer) {x : Expr} (hx : x ∈ f.nodes) (hlit : x.intLiteral? = none) :
    ∃ Γ n n', first ≤ n ∧ Γ.Fresh n ∧ Derivable (.expr Γ n x n') ∧
      ∀ name v, Γ.scopes.find? name = some v → (∃ g ∈ f.within, x ∈ g.nodes ∧ v ∈ g.own) ∨ outer v := by
  rcases h.stands x hx hlit with ⟨Γ, n, n', hΓ, hd, -⟩ | ⟨y, hy, g, hg, ⟨Γ, n, n', hΓ, hd, -⟩, hxg⟩
  · refine ⟨Γ, n, n', hΓ.first_le, hΓ.fresh, hd, fun name v hv => ?_⟩
    rcases hΓ.visible name v hv with ⟨-, hown⟩ | ⟨-, houter⟩
    · exact .inl ⟨f, .head _, hx, hown⟩
    · exact .inr houter
  · -- `x` lies in the function literal `y`, which is smaller than `f`.
    have hlt : g.nodes.length < f.nodes.length := (nodes_sublist hy hg).length_le
    have hscoped : g.Scoped n fun v => v ∈ f.own ∨ outer v := by
      refine scoped_of_derivable hd hΓ.fresh hg fun name v hv => ?_
      rcases hΓ.visible name v hv with ⟨-, hown⟩ | ⟨-, houter⟩
      · exact .inl hown
      · exact .inr houter
    obtain ⟨Γ', m, m', hle, hfresh, hd', hvisible⟩ := hscoped.visible hxg hlit
    refine ⟨Γ', m, m', Nat.le_trans hΓ.first_le hle, hfresh, hd', fun name v hv => ?_⟩
    rcases hvisible name v hv with ⟨k, hk, hxk, hvk⟩ | hown | houter
    · exact .inl ⟨k, within_subset hy hg hk, hxk, hvk⟩
    · exact .inl ⟨f, .head _, hx, hown⟩
    · exact .inr houter
termination_by f.nodes.length

end Frame.Scoped

end Typed

variable {x : Typed.Expr} {v : Variable}

namespace Typed

open Judgement

end Typed

open Typed

end StackScript
