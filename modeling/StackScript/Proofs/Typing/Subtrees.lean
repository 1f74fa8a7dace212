import StackScript.Proofs.Emit.Nodes
import StackScript.Proofs.Typing.Scopes

/-!
# Parts of well-typed trees
-/

namespace StackScript

/-! ## Declarations -/

namespace Typed

mutual

/-- The variables that an expression declares; those of function literals are declared elsewhere. -/
def Expr.decls : Expr → List Variable
  | ⟨_, _, form⟩ => form.decls

/-- The variables that a form declares. -/
def Form.decls : Form → List Variable
  | .int _ | .float _ | .bool _ | .str _ | .bytes _ | .function _ | .unit _ _ => []
  | .local_ _ | .captured _ | .lambda _ _ _ => []
  | .interp parts => partDecls parts
  | .binary _ lhs rhs => lhs.decls ++ rhs.decls
  | .unary _ e => e.decls
  | .cast e => e.decls
  | .call _ args => exprDecls args
  | .method _ _ receiver args => receiver.decls ++ exprDecls args
  | .indirect callee args => callee.decls ++ exprDecls args
  | .variant _ _ none => []
  | .variant _ _ (some e) => e.decls
  | .push receiver value => receiver.decls ++ value.decls
  | .pop e => e.decls
  | .arrayLength e => e.decls
  | .byteLength e => e.decls
  | .field e _ => e.decls
  | .index e i => e.decls ++ i.decls
  | .await e => e.decls
  | .try_ e => e.decls
  | .outcome _ e => e.decls
  | .array es => exprDecls es
  | .structLit _ fields => initDecls fields
  | .match_ e arms => e.decls ++ armDecls arms
  | .block ss => stmtDecls ss

/-- The variables that expressions declare. -/
def exprDecls : List Expr → List Variable
  | [] => []
  | e :: es => e.decls ++ exprDecls es

/-- The variables that the pieces of a string declare. -/
def partDecls : List Part → List Variable
  | [] => []
  | .text _ :: ps => partDecls ps
  | .expr e :: ps => e.decls ++ partDecls ps

/-- The variables that field values declare. -/
def initDecls : List Init → List Variable
  | [] => []
  | ⟨_, _, e⟩ :: fs => e.decls ++ initDecls fs

/-- The variables that arms declare. -/
def armDecls : List Arm → List Variable
  | [] => []
  | ⟨p, e⟩ :: as => p.binder?.toList ++ e.decls ++ armDecls as

/-- The variables that statements declare. -/
def stmtDecls : List Stmt → List Variable
  | [] => []
  | s :: ss => s.decls ++ stmtDecls ss

/-- The variables that a statement declares. -/
def Stmt.decls : Stmt → List Variable
  | .let_ _ v e => e.decls ++ [v]
  | .assign t _ e => t.decls ++ e.decls
  | .if_ c t none => c.decls ++ stmtDecls t
  | .if_ c t (some e) => c.decls ++ stmtDecls t ++ stmtDecls e
  | .while_ c b => c.decls ++ stmtDecls b
  | .for_ _ v e b => e.decls ++ v :: stmtDecls b
  | .break_ | .continue_ => []
  | .return_ none => []
  | .return_ (some e) => e.decls
  | .expr e => e.decls
  | .block ss => stmtDecls ss

end

/-- The variables that the body of a function literal declares. -/
def Body.decls : Body → List Variable
  | .expr e => e.decls
  | .block ss => stmtDecls ss

/-! ## Expressions in expressions -/

/-- Expressions together with all expressions in them. -/
def WithParts (xs : List Expr) : Prop :=
  ∀ x ∈ xs, x.nodes.Sublist xs

theorem WithParts.nil : WithParts [] :=
  nofun

theorem WithParts.append {xs ys : List Expr} (h : WithParts xs) (h' : WithParts ys) : WithParts (xs ++ ys) := by
  intro x hx
  rcases List.mem_append.1 hx with hx | hx
  · exact (h x hx).trans (List.sublist_append_left _ _)
  · exact (h' x hx).trans (List.sublist_append_right _ _)

theorem stmtNodes_withParts (ss : List Stmt) : WithParts (stmtNodes ss) := by
  apply stmtNodes.induct (WithParts ·.nodes) (WithParts ·.nodes) (WithParts <| stmtNodes ·) (WithParts ·.nodes)
    (WithParts <| armNodes ·) (WithParts <| initNodes ·) (WithParts <| exprNodes ·) (WithParts <| partNodes ·)
  · intro id ty form h
    rw [Expr.nodes]
    refine List.forall_mem_cons.2 ⟨?_, fun x hx => ?_⟩
    · rw [Expr.nodes]
    · exact (h x hx).trans (List.sublist_cons_self _ _)
  all_goals
    intros
    simp only [Form.nodes, exprNodes, partNodes, initNodes, armNodes, stmtNodes, Stmt.nodes]
    solve_by_elim [WithParts.nil, WithParts.append]

theorem Program.withParts (p : Program) : WithParts p.nodes := by
  refine WithParts.append (fun x hx => ?_) (stmtNodes_withParts p.script)
  obtain ⟨r, hr, hx⟩ := List.mem_flatMap.1 hx
  exact (stmtNodes_withParts r.body x hx).trans (List.sublist_flatten_of_mem (List.mem_map_of_mem hr))

end Typed

namespace Variable

/-- Variables with numbers from `n` on. -/
def From (n : Nat) (vs : List Variable) : Prop :=
  ∀ v ∈ vs, n ≤ v.id

variable {n m : Nat} {vs ws : List Variable}

theorem From.nil : From n [] :=
  nofun

theorem from_append : From n (vs ++ ws) ↔ From n vs ∧ From n ws :=
  List.forall_mem_append

theorem From.append (h : From n vs) (h' : From n ws) : From n (vs ++ ws) :=
  from_append.2 ⟨h, h'⟩

theorem From.mono (h : From m vs) (hle : n ≤ m) : From n vs := fun v hv => Nat.le_trans hle (h v hv)

end Variable

namespace Judgement

open Typed Variable

/-- The variables that a tree declares. -/
def decls : Judgement → List Variable
  | expr _ _ e _ => e.decls
  | args _ _ _ es _ => exprDecls es
  | parts _ _ ps _ => partDecls ps
  | inits _ _ _ fs _ => initDecls fs
  | arms _ _ _ _ as _ => armDecls as
  | stmt _ _ s _ _ _ => s.decls
  | stmts _ _ ss _ _ => stmtDecls ss

/-- The tree itself, if it is an expression. -/
def self : Judgement → List Typed.Expr
  | expr _ _ e _ => [e]
  | _ => []

/-- All expressions in a tree, apart from the tree itself. -/
def innerNodes : Judgement → List Typed.Expr
  | expr _ _ e _ => e.form.nodes
  | args _ _ _ es _ => exprNodes es
  | parts _ _ ps _ => partNodes ps
  | inits _ _ _ fs _ => initNodes fs
  | arms _ _ _ _ as _ => armNodes as
  | stmt _ _ s _ _ _ => s.nodes
  | stmts _ _ ss _ _ => stmtNodes ss

/-- All expressions of a tree, the tree itself included. -/
def nodes : Judgement → List Typed.Expr
  | expr _ _ e _ => e.nodes
  | j => j.innerNodes

theorem mem_nodes {j : Judgement} {x : Typed.Expr} : x ∈ j.nodes ↔ x ∈ j.self ∨ x ∈ j.innerNodes := by
  cases j with
  | expr Γ n e n' =>
    obtain ⟨id, ty, form⟩ := e
    simp [nodes, self, innerNodes, Expr.nodes]
  | _ => simp [nodes, self, innerNodes]

theorem exists_of_mem_self {j : Judgement} {x : Typed.Expr} (h : x ∈ j.self) : ∃ Γ n n', j = expr Γ n x n' := by
  cases j with
  | expr Γ n e n' => exact ⟨Γ, n, n', by rw [List.mem_singleton.1 h]⟩
  | _ => cases h

end Judgement

theorem Typed.Pattern.Fits.numberedFrom {t : SymbolTable} {n : Nat} {p : Typed.Pattern} {ty : Ty}
    (h : p.Fits t n ty) : Variable.NumberedFrom n p.binder?.toList := by
  have hbinder := h.binder
  cases hb : p.binder? with
  | none => simp [Variable.NumberedFrom]
  | some v =>
    rw [hb] at hbinder
    simpa [Variable.NumberedFrom] using hbinder

/-! ## Trees in a tree -/

namespace Context

/-- The context of a tree in another one: around it, the variables `vs` are declared, with new numbers. -/
structure Enters (Γ : Context) (n : Nat) (vs : List Variable) (Γ' : Context) (n' : Nat) : Prop where
  symbols : Γ'.symbols = Γ.symbols
  first : Γ'.first = Γ.first
  numbered : ∃ m, n ≤ m ∧ m + vs.length ≤ n' ∧ Variable.NumberedFrom m vs
  find? : ∀ name v, Γ'.scopes.find? name = some v → v ∈ vs ∨ Γ.scopes.find? name = some v

/-- Visible variables have numbers below `n`, and a number stands for one variable. -/
structure Fresh (Γ : Context) (n : Nat) : Prop where
  below : ∀ name v, Γ.scopes.find? name = some v → v.id < n
  unique : ∀ name name' v w, Γ.scopes.find? name = some v → Γ.scopes.find? name' = some w →
    v.id = w.id → v = w

variable {Γ Γ' : Context} {n m n' : Nat} {v w : Variable} {vs ws : List Variable}

theorem enters_same (hle : n ≤ n') (hsymbols : Γ'.symbols = Γ.symbols := by rfl) (hfirst : Γ'.first = Γ.first := by rfl)
    (hfind : Γ'.scopes.find? = Γ.scopes.find? := by rfl) : Γ.Enters n [] Γ' n' :=
  ⟨hsymbols, hfirst, ⟨n, Nat.le_refl _, hle, rfl⟩, fun _ _ hv => .inr (hfind ▸ hv)⟩

namespace Enters

theorem inner (h : Γ.Enters n vs Γ' n') : Γ.Enters n vs Γ'.inner n' :=
  ⟨h.symbols, h.first, h.numbered, h.find?⟩

theorem bindAll (h : Γ.Enters n [] Γ' m) (hvs : Variable.NumberedFrom m vs) :
    Γ.Enters n vs (Γ'.bindAll vs) (m + vs.length) := by
  obtain ⟨k, hk, hle, -⟩ := h.numbered
  refine ⟨(bindAll_symbols _ _).trans h.symbols, (bindAll_first _ _).trans h.first,
    ⟨m, Nat.le_trans hk hle, Nat.le_refl _, hvs⟩, fun name v hv => ?_⟩
  exact (find?_bindAll hv).imp_right fun hv => (h.find? name v hv).resolve_left List.not_mem_nil

theorem bind (h : Γ.Enters n [] Γ' m) (hv : v.id = m) : Γ.Enters n [v] (Γ'.bind v) (m + 1) :=
  h.bindAll (by simp [Variable.NumberedFrom, hv])

theorem le (h : Γ.Enters n vs Γ' n') : n ≤ n' := by
  obtain ⟨m, hm, hle, -⟩ := h.numbered
  omega

theorem bounds (h : Γ.Enters n vs Γ' n') (hv : v ∈ vs) : n ≤ v.id ∧ v.id < n' := by
  obtain ⟨m, hm, hle, hvs⟩ := h.numbered
  have hbounds := hvs.bounds hv
  omega

theorem unique (h : Γ.Enters n vs Γ' n') (hv : v ∈ vs) (hw : w ∈ vs) (hid : v.id = w.id) : v = w := by
  obtain ⟨m, -, -, hvs⟩ := h.numbered
  have hnodup : (vs.map (·.id)).Nodup := hvs ▸ List.nodup_range'
  exact List.inj_on_of_nodup_map hnodup hv hw hid

/-- What is seen in a tree, and has no new number, is seen around it. -/
theorem sees (h : Γ.Enters n vs Γ' n') (hsees : Γ'.Sees n' ws) : Γ.Sees n ws := by
  intro v hv hlt
  obtain ⟨name, hfind⟩ := hsees v hv (Nat.lt_of_lt_of_le hlt h.le)
  rcases h.find? name v hfind with hnew | hfind
  · exact absurd (h.bounds hnew).1 (Nat.not_le_of_lt hlt)
  · exact ⟨name, hfind⟩

theorem fresh (h : Γ.Enters n vs Γ' n') (hΓ : Γ.Fresh n) : Γ'.Fresh n' := by
  have hle := h.le
  refine ⟨fun name v hv => ?_, fun name name' v w hv hw hid => ?_⟩
  · rcases h.find? name v hv with hv | hv
    · exact (h.bounds hv).2
    · exact Nat.lt_of_lt_of_le (hΓ.below name v hv) hle
  · rcases h.find? name v hv with hv | hv <;> rcases h.find? name' w hw with hw | hw
    · exact h.unique hv hw hid
    · have hnew := (h.bounds hv).1
      have hbelow := hΓ.below name' w hw
      omega
    · have hnew := (h.bounds hw).1
      have hbelow := hΓ.below name v hv
      omega
    · exact hΓ.unique name name' v w hv hw hid

end Enters

theorem enters_bindAll (hvs : Variable.NumberedFrom n vs) : Γ.Enters n vs (Γ.bindAll vs) (n + vs.length) :=
  (enters_same (Nat.le_refl _)).bindAll hvs

theorem Fresh.function (h : Γ.Fresh n) {first : Nat} {ret : Ty} : (Γ.function first ret).Fresh n :=
  ⟨h.below, h.unique⟩

end Context

/-- The variable that a name stands for. -/
def Typed.Expr.variable? (x : Typed.Expr) : Option Variable :=
  match x.form with
  | .local_ v | .captured v => some v
  | _ => none

/-- The number of a negative literal among some expressions. -/
def Typed.Expr.NegatedIn (x : Typed.Expr) (xs : List Typed.Expr) : Prop :=
  x.intLiteral? ≠ none ∧ ∃ id ty, ⟨id, ty, .unary .neg x⟩ ∈ xs

theorem Typed.Expr.NegatedIn.mono {x : Typed.Expr} {xs ys : List Typed.Expr} (h : x.NegatedIn xs) (hsub : xs ⊆ ys) :
    x.NegatedIn ys := by
  obtain ⟨hliteral, id, ty, hmem⟩ := h
  exact ⟨hliteral, id, ty, hsub hmem⟩

theorem Typed.Expr.not_negatedIn {x : Typed.Expr} (h : x.intLiteral? = none) {xs : List Typed.Expr} : ¬x.NegatedIn xs :=
  fun hx => hx.1 h

namespace Judgement

open Typed Variable

/-- The trees that a tree consists of, each with the variables that are declared around it. -/
structure Consists (j : Judgement) (js : List (List Variable × Judgement)) : Prop where
  enters : ∀ p ∈ js, j.context.Enters j.start p.1 p.2.context p.2.start
  within : ∀ p ∈ js, p.1 ⊆ j.decls ∧ p.2.decls ⊆ j.decls ∧ p.2.reads ⊆ j.reads ∧ p.2.nodes ⊆ j.innerNodes
  decls : ∀ v ∈ j.decls, j.start ≤ v.id ∨ ∃ p ∈ js, v ∈ p.2.decls
  reads : ∀ v ∈ j.reads, (∃ x ∈ j.self, x.variable? = some v) ∨ ∃ p ∈ js, v ∈ p.2.reads
  nodes : ∀ x ∈ j.innerNodes, x.NegatedIn j.self ∨ ∃ p ∈ js, x ∈ p.2.nodes

variable {j k l : Judgement} {vs : List Variable} {js : List (List Variable × Judgement)}

/-- What a tree declares, apart from the trees in it, has new numbers. -/
theorem consists_of (own : List Variable) (hown : From j.start own)
    (enters : ∀ p ∈ js, p.1 ⊆ j.decls ∧ j.context.Enters j.start p.1 p.2.context p.2.start)
    (decls : ∀ v, v ∈ j.decls ↔ v ∈ own ∨ ∃ p ∈ js, v ∈ p.2.decls) (reads : j.reads = js.flatMap (·.2.reads))
    (nodes : j.innerNodes = js.flatMap (·.2.nodes)) : Consists j js where
  enters p hp := (enters p hp).2
  within p hp := by
    refine ⟨(enters p hp).1, fun v hv => (decls v).2 (.inr ⟨p, hp, hv⟩), ?_, ?_⟩
    · exact reads ▸ fun v hv => List.mem_flatMap.2 ⟨p, hp, hv⟩
    · exact nodes ▸ fun x hx => List.mem_flatMap.2 ⟨p, hp, hx⟩
  decls v hv := ((decls v).1 hv).imp_left (hown v)
  reads v hv := .inr (List.mem_flatMap.1 (reads ▸ hv))
  nodes x hx := .inr (List.mem_flatMap.1 (nodes ▸ hx))

variable {returns : Bool} {v : Variable} {ty : Ty} {params captures : List Variable} {body : Typed.Body}

/-- Variables that a statement declares for the statements after it. -/
theorem Derivable.after {Γ Γ' : Context} {n n' : Nat} {s : Typed.Stmt}
    (h : Derivable (stmt Γ n s returns Γ' n')) : ∃ vs ⊆ s.decls, Γ.Enters n vs Γ' n' := by
  have hle := h.start_le_stop
  cases h with
  | let_ init =>
    exact ⟨[_], by simp [Stmt.decls], (Context.enters_same init.start_le_stop).bind rfl⟩
  | _ => exact ⟨[], List.nil_subset _, Context.enters_same hle⟩

/-- **An induction over well-typed trees**, in which names, operators and statements are all alike. -/
theorem Derivable.of_parts {P : Judgement → Prop} (h : Derivable j)
    (tree : ∀ {j} js, Derivable j → Consists j js → (∀ p ∈ js, P p.2) → P j)
    (literal : ∀ {Γ n id ty known vs b n' k}, Derivable (expr Γ n ⟨id, ty, .lambda vs (Body.captures n b) b⟩ n') →
      (Γ.function n known).Enters n vs k.context k.start → k.reads = b.reads → k.nodes = b.nodes → P k →
        P (expr Γ n ⟨id, ty, .lambda vs (Body.captures n b) b⟩ n')) : P j := by
  suffices hall : Derivable j → P j from hall h
  have one {j k : Judgement} (hj : Derivable j) (hk : P k) (henters : j.context.Enters j.start [] k.context k.start)
      (hdecls : j.decls = k.decls) (hreads : j.reads = k.reads) (hnodes : j.innerNodes = k.nodes) : P j := by
    refine tree [([], k)] hj (consists_of [] .nil ?_ ?_ ?_ ?_) (List.forall_mem_singleton.2 hk) <;> simp [*]
  have two {j k l : Judgement} {vs : List Variable} (hj : Derivable j) (hk : P k) (hl : P l)
      (hks : j.context.Enters j.start [] k.context k.start) (hls : j.context.Enters j.start vs l.context l.start)
      (hvs : vs ⊆ k.decls) (hdecls : j.decls = k.decls ++ l.decls) (hreads : j.reads = k.reads ++ l.reads)
      (hnodes : j.innerNodes = k.nodes ++ l.nodes) : P j := by
    refine tree [([], k), (vs, l)] hj (consists_of [] .nil ?_ ?_ ?_ ?_) (by simp [hk, hl]) <;> simp_all
  induction h with intro hj
  | int | float | bool | str | bytes | function | unit | variantOnly | argsNil | partsNil | initsNil | armsNil
  | break_ | continue_ | returnNone | stmtsNil => 
    refine tree [] hj (consists_of [] .nil ?_ (fun v => ?_) rfl rfl) (List.forall_mem_nil _)
    · exact List.forall_mem_nil _
    · exact ⟨.inl, fun h => h.elim id (by simp)⟩
  | local_ | captured | negLiteral =>
    refine tree [] hj ⟨?_, ?_, ?_, ?_, ?_⟩ (List.forall_mem_nil _) <;>
      simp [Judgement.reads, Expr.reads, Form.reads, self, Judgement.decls, Expr.decls, Form.decls, innerNodes,
        Form.nodes, Expr.nodes, Expr.variable?, Expr.NegatedIn, Expr.intLiteral?]
  | interp part ih | call _ part ih | static _ _ _ part ih | array part ih | structLit _ part ih | partsText part ih
  | block part ih | blockStmt part ih | not part _ ih | neg part _ ih | cast part _ _ ih | variantOf _ part _ ih
  | pop part _ _ ih | arrayLength part _ ih | byteLength part _ ih | field part _ _ _ ih | await part _ ih
  | try_ part _ _ ih | outcome part _ ih | returnSome part _ _ ih | exprStmt part ih =>
    exact one hj (ih part) (Context.enters_same (Nat.le_refl _)) rfl rfl rfl
  | logical _ lhs _ rhs _ ihl ihr | binary lhs rhs _ _ ihl ihr | push lhs _ _ rhs _ ihl ihr
  | index lhs _ rhs _ ihl ihr | assign lhs _ rhs _ _ ihl ihr
  | method lhs _ _ _ _ rhs ihl ihr | indirect lhs _ rhs ihl ihr | match_ lhs rhs ihl ihr | argsCons lhs _ rhs ihl ihr
  | partsExpr lhs _ rhs ihl ihr | initsCons _ lhs _ rhs ihl ihr | ifThen lhs _ rhs ihl ihr | while_ lhs _ rhs ihl ihr =>
    exact two hj (ihl lhs) (ihr rhs) (Context.enters_same (Nat.le_refl _)) (Context.enters_same lhs.start_le_stop)
      (List.nil_subset _) rfl rfl rfl
  | stmtsCons head tail ihh iht =>
    obtain ⟨vs, hvs, hafter⟩ := head.after
    exact two hj (ihh head) (iht tail) (Context.enters_same (Nat.le_refl _)) hafter hvs rfl rfl rfl
  | lambdaExpr params body _ ih =>
    exact literal hj (Context.enters_bindAll params) rfl rfl (ih body)
  | lambdaBlock params body _ ih =>
    exact literal hj (Context.enters_bindAll params).inner rfl rfl (ih body)
  | @armsCons Γ n _ _ p _ _ _ _ pattern body _ tail ihb iht =>
    have harm : Γ.Enters n p.binder?.toList (Γ.arm p) _ :=
      (Context.enters_same (Nat.le_refl _)).bindAll pattern.numberedFrom
    have htail : Γ.Enters n [] Γ _ := Context.enters_same (Nat.le_trans harm.le body.start_le_stop)
    refine tree [(p.binder?.toList, _), ([], _)] hj (consists_of _ (fun v hv => (harm.bounds hv).1) ?_ ?_ ?_ ?_)
      (List.forall_mem_cons.2 ⟨ihb body, List.forall_mem_singleton.2 (iht tail)⟩)
    · exact List.forall_mem_cons.2 ⟨⟨by simp [Judgement.decls, armDecls], harm⟩, List.forall_mem_singleton.2 ⟨List.nil_subset _, htail⟩⟩
    all_goals simp [Judgement.decls, armDecls, Judgement.reads, armReads, innerNodes, nodes, armNodes]
  | @let_ Γ _ _ name ty isConst _ n' init _ _ ih =>
    refine tree [([], _)] hj (consists_of [⟨n', name, ty, isConst⟩] (List.forall_mem_singleton.2 init.start_le_stop) ?_ ?_ ?_ ?_)
      (List.forall_mem_singleton.2 (ih init))
    · exact List.forall_mem_singleton.2 ⟨List.nil_subset _, Context.enters_same (Nat.le_refl _)⟩
    all_goals simp [Judgement.decls, Stmt.decls, Judgement.reads, Stmt.reads, innerNodes, nodes, Stmt.nodes, or_comm]
  | ifElse cond _ thenBlock elseBlock ihc iht ihe =>
    have hc := cond.start_le_stop
    have ht := Nat.le_trans hc thenBlock.start_le_stop
    refine tree [([], _), ([], _), ([], _)] hj (consists_of [] .nil ?_ ?_ ?_ ?_)
      (List.forall_mem_cons.2 ⟨ihc cond, List.forall_mem_cons.2 ⟨iht thenBlock, List.forall_mem_singleton.2 (ihe elseBlock)⟩⟩)
    · simpa using ⟨Context.enters_same (Nat.le_refl _), Context.enters_same hc, Context.enters_same ht⟩
    all_goals simp [Judgement.decls, Stmt.decls, Judgement.reads, Stmt.reads, innerNodes, nodes, Stmt.nodes]
  | @for_ Γ _ _ name elem _ n₁ _ _ _ iterable _ body ihi ihb =>
    have hi := iterable.start_le_stop
    have hbody : Γ.Enters _ [⟨n₁, name, elem, false⟩] (Γ.loop.inner.bind ⟨n₁, name, elem, false⟩).inner _ :=
      ((Context.enters_same hi).bind rfl).inner
    refine tree [([], _), ([⟨n₁, name, elem, false⟩], _)] hj (consists_of [⟨n₁, name, elem, false⟩] (List.forall_mem_singleton.2 hi) ?_ ?_ ?_ ?_)
      (List.forall_mem_cons.2 ⟨ihi iterable, List.forall_mem_singleton.2 (ihb body)⟩)
    · simpa [Judgement.decls, Stmt.decls] using ⟨Context.enters_same (Nat.le_refl _), hbody⟩
    all_goals simp [Judgement.decls, Stmt.decls, Judgement.reads, Stmt.reads, innerNodes, nodes, Stmt.nodes, or_left_comm]

/-- **A tree declares variables with new numbers.** -/
theorem Derivable.decls (h : Derivable j) : From j.start j.decls := by
  refine h.of_parts (P := fun j => From j.start j.decls) (fun js _ hj ih v hv => ?_) fun _ _ _ _ _ => .nil
  rcases hj.decls v hv with hnew | ⟨p, hp, hv⟩
  · exact hnew
  · exact Nat.le_trans (hj.enters p hp).le (ih p hp v hv)

/-- A name stands for a visible variable. -/
theorem Derivable.exists_find? {Γ : Context} {n n' : Nat} {x : Typed.Expr}
    (h : Derivable (expr Γ n x n')) (hv : x.variable? = some v) : ∃ name, Γ.scopes.find? name = some v := by
  cases h with
  | local_ found | captured found =>
    cases hv
    exact ⟨_, found⟩
  | _ => cases hv

/-- **A variable that is read but not declared in a tree is visible where the tree stands.** -/
theorem Derivable.visible (h : Derivable j) : j.context.Sees j.start j.reads := by
  refine h.of_parts (P := fun j => j.context.Sees j.start j.reads) (fun js hd hj ih v hv hlt => ?_)
    fun _ henters hreads _ ih v hv hlt => ?_
  · rcases hj.reads v hv with ⟨x, hx, hname⟩ | ⟨p, hp, hv⟩
    · obtain ⟨Γ, n, n', rfl⟩ := exists_of_mem_self hx
      exact hd.exists_find? hname
    · exact (hj.enters p hp).sees (ih p hp) v hv hlt
  · exact henters.sees ih v (hreads ▸ (Body.of_mem_captures hv).1) hlt

/-! ## Expressions -/

variable {Γ : Context} {n n' : Nat}

/-- Expressions that are well typed, each in some context in which a number stands for one variable.  The
number of a negative literal among `ys` need not be well typed without its sign. -/
def AllTyped (t : SymbolTable) (xs ys : List Typed.Expr) : Prop :=
  ∀ x ∈ xs, ¬x.NegatedIn ys → ∃ Γ n n', Γ.symbols = t ∧ Γ.Fresh n ∧ Derivable (expr Γ n x n')

theorem AllTyped.mono {t : SymbolTable} {xs ys zs : List Typed.Expr} (h : AllTyped t xs ys) (hsub : ys ⊆ zs) : AllTyped t xs zs :=
  fun x hx hneg => h x hx fun hx => hneg (hx.mono hsub)

theorem Derivable.allTyped_nodes (h : Derivable j) :
    j.context.Fresh j.start → AllTyped j.context.symbols j.nodes j.nodes := by
  -- The tree itself is well typed, and so is what is in the trees that it consists of.
  refine h.of_parts (P := fun j => j.context.Fresh j.start → AllTyped j.context.symbols j.nodes j.nodes)
    (fun js hd hj ih hΓ x hx hneg => ?_) fun {Γ n id ty known vs b n' k} hd henters _ hnodes ih hΓ => ?_
  · rcases mem_nodes.1 hx with hself | hx
    · obtain ⟨Γ, n, n', rfl⟩ := exists_of_mem_self hself
      exact ⟨Γ, n, n', rfl, hΓ, hd⟩
    · rcases hj.nodes x hx with hnegated | ⟨p, hp, hxp⟩
      · exact absurd (hnegated.mono fun _ h => mem_nodes.2 (.inl h)) hneg
      · have htyped := ih p hp ((hj.enters p hp).fresh hΓ)
        have hsub : p.2.nodes ⊆ _ := fun _ h => mem_nodes.2 (.inr ((hj.within p hp).2.2.2 h))
        exact (hj.enters p hp).symbols ▸ htyped.mono hsub x hxp hneg
  · have htyped : AllTyped Γ.symbols b.nodes b.nodes := hnodes ▸ henters.symbols ▸ ih (henters.fresh hΓ.function)
    simp only [nodes, Expr.nodes, Form.nodes_lambda]
    exact List.forall_mem_cons.2 ⟨fun _ => ⟨Γ, n, n', rfl, hΓ, hd⟩, htyped.mono (List.subset_cons_self _ _)⟩

/-- **Every expression in well-typed statements is well typed.** -/
theorem Derivable.allTyped {ss : List Typed.Stmt} (h : Derivable (stmts Γ n ss returns n'))
    (hΓ : Γ.Fresh n) : AllTyped Γ.symbols (stmtNodes ss) (stmtNodes ss) :=
  h.allTyped_nodes hΓ

/-! ## Function literals -/

/-- What the rules say about a function literal when `first` is the number of its first variable. -/
structure LiteralTyped (Γ : Context) (first : Nat) (ty : Ty) (params captures : List Variable)
    (body : Typed.Body) : Prop where
  ty : ∃ ret, ty = .fn (params.map (·.ty)) ret
  params : Variable.NumberedFrom first params
  captures : captures = body.captures first
  decls : Variable.From first body.decls
  sees : Γ.Sees first body.reads

theorem Derivable.literal {id : Nat} (h : Derivable (expr Γ n ⟨id, ty, .lambda params captures body⟩ n')) :
    LiteralTyped Γ n ty params captures body := by
  cases h with
  | lambdaExpr params body _ | lambdaBlock params body _ =>
    refine ⟨⟨_, rfl⟩, params, rfl, body.decls.mono (Nat.le_add_right _ _), ?_⟩
    exact (@Context.enters_bindAll (Γ.function n _) _ _ params).sees body.visible

end Judgement

end StackScript
