import StackScript.Tree.Grammar

/-!
# Operators between operands

Expressions made of operators alone: names and numbers, each with operators in front and casts behind, joined by
binary operators.  They are read as the grammar of precedences says, with operators of one level grouped to the left.
-/

namespace StackScript

/-! ## The reference grammar -/

/-- Operators in front of an operand. -/
inductive FrontOp where
  | unary (op : UnaryOp)
  | await

/-- The operator with its operand. -/
def FrontOp.form : FrontOp → Expr → ExprForm
  | unary op, e => .unary op e
  | await, e => .await e

/-- A name or a number. -/
inductive Atom where
  | ident (name : String)
  | int (value : Nat)

/-- A name of a type that is written with nothing behind it. -/
abbrev PlainName := { ty : String // ty ≠ "Result" ∧ ty ≠ "Promise" }

/-- A name or a number with the operators in front of it and the types that it is cast to. -/
structure Operand where
  fronts : List FrontOp
  atom : Atom
  casts : List PlainName

/-- A tree without numbers and places. -/
inductive Shape where
  | atom (a : Atom)
  | front (op : FrontOp) (s : Shape)
  | cast (s : Shape) (ty : PlainName)
  | binary (op : BinaryOp) (l r : Shape)

/-- Casts are around the operators in front. -/
def Operand.shape (x : Operand) : Shape :=
  x.casts.foldl .cast (x.fronts.foldr .front (.atom x.atom))

/-- The precedence of an operator. -/
def BinaryOp.precedence : BinaryOp → Nat
  | or => 0
  | and => 1
  | eq | ne => 2
  | lt | le | gt | ge => 3
  | add | sub => 4
  | mul | div | rem => 5

/-- The tree of operands in a row, which is split at its last operator of lowest precedence. -/
inductive Splits : Operand → List (BinaryOp × Operand) → Shape → Prop
  | single (x : Operand) : Splits x [] x.shape
  | split {x before op y after l r} (left : Splits x before l) (right : Splits y after r)
      (lowest : ∀ p ∈ before, op.precedence ≤ p.1.precedence)
      (last : ∀ p ∈ after, op.precedence < p.1.precedence) :
      Splits x (before ++ (op, y) :: after) (.binary op l r)

/-- An expression is a tree with numbers and places. -/
def Shape.Of : Shape → Expr → Prop
  | atom (.ident name), e => e.form = .ident name
  | atom (.int n), e => e.form = .int n
  | front op s, e => ∃ a, e.form = op.form a ∧ s.Of a
  | cast s ty, e => ∃ a span, e.form = .cast a ⟨.named ty.1, span⟩ ∧ s.Of a
  | binary op l r, e => ∃ a b, e.form = .binary op a b ∧ l.Of a ∧ r.Of b

/-! ## Tokens -/

/-- The spelling of an operator. -/
def BinaryOp.mark : BinaryOp → Mark
  | or => .or
  | and => .and
  | eq => .eq
  | ne => .ne
  | lt => .lt
  | le => .le
  | gt => .gt
  | ge => .ge
  | add => .plus
  | sub => .minus
  | mul => .star
  | div => .slash
  | rem => .percent

def FrontOp.kind : FrontOp → TokenKind
  | unary .neg => .mark .minus
  | unary .not => .mark .not
  | await => .keyword .await

def Atom.kind : Atom → TokenKind
  | ident name => .ident name
  | int n => .int n

def castKinds (casts : List PlainName) : List TokenKind :=
  casts.flatMap fun ty => [.keyword .as_, .ident ty.1]

theorem length_castKinds (casts : List PlainName) : (castKinds casts).length = 2 * casts.length := by
  induction casts with
  | nil => rfl
  | cons ty casts ih =>
    rw [List.length_cons, Nat.mul_add, ← ih]
    rfl

/-- The tokens of an operand. -/
def Operand.kinds (x : Operand) : List TokenKind :=
  x.fronts.map FrontOp.kind ++ x.atom.kind :: castKinds x.casts

/-- The tokens of operators and the operands behind them. -/
def restKinds (rest : List (BinaryOp × Operand)) : List TokenKind :=
  rest.flatMap fun p => .mark p.1.mark :: p.2.kinds

/-- What an expression of a level stops at. -/
structure Stops (level : Nat) (tail : List TokenKind) : Prop where
  name : ∀ k ∈ tail.head?, k ≠ .mark .path ∧ k ≠ .mark .lbrace
  low : ∀ k ∈ tail.head?, ∀ i, Infix.ofKind? k = some i → i.level ≤ level

/-- The tokens that are left. -/
def Cursor.left (c : Cursor) : List TokenKind :=
  c.after.map (·.kind)

section

variable {c : Cursor} {k : TokenKind} {ks tail : List TokenKind} {level : Nat}

theorem Cursor.kind_of_left (h : c.left = k :: ks) : c.kind = k := by
  unfold left at h
  unfold Cursor.kind
  cases hc : c.after with
  | nil => simp [hc] at h
  | cons t ts => simp_all

theorem Cursor.left_advance (h : c.left = k :: ks) (hk : k ≠ .eof) : c.advance.left = ks := by
  unfold left at *
  unfold Cursor.advance
  cases hc : c.after with
  | nil => simp [hc] at h
  | cons t ts => simp_all

theorem Stops.mono {level' : Nat} (h : Stops level tail) (hle : level ≤ level') : Stops level' tail :=
  ⟨h.name, fun k hk i hi => Nat.le_trans (h.low k hk i hi) hle⟩

/-- What stands there goes on neither a name nor an expression. -/
theorem Stops.kind (h : Stops level c.left) :
    (c.kind ≠ .mark .path ∧ c.kind ≠ .mark .lbrace) ∧ ∀ i, Infix.ofKind? c.kind = some i → i.level ≤ level := by
  cases hl : c.left with
  | nil =>
    rw [Cursor.kind, List.map_eq_nil_iff.1 hl]
    exact ⟨⟨nofun, nofun⟩, nofun⟩
  | cons k ks =>
    rw [Cursor.kind_of_left hl]
    exact ⟨h.name k (by simp [hl]), h.low k (by simp [hl])⟩

end

theorem BinaryOp.ofKind?_mark (op : BinaryOp) :
    Infix.ofKind? (.mark op.mark) = some (.binary op) ∧ (Infix.binary op).level = op.precedence + 1 := by
  cases op <;> exact ⟨rfl, rfl⟩

/-- Before an operator, and at the end of a row, an expression of its level stops. -/
theorem stops_restKinds {rest : List (BinaryOp × Operand)} {level : Nat} {tail : List TokenKind}
    (h : ∀ q ∈ rest.head?, q.1.precedence < level) (htail : rest = [] → Stops level tail) :
    Stops level (restKinds rest ++ tail) := by
  cases rest with
  | nil => exact htail rfl
  | cons q rest =>
    obtain ⟨hkind, hlevel⟩ := q.1.ofKind?_mark
    refine ⟨fun k hk => ?_, fun k hk i hi => ?_⟩ <;> obtain rfl : TokenKind.mark q.1.mark = k := Option.some.inj hk
    · constructor <;> intro heq <;> rw [heq] at hkind <;> cases hkind
    · rw [hkind] at hi
      cases hi
      exact hlevel ▸ h q rfl

namespace Parse

variable {α β : Type} {x : Parse α} {f : α → Parse β} {a : α} {b : β} {c c₁ c₂ : Cursor} {k : TokenKind}
  {ks tail : List TokenKind} {bare : Bool} {level : Nat} {V : Expr → Prop}

/-- A step goes well. -/
def Goes (x : Parse α) (c : Cursor) (a : α) (c₁ : Cursor) : Prop :=
  x c = .ok (a, c₁)

theorem Goes.bind (hx : Goes x c a c₁) (hf : Goes (f a) c₁ b c₂) : Goes (x >>= f) c b c₂ := by
  show (x c >>= fun r => f r.1 r.2) = _
  rw [show x c = _ from hx]
  exact hf

theorem goes_here : Goes here c c.span c := rfl

theorem goes_kind (h : c.left = k :: ks) : Goes kind c k c := by
  rw [← Cursor.kind_of_left h]
  rfl

theorem goes_bump : Goes bump c () c.advance := rfl

theorem goes_isAt (h : c.kind ≠ k) : Goes (isAt k) c false c := by
  show Except.ok (decide (c.kind = k), c) = _
  rw [decide_eq_false h]

theorem goes_skip (h : c.kind ≠ k) : Goes (skip k) c false c :=
  (goes_isAt h).bind rfl

/-- A step that gives an expression with `V` and leaves some tokens. -/
def Makes (x : Parse Expr) (c : Cursor) (V : Expr → Prop) (tail : List TokenKind) : Prop :=
  ∃ e c₁, Goes x c e c₁ ∧ V e ∧ c₁.left = tail

theorem Goes.makes {f : α → Parse Expr} (hx : Goes x c a c₁) (hf : Makes (f a) c₁ V tail) :
    Makes (x >>= f) c V tail := by
  obtain ⟨e, c₂, hgoes, he, hleft⟩ := hf
  exact ⟨e, c₂, hx.bind hgoes, he, hleft⟩

theorem Makes.bind {x : Parse Expr} {f : Expr → Parse Expr} {V' : Expr → Prop} {tail' : List TokenKind}
    (hx : Makes x c V tail) (hf : ∀ e c₁, V e → c₁.left = tail → Makes (f e) c₁ V' tail') :
    Makes (x >>= f) c V' tail' := by
  obtain ⟨e, c₁, hgoes, he, hleft⟩ := hx
  exact hgoes.makes (hf e c₁ he hleft)

theorem makes_node {form : ExprForm} {start : Span} (h : c.left = tail) (hs : ∀ id span, V ⟨id, form, span⟩) :
    Makes (node form start) c V tail :=
  ⟨_, _, rfl, hs _ _, h⟩

/-- The end of a row. -/
theorem infixes_stop (bound : Nat) {lhs : Expr} (hlhs : V lhs) (hleft : c.left = tail) (hstop : Stops level tail) :
    Makes (infixes (bound + 1) bare level lhs) c V tail := by
  refine ⟨lhs, c, ?_, hlhs, hleft⟩
  rw [infixes]
  refine Goes.bind (rfl : Goes kind c c.kind c) ?_
  split
  · rfl
  next i hi =>
    rw [if_pos ((hleft ▸ hstop).kind.2 i hi)]
    rfl

/-- A name or a number. -/
theorem operand_atom (bound : Nat) {a : Atom} (h : c.left = a.kind :: tail) (hstop : Stops 9 tail) :
    Makes (operand (bound + 2) bare) c (Shape.atom a).Of tail := by
  rw [operand]
  refine goes_here.makes ((goes_kind h).makes ?_)
  cases a with
  | int n => exact goes_bump.makes (makes_node (c.left_advance h nofun) fun _ _ => rfl)
  | ident name =>
    have hleft := c.left_advance h nofun
    obtain ⟨⟨hpath, hbrace⟩, hlow⟩ := (hleft ▸ hstop).kind
    have hparen : c.advance.kind ≠ .mark .lparen := fun hkind =>
      absurd (hlow .call (by rw [hkind]; rfl)) (by decide)
    have hnamed : Goes (named (bound + 1) bare name) c.advance (.ident name) c.advance := by
      rw [named]
      refine (goes_skip hpath).bind ((goes_isAt hparen).bind ?_)
      rw [if_neg (by simp)]
      refine (goes_isAt hbrace).bind ?_
      rw [if_neg (by simp)]
      rfl
    exact goes_bump.makes (hnamed.makes (makes_node hleft fun _ _ => rfl))

/-- The level of what an operator stands in front of. -/
def frontLevel : FrontOp → Nat
  | .unary _ => Infix.unaryLevel
  | .await => Infix.awaitLevel

/-- Operators in front of a name or a number. -/
theorem operand_fronts {a : Atom} (hstop : Stops 7 tail) : ∀ (fronts : List FrontOp) (bound : Nat) {c : Cursor},
    2 * fronts.length + 2 ≤ bound → c.left = fronts.map FrontOp.kind ++ a.kind :: tail →
      Makes (operand bound bare) c (fronts.foldr .front (.atom a) : Shape).Of tail
  | [], bound + 2, c, _, h => operand_atom bound h (hstop.mono (by decide))
  | op :: fronts, bound + 2, c, hbound, h => by
    rw [List.length_cons] at hbound
    have hleft := c.left_advance h (by rcases op with (_ | _) | _ <;> nofun)
    have hlevel : 7 ≤ frontLevel op := by rcases op with (_ | _) | _ <;> decide
    have hexpr : Makes (expression (bound + 1) bare (frontLevel op)) c.advance
        (fronts.foldr .front (.atom a) : Shape).Of tail := by
      rw [expression]
      refine (operand_fronts hstop fronts bound (by omega) hleft).bind fun e c₁ he hleft₁ => ?_
      obtain ⟨bound, rfl⟩ : ∃ n, bound = n + 1 := ⟨bound - 1, by omega⟩
      exact infixes_stop bound he hleft₁ (hstop.mono hlevel)
    have hnode : Makes (bump >>= fun _ => expression (bound + 1) bare (frontLevel op) >>= fun e =>
        node (op.form e) c.span) c ((op :: fronts).foldr .front (.atom a) : Shape).Of tail :=
      goes_bump.makes (hexpr.bind fun e c₁ he hleft₁ => makes_node hleft₁ fun _ _ => ⟨e, rfl, he⟩)
    rw [operand]
    refine goes_here.makes ((goes_kind h).makes ?_)
    rcases op with (_ | _) | _ <;> exact hnode

theorem typeExpr_named (bound : Nat) {ty : PlainName} (h : c.left = .ident ty.1 :: tail) :
    ∃ span, Goes (typeExpr (bound + 1)) c ⟨.named ty.1, span⟩ c.advance := by
  refine ⟨c.span.merge c.advance.previousSpan, ?_⟩
  rw [typeExpr]
  refine goes_here.bind ((goes_kind h).bind ?_)
  split
  next hk => cases hk
  next hk => cases hk
  next hk => exact absurd (TokenKind.ident.inj hk) ty.2.1
  next hk => exact absurd (TokenKind.ident.inj hk) ty.2.2
  next hk =>
    cases hk
    rfl
  next hne => exact absurd rfl (hne ty.1)

/-- Casts behind an operand. -/
theorem infixes_casts {tail' : List TokenKind} (hlevel : level < 7) : ∀ (casts : List PlainName) (bound : Nat)
    {c : Cursor} {lhs : Expr} {s : Shape}, s.Of lhs → c.left = castKinds casts ++ tail →
      (∀ lhs c, (casts.foldl .cast s).Of lhs → c.left = tail → Makes (infixes (bound + 1) bare level lhs) c V tail') →
      Makes (infixes (bound + casts.length + 1) bare level lhs) c V tail'
  | [], _, c, lhs, _, hs, h, hrest => hrest lhs c hs h
  | ty :: casts, bound, c, lhs, s, hs, h, hrest => by
    have hleft := c.left_advance h nofun
    obtain ⟨span, htype⟩ := typeExpr_named (bound + casts.length) hleft
    rw [List.length_cons, ← Nat.add_assoc, infixes]
    refine (goes_kind h).makes ?_
    show Makes (if 7 ≤ level then _ else _) c V tail'
    rw [if_neg (Nat.not_le.2 hlevel)]
    have hnode : Makes (node _ lhs.span) c.advance.advance (Shape.cast s ty).Of (castKinds casts ++ tail) :=
      makes_node (Cursor.left_advance hleft nofun) fun _ _ => ⟨lhs, span, rfl, hs⟩
    refine goes_bump.makes (htype.makes (Goes.makes rfl (hnode.bind fun lhs c hs h => ?_)))
    exact infixes_casts hlevel casts bound hs h hrest

/-- An operand, and what follows it. -/
theorem expression_operand {y : Operand} {bound : Nat} {tail' : List TokenKind} (hlevel : level < 7)
    (h : c.left = y.kinds ++ tail) (hstop : Stops 6 tail) (hbound : 2 * y.kinds.length ≤ bound)
    (hrest : ∀ lhs c n, y.shape.Of lhs → c.left = tail → bound ≤ n + y.kinds.length →
      Makes (infixes (n + 1) bare level lhs) c V tail') : Makes (expression (bound + 1) bare level) c V tail' := by
  have hlength : y.kinds.length = y.fronts.length + 1 + 2 * y.casts.length := by
    simp [Operand.kinds, length_castKinds]
    omega
  rw [Operand.kinds, List.append_assoc, List.cons_append] at h
  rw [expression]
  have hstop' : Stops 7 (castKinds y.casts ++ tail) := by
    cases y.casts with
    | nil => exact hstop.mono (by decide)
    | cons ty casts => exact ⟨by simp [castKinds], by simp [castKinds, Infix.ofKind?, Infix.level]⟩
  refine (operand_fronts hstop' y.fronts bound (by omega) h).bind fun lhs c₁ hlhs hleft => ?_
  obtain ⟨n, rfl⟩ : ∃ n, bound = n + y.casts.length + 1 := ⟨bound - y.casts.length - 1, by omega⟩
  exact infixes_casts hlevel y.casts n hlhs hleft fun lhs c hlhs hleft => hrest lhs c n hlhs hleft (by omega)

/-- **How a row of operands is read**, when those before it are a tree. -/
theorem infixes_rest : ∀ (x : Operand) (done rest : List (BinaryOp × Operand)) {c : Cursor} {lhs : Expr}
    {level bound : Nat} {tail : List TokenKind}, (∃ s, Splits x done s ∧ s.Of lhs) →
      (∀ p ∈ done, ∀ q ∈ rest.head?, q.1.precedence ≤ p.1.precedence) → (∀ q ∈ rest, level ≤ q.1.precedence) →
      c.left = restKinds rest ++ tail → Stops level tail → level < 7 → 2 * (restKinds rest).length ≤ bound →
      Makes (infixes (bound + 1) bare level lhs) c (fun e => ∃ s, Splits x (done ++ rest) s ∧ s.Of e) tail
  | _, _, [], _, _, _, bound, _, hlhs, _, _, h, hstop, _, _ =>
    infixes_stop bound (by simpa using hlhs) h hstop
  | x, done, (op, y) :: rest, c, lhs, level, bound, tail, ⟨s, hs, hlhs⟩, hdone, hrest, h, hstop, hlevel, _ => by
    obtain ⟨hop, hrest⟩ := List.forall_mem_cons.1 hrest
    dsimp only at hop
    obtain ⟨hkind, hlevelOp⟩ := op.ofKind?_mark
    have hsix : op.precedence < 6 := by cases op <;> decide
    -- The right operand of the operator ends where an operator binds no tighter.
    obtain ⟨taken, remaining, hsplit, htight, hloose⟩ : ∃ taken remaining, rest = taken ++ remaining ∧
        (∀ q ∈ taken, op.precedence < q.1.precedence) ∧ ∀ q ∈ remaining.head?, q.1.precedence ≤ op.precedence := by
      refine ⟨rest.takeWhile (op.precedence < ·.1.precedence), rest.dropWhile (op.precedence < ·.1.precedence),
        List.takeWhile_append_dropWhile.symm, fun q hq => ?_, fun q hq => ?_⟩
      · simpa using List.all_eq_true.1 List.all_takeWhile q hq
      · have hnot := List.head?_dropWhile_not (op.precedence < ·.1.precedence) rest
        rw [Option.mem_def.1 hq] at hnot
        simpa using hnot
    subst hsplit
    have hremaining := (List.forall_mem_append.1 hrest).2
    have hstop' : Stops (op.precedence + 1) (restKinds remaining ++ tail) :=
      stops_restKinds (fun q hq => Nat.lt_succ_of_le (hloose q hq)) fun _ => hstop.mono (by omega)
    have hkinds : restKinds ((op, y) :: (taken ++ remaining)) ++ tail =
        .mark op.mark :: (y.kinds ++ (restKinds taken ++ (restKinds remaining ++ tail))) := by
      simp [restKinds]
    have hlength : (restKinds ((op, y) :: (taken ++ remaining))).length =
        1 + y.kinds.length + (restKinds taken).length + (restKinds remaining).length := by
      simp [restKinds]
      omega
    obtain ⟨bound, rfl⟩ : ∃ n, bound = n + 1 := ⟨bound - 1, by omega⟩
    rw [hkinds] at h
    have hright : Makes (expression (bound + 1) bare (op.precedence + 1)) c.advance
        (fun e => ∃ s, Splits y taken s ∧ s.Of e) (restKinds remaining ++ tail) := by
      refine expression_operand (by omega) (c.left_advance h nofun) ?_ (by omega) fun lhs c n hlhs hleft hn => ?_
      · exact stops_restKinds (fun q _ => by cases q.1 <;> decide) fun _ => hstop'.mono hsix
      · exact infixes_rest y [] taken ⟨_, .single y, hlhs⟩ (by simp) htight hleft hstop' (by omega) (by omega)
    rw [infixes]
    refine (goes_kind h).makes ?_
    rw [hkind]
    show Makes (if (Infix.binary op).level ≤ level then _ else _) c _ tail
    rw [if_neg (by omega)]
    refine goes_bump.makes ?_
    show Makes (expression (bound + 1) bare (Infix.binary op).level >>= fun rhs => _) c.advance _ tail
    rw [hlevelOp]
    refine hright.bind fun rhs c₁ ⟨r, hr, hrhs⟩ hleft₁ => Goes.makes rfl ?_
    have hnode : Makes (node (.binary op lhs rhs) lhs.span) c₁ (Shape.binary op s r).Of (restKinds remaining ++ tail) :=
      makes_node hleft₁ fun _ _ => ⟨lhs, rhs, rfl, hlhs, hrhs⟩
    refine hnode.bind fun lhs c₂ hlhs hleft₂ => ?_
    have hdone' : ∀ p ∈ done, op.precedence ≤ p.1.precedence := fun p hp => hdone p hp (op, y) rfl
    have happend : done ++ (op, y) :: (taken ++ remaining) = done ++ (op, y) :: taken ++ remaining := by simp
    rw [happend]
    refine infixes_rest x _ remaining ⟨_, .split hs hr hdone' htight, hlhs⟩ ?_ hremaining hleft₂ hstop hlevel (by omega)
    simp only [List.forall_mem_append, List.forall_mem_cons]
    exact ⟨fun p hp q hq => Nat.le_trans (hloose q hq) (hdone' p hp), hloose,
      fun p hp q hq => Nat.le_trans (hloose q hq) (Nat.le_of_lt (htight p hp))⟩
termination_by _ _ rest => rest.length

end Parse

/-- An operator before which none binds looser stands no further than one behind which all bind tighter. -/
theorem length_le_of_cuts {before after before' after' : List (BinaryOp × Operand)} {p p' : BinaryOp × Operand}
    (h : before ++ p :: after = before' ++ p' :: after') (last : ∀ q ∈ after, p.1.precedence < q.1.precedence)
    (lowest : ∀ q ∈ before', p'.1.precedence ≤ q.1.precedence) : before'.length ≤ before.length := by
  obtain ⟨between, rfl, hafter⟩ | ⟨between, rfl, _⟩ := List.append_eq_append_iff.1 h
  · cases between with
    | nil => simp
    | cons q between =>
      obtain ⟨rfl, rfl⟩ := List.cons.inj hafter
      exact absurd (lowest p (by simp)) (Nat.not_le.2 (last p' (by simp)))
  · simp

/-- A row of operands has one tree. -/
theorem Splits.unique {x : Operand} {rest : List (BinaryOp × Operand)} {s s' : Shape} (h : Splits x rest s)
    (h' : Splits x rest s') : s = s' := by
  induction h generalizing s' with
  | single x =>
    generalize hrest : ([] : List (BinaryOp × Operand)) = rest at h'
    cases h' with
    | single => rfl
    | split => simp at hrest
  | @split x before op y after l r _ _ lowest last ihl ihr =>
    generalize hrest : before ++ (op, y) :: after = rest at h'
    cases h' with
    | single => simp at hrest
    | split left right lowest' last' =>
      have hlength := Nat.le_antisymm (length_le_of_cuts hrest.symm last' lowest) (length_le_of_cuts hrest last lowest')
      obtain ⟨rfl, htail⟩ := List.append_inj hrest hlength
      cases htail
      rw [ihl left, ihr right]

/-- **Operators are read by their precedence**, from left to right within a level. -/
theorem parseExpression_chain (x : Operand) (rest : List (BinaryOp × Operand)) (tokens : List Token)
    (h : tokens.map (·.kind) = x.kinds ++ restKinds rest ++ [.eof]) :
    ∃ e s, parseExpression tokens = .ok e ∧ s.Of e ∧ Splits x rest s ∧ ∀ s', Splits x rest s' → s' = s := by
  have hstop : Stops 0 [.eof] := ⟨by simp, by simp [Infix.ofKind?]⟩
  have hlength := congrArg List.length h
  simp only [List.length_map, List.length_append, List.length_cons, List.length_nil] at hlength
  rw [List.append_assoc] at h
  have hbound : Parse.boundFor tokens = 20 * tokens.length + 39 + 1 := by
    rw [Parse.boundFor]
    omega
  obtain ⟨e, c, hgoes, ⟨s, hs, he⟩, hleft⟩ : Parse.Makes (Parse.expression (Parse.boundFor tokens) false 0)
      (.ofTokens tokens) (fun e => ∃ s, Splits x rest s ∧ s.Of e) [.eof] := by
    rw [hbound]
    refine Parse.expression_operand (by decide) h ?_ (by omega) fun lhs c n hlhs hleft hn => ?_
    · exact stops_restKinds (fun q _ => by cases q.1 <;> decide) fun _ => hstop.mono (by decide)
    · exact Parse.infixes_rest x [] rest ⟨_, .single x, hlhs⟩ (by simp) (fun _ _ => Nat.zero_le _) hleft hstop
        (by decide) (by omega)
  refine ⟨e, s, ?_, he, hs, fun s' hs' => hs'.unique hs⟩
  have hend : Parse.Goes (Parse.isAt .eof) c true c := by
    show Except.ok (decide (c.kind = .eof), c) = _
    rw [c.kind_of_left hleft]
    rfl
  have hwhole : Parse.Goes (do
      let e ← Parse.expression (Parse.boundFor tokens) false 0
      if ← Parse.isAt .eof then return e else Parse.fail .endOfInput) (.ofTokens tokens) e c :=
    hgoes.bind (hend.bind rfl)
  simp only [parseExpression, StateT.run, show _ = _ from hwhole]
  rfl

/-- The text `-a as i64 as i32 - 1 * !await b == c - 2`. -/
def mixedTokens : List Token :=
  [.mark .minus, .ident "a", .keyword .as_, .ident "i64", .keyword .as_, .ident "i32", .mark .minus, .int 1, .mark .star,
    .mark .not, .keyword .await, .ident "b", .mark .eq, .ident "c", .mark .minus, .int 2, .eof].map (⟨·, .nowhere⟩)

def mixedOperand : Operand :=
  ⟨[.unary .neg], .ident "a", [⟨"i64", by decide⟩, ⟨"i32", by decide⟩]⟩

def mixedRest : List (BinaryOp × Operand) :=
  [(.sub, ⟨[], .int 1, []⟩), (.mul, ⟨[.unary .not, .await], .ident "b", []⟩), (.eq, ⟨[], .ident "c", []⟩),
    (.sub, ⟨[], .int 2, []⟩)]

theorem parseExpression_chain_mixed : ∃ e s, parseExpression mixedTokens = .ok e ∧ s.Of e ∧
    Splits mixedOperand mixedRest s ∧ ∀ s', Splits mixedOperand mixedRest s' → s' = s :=
  parseExpression_chain mixedOperand mixedRest mixedTokens rfl

end StackScript
