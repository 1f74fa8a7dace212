import StackScript.Proofs.Emit.Ledger
import StackScript.Proofs.Exec.Arithmetic

/-!
# Integers as they are written

The type of an integer literal comes from what is around it, and the number behind a minus sign need not have a place
in the type without the sign.  Code is emitted from the number and the type alone, with words that keep only the lowest
bits.  This module shows that no bit is lost: a checked literal is in the range of its type with its sign, and the only
word that reads as this number is the one in the code, in a template or in the test of a pattern.
-/

namespace StackScript

open Typed

/-! ## Words of a type -/

namespace IntKind

/-- The number that a word stands for in a type, if it has the width of the type's words. -/
def read? (k : IntKind) : Layout.Word → Option Int
  | .i32 b => if k.isWide then none else some (signedOr k.signed b)
  | .i64 b => if k.isWide then some (signedOr k.signed b) else none
  | .f64 _ => none

/-- A word that stands for a number, and the only one that does. -/
structure Encodes (k : IntKind) (w : Layout.Word) (n : Int) : Prop where
  read : k.read? w = some n
  only : ∀ w', k.read? w' = some n → w' = w

variable {k : IntKind} {n : Int}

theorem signedOr_inj {signed : Bool} {width : Nat} {a b : BitVec width} (h : signedOr signed a = signedOr signed b) :
    a = b := by
  cases signed with
  | true => exact BitVec.eq_of_toInt_eq h
  | false => exact BitVec.eq_of_toNat_eq (Int.ofNat_inj.1 h)

/-- Different words stand for different numbers. -/
theorem read?_inj {w w' : Layout.Word} (h : k.read? w = some n) (h' : k.read? w' = some n) : w = w' := by
  cases hwide : k.isWide with
  | true =>
    cases w with
    | i64 a =>
      cases w' with
      | i64 b =>
        simp only [read?, hwide, if_true, Option.some.injEq] at h h'
        rw [signedOr_inj (h.trans h'.symm)]
      | _ => simp [read?, hwide] at h'
    | _ => simp [read?, hwide] at h
  | false =>
    cases w with
    | i32 a =>
      cases w' with
      | i32 b =>
        simp only [read?, hwide, Bool.false_eq_true, if_false, Option.some.injEq] at h h'
        rw [signedOr_inj (h.trans h'.symm)]
      | _ => simp [read?, hwide] at h'
    | _ => simp [read?, hwide] at h

/-- **Numbers of a type keep their value as words.** -/
theorem encodes_intWord (h : k.contains n = true) : k.Encodes (Emit.intWord n (.int k)) n := by
  have hread : k.read? (Emit.intWord n (.int k)) = some n := by
    have hvalue := signedOr_ofInt h
    cases hwide : k.isWide with
    | true =>
      rw [show k.wordBits = 64 by simp [wordBits, hwide]] at hvalue
      simp [Emit.intWord, read?, hwide, hvalue]
    | false =>
      rw [show k.wordBits = 32 by simp [wordBits, hwide]] at hvalue
      simp [Emit.intWord, read?, hwide, hvalue]
  exact ⟨hread, fun w' h' => read?_inj h' hread⟩

/-- The negative of a number of a type with a sign is one too. -/
theorem contains_neg {n : Nat} (hsigned : k.signed = true) (h : k.contains n = true) : k.contains (-n) = true := by
  rw [contains_iff] at h ⊢
  simp only [lo, hi, hsigned, if_true] at h ⊢
  omega

theorem contains_of_holdsLiteral {ty : Ty} (h : ty.HoldsLiteral n) (hty : ty = .int k) : k.contains n = true := by
  rcases h with rfl | ⟨kind, rfl, hrange⟩
  · cases hty
  · cases hty
    exact hrange

end IntKind

/-! ## Literals -/

/-- The code of an expression, wherever it stands, and its word in a template are those of a number. -/
def Typed.Expr.Denotes (x : Typed.Expr) (k : IntKind) (n : Int) : Prop :=
  ∃ w, k.Encodes w n ∧ (∀ s, Emit.expr s x = pure [.op (Emit.wordConst w)]) ∧ x.literal? = some (.word w)

theorem Typed.Expr.denotes_int {id value : Nat} {k : IntKind} (h : k.contains value = true) :
    Typed.Expr.Denotes ⟨id, .int k, .int value⟩ k value :=
  ⟨_, IntKind.encodes_intWord h, fun _ => by rw [Emit.expr]; rfl, rfl⟩

theorem Typed.Expr.denotes_neg {id id' value : Nat} {k : IntKind} (h : k.contains (-value) = true) :
    Typed.Expr.Denotes ⟨id, .int k, .unary .neg ⟨id', .int k, .int value⟩⟩ k (-value) :=
  ⟨_, IntKind.encodes_intWord h, fun _ => by rw [Emit.expr]; rfl, rfl⟩

namespace Judgement.Derivable

variable {Γ : Context} {n n' id value : Nat} {ty : Ty}

theorem literal_range (h : Derivable (expr Γ n ⟨id, ty, .int value⟩ n')) : ty.HoldsLiteral value := by
  cases h with
  | int range => exact range

/-- A number behind a minus sign has the type of the whole, and a place in it with the sign. -/
theorem negative_range {id' : Nat} {ty' : Ty}
    (h : Derivable (expr Γ n ⟨id, ty, .unary .neg ⟨id', ty', .int value⟩⟩ n')) :
    ty' = ty ∧ ty.HoldsLiteral (-value) := by
  cases h with
  | negLiteral range _ => exact ⟨rfl, range⟩
  | neg operand negatable =>
    cases negatable with
    | float => exact ⟨rfl, .inl rfl⟩
    | int signed =>
      have hrange := IntKind.contains_of_holdsLiteral operand.literal_range rfl
      exact ⟨rfl, .inr ⟨_, rfl, IntKind.contains_neg signed hrange⟩⟩

end Judgement.Derivable

/-! ## Patterns -/

/-- The integers in a pattern, with their types. -/
def Typed.Pattern.numbers : Typed.Pattern → List (Int × Ty)
  | .int n ty => [(n, ty)]
  | .variant _ (some (_, p)) => p.numbers
  | _ => []

theorem Typed.Pattern.Fits.holdsLiteral {t : SymbolTable} {id : Nat} {p : Typed.Pattern} {ty : Ty} (h : p.Fits t id ty) :
    ∀ q ∈ p.numbers, q.2.HoldsLiteral q.1 := by
  induction h with
  | int range => exact List.forall_mem_singleton.2 (.inr ⟨_, rfl, range⟩)
  | intAsFloat => exact List.forall_mem_singleton.2 (.inl rfl)
  | variant _ _ ih => simpa [Pattern.numbers] using ih
  | _ => exact List.forall_mem_nil _

theorem Judgement.Derivable.pattern_fits : ∀ {as : List Typed.Arm} {Γ : Context} {n n' : Nat} {scrutinee ty : Ty},
    Derivable (arms Γ n scrutinee ty as n') → ∀ a ∈ as, ∃ id, a.pattern.Fits Γ.symbols id scrutinee
  | [], _, _, _, _, _, _ => List.forall_mem_nil _
  | _ :: _, _, n, _, _, _, h => by
    cases h with
    | armsCons pattern _ _ tail => exact List.forall_mem_cons.2 ⟨⟨n, pattern⟩, tail.pattern_fits⟩

/-- The test of a pattern compares with every integer in it. -/
theorem Emit.pattern_compares {s : Site} : ∀ {p : Typed.Pattern} {value : Nat} {st st' : State} {os : List Op} {n : Int}
    {ty : Ty}, (n, ty) ∈ p.numbers → (pattern s value p).run st = .ok (os, st') →
      ∃ i ne, numericOp? .ne ty = some ne ∧ [.get i, intConst n ty, .num ne, .brIf 0] <:+: os
  | .int _ _, value, _, _, _, _, ty, hmem, hrun => by
    obtain ⟨rfl, rfl⟩ := Prod.mk.inj (List.mem_singleton.1 hmem)
    rw [pattern] at hrun
    cases hne : numericOp? .ne ty with
    | none =>
      rw [hne] at hrun
      cases hrun
    | some ne =>
      rw [hne] at hrun
      cases hrun
      exact ⟨value, ne, rfl, List.infix_rfl⟩
  | .variant _ (some (_, p)), _, _, _, _, _, _, hmem, hrun => by
    simp only [pattern, run_bind_eq_ok, run_pure_eq_ok] at hrun
    obtain ⟨payload, _, -, inner, _, hinner, rfl, -⟩ := hrun
    obtain ⟨i, ne, hne, hinfix⟩ := pattern_compares (p := p) hmem hinner
    exact ⟨i, ne, hne, hinfix.trans (List.suffix_append _ _).isInfix⟩

/-! ## Programs -/

/-- **Every integer of a program is what it says.**  A literal that is not behind a minus sign is in the range of its type;
one behind a minus sign has the type of the whole, and is in its range with the sign.  The code of both, and their word in
an array or struct that is copied from constant data, are the one word that stands for the number.  The integers in the
patterns of a match are in the range of their types too, and the value is compared with their words. -/
theorem integers_of_checkSource {source : String} {strict : Bool} {p : Typed.Program}
    (hp : checkSource source strict = .ok p) :
    (∀ id (value : Nat) k, (⟨id, .int k, .int value⟩ : Typed.Expr) ∈ p.nodes →
      ¬Typed.Expr.NegatedIn ⟨id, .int k, .int value⟩ p.nodes →
        k.contains value = true ∧ Typed.Expr.Denotes ⟨id, .int k, .int value⟩ k value) ∧
    (∀ id id' ty (value : Nat) k, (⟨id, .int k, .unary .neg ⟨id', ty, .int value⟩⟩ : Typed.Expr) ∈ p.nodes →
      ty = .int k ∧ k.contains (-value) = true ∧
        Typed.Expr.Denotes ⟨id, .int k, .unary .neg ⟨id', ty, .int value⟩⟩ k (-value)) ∧
    ∀ id ty scrutinee as, (⟨id, ty, .match_ scrutinee as⟩ : Typed.Expr) ∈ p.nodes → ∀ a ∈ as, ∀ n k,
      (n, .int k) ∈ a.pattern.numbers → k.contains n = true ∧ ∃ w, k.Encodes w n ∧
        ∀ s value st os st', (Emit.pattern s value a.pattern).run st = .ok (os, st') →
          ∃ i ne, Emit.numericOp? .ne (.int k) = some ne ∧ [.get i, Emit.wordConst w, .num ne, .brIf 0] <:+: os := by
  have typed := Emit.allTyped_nodes (wellTyped_of_checkSource hp)
  refine ⟨fun id value k hx hplain => ?_, fun id id' ty value k hx => ?_, fun id ty scrutinee as hx a ha n k hmem => ?_⟩
  · obtain ⟨Γ, n, n', -, -, h⟩ := typed _ hx hplain
    have hrange := IntKind.contains_of_holdsLiteral h.literal_range rfl
    exact ⟨hrange, Typed.Expr.denotes_int hrange⟩
  · obtain ⟨Γ, n, n', -, -, h⟩ := typed _ hx (Typed.Expr.not_negatedIn rfl)
    obtain ⟨rfl, hholds⟩ := h.negative_range
    have hrange := IntKind.contains_of_holdsLiteral hholds rfl
    exact ⟨rfl, hrange, Typed.Expr.denotes_neg hrange⟩
  · obtain ⟨Γ, m, m', -, -, h⟩ := typed _ hx (Typed.Expr.not_negatedIn rfl)
    cases h with
    | match_ _ cases_ =>
      obtain ⟨i, hfits⟩ := cases_.pattern_fits a ha
      have hrange := IntKind.contains_of_holdsLiteral (hfits.holdsLiteral _ hmem) rfl
      exact ⟨hrange, _, IntKind.encodes_intWord hrange, fun s value st os st' => Emit.pattern_compares hmem⟩

/-- A program with the least number of a type, of which the number behind the sign is not in the range. -/
def leastSource : String :=
  "fn main() -> i32 \x7b let a: i8 = -128; return a as i32; \x7d"

/-- Whether an expression is a negative literal of a type. -/
def Typed.Expr.isNegative (k : IntKind) (value : Nat) : Typed.Expr → Bool
  | ⟨_, ty, .unary .neg ⟨_, _, .int n⟩⟩ => ty = .int k && n = value
  | _ => false

theorem integers_of_checkSource_least : ∃ p, checkSource leastSource true = .ok p ∧ ∃ x ∈ p.nodes,
    x.isNegative ⟨true, .w8⟩ 128 = true ∧ x.Denotes ⟨true, .w8⟩ (-128) := by
  obtain ⟨p, -, hp, -, hfound⟩ := @exists_compile leastSource {} (fun p _ =>
    p.nodes.any (·.isNegative ⟨true, .w8⟩ 128)) (by decide +kernel)
  obtain ⟨x, hx, hnegative⟩ := List.any_eq_true.1 hfound
  refine ⟨p, hp, x, hx, hnegative, ?_⟩
  unfold Typed.Expr.isNegative at hnegative
  split at hnegative
  · simp only [Bool.and_eq_true, decide_eq_true_eq] at hnegative
    obtain ⟨rfl, rfl⟩ := hnegative
    exact ((integers_of_checkSource hp).2.1 _ _ _ _ _ hx).2.2
  · cases hnegative

end StackScript
