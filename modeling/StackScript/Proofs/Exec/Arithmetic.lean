import Mathlib.Tactic.Ring
import StackScript.Proofs.Exec.Fragments

/-!
# Arithmetic of the machine

Integers of every type are words of 32 or 64 bits.  This module says what the instructions of operators,
negations and conversions compute, in terms of numbers.

## Design Notes

A type of less than 32 bits has words of 32 bits, so an operator may leave its range.  What is behind it, a
mask or two shifts, takes the word of any number to the word of the wrapped one, which is what makes all
widths alike.
-/

namespace StackScript

/-! ## Numbers of a type -/

namespace IntKind

/-- A number modulo two to the width, in the range of the type. -/
def wrap (k : IntKind) (n : Int) : Int :=
  if k.signed then n.bmod (2 ^ k.bits) else n % (2 ^ k.bits : Nat)

/-- The word of a number: its lowest bits. -/
def encode (k : IntKind) (n : Int) : Value :=
  if k.isWide then .i64 (BitVec.ofInt 64 n) else .i32 (BitVec.ofInt 32 n)

/-- The bits of a word of the type. -/
def wordBits (k : IntKind) : Nat :=
  if k.isWide then 64 else 32

/-- Whether a quotient has no place in its type and no wider word to be wrapped from: the least number by
minus one, in 32 or 64 bits. -/
def overflows (k : IntKind) (a b : Int) : Bool :=
  (k = ⟨true, .w32⟩ || k = ⟨true, .w64⟩) && a = k.lo && b = -1

/-- Operands for which an operator has no result. -/
def traps (k : IntKind) (op : BinaryOp) (a b : Int) : Bool :=
  match op with
  | .div => b = 0 || k.overflows a b
  | .rem => b = 0
  | _ => false

variable {k : IntKind} {a b n : Int}

theorem contains_iff : k.contains n = true ↔ k.lo ≤ n ∧ n ≤ k.hi := by
  simp [contains]

/-- Numbers of the type stay as they are. -/
theorem wrap_of_contains (h : k.contains n = true) : k.wrap n = n := by
  rw [contains_iff] at h
  obtain ⟨signed, width⟩ := k
  cases signed <;> cases width <;>
    simp only [lo, hi, bits, IntWidth.bits, twoPow, Nat.pow_eq, if_true, if_false, Bool.false_eq_true] at h <;>
    norm_num at h <;>
    simp only [wrap, bits, IntWidth.bits, Int.bmod, if_true, if_false, Bool.false_eq_true] <;> norm_num <;> omega

/-- A number of the type is what its word is read as. -/
theorem signedOr_ofInt (h : k.contains n = true) : signedOr k.signed (BitVec.ofInt k.wordBits n) = n := by
  rw [contains_iff] at h
  obtain ⟨signed, width⟩ := k
  cases signed <;> cases width <;>
    simp only [lo, hi, bits, IntWidth.bits, twoPow, Nat.pow_eq, if_true, if_false, Bool.false_eq_true] at h <;>
    norm_num at h <;>
    simp only [signedOr, wordBits, isWide, BitVec.toInt_ofInt, BitVec.toNat_ofInt, Int.bmod, if_true, if_false,
      Bool.false_eq_true, decide_true, decide_false, reduceCtorEq] <;> norm_num <;> omega

/-- Numbers of the type have different words. -/
theorem ofInt_inj (ha : k.contains a = true) (hb : k.contains b = true) :
    BitVec.ofInt k.wordBits a = BitVec.ofInt k.wordBits b ↔ a = b := by
  refine ⟨fun h => ?_, fun h => by rw [h]⟩
  rw [← signedOr_ofInt ha, ← signedOr_ofInt hb, h]

/-- Numbers of which the differences are multiples of a power of two have the same word. -/
theorem ofInt_bmod (w : Nat) (n : Int) : BitVec.ofInt w (n.bmod (2 ^ w)) = BitVec.ofInt w n := by
  rw [← BitVec.toInt_ofInt, BitVec.ofInt_toInt]

theorem ofInt_emod (w : Nat) (n : Int) : BitVec.ofInt w (n % (2 ^ w : Nat)) = BitVec.ofInt w n := by
  apply BitVec.eq_of_toNat_eq
  rw [BitVec.toNat_ofInt, BitVec.toNat_ofInt, Int.emod_emod]

theorem encode_congr (h : BitVec.ofInt k.wordBits a = BitVec.ofInt k.wordBits b) : k.encode a = k.encode b := by
  cases hwide : k.isWide with
  | true =>
    rw [show k.wordBits = 64 by simp [wordBits, hwide]] at h
    simp only [encode, hwide, if_true, h]
  | false =>
    rw [show k.wordBits = 32 by simp [wordBits, hwide]] at h
    simp only [encode, hwide, Bool.false_eq_true, if_false, h]

/-- Where the width is that of the word, wrapping changes no word. -/
theorem encode_wrap (h : k.bits = k.wordBits) (n : Int) : k.encode (k.wrap n) = k.encode n := by
  refine encode_congr ?_
  rw [wrap, h]
  split
  · exact ofInt_bmod _ n
  · exact ofInt_emod _ n

end IntKind

/-- What an operator on two numbers gives; quotients are cut toward zero. -/
def BinaryOp.exact (op : BinaryOp) (a b : Int) : Int :=
  match op with
  | .add => a + b
  | .sub => a - b
  | .mul => a * b
  | .div => a.tdiv b
  | .rem => a.tmod b
  | _ => 0

/-- The truth of a comparison of numbers. -/
def BinaryOp.holds (op : BinaryOp) (a b : Int) : Bool :=
  match op with
  | .eq => a = b
  | .ne => a ≠ b
  | .lt => a < b
  | .le => a ≤ b
  | .gt => b < a
  | .ge => b ≤ a
  | _ => false

/-! ## Operators on words -/

namespace IntArith

open IntKind (contains_iff signedOr_ofInt)

variable {k : IntKind} {a b : Int}

theorem eval_sub {w : Nat} :
    IntArith.sub.eval (BitVec.ofInt w a) (BitVec.ofInt w b) = .ok (BitVec.ofInt w (a - b)) := by
  rw [Int.sub_eq_add_neg, BitVec.ofInt_add, BitVec.ofInt_neg, ← BitVec.sub_eq_add_neg]
  rfl

theorem ofInt_eq_zero (hb : k.contains b = true) : BitVec.ofInt k.wordBits b = 0 ↔ b = 0 := by
  have hzero : k.contains 0 = true := by
    obtain ⟨signed, width⟩ := k
    cases signed <;> cases width <;> decide
  rw [← IntKind.ofInt_inj hb hzero]
  rfl

/-- A word is the least one, or minus one, if its number is. -/
theorem overflows_ofInt (ha : k.contains a = true) (hb : k.contains b = true) (hsigned : k.signed = true) :
    overflows (BitVec.ofInt k.wordBits a) (BitVec.ofInt k.wordBits b) = k.overflows a b := by
  have hmin : (BitVec.ofInt k.wordBits a = BitVec.intMin k.wordBits) ↔
      (k = ⟨true, .w32⟩ ∨ k = ⟨true, .w64⟩) ∧ a = k.lo := by
    rw [← BitVec.toInt_inj]
    have hread := signedOr_ofInt ha
    rw [signedOr, if_pos hsigned] at hread
    rw [hread, BitVec.toInt_intMin]
    rw [contains_iff] at ha
    obtain ⟨signed, width⟩ := k
    obtain rfl : signed = true := hsigned
    cases width <;>
      simp only [IntKind.lo, IntKind.hi, IntKind.bits, IntKind.wordBits, IntKind.isWide, IntWidth.bits, twoPow,
        Nat.pow_eq, if_true, if_false, Bool.false_eq_true, decide_true, decide_false, reduceCtorEq,
        IntKind.mk.injEq, true_and, or_false, or_true, false_and] at ha ⊢ <;>
      norm_num at ha ⊢ <;> omega
  have hone : (BitVec.ofInt k.wordBits b = -1#k.wordBits) ↔ b = -1 := by
    have hminus : k.contains (-1) = true := by
      obtain ⟨signed, width⟩ := k
      obtain rfl : signed = true := hsigned
      cases width <;> decide
    rw [← IntKind.ofInt_inj hb hminus, BitVec.ofInt_neg]
    rfl
  rw [Bool.eq_iff_iff]
  simp only [overflows, IntKind.overflows, Bool.and_eq_true, Bool.or_eq_true, beq_iff_eq, decide_eq_true_eq, hmin, hone]

section

variable {op : BinaryOp} {num : IntArith}

/-- **Operators on words are operators on numbers.** -/
theorem eval_ofInt (ha : k.contains a = true) (hb : k.contains b = true)
    (hop : Emit.intOp? (Emit.wordSize k) k.signed op = some (.arith (Emit.wordSize k) num))
    (htraps : k.traps op a b = false) : num.eval (BitVec.ofInt k.wordBits a) (BitVec.ofInt k.wordBits b) =
      .ok (BitVec.ofInt k.wordBits (op.exact a b)) := by
  have hzero := ofInt_eq_zero hb
  have hreada := signedOr_ofInt ha
  have hreadb := signedOr_ofInt hb
  cases op with
  | add =>
    cases hop
    exact congrArg Except.ok (BitVec.ofInt_add a b).symm
  | sub =>
    cases hop
    exact eval_sub
  | mul =>
    cases hop
    exact congrArg Except.ok (BitVec.ofInt_mul a b).symm
  | div =>
    cases hop
    obtain ⟨hb0, hover⟩ : b ≠ 0 ∧ k.overflows a b = false := by simpa [IntKind.traps] using htraps
    simp only [BinaryOp.exact, eval, hzero, hb0, if_false]
    cases hsigned : k.signed with
    | true =>
      rw [signedOr, if_pos hsigned] at hreada hreadb
      rw [overflows_ofInt ha hb hsigned, hover]
      simp only [Bool.false_eq_true, if_false, if_true, Except.ok.injEq]
      apply BitVec.eq_of_toInt_eq
      rw [BitVec.toInt_sdiv, hreada, hreadb, BitVec.toInt_ofInt]
    | false =>
      rw [signedOr, if_neg (by simp [hsigned])] at hreada hreadb
      have hquot : a.tdiv b = ((BitVec.ofInt k.wordBits a).toNat / (BitVec.ofInt k.wordBits b).toNat : Nat) := by
        rw [Int.natCast_ediv, hreada, hreadb, Int.tdiv_eq_ediv_of_nonneg (hreada ▸ Int.natCast_nonneg _)]
      simp only [Bool.false_eq_true, if_false, Except.ok.injEq]
      rw [hquot, BitVec.ofInt_natCast, BitVec.udiv_eq, BitVec.udiv_def]
  | rem =>
    cases hop
    have hb0 : b ≠ 0 := by simpa [IntKind.traps] using htraps
    simp only [BinaryOp.exact, eval, hzero, hb0, if_false]
    cases hsigned : k.signed with
    | true =>
      rw [signedOr, if_pos hsigned] at hreada hreadb
      have hrem : a.tmod b = ((BitVec.ofInt k.wordBits a).srem (BitVec.ofInt k.wordBits b)).toInt := by
        rw [BitVec.toInt_srem, hreada, hreadb]
      simp only [if_true, Except.ok.injEq]
      rw [hrem, BitVec.ofInt_toInt]
    | false =>
      rw [signedOr, if_neg (by simp [hsigned])] at hreada hreadb
      have hrem : a.tmod b = ((BitVec.ofInt k.wordBits a).toNat % (BitVec.ofInt k.wordBits b).toNat : Nat) := by
        rw [Int.natCast_emod, hreada, hreadb, Int.tmod_eq_emod_of_nonneg (hreada ▸ Int.natCast_nonneg _)]
      simp only [Bool.false_eq_true, if_false, Except.ok.injEq]
      rw [hrem, BitVec.ofInt_natCast, BitVec.umod_eq, BitVec.umod_def]
  | _ => cases hop

/-- Operands without a result have words without a result. -/
theorem eval_ofInt_error (ha : k.contains a = true) (hb : k.contains b = true)
    (hop : Emit.intOp? (Emit.wordSize k) k.signed op = some (.arith (Emit.wordSize k) num))
    (htraps : k.traps op a b = true) :
    ∃ cause, num.eval (BitVec.ofInt k.wordBits a) (BitVec.ofInt k.wordBits b) = .error cause := by
  have hzero := ofInt_eq_zero hb
  cases op with
  | div =>
    cases hop
    by_cases hb0 : b = 0
    · exact ⟨.divideByZero, if_pos (hzero.2 hb0)⟩
    · have hover : k.overflows a b = true := by simpa [IntKind.traps, hb0] using htraps
      have hsigned : k.signed = true := by
        simp only [IntKind.overflows, Bool.and_eq_true, Bool.or_eq_true, decide_eq_true_eq] at hover
        rcases hover.1.1 with rfl | rfl <;> rfl
      refine ⟨.overflow, ?_⟩
      simp only [eval, hzero, hb0, if_false, hsigned, if_true, overflows_ofInt ha hb hsigned, hover]
  | rem =>
    cases hop
    exact ⟨.divideByZero, if_pos (hzero.2 (by simpa [IntKind.traps] using htraps))⟩
  | _ => cases htraps

end

end IntArith

/-- **Comparisons of words are comparisons of numbers.** -/
theorem IntRel.eval_ofInt {k : IntKind} {a b : Int} {op : BinaryOp} {rel : IntRel} (ha : k.contains a = true)
    (hb : k.contains b = true) (hop : Emit.intOp? (Emit.wordSize k) k.signed op = some (.rel (Emit.wordSize k) rel)) :
    rel.eval (BitVec.ofInt k.wordBits a) (BitVec.ofInt k.wordBits b) = op.holds a b := by
  have hinj := IntKind.ofInt_inj ha hb
  have hreada := IntKind.signedOr_ofInt ha
  have hreadb := IntKind.signedOr_ofInt hb
  generalize BitVec.ofInt k.wordBits a = x at *
  generalize BitVec.ofInt k.wordBits b = y at *
  cases hsigned : k.signed with
  | true =>
    rw [signedOr, if_pos hsigned] at hreada hreadb
    rw [hsigned] at hop
    cases op <;> cases hop <;> rw [Bool.eq_iff_iff] <;>
      simp [eval, BinaryOp.holds, hinj, BitVec.slt_iff_toInt_lt, BitVec.sle_iff_toInt_le, hreada, hreadb]
  | false =>
    rw [signedOr, if_neg (by simp [hsigned])] at hreada hreadb
    rw [hsigned] at hop
    cases op <;> cases hop <;> rw [Bool.eq_iff_iff] <;>
      simp [eval, BinaryOp.holds, hinj, BitVec.ult_iff_toNat_lt, BitVec.ule_iff_toNat_le] <;> omega

/-! ## Instructions -/

namespace Emit

open Run (Data)

variable {k : IntKind} {name : String} {x : Data} {s : Stack} {a b : Int}

variable {bits : Nat} {k' : IntKind} {os : List Op} {op : BinaryOp}

/-- The lowest bits of a word as a number without a sign. -/
theorem and_mask (hbits : bits < 32) (a : Int) :
    BitVec.ofInt 32 a &&& BitVec.ofNat 32 (twoPow bits - 1) = BitVec.ofInt 32 (a % (2 ^ bits : Nat)) := by
  have hdvd : ((2 ^ bits : Nat) : Int) ∣ (2 ^ 32 : Nat) := by
    exact_mod_cast Nat.pow_dvd_pow 2 (Nat.le_of_lt hbits)
  have hpos : (0 : Int) < (2 ^ bits : Nat) := by exact_mod_cast Nat.two_pow_pos bits
  have hlt : (2 : Nat) ^ bits < 2 ^ 32 := Nat.pow_lt_pow_right (by decide) hbits
  apply BitVec.eq_of_toNat_eq
  have hmask : (twoPow bits - 1) % 2 ^ 32 = 2 ^ bits - 1 :=
    Nat.mod_eq_of_lt (by unfold twoPow; simp only [Nat.pow_eq]; omega)
  rw [BitVec.toNat_and, BitVec.toNat_ofInt, BitVec.toNat_ofNat, hmask, Nat.and_two_pow_sub_one_eq_mod,
    BitVec.toNat_ofInt]
  have hsmall : a % (2 ^ bits : Nat) % (2 ^ 32 : Nat) = a % (2 ^ 32 : Nat) % (2 ^ bits : Nat) := by
    rw [Int.emod_emod_of_dvd a hdvd]
    have hltpow := Int.emod_lt_of_pos a hpos
    exact Int.emod_eq_of_lt (Int.emod_nonneg _ (Int.ne_of_gt hpos)) (by omega)
  rw [hsmall, Int.toNat_emod (Int.emod_nonneg _ (by decide)) (Int.le_of_lt hpos), Int.toNat_natCast]

/-- The lowest bits of a word as a number with a sign. -/
theorem shift_pair (hbits : bits = 8 ∨ bits = 16) (a : Int) :
    (BitVec.ofInt 32 a <<< (32 - bits)).sshiftRight (32 - bits) = BitVec.ofInt 32 (a.bmod (2 ^ bits)) := by
  apply BitVec.eq_of_toInt_eq
  rw [BitVec.toInt_sshiftRight, BitVec.toInt_shiftLeft, BitVec.toInt_ofInt, BitVec.toNat_ofInt, Nat.shiftLeft_eq,
    Int.shiftRight_eq_div_pow]
  rcases hbits with rfl | rfl <;> simp only [Int.bmod] <;> norm_num <;> omega

/-- The word of any number is brought into the range of its type. -/
theorem normalize_ops (hstack : x.stack = k.encode a :: s) :
    x.ops? name (normalize k) = some { x with stack := k.encode (k.wrap a) :: s } := by
  obtain ⟨locals, stack, m⟩ := x
  obtain rfl : stack = _ := hstack
  by_cases hbits : k.bits < 32
  · have hwide : k.isWide = false := by
      obtain ⟨signed, width⟩ := k
      cases width <;> simp_all [IntKind.bits, IntKind.isWide, IntWidth.bits]
    cases hsigned : k.signed with
    | true =>
      have hwidth : k.bits = 8 ∨ k.bits = 16 := by
        obtain ⟨signed, width⟩ := k
        cases width <;> simp_all [IntKind.bits, IntWidth.bits]
      have hamount : (BitVec.ofNat 32 (32 - k.bits)).toNat % 32 = 32 - k.bits := by
        rw [BitVec.toNat_ofNat]
        omega
      simp only [normalize, hbits, hsigned, if_true, Data.ops?, Data.op?, Op.const, IntKind.encode, hwide,
        Bool.false_eq_true, if_false, Option.bind_some, IntKind.wrap]
      rw [← shift_pair hwidth]
      show some (Data.mk locals (.i32 ((BitVec.ofInt 32 a <<< ((BitVec.ofNat 32 (32 - k.bits)).toNat % 32)).sshiftRight
        ((BitVec.ofNat 32 (32 - k.bits)).toNat % 32)) :: s) m) = _
      rw [hamount]
    | false =>
      simp only [normalize, hbits, hsigned, if_true, Data.ops?, Data.op?, Op.const, IntKind.encode, hwide,
        Bool.false_eq_true, if_false, Option.bind_some, IntKind.wrap]
      rw [← and_mask hbits]
      rfl
  · rw [normalize, if_neg hbits, IntKind.encode_wrap]
    · rfl
    · obtain ⟨signed, width⟩ := k
      cases width <;> simp_all [IntKind.bits, IntKind.isWide, IntWidth.bits, IntKind.wordBits]

/-! ### Operators -/

theorem wordBits_of_wide (h : k.isWide = true) : k.wordBits = 64 := by
  simp [IntKind.wordBits, h]

theorem wordBits_of_narrow (h : k.isWide = false) : k.wordBits = 32 := by
  simp [IntKind.wordBits, h]

/-- Arithmetic on the words of numbers gives the word of a number, or traps. -/
theorem eval_arith {num : IntArith} (c : Except Trap Int)
    (h : num.eval (BitVec.ofInt k.wordBits a) (BitVec.ofInt k.wordBits b) = c.map (BitVec.ofInt k.wordBits)) :
    (NumOp.arith (wordSize k) num).eval name (k.encode b :: k.encode a :: s) =
      (Trap.lift name c).map (k.encode · :: s) := by
  cases hwide : k.isWide with
  | true =>
    rw [wordBits_of_wide hwide] at h
    simp only [wordSize, IntKind.encode, hwide, if_true]
    show (do return Value.i64 (← Trap.lift name (num.eval _ _)) :: s) = _
    rw [h]
    cases c <;> rfl
  | false =>
    rw [wordBits_of_narrow hwide] at h
    simp only [wordSize, IntKind.encode, hwide, Bool.false_eq_true, if_false]
    show (do return Value.i32 (← Trap.lift name (num.eval _ _)) :: s) = _
    rw [h]
    cases c <;> rfl

theorem eval_rel {rel : IntRel} {c : Bool} (h : rel.eval (BitVec.ofInt k.wordBits a) (BitVec.ofInt k.wordBits b) = c) :
    (NumOp.rel (wordSize k) rel).eval name (k.encode b :: k.encode a :: s) = .ok (.ofBool c :: s) := by
  cases hwide : k.isWide with
  | true =>
    rw [wordBits_of_wide hwide] at h
    simp only [wordSize, IntKind.encode, hwide, if_true]
    show Except.ok (Value.ofBool (rel.eval _ _) :: s) = _
    rw [h]
  | false =>
    rw [wordBits_of_narrow hwide] at h
    simp only [wordSize, IntKind.encode, hwide, Bool.false_eq_true, if_false]
    show Except.ok (Value.ofBool (rel.eval _ _) :: s) = _
    rw [h]

section

variable {op : BinaryOp} {num : NumOp}

/-- Operators that compute are arithmetic on words. -/
theorem arith_of_numericOp (hnum : numericOp? op (.int k) = some num) (hcompare : op.isComparison = false) :
    ∃ arith, num = .arith (wordSize k) arith ∧ intOp? (wordSize k) k.signed op = some (.arith (wordSize k) arith) := by
  cases op <;> cases hcompare <;> cases hnum <;> exact ⟨_, rfl, rfl⟩

/-- The instructions of an operator compute its result and wrap it. -/
theorem arith_ops (hnum : numericOp? op (.int k) = some num) (hcompare : op.isComparison = false)
    (ha : k.contains a = true) (hb : k.contains b = true) (htraps : k.traps op a b = false)
    (hstack : x.stack = k.encode b :: k.encode a :: s) :
    x.ops? name (.num num :: normalize k) = some { x with stack := k.encode (k.wrap (op.exact a b)) :: s } := by
  obtain ⟨arith, rfl, hop⟩ := arith_of_numericOp hnum hcompare
  rw [Data.ops?, Data.op?, hstack, eval_arith (.ok _) (IntArith.eval_ofInt ha hb hop htraps)]
  exact normalize_ops rfl

/-- An operator without a result traps. -/
theorem arith_traps (name : String) (s : Stack) (hnum : numericOp? op (.int k) = some num)
    (hcompare : op.isComparison = false) (ha : k.contains a = true) (hb : k.contains b = true)
    (htraps : k.traps op a b = true) :
    ∃ cause, num.eval name (k.encode b :: k.encode a :: s) = .error (.trap name cause) := by
  obtain ⟨arith, rfl, hop⟩ := arith_of_numericOp hnum hcompare
  obtain ⟨cause, hcause⟩ := IntArith.eval_ofInt_error ha hb hop htraps
  exact ⟨cause, eval_arith (.error cause) hcause⟩

/-- The instruction of a comparison compares numbers. -/
theorem compare_ops (hnum : numericOp? op (.int k) = some num) (hcompare : op.isComparison = true)
    (ha : k.contains a = true) (hb : k.contains b = true) (hstack : x.stack = k.encode b :: k.encode a :: s) :
    x.ops? name [.num num] = some { x with stack := .ofBool (op.holds a b) :: s } := by
  obtain ⟨rel, rfl, hop⟩ : ∃ rel, num = .rel (wordSize k) rel ∧
      intOp? (wordSize k) k.signed op = some (.rel (wordSize k) rel) := by
    cases op <;> cases hcompare <;> cases hnum <;> exact ⟨_, rfl, rfl⟩
  simp only [Data.ops?, Data.op?, hstack, eval_rel (IntRel.eval_ofInt ha hb hop), Option.bind_some]

end

/-! ### Negations and conversions -/

/-- A negation subtracts from zero. -/
theorem negate_ops (hstack : x.stack = k.encode a :: k.encode 0 :: s) :
    x.ops? name (.num (.arith (wordSize k) .sub) :: normalize k) =
      some { x with stack := k.encode (k.wrap (-a)) :: s } := by
  rw [Data.ops?, Data.op?, hstack, eval_arith (.ok _) IntArith.eval_sub, ← Int.zero_sub]
  exact normalize_ops rfl

/-- The instructions that change the size of a word keep its number. -/
theorem resize_ops (ha : k.contains a = true) (hstack : x.stack = k.encode a :: s) :
    x.ops? name (if !k.isWide && k'.isWide then [.num (.convert (.extend k.signed))]
      else if k.isWide && !k'.isWide then [.num (.convert .wrap)] else []) =
      some { x with stack := k'.encode a :: s } := by
  obtain ⟨locals, stack, m⟩ := x
  obtain rfl : stack = _ := hstack
  have hread := IntKind.signedOr_ofInt ha
  cases hwide : k.isWide with
  | true =>
    cases hwide' : k'.isWide with
    | true => simp [Data.ops?, IntKind.encode, hwide, hwide']
    | false =>
      have hlow : (BitVec.ofInt 64 a).setWidth 32 = BitVec.ofInt 32 a := by
        apply BitVec.eq_of_toNat_eq
        rw [BitVec.toNat_setWidth, BitVec.toNat_ofInt, BitVec.toNat_ofInt]
        omega
      simp only [IntKind.encode, hwide, hwide', Bool.not_true, Bool.not_false, Bool.and_self,
        Bool.false_eq_true, if_false, if_true]
      rw [← hlow]
      rfl
  | false =>
    cases hwide' : k'.isWide with
    | true =>
      rw [wordBits_of_narrow hwide] at hread
      simp only [IntKind.encode, hwide, hwide', Bool.not_false, Bool.and_self, Bool.false_eq_true, if_false, if_true]
      cases hsigned : k.signed with
      | true =>
        rw [hsigned] at hread
        have hextend : (BitVec.ofInt 32 a).signExtend 64 = BitVec.ofInt 64 a := by
          rw [BitVec.signExtend]
          exact congrArg _ hread
        rw [← hextend]
        rfl
      | false =>
        rw [hsigned] at hread
        have hextend : (BitVec.ofInt 32 a).setWidth 64 = BitVec.ofInt 64 a := by
          have hnat : BitVec.setWidth 64 (BitVec.ofInt 32 a) = BitVec.ofInt 64 ((BitVec.ofInt 32 a).toNat : Int) := by
            rw [BitVec.ofInt_natCast, BitVec.ofNat_toNat]
          exact hnat.trans (congrArg _ hread)
        rw [← hextend]
        rfl
    | false => simp [Data.ops?, IntKind.encode, hwide, hwide']

theorem ops?_append {ps : List Op} {y : Data} (h : x.ops? name os = some y) :
    x.ops? name (os ++ ps) = y.ops? name ps := by
  induction os generalizing x with
  | nil =>
    obtain rfl : x = y := Option.some.inj h
    rfl
  | cons o os ih =>
    obtain ⟨z, hz, hrest⟩ := Option.bind_eq_some_iff.1 h
    simp only [List.cons_append, Data.ops?, hz, Option.bind_some]
    exact ih hrest

/-- The instructions of a conversion wrap the number. -/
theorem cast_ops (hos : cast? (.int k) (.int k') = some os)
    (ha : k.contains a = true) (hstack : x.stack = k.encode a :: s) :
    x.ops? name os = some { x with stack := k'.encode (k'.wrap a) :: s } := by
  obtain rfl := Option.some.inj hos
  have hnormalize : (if k'.isWide then [] else normalize k') = normalize k' := by
    split
    next hwide =>
      obtain ⟨signed, width⟩ := k'
      cases width <;> simp_all [IntKind.isWide, normalize, IntKind.bits, IntWidth.bits]
    · rfl
  rw [ops?_append (resize_ops ha hstack), hnormalize]
  exact normalize_ops rfl

/-! ## Emitted operators -/

open Run (Does Level)

/-- Operators on integers are one instruction, and what brings its result back into the range. -/
theorem binaryOps_int (site : Site) {num : NumOp} (hnum : numericOp? op (.int k) = some num) :
    binaryOps site op (.int k) = pure (.num num :: if op.isComparison then [] else normalize k) := by
  simp only [binaryOps, hnum, orDefect, pure_bind]

theorem exists_numericOp_int (k : IntKind) (h : op.isLogical = false) : ∃ num, numericOp? op (.int k) = some num := by
  cases op with
  | and | or => cases h
  | _ => exact ⟨_, rfl⟩

theorem BinaryOp.not_logical_of_comparison (h : op.isComparison = true) : op.isLogical = false := by
  cases op with
  | and | or => cases h
  | _ => rfl

/-- A negation of any operand, in front of which it puts a zero. -/
theorem negate_int (operand : List Code) : negate (.int k) operand = pure ([.op (intConst 0 (.int k))] ++ operand ++
      Code.ops (.num (.arith (wordSize k) .sub) :: normalize k)) := by
  cases hwide : k.isWide with
  | true =>
    have hnormalize : normalize k = [] := by
      obtain ⟨signed, width⟩ := k
      cases width <;> simp_all [IntKind.isWide, normalize, IntKind.bits, IntWidth.bits]
    simp [negate, hwide, intConst, intWord, wordConst, wordSize, hnormalize, Code.ops]
  | false =>
    simp [negate, hwide, intConst, intWord, wordConst, wordSize, Op.const, Op.sub]

theorem does_intConst {img : Image} (g : Level img) (x : Data) (n : Int) :
    Does g [.op (intConst n (.int k))] x (.next { x with stack := k.encode n :: x.stack }) := by
  refine .op ?_
  cases hwide : k.isWide <;> simp [intConst, intWord, wordConst, IntKind.encode, hwide, Data.op?]

/-- **Integer arithmetic is exact modulo two to the width.**  Wherever the instructions of an operator, a
negation or a conversion stand, and whatever is around, they take the words of numbers of the type to the word
of the result, wrapped; comparisons leave one or zero.  They trap exactly if the divisor is zero, or if the
least number of 32 or 64 bits is divided by minus one. -/
theorem arithmetic_exact {img : Image} (g : Level img) (x : Data) (site : Site) (k k' : IntKind) {a b : Int}
    (ha : k.contains a = true) (hb : k.contains b = true) :
    (∀ op ∈ [BinaryOp.add, .sub, .mul, .div, .rem], ∃ os, binaryOps site op (.int k) = pure os ∧
      (k.traps op a b = false → Does g (Code.ops os) { x with stack := k.encode b :: k.encode a :: x.stack }
        (.next { x with stack := k.encode (k.wrap (op.exact a b)) :: x.stack })) ∧
      (k.traps op a b = true → ∃ cause,
        Does g (Code.ops os) { x with stack := k.encode b :: k.encode a :: x.stack }
          (.fault (.trap g.fn.name cause) x.machine))) ∧
    (∀ op : BinaryOp, op.isComparison = true → ∃ os, binaryOps site op (.int k) = pure os ∧
      Does g (Code.ops os) { x with stack := k.encode b :: k.encode a :: x.stack }
        (.next { x with stack := .ofBool (op.holds a b) :: x.stack })) ∧
    (∀ (operand : List Code) (y : Data), Does g operand { x with stack := k.encode 0 :: x.stack }
        (.next { y with stack := k.encode a :: k.encode 0 :: x.stack }) →
      ∃ code, negate (.int k) operand = pure code ∧
        Does g code x (.next { y with stack := k.encode (k.wrap (-a)) :: x.stack })) ∧
    (k.contains (-a) = true →
      Does g [.op (intConst (-a) (.int k))] x (.next { x with stack := k.encode (k.wrap (-a)) :: x.stack })) ∧
    ∃ os, cast? (.int k) (.int k') = some os ∧ Does g (Code.ops os) { x with stack := k.encode a :: x.stack }
      (.next { x with stack := k'.encode (k'.wrap a) :: x.stack }) := by
  refine ⟨fun op hop => ?_, fun op hcompare => ?_, fun operand y hoperand => ?_, fun hneg => ?_, ?_⟩
  · have hcompare : op.isComparison = false ∧ op.isLogical = false := by
      revert op
      decide
    obtain ⟨num, hnum⟩ := exists_numericOp_int k hcompare.2
    refine ⟨_, binaryOps_int site hnum, fun htraps => ?_, fun htraps => ?_⟩
    · rw [hcompare.1]
      exact .ops (arith_ops hnum hcompare.1 ha hb htraps rfl)
    · obtain ⟨cause, hcause⟩ := arith_traps g.fn.name x.stack hnum hcompare.1 ha hb htraps
      have hfault : Does g [.op (.num num)] { x with stack := k.encode b :: k.encode a :: x.stack }
          (.fault (.trap g.fn.name cause) x.machine) := .num_fault hcause
      exact ⟨cause, hfault.early trivial⟩
  · obtain ⟨num, hnum⟩ := exists_numericOp_int k (BinaryOp.not_logical_of_comparison hcompare)
    refine ⟨_, binaryOps_int site hnum, ?_⟩
    rw [hcompare]
    exact .ops (compare_ops hnum hcompare ha hb rfl)
  · refine ⟨_, negate_int operand, ?_⟩
    exact ((does_intConst g x 0).append hoperand).append (.ops (negate_ops rfl))
  · rw [IntKind.wrap_of_contains hneg]
    exact does_intConst g x (-a)
  · exact ⟨_, rfl, .ops (cast_ops rfl ha rfl)⟩

/-- A function that adds two bytes with a sign, loaded. -/
def byteAdder : LoadedFunction :=
  ⟨"add", ⟨[], []⟩, #[], (Code.flatList (Code.ops (.add :: normalize ⟨true, .w8⟩)) ++ [Instr.end_]).toArray, ⟨#[], #[]⟩⟩

/-- An image with that function only. -/
def byteAdderImage : Image :=
  ⟨⟨[], [], [], [], [], 1, 0, none, none⟩, #[], #[byteAdder], #[], #[], {}⟩

/-- A task in that function, at a position and with operands, on a machine without memory. -/
def byteAdderTask (pc : Nat) (s : Stack) : Task × Machine :=
  (⟨1, [⟨0, pc, #[], 0, []⟩], s, none⟩, { memory := .empty })

/-- A hundred and a hundred are minus fifty-six in eight bits. -/
theorem arithmetic_exact_bytes : IntKind.contains ⟨true, .w8⟩ 100 = true ∧
      Run.Steps byteAdderImage (byteAdderTask 0 [.i32 100, .i32 100]) (byteAdderTask 5 [.i32 (-56)]) := by
  have hbyte : IntKind.contains ⟨true, .w8⟩ 100 = true := by decide
  let g : Level byteAdderImage := ⟨0, byteAdder, rfl, 0⟩
  let x : Data := ⟨#[], [], { memory := .empty }⟩
  let site : Site := ⟨⟨⟨[], [], []⟩, [], [], .empty, 0, 0, 0, 0⟩, 0, [], .direct, []⟩
  obtain ⟨os, hos, hsum, -⟩ := (arithmetic_exact g x site ⟨true, .w8⟩ ⟨true, .w8⟩ hbyte hbyte).1 .add (by simp)
  obtain rfl : os = .add :: normalize ⟨true, .w8⟩ := by
    have hrun := congrFun hos ⟨.ofBase 0, [], [], 0, [], [], [], [], [], []⟩
    exact (Prod.mk.inj (Except.ok.inj hrun)).1.symm
  refine ⟨hbyte, hsum rfl ⟨1, 0, [], rfl⟩ 0 [] ⟨?_, ?_⟩⟩
  · exact ⟨[.end_], rfl⟩
  · exact ⟨trivial, trivial, trivial, trivial, trivial, trivial⟩

end Emit

end StackScript
