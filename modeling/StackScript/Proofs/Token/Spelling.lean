import StackScript.Proofs.Token.Strings

/-!
# How tokens are spelled

Every spelling of a number reads as that number, and the texts of tokens, with blanks between them, read as these
tokens.
-/

namespace StackScript

/-! ## Numbers -/

/-- The ways to write a digit. -/
def digitChars (d : Nat) : List Char :=
  [d.digitChar, d.digitChar.toUpper]

/-- Digits of a number behind others of value `acc`; separators may stand between them. -/
inductive Numeral (radix : Nat) : Nat → List Char → Nat → Prop
  | nil {n} : Numeral radix n [] n
  | digit {acc d c w n} (small : d < radix) (written : c ∈ digitChars d) (rest : Numeral radix (acc * radix + d) w n) :
      Numeral radix acc (c :: w) n
  | separator {acc w n} (rest : Numeral radix acc w n) : Numeral radix acc ('_' :: w) n

/-- The ways to write a number: in decimal, or behind a mark for its radix.  It starts with a digit or such a mark, and
has a digit. -/
inductive IntText : List Char → Nat → Prop
  | decimal {c w n} (first : c ≠ '_') (digits : Numeral 10 0 (c :: w) n) : IntText (c :: w) n
  | radix {radix marker w n} (mark : (radix, marker) ∈ [(16, 'x'), (16, 'X'), (2, 'b'), (2, 'B')])
      (visible : ∃ c ∈ w, c ≠ '_') (digits : Numeral radix 0 w n) : IntText ('0' :: marker :: w) n

namespace Numeral

variable {radix acc n : Nat} {w : List Char}

/-- The characters of digits, by their radix. -/
theorem digit_facts {d : Nat} {c : Char} (hradix : radix ∈ [2, 10, 16]) (small : d < radix) (written : c ∈ digitChars d) :
    Lexeme.digitValue? radix c = some d ∧ c ≠ '_' ∧ c.isAlphanum = true ∧ (radix = 10 → c.isDigit = true) := by
  have hall : ∀ radix ∈ [2, 10, 16], ∀ d < radix, (digitChars d).all (fun c => Lexeme.digitValue? radix c = some d ∧
      c ≠ '_' ∧ c.isAlphanum = true ∧ (radix = 10 → c.isDigit = true)) = true := by
    decide
  simpa [imp_iff_not_or] using List.all_eq_true.1 (hall radix hradix d small) c written

/-- Without its separators, a number is read from its digits. -/
theorem digitsValue?_eq (hradix : radix ∈ [2, 10, 16]) (h : Numeral radix acc w n) :
    Lexeme.digitsValue? radix acc (Lexeme.withoutSeparators w) = some n := by
  induction h with
  | nil => rfl
  | digit small written _ ih =>
    obtain ⟨hvalue, hseparator, -⟩ := digit_facts hradix small written
    simpa [Lexeme.withoutSeparators, hseparator, Lexeme.digitsValue?, hvalue] using ih
  | separator _ ih => simpa [Lexeme.withoutSeparators] using ih

theorem natOfDigits?_eq (hradix : radix ∈ [2, 10, 16]) (h : Numeral radix 0 w n) (visible : ∃ c ∈ w, c ≠ '_') :
    Lexeme.natOfDigits? radix (Lexeme.withoutSeparators w) = some n := by
  have hne : Lexeme.withoutSeparators w ≠ [] := by simpa [Lexeme.withoutSeparators] using visible
  rw [Lexeme.natOfDigits?, List.isEmpty_eq_false_iff.2 hne, if_neg Bool.false_ne_true, h.digitsValue?_eq hradix]

theorem all_alphanum (hradix : radix ∈ [2, 10, 16]) (h : Numeral radix acc w n) :
    ∀ c ∈ w, (c.isAlphanum || c = '_') = true := by
  induction h with
  | nil => exact List.forall_mem_nil _
  | digit small written _ ih => exact List.forall_mem_cons.2 ⟨by simp [(digit_facts hradix small written).2.2.1], ih⟩
  | separator _ ih => exact List.forall_mem_cons.2 ⟨by decide, ih⟩

theorem all_digits (h : Numeral 10 acc w n) : ∀ c ∈ w, (c.isDigit || c = '_') = true := by
  induction h with
  | nil => exact List.forall_mem_nil _
  | digit small written _ ih =>
    exact List.forall_mem_cons.2 ⟨by simp [(digit_facts (by decide) small written).2.2.2 rfl], ih⟩
  | separator _ ih => exact List.forall_mem_cons.2 ⟨by decide, ih⟩

/-- One more digit at the end. -/
theorem concat {d : Nat} (h : Numeral radix acc w n) (small : d < radix) :
    Numeral radix acc (w ++ [d.digitChar]) (n * radix + d) := by
  induction h with
  | nil => exact .digit small (List.mem_cons_self ..) .nil
  | digit small written _ ih => exact .digit small written ih
  | separator _ ih => exact .separator ih

theorem toDigits (n : Nat) : Numeral 10 0 (Nat.toDigits 10 n) n := by
  induction n using Nat.strongRecOn with
  | ind n ih =>
    rw [Nat.toDigits_eq_if (by decide)]
    split
    next small => simpa using (@nil 10 0).concat small
    next large =>
      have h := (ih (n / 10) (by omega)).concat (Nat.mod_lt n (by decide : 0 < 10))
      rwa [Nat.div_add_mod'] at h

end Numeral

/-! ## Lexemes in front of a blank -/

/-- The end of a text, or a blank. -/
def Ends (rest : List Char) : Prop :=
  ∀ c ∈ rest.head?, c = ' '

theorem Ends.cases {rest : List Char} (h : Ends rest) : rest = [] ∨ ∃ r, rest = ' ' :: r := by
  cases rest with
  | nil => exact .inl rfl
  | cons c r =>
    obtain rfl := h c rfl
    exact .inr ⟨r, rfl⟩

theorem ends_nil : Ends [] := by
  simp [Ends]

variable {p : Char → Bool} {w before : List Char} {c : Char} {k : TokenKind}

theorem takeWhile_ends {rest : List Char} (hw : ∀ c ∈ w, p c = true) (hp : p ' ' = false)
    (hrest : Ends rest) : (w ++ rest).takeWhile p = w := by
  rw [List.takeWhile_append_of_pos hw]
  cases rest with
  | nil => simp
  | cons c rest => simp [hrest c rfl, hp]

namespace Lexeme

variable {w rest : List Char} {c : Char} {n : Nat}

theorem scan_digit (hc : c.isDigit = true) (regions : List Nat) (cs : List Char) :
    scan regions c cs = number regions c cs := by
  have hb : c ≠ 'b' := by
    rintro rfl
    cases hc
  have hlow : c ≠ '_' := by
    rintro rfl
    cases hc
  have hascii : c.toNat ≤ 57 := by
    simp only [Char.isDigit, UInt32.le_iff_toNat_le, Bool.and_eq_true, decide_eq_true_eq] at hc
    exact hc.2
  have halpha : c.isAlpha = false := by grind [Char.isDigit, Char.isAlpha, Char.isUpper, Char.isLower]
  have hstart : Identifier.isStart c = false := by
    simp [Identifier.isStart, hlow, show c.toNat < 128 by omega, halpha]
  simp [scan, hb, hlow, hstart, hc]

theorem decimalNumber_ends (hw : ∀ d ∈ w, (d.isDigit || d = '_') = true) (hrest : Ends rest) :
    decimalNumber [] c (w ++ rest) =
      ⟨(c :: w).length, intOrFault (c :: w) (natOfDigits? 10 (withoutSeparators (c :: w))), 0, []⟩ := by
  have hrun : digitRun (w ++ rest) = w := takeWhile_ends hw (by decide) hrest
  have hword : rest.takeWhile Identifier.isPart = [] :=
    takeWhile_ends (List.forall_mem_nil _) (by decide) hrest
  have hfraction : fractionRun rest = [] ∧ exponentMark rest = [] := by
    cases rest with
    | nil => exact ⟨rfl, rfl⟩
    | cons d rest =>
      obtain rfl := hrest d rfl
      cases rest <;> exact ⟨rfl, rfl⟩
  simp [decimalNumber, hrun, hfraction, hword]

theorem radixNumber_ends {radix : Nat} {marker : Char} (hw : ∀ d ∈ w, (d.isAlphanum || d = '_') = true)
    (hrest : Ends rest) : radixNumber [] radix marker (w ++ rest) =
      ⟨('0' :: marker :: w).length, intOrFault ('0' :: marker :: w) (natOfDigits? radix (withoutSeparators w)), 0, []⟩ := by
  rw [radixNumber, takeWhile_ends hw (by decide) hrest]

/-- **A spelling of a number in front of a blank.** -/
theorem scan_literal (h : IntText w n) (hrest : Ends rest) : ∃ c cs, w = c :: cs ∧ c.isDigit = true ∧
    scan [] c (cs ++ rest) = ⟨w.length, intOrFault w (some n), 0, []⟩ := by
  cases h with
  | @decimal c w _ first digits =>
    have hall := List.forall_mem_cons.1 digits.all_digits
    have hc : c.isDigit = true := by simpa [first] using hall.1
    refine ⟨c, w, rfl, hc, ?_⟩
    have hnumber : number [] c (w ++ rest) = decimalNumber [] c (w ++ rest) := by
      cases hcs : w ++ rest with
      | nil => rfl
      | cons d cs =>
        -- Neither a digit nor a separator nor a blank marks a radix.
        have hd : (d.isDigit || d = '_') = true ∨ d = ' ' := by
          cases w with
          | nil => exact .inr (hrest d (by simp_all))
          | cons e w =>
            obtain ⟨rfl, -⟩ := List.cons.inj hcs
            exact .inl (hall.2 _ (List.mem_cons_self ..))
        have hmarks : (['x', 'X', 'b', 'B'].all fun m => !(m.isDigit || m = '_' || m = ' ')) = true := by decide
        have hne : d ∉ ['x', 'X', 'b', 'B'] := fun hm => by
          have hother := List.all_eq_true.1 hmarks d hm
          simp_all
        simp_all [number]
    rw [scan_digit hc, hnumber, decimalNumber_ends hall.2 hrest, digits.natOfDigits?_eq (by decide) ⟨c, by simp, first⟩]
  | @radix r marker w _ mark visible digits =>
    have hradix : r ∈ [2, 10, 16] := by
      have hall : ∀ p ∈ [(16, 'x'), (16, 'X'), (2, 'b'), (2, 'B')], p.1 ∈ [2, 10, 16] := by decide
      exact hall _ mark
    have hnumber : number [] '0' (marker :: (w ++ rest)) = radixNumber [] r marker (w ++ rest) := by
      simp only [List.mem_cons, Prod.mk.injEq, List.not_mem_nil, or_false] at mark
      obtain ⟨rfl, rfl⟩ | ⟨rfl, rfl⟩ | ⟨rfl, rfl⟩ | ⟨rfl, rfl⟩ := mark <;> simp [number]
    refine ⟨'0', marker :: w, rfl, rfl, ?_⟩
    rw [List.cons_append, scan_digit rfl, hnumber, radixNumber_ends (digits.all_alphanum hradix) hrest,
      digits.natOfDigits?_eq hradix visible]

end Lexeme

/-- Characters of a kind to which no blank belongs, and no start of a comment. -/
theorem visible_of (hp : (['/', ' ', '\t', '\r', '\n'].all fun b => !p b) = true)
    (h : p c = true) : c ≠ '/' ∧ Gap.isBlank c = false := by
  have hc : c ∉ ['/', ' ', '\t', '\r', '\n'] := fun hm => by simpa [h] using List.all_eq_true.1 hp c hm
  simp_all [Gap.isBlank]

/-- **A number is read from all its spellings**, if it is below the limit; otherwise all of the spelling is a fault. -/
theorem tokenize_literal {w : List Char} {n : Nat} (h : IntText w n) : tokenize (String.ofList w) =
    if n < 2 ^ 127 then .ok [⟨.int n, ⟨.first, .reached w⟩⟩, ⟨.eof, ⟨.reached w, .reached w⟩⟩]
    else .error ⟨.invalidNumber (String.ofList w), ⟨.first, .reached w⟩⟩ := by
  obtain ⟨c, cs, rfl, hc, hscan⟩ := Lexeme.scan_literal h ends_nil
  rw [List.append_nil] at hscan
  have hvisible := visible_of (by decide) hc
  rw [tokenize_lexeme hvisible.1 hvisible.2 hscan]
  have hlimit : Lexeme.intLimit = 2 ^ 127 := rfl
  rw [Lexeme.intOrFault, hlimit]
  split <;> rfl

/-- A number of which the digits after the mark are of both cases. -/
theorem tokenize_literal_mixed : IntText ['0', 'x', '_', 'f', 'F'] 255 ∧
    tokenize (String.ofList ['0', 'x', '_', 'f', 'F']) =
      .ok [⟨.int 255, ⟨.first, ⟨1, 6, 5⟩⟩⟩, ⟨.eof, ⟨⟨1, 6, 5⟩, ⟨1, 6, 5⟩⟩⟩] := by
  have h : IntText ['0', 'x', '_', 'f', 'F'] 255 := @IntText.radix 16 _ _ _ (by decide) ⟨'f', by decide, by decide⟩
    (.separator (.digit (d := 15) (by decide) (by decide) (.digit (d := 15) (by decide) (by decide) .nil)))
  exact ⟨h, (tokenize_literal h).trans (if_pos (by decide))⟩

/-! ## Numbers and words -/

theorem eq_nil_of_reached_append {gap : List Char} (h : Position.reached before = .reached (before ++ gap)) :
    gap = [] := by
  have hoffset := congrArg Position.offset h
  rw [Position.offset_reached_append] at hoffset
  cases gap with
  | nil => rfl
  | cons c gap =>
    have hpos := c.utf8Size_pos
    simp only [List.map_cons, List.sum_cons] at hoffset
    omega

/-- What follows a number directly. -/
theorem Tiles.apart {text : List Char} {regions : List Nat} {tokens front back : List Token} {a b : Token}
    (h : Tiles text regions before tokens) (htokens : tokens = front ++ a :: b :: back) (number : a.kind.isNumber = true)
    (touch : a.span.stop = b.span.start) : ∃ before digits word after, text = before ++ digits ++ word ++ after ∧
      a.span = ⟨.reached before, .reached (before ++ digits)⟩ ∧
      b.span = ⟨.reached (before ++ digits), .reached (before ++ digits ++ word)⟩ ∧ Apart digits (word ++ after) := by
  induction h generalizing front with
  | last => cases front <;> simp at htokens
  | @token regions regions' before gap digits after kind tokens split fills visible fits' rest ih =>
    cases front with
    | cons t front => exact ih (List.cons.inj htokens).2
    | nil =>
      obtain ⟨rfl, rfl⟩ := List.cons.inj htokens
      have hapart := fits'.apart number
      cases rest with
      | last split' =>
        have hgap := eq_nil_of_reached_append (touch.trans (congrArg Position.reached split'))
        exact ⟨before ++ gap, digits, [], after, by simpa using split, rfl, by simp [split', hgap], hapart⟩
      | @token _ _ _ gap' word after' kind' _ split' =>
        obtain rfl := eq_nil_of_reached_append touch
        have hafter : after = word ++ after' := by simpa [split'] using split.symm
        exact ⟨before ++ gap, digits, word, after', by simpa using split', rfl, by simp, hafter ▸ hapart⟩

namespace Lexeme

variable {regions : List Nat} {c : Char} {cs : List Char}

/-- A number, or the fault that it is none. -/
def Counts (o : Except LexFault TokenKind) : Prop :=
  (∃ k, o = .ok k ∧ k.isNumber = true) ∨ ∃ text, o = .error (.invalidNumber text)

theorem counts_ite {p : Prop} [Decidable p] {a b : Except LexFault TokenKind} (ha : Counts a) (hb : Counts b) :
    Counts (if p then a else b) := by
  split
  · exact ha
  · exact hb

theorem counts_intOrFault (text : List Char) (value : Option Nat) : Counts (intOrFault text value) := by
  cases value with
  | none => exact .inr ⟨_, rfl⟩
  | some n => exact counts_ite (.inl ⟨_, rfl, rfl⟩) (.inr ⟨_, rfl⟩)

theorem counts_decimalNumber : Counts (decimalNumber regions c cs).outcome := by
  unfold decimalNumber
  dsimp only
  split
  · exact .inr ⟨_, rfl⟩
  · exact counts_ite (.inr ⟨_, rfl⟩) (counts_ite (counts_intOrFault _ _) (.inl ⟨_, rfl, rfl⟩))

theorem counts_number : Counts (number regions c cs).outcome := by
  unfold number
  split
  · exact counts_decimalNumber
  · split
    · exact counts_intOrFault _ _
    · split
      · exact counts_intOrFault _ _
      · exact counts_decimalNumber

end Lexeme

/-- **No number runs into a word**, unless it has a mark for its radix and the word starts beyond ASCII.  Where a digit
starts a token, there is such a number or the text is rejected for it. -/
theorem numbers_apart (source : String) :
    (∀ tokens front a b back, tokenize source = .ok tokens → tokens = front ++ a :: b :: back →
      a.kind.isNumber = true → a.span.stop = b.span.start → ∃ before digits word after : List Char,
        source.toList = before ++ digits ++ word ++ after ∧ a.span = ⟨.reached before, .reached (before ++ digits)⟩ ∧
        b.span = ⟨.reached (before ++ digits), .reached (before ++ digits ++ word)⟩ ∧ Apart digits word) ∧
    ∀ ts l c cs, (Lexer.ofText source).Gives ts l → l.rest = c :: cs → c.isDigit = true →
      (∃ digits t l', l.next = (.ok (some t), l') ∧ t.kind.isNumber = true ∧ l.rest = digits ++ l'.rest ∧
        Apart digits l'.rest) ∨ ∃ text span, tokenize source = .error ⟨.invalidNumber text, span⟩ := by
  refine ⟨fun tokens front a b back h htokens number touch => ?_, fun ts l c cs hgives hl hc => ?_⟩
  · obtain ⟨before, digits, word, after, hsplit, ha, hb, hapart⟩ := (tiles_of_tokenize h).apart htokens number touch
    refine ⟨before, digits, word, after, hsplit, ha, hb, fun c hmem => hapart c ?_⟩
    rw [List.head?_append, hmem, Option.some_or]
    rfl
  · have running : l.finished = false := (hgives.length_regions (Lexer.stands_ofText source) rfl).1
    have hvisible := visible_of (by decide) hc
    have hnext : l.next = l.begin_.token := by
      rw [Lexer.next, running, if_neg Bool.false_ne_true, hl, Gap.length_of_visible hvisible.1 hvisible.2]
      rfl
    rw [Lexer.token, show l.begin_.rest = c :: cs from hl] at hnext
    dsimp only at hnext
    rw [Lexeme.scan_digit hc] at hnext
    have hsound := Lexeme.number_sound l.regions c cs
    obtain ⟨k, hk, hnumber⟩ | ⟨text, hfault⟩ := @Lexeme.counts_number l.regions c cs
    · have hapart := (hsound.fits k hk).apart hnumber
      rw [← hl] at hapart
      rw [show l.begin_.regions = l.regions from rfl, hk] at hnext
      exact .inl ⟨_, _, _, hnext, hnumber, (List.take_append_drop _ _).symm, hapart⟩
    · rw [show l.begin_.regions = l.regions from rfl, hfault] at hnext
      exact .inr ⟨_, _, hgives.of_error hnext⟩

/-- A word beyond ASCII behind a number in hexadecimal. -/
theorem numbers_apart_radix : ∃ a b c, tokenize "0x1é" = .ok [a, b, c] ∧ a.kind = .int 1 ∧ b.kind = .ident "é" ∧
    ∃ before digits word after, "0x1é".toList = before ++ digits ++ word ++ after ∧
      a.span = ⟨.reached before, .reached (before ++ digits)⟩ ∧
      b.span = ⟨.reached (before ++ digits), .reached (before ++ digits ++ word)⟩ ∧ Apart digits word := by
  have h : tokenize "0x1é" = .ok [⟨.int 1, ⟨.first, ⟨1, 4, 3⟩⟩⟩, ⟨.ident "é", ⟨⟨1, 4, 3⟩, ⟨1, 5, 5⟩⟩⟩,
      ⟨.eof, ⟨⟨1, 5, 5⟩, ⟨1, 5, 5⟩⟩⟩] := by
    decide +kernel
  exact ⟨_, _, _, h, rfl, rfl, (numbers_apart _).1 _ [] _ _ _ h rfl rfl rfl⟩

/-! ## Lists of tokens -/

/-- A name: a character that may start one, and then others that may stand in one. -/
def IsIdentifier : List Char → Bool
  | [] => false
  | c :: cs => Identifier.isStart c && cs.all Identifier.isPart

/-- Tokens that their text stands for. -/
inductive TokenKind.Spelled : TokenKind → Prop
  | keyword (k : Keyword) : Spelled (.keyword k)
  | mark (m : Mark) : Spelled (.mark m)
  | underscore : Spelled .underscore
  | bool (b : Bool) : Spelled (.bool b)
  | int {n : Nat} (small : n < 2 ^ 127) : Spelled (.int n)
  | ident {name : String} (isName : IsIdentifier name.toList = true) (plain : ∀ k : Keyword, name ≠ k.text)
      (truth : ∀ b, name ≠ boolText b) (visible : name ≠ "_") : Spelled (.ident name)

theorem TokenKind.Spelled.ne_eof (h : k.Spelled) : k ≠ .eof := by
  rintro rfl
  cases h

/-- Characters that are read as a token where they are in front of a blank or at the end. -/
def Spells (k : TokenKind) (w : List Char) : Prop :=
  ∀ rest, Ends rest → ∃ c cs, w = c :: cs ∧ Lexeme.scan [] c (cs ++ rest) = ⟨w.length, .ok k, 0, []⟩ ∧
    ∀ n, Gap.scan .blank n (w ++ rest) = .ok n

theorem Gap.scan_visible (visible : c ≠ '/' ∧ isBlank c = false) (n : Nat) (cs : List Char) :
    scan .blank n (c :: cs) = .ok n := by
  simp [scan, visible]

theorem spells_mark (m : Mark) : Spells (.mark m) m.text.toList := by
  intro rest hrest
  obtain rfl | ⟨rest, rfl⟩ := hrest.cases <;> cases m <;> exact ⟨_, _, rfl, rfl, fun _ => rfl⟩

theorem spells_underscore : Spells .underscore ['_'] := by
  intro rest hrest
  obtain rfl | ⟨rest, rfl⟩ := hrest.cases <;> exact ⟨_, _, rfl, rfl, fun _ => rfl⟩

theorem spells_int {n : Nat} (small : n < 2 ^ 127) : Spells (.int n) (Nat.toDigits 10 n) := by
  intro rest hrest
  have hliteral : IntText (Nat.toDigits 10 n) n := by
    have hdigits := Numeral.toDigits n
    obtain ⟨c, cs, hcs⟩ := List.exists_cons_of_ne_nil (@Nat.toDigits_ne_nil n 10)
    have hc : c.isDigit = true := @Nat.isDigit_of_mem_toDigits 10 n c (by decide) (by decide) (by simp [hcs])
    rw [hcs] at hdigits ⊢
    exact .decimal (by rintro rfl; cases hc) hdigits
  obtain ⟨c, cs, hcs, hc, hscan⟩ := Lexeme.scan_literal hliteral hrest
  refine ⟨c, cs, hcs, ?_, fun m => ?_⟩
  · rw [hscan, Lexeme.intOrFault, show Lexeme.intLimit = 2 ^ 127 from rfl, if_pos small]
  · rw [hcs]
    exact Gap.scan_visible (visible_of (by decide) hc) m _

theorem spells_word (h : IsIdentifier w = true) (visible : w ≠ ['_']) :
    Spells (Lexeme.wordKind (String.ofList w)) w := by
  intro rest hrest
  cases w with
  | nil => cases h
  | cons c cs =>
    obtain ⟨hstart, hall⟩ := Bool.and_eq_true_iff.1 h
    have hcs := List.all_eq_true.1 hall
    have hrun : (cs ++ rest).takeWhile Identifier.isPart = cs := takeWhile_ends hcs (by decide) hrest
    refine ⟨c, cs, rfl, ?_, fun n => Gap.scan_visible (visible_of (by decide) hstart) n _⟩
    have hquote : (cs ++ rest).head? ≠ some '"' := by
      intro hhead
      cases cs with
      | nil => simpa using hrest _ hhead
      | cons d cs =>
        obtain rfl := Option.some.inj hhead
        exact absurd (hcs _ (List.mem_cons_self ..)) (by decide)
    have hunderscore : ¬(c = '_' ∧ (cs ++ rest).head?.any Identifier.isPart = false) := by
      rintro ⟨rfl, hlone⟩
      cases cs with
      | nil => exact visible rfl
      | cons d cs => simp [hcs d (List.mem_cons_self ..)] at hlone
    rw [Lexeme.scan, if_neg fun h => hquote h.2, if_neg hunderscore, if_pos hstart, Lexeme.word, hrun, List.length_cons]

theorem spells_text (h : k.Spelled) : Spells k k.text.toList := by
  cases h with
  | mark m => exact spells_mark m
  | underscore => exact spells_underscore
  | int small => simpa [TokenKind.text, toString] using spells_int small
  | keyword k =>
    have hword := spells_word (w := k.text.toList) (by cases k <;> decide) (by cases k <;> decide)
    have hkind : Lexeme.wordKind k.text = .keyword k := by cases k <;> decide
    rwa [String.ofList_toList, hkind] at hword
  | bool b =>
    have hword := spells_word (w := (TokenKind.boolText b).toList) (by cases b <;> decide) (by cases b <;> decide)
    have hkind : Lexeme.wordKind (TokenKind.boolText b) = .bool b := by cases b <;> decide
    rwa [String.ofList_toList, hkind] at hword
  | @ident name isName plain truth visible =>
    have hword := spells_word isName fun h => visible (String.toList_inj.1 h)
    have hkind : Lexeme.wordKind name = .ident name := by
      have hnone : Keyword.ofText? name = none := by
        simpa [Keyword.ofText?] using fun k _ h => plain k h.symm
      rw [Lexeme.wordKind, if_neg (show name ≠ "true" from truth true), if_neg (show name ≠ "false" from truth false), hnone]
    rwa [String.ofList_toList, hkind] at hword

namespace Lexer

/-- **One token**, behind a blank or nothing. -/
theorem next_spelled {k : TokenKind} {gap rest : List Char} (h : k.Spelled) (hgap : gap = [' '] ∨ gap = [])
    (hrest : Ends rest) {l : Lexer} (hl : l.rest = gap ++ (k.text.toList ++ rest)) (running : l.finished = false)
    (outside : l.regions = []) : ∃ span l', l.next = (.ok (some ⟨k, span⟩), l') ∧ l'.rest = rest ∧
      l'.finished = false ∧ l'.regions = [] := by
  obtain ⟨c, cs, hw, hscan, hvisible⟩ := spells_text h rest hrest
  rw [hw] at hl hvisible
  have hlength : Gap.length l.rest = .ok gap.length := by
    rw [hl]
    rcases hgap with rfl | rfl
    · simpa [Gap.length, Gap.scan, Gap.isBlank] using hvisible 1
    · exact hvisible 0
  have hafter : (l.read gap.length).begin_.rest = c :: (cs ++ rest) := by
    simp [begin_, read, hl]
  have hregions : (l.read gap.length).begin_.regions = [] := outside
  rw [next, running, if_neg Bool.false_ne_true, hlength]
  dsimp only
  rw [token, hafter]
  dsimp only
  rw [hregions, hscan]
  refine ⟨_, _, rfl, ?_, running, rfl⟩
  simp [read, begin_, hl, hw]

theorem ends_texts (ks : List TokenKind) : Ends (ks.flatMap fun k => ' ' :: k.text.toList) := by
  cases ks <;> simp [Ends]

/-- **All tokens of a text**, each behind a blank; the first one may have none. -/
theorem gives_texts {ks : List TokenKind} (h : ∀ k ∈ ks, k.Spelled) {l : Lexer} {n : Nat} (hn : n ≤ 1)
    (hl : l.rest = (ks.flatMap fun k => ' ' :: k.text.toList).drop n) (running : l.finished = false)
    (outside : l.regions = []) :
    ∃ ts l', l.Gives ts l' ∧ ts.map (·.kind) = ks ∧ l'.rest = [] ∧ l'.finished = false ∧ l'.regions = [] := by
  induction ks generalizing l n with
  | nil => exact ⟨[], l, .refl, rfl, by simpa using hl, running, outside⟩
  | cons k ks ih =>
    obtain ⟨hk, hks⟩ := List.forall_mem_cons.1 h
    have hgap : [' '].drop n = [' '] ∨ [' '].drop n = [] := by interval_cases n <;> simp
    rw [List.flatMap_cons, List.cons_append, ← List.singleton_append, List.drop_append_of_le_length hn] at hl
    obtain ⟨span, l₁, hnext, hl₁, running₁, outside₁⟩ := next_spelled hk hgap (ends_texts ks) hl running outside
    obtain ⟨ts, l', hgives, hkinds, hend⟩ := ih hks (Nat.zero_le 1) hl₁ running₁ outside₁
    exact ⟨⟨k, span⟩ :: ts, l', .step hnext hk.ne_eof hgives, by simp [hkinds], hend⟩

end Lexer

theorem intercalate_blank (ws : List (List Char)) : [' '].intercalate ws = (ws.flatMap (' ' :: ·)).drop 1 := by
  cases ws with
  | nil => rfl
  | cons w ws =>
    induction ws generalizing w with
    | nil => simp [List.intercalate]
    | cons v ws ih => simpa [List.intercalate] using ih v

/-- **Tokens are read from their texts**, with blanks between them. -/
theorem tokenize_texts {ks : List TokenKind} (h : ∀ k ∈ ks, k.Spelled) :
    ∃ tokens, tokenize (" ".intercalate (ks.map TokenKind.text)) = .ok tokens ∧ tokens.map (·.kind) = ks ++ [.eof] := by
  generalize hsource : " ".intercalate (ks.map TokenKind.text) = source
  have hrest : (Lexer.ofText source).rest = (ks.flatMap fun k => ' ' :: k.text.toList).drop 1 := by
    simp [← hsource, Lexer.ofText, intercalate_blank, List.flatMap_map]
  obtain ⟨ts, l, hgives, hkinds, hend, running, outside⟩ := Lexer.gives_texts h (Nat.le_refl 1) hrest rfl rfl
  obtain ⟨fuel, hfuel⟩ := hgives.tokens (Lexer.stands_ofText source) rfl (Nat.le_refl _)
  have hlast : ∃ span, l.tokens (fuel + 2) = .ok [⟨.eof, span⟩] := by
    simp [Lexer.tokens, Lexer.next, Lexer.token, Lexer.read, Lexer.begin_, Gap.length, Gap.scan, hend, running, outside,
      Except.map]
  obtain ⟨span, hlast⟩ := hlast
  refine ⟨ts ++ [⟨.eof, span⟩], ?_, by simp [hkinds]⟩
  rw [tokenize]
  exact hfuel.trans (by rw [hlast]; rfl)

/-- A name that starts like bytes, and a mark that starts like a comment. -/
theorem tokenize_texts_mixed : ∃ tokens, tokenize "b / _ 70 as" = .ok tokens ∧
    tokens.map (·.kind) = [.ident "b", .mark .slash, .underscore, .int 70, .keyword .as_, .eof] := by
  have hb : TokenKind.Spelled (.ident "b") := .ident (by decide) (fun k => by cases k <;> decide) (by decide) (by decide)
  have h := @tokenize_texts [.ident "b", .mark .slash, .underscore, .int 70, .keyword .as_] (by
    simpa using ⟨hb, .mark _, .underscore, .int (by decide), .keyword _⟩)
  have hsource : " ".intercalate ([.ident "b", .mark .slash, .underscore, .int 70, .keyword .as_].map TokenKind.text) =
      "b / _ 70 as" := by
    decide +kernel
  rwa [hsource] at h

end StackScript
