import StackScript.Proofs.Steps
import StackScript.Proofs.Text.Places
import StackScript.Token.Lexer

/-!
# Tokens tile their text

The tokens of a text stand in it one behind the other, each where its own characters are, with nothing
but blanks and comments between them, and the last one stands at the end.  If there are no tokens, the
fault lies in the text.
-/

namespace StackScript

/-! ## Gaps -/

namespace Gap

/-- The characters that close `depth` block comments, of which each is inside the one before. -/
inductive Comment : Nat → List Char → Prop
  | closed : Comment 0 []
  | open_ {depth cs} (rest : Comment (depth + 2) cs) : Comment (depth + 1) ('/' :: '*' :: cs)
  | close {depth cs} (rest : Comment depth cs) : Comment (depth + 1) ('*' :: '/' :: cs)
  /-- Any other character is skipped, unless it starts a mark that opens or closes a comment. -/
  | skip {depth c cs} (opens : ∀ cs', c :: cs ≠ '/' :: '*' :: cs')
      (closes : ∀ cs', c :: cs ≠ '*' :: '/' :: cs') (rest : Comment (depth + 1) cs) :
      Comment (depth + 1) (c :: cs)

/-- The characters of a gap in front of the text `after`: blanks, comments to the end of their line, and
block comments, which may stand inside one another. -/
inductive Fills (after : List Char) : List Char → Prop
  | nil : Fills after []
  | blank {c cs} (hc : isBlank c = true) (rest : Fills after cs) : Fills after (c :: cs)
  | line {body cs} (hbody : '\n' ∉ body) (rest : Fills after cs) :
      Fills after ('/' :: '/' :: (body ++ '\n' :: cs))
  /-- The last line of a text may be without a line feed. -/
  | lastLine {body} (hbody : '\n' ∉ body) (last : after = []) : Fills after ('/' :: '/' :: body)
  | block {body cs} (hbody : Comment 1 body) (rest : Fills after cs) :
      Fills after ('/' :: '*' :: (body ++ cs))

/-- What is read of a gap from a place inside it on. -/
def Reads (after : List Char) : Gap → List Char → Prop
  | blank, text => Fills after text
  | line, text => (∃ body cs, '\n' ∉ body ∧ text = body ++ '\n' :: cs ∧ Fills after cs) ∨ '\n' ∉ text ∧ after = []
  | block _ depth, text => ∃ body cs, text = body ++ cs ∧ Comment (depth + 1) body ∧ Fills after cs

/-- **What the scanner skips is the rest of a gap.** -/
theorem scan_reads {g : Gap} {n m : Nat} {cs : List Char} (h : scan g n cs = .ok m) :
    ∃ text after, cs = text ++ after ∧ m = n + text.length ∧ g.Reads after text := by
  fun_induction scan g n cs with
  | case1 n => exact ⟨[], [], rfl, (Except.ok.inj h).symm, .nil⟩
  | case2 n => exact ⟨[], [], rfl, (Except.ok.inj h).symm, .inr ⟨List.not_mem_nil, rfl⟩⟩
  | case3 opened depth n => cases h
  | case4 n cs ih =>
    obtain ⟨text, after, rfl, rfl, hreads⟩ := ih h
    refine ⟨'/' :: '/' :: text, after, rfl, by simp; omega, ?_⟩
    obtain ⟨body, cs, hbody, rfl, hfills⟩ | ⟨hbody, hlast⟩ := hreads
    · exact .line hbody hfills
    · exact .lastLine hbody hlast
  | case5 n cs ih =>
    obtain ⟨text, after, rfl, rfl, body, cs, rfl, hbody, hfills⟩ := ih h
    exact ⟨'/' :: '*' :: (body ++ cs), after, rfl, by simp; omega, .block hbody hfills⟩
  | case6 n c cs _ _ hc ih =>
    obtain ⟨text, after, rfl, rfl, hfills⟩ := ih h
    exact ⟨c :: text, after, rfl, by simp; omega, .blank hc hfills⟩
  | case7 n c cs => exact ⟨[], c :: cs, rfl, (Except.ok.inj h).symm, .nil⟩
  | case8 n cs ih =>
    obtain ⟨text, after, rfl, rfl, hfills⟩ := ih h
    exact ⟨'\n' :: text, after, rfl, by simp; omega, .inl ⟨[], text, List.not_mem_nil, rfl, hfills⟩⟩
  | case9 n c cs hc ih =>
    obtain ⟨text, after, rfl, rfl, hreads⟩ := ih h
    refine ⟨c :: text, after, rfl, by simp; omega, ?_⟩
    obtain ⟨body, cs, hbody, rfl, hfills⟩ | ⟨hbody, hlast⟩ := hreads
    · exact .inl ⟨c :: body, cs, by simp [hbody, Ne.symm hc], rfl, hfills⟩
    · exact .inr ⟨by simp [hbody, Ne.symm hc], hlast⟩
  | case10 opened depth n cs ih =>
    obtain ⟨text, after, rfl, rfl, body, cs, rfl, hbody, hfills⟩ := ih h
    exact ⟨'/' :: '*' :: (body ++ cs), after, rfl, by simp; omega, '/' :: '*' :: body, cs, rfl, .open_ hbody, hfills⟩
  | case11 opened n cs ih =>
    obtain ⟨text, after, rfl, rfl, hfills⟩ := ih h
    exact ⟨'*' :: '/' :: text, after, rfl, by simp; omega, ['*', '/'], text, rfl, .close .closed, hfills⟩
  | case12 opened depth n cs ih =>
    obtain ⟨text, after, rfl, rfl, body, cs, rfl, hbody, hfills⟩ := ih h
    exact ⟨'*' :: '/' :: (body ++ cs), after, rfl, by simp; omega, '*' :: '/' :: body, cs, rfl, .close hbody, hfills⟩
  | case13 opened depth n c cs hopens hcloses hcloses' ih =>
    obtain ⟨text, after, rfl, rfl, body, cs, rfl, hbody, hfills⟩ := ih h
    refine ⟨c :: (body ++ cs), after, rfl, by simp; omega, c :: body, cs, rfl, .skip ?_ ?_ hbody, hfills⟩
    · rintro cs' ⟨⟩
      exact hopens _ rfl rfl
    · rintro cs' ⟨⟩
      cases depth with
      | zero => exact hcloses _ rfl rfl rfl
      | succ depth => exact hcloses' _ _ rfl rfl rfl

theorem length_reads {n : Nat} {cs : List Char} (h : length cs = .ok n) :
    n ≤ cs.length ∧ Fills (cs.drop n) (cs.take n) := by
  obtain ⟨text, after, rfl, rfl, hfills⟩ := scan_reads h
  have hfills : Fills after text := hfills
  refine ⟨by simp, ?_⟩
  simpa using hfills

end Gap

/-! ## Lexemes -/

theorem Body.length_scan_le (interpolates : Bool) (cs : List Char) : (scan interpolates cs).length ≤ cs.length := by
  fun_induction scan interpolates cs with
  | case1 | case2 => exact Nat.le_refl _
  | case3 | case7 =>
    simp only [Body.push, List.length_cons]
    omega
  | case4 | case5 | case6 => simp

/-- A text that is made of characters of identifiers. -/
def IsWord (name : String) : Prop :=
  ∀ c ∈ name.toList, Identifier.isPart c = true

theorem Identifier.isPart_of_isStart {c : Char} (h : isStart c = true) : isPart c = true := by
  unfold isStart at h
  unfold isPart
  split at h
  next hascii =>
    rw [if_pos hascii, Char.isAlphanum]
    rcases Bool.or_eq_true_iff.1 h with h | h <;> simp [h]
  next hascii => rw [if_neg hascii, h, Bool.true_or]

/-- Tokens inside a text that are neither braces nor pieces of a string with expressions in it.  Names are words. -/
def TokenKind.Plain : TokenKind → Prop
  | .ident name => IsWord name
  | .eof | .strStart _ | .strMiddle _ | .strEnd _ | .mark .lbrace | .mark .rbrace => False
  | _ => True

/-- What a token does to the strings that are open: for each of them, the innermost first, the number of braces open in
its current expression. -/
inductive Turn : List Nat → TokenKind → List Nat → Prop
  | plain {R k} (plain : k.Plain) : Turn R k R
  | outside {m} (brace : m = .lbrace ∨ m = .rbrace) : Turn [] (.mark m) []
  | opens {d R} : Turn (d :: R) (.mark .lbrace) ((d + 1) :: R)
  | closes {d R} : Turn ((d + 1) :: R) (.mark .rbrace) (d :: R)
  | start {R t} : Turn R (.strStart t) (0 :: R)
  | middle {R t} : Turn (0 :: R) (.strMiddle t) (0 :: R)
  | end_ {R t} : Turn (0 :: R) (.strEnd t) R

theorem Turn.ne_eof {R R' : List Nat} {k : TokenKind} (h : Turn R k R') : k ≠ .eof := by
  rintro rfl
  cases h
  assumption

def TokenKind.isNumber : TokenKind → Bool
  | .int _ | .float _ => true
  | _ => false

/-- A number and the text behind it: no word touches the number, unless the number has a mark for its radix and the
word starts beyond ASCII. -/
def Apart (digits after : List Char) : Prop :=
  ∀ c ∈ after.head?, Identifier.isPart c = true →
    128 ≤ c.toNat ∧ ∃ marker ∈ ['x', 'X', 'b', 'B'], ['0', marker] <+: digits

/-- A token with its characters and the text behind it. -/
structure Fits (R : List Nat) (k : TokenKind) (R' : List Nat) (inside after : List Char) : Prop where
  turn : Turn R k R'
  apart : k.isNumber = true → Apart inside after

theorem Fits.of_ok {R R' : List Nat} {k k' : TokenKind} {inside after : List Char}
    (hk : (.ok k : Except LexFault TokenKind) = .ok k') (h : Turn R k R') (other : k.isNumber = false := by rfl) :
    Fits R k' R' inside after := by
  obtain rfl := Except.ok.inj hk
  exact ⟨h, by simp [other]⟩

namespace Lexeme

/-- A lexeme at the front of some characters: it takes one of them, its fault is inside it, and its token opens and
closes strings. -/
structure Sound (regions : List Nat) (cs : List Char) (l : Lexeme) : Prop where
  pos : 0 < l.length
  le : l.length ≤ cs.length
  fault : l.faultAt ≤ l.length
  fits : ∀ k, l.outcome = .ok k → Fits regions k l.regions (cs.take l.length) (cs.drop l.length)

theorem length_fractionRun_le (cs : List Char) : (fractionRun cs).length ≤ cs.length := by
  unfold fractionRun
  split
  · split
    · exact Nat.succ_le_succ (List.takeWhile_prefix _).length_le
    · exact Nat.zero_le _
  · exact Nat.zero_le _

theorem length_exponentMark_le (cs : List Char) : (exponentMark cs).length ≤ cs.length := by
  unfold exponentMark
  split
  · split
    · split <;> simp
    · simp
  · split <;> simp
  · simp

theorem plain_intOrFault {text : List Char} {value : Option Nat} {k : TokenKind} (h : intOrFault text value = .ok k) :
    k.Plain := by
  unfold intOrFault at h
  split at h
  · split at h <;> cases h
    trivial
  · cases h

/-- A run of characters ends where there is one of another kind. -/
theorem other_of_drop_takeWhile {p : Char → Bool} {l : List Char} {c : Char}
    (h : c ∈ (l.drop (l.takeWhile p).length).head?) : p c = false := by
  induction l with
  | nil => cases h
  | cons d l ih => by_cases hd : p d = true <;> simp_all

theorem radixNumber_sound (regions : List Nat) (radix : Nat) {marker : Char} (hmarker : marker ∈ ['x', 'X', 'b', 'B'])
    (cs : List Char) : (radixNumber regions radix marker cs).Sound regions ('0' :: marker :: cs) where
  pos := by simp [radixNumber]
  le := by
    have hrun := (List.takeWhile_prefix (fun c => c.isAlphanum || c = '_') (l := cs)).length_le
    simpa [radixNumber] using hrun
  fault := Nat.zero_le _
  fits _ h := ⟨.plain (plain_intOrFault h), fun _ c hc hpart => by
    have hother := other_of_drop_takeWhile (p := fun c => c.isAlphanum || c = '_') (by simpa [radixNumber] using hc)
    refine ⟨Nat.le_of_not_lt fun hascii => ?_, marker, hmarker, by simp [radixNumber]⟩
    rw [Identifier.isPart, if_pos hascii] at hpart
    simp_all⟩

theorem decimalNumber_sound (regions : List Nat) (first : Char) (cs : List Char) :
    (decimalNumber regions first cs).Sound regions (first :: cs) := by
  have hwhole : (digitRun cs).length ≤ cs.length := (List.takeWhile_prefix _).length_le
  unfold decimalNumber
  dsimp only
  generalize hcs₁ : cs.drop ((first :: digitRun cs).length - 1) = cs₁
  have hlen₁ : cs₁.length + (digitRun cs).length = cs.length := by
    rw [← hcs₁, List.length_drop, List.length_cons]
    omega
  have hfraction := length_fractionRun_le cs₁
  generalize hcs₂ : cs₁.drop (fractionRun cs₁).length = cs₂
  have hlen₂ : cs₂.length + (fractionRun cs₁).length = cs₁.length := by
    rw [← hcs₂, List.length_drop]
    omega
  have hmark := length_exponentMark_le cs₂
  generalize hcs₃ : cs₂.drop (exponentMark cs₂).length = cs₃
  have hlen₃ : cs₃.length + (exponentMark cs₂).length = cs₂.length := by
    rw [← hcs₃, List.length_drop]
    omega
  split
  · refine ⟨by simp, ?_, Nat.zero_le _, nofun⟩
    simp only [List.length_append, List.length_cons]
    omega
  · generalize hdigits : (if (exponentMark cs₂).isEmpty then [] else digitRun cs₃) = digits
    have hdigits : digits.length ≤ cs₃.length := by
      rw [← hdigits]
      split
      · exact Nat.zero_le _
      · exact (List.takeWhile_prefix _).length_le
    have hword : ((cs₃.drop digits.length).takeWhile Identifier.isPart).length + digits.length ≤
        cs₃.length := by
      have := (List.takeWhile_prefix Identifier.isPart (l := cs₃.drop digits.length)).length_le
      rw [List.length_drop] at this
      omega
    refine ⟨by simp, ?_, Nat.zero_le _, fun k hk => ⟨.plain ?_, fun _ c hc hpart => ?_⟩⟩
    · simp only [List.length_append, List.length_cons]
      omega
    · dsimp only at hk
      split at hk
      · cases hk
      · split at hk
        · exact plain_intOrFault hk
        · cases hk
          trivial
    · have hother : Identifier.isPart c = false := by
        refine other_of_drop_takeWhile (l := cs₃.drop digits.length) ?_
        simp only [List.length_append, List.length_cons, Nat.add_right_comm _ 1, List.drop_succ_cons] at hc
        simpa [← hcs₁, ← hcs₂, ← hcs₃, Nat.add_assoc] using hc
      rw [hpart] at hother
      cases hother

theorem number_sound (regions : List Nat) (first : Char) (cs : List Char) :
    (number regions first cs).Sound regions (first :: cs) := by
  unfold number
  split
  · exact decimalNumber_sound _ _ _
  · split
    next hhex =>
      obtain ⟨rfl, rfl | rfl⟩ := hhex <;> exact radixNumber_sound _ _ (by simp) _
    · split
      next hbinary =>
        obtain ⟨rfl, rfl | rfl⟩ := hbinary <;> exact radixNumber_sound _ _ (by simp) _
      · exact decimalNumber_sound _ _ _

theorem plain_wordKind {word : String} (h : IsWord word) : (wordKind word).Plain ∧ (wordKind word).isNumber = false := by
  unfold wordKind
  split
  · exact ⟨trivial, rfl⟩
  · split
    · exact ⟨trivial, rfl⟩
    · split
      · exact ⟨trivial, rfl⟩
      · exact ⟨h, rfl⟩

theorem word_sound (regions : List Nat) {first : Char} (hfirst : Identifier.isStart first = true) (cs : List Char) :
    (word regions first cs).Sound regions (first :: cs) where
  pos := Nat.succ_pos _
  le := Nat.succ_le_succ (List.takeWhile_prefix _).length_le
  fault := Nat.zero_le _
  fits _ h := by
    have hword : IsWord (String.ofList (first :: cs.takeWhile Identifier.isPart)) := fun c hc => by
      rw [String.toList_ofList] at hc
      rcases List.mem_cons.1 hc with rfl | hc
      · exact Identifier.isPart_of_isStart hfirst
      · exact List.all_eq_true.1 List.all_takeWhile c hc
    exact .of_ok h (.plain (plain_wordKind hword).1) (plain_wordKind hword).2

/-- A string goes on after an expression in it, or starts. -/
theorem string_sound (outer : List Nat) (fresh : Bool) (first : Char) (cs : List Char) :
    (string outer fresh cs).Sound (cond fresh outer (0 :: outer)) (first :: cs) := by
  have hbody := Body.length_scan_le true cs
  unfold string
  dsimp only
  split
  · refine ⟨Nat.succ_pos _, Nat.succ_le_succ hbody, Nat.zero_le _, fun _ h => ?_⟩
    cases fresh with
    | true => exact .of_ok h (.plain trivial)
    | false => exact .of_ok h .end_
  · refine ⟨Nat.succ_pos _, Nat.succ_le_succ hbody, Nat.zero_le _, fun _ h => ?_⟩
    cases fresh with
    | true => exact .of_ok h .start
    | false => exact .of_ok h .middle
  · exact ⟨Nat.succ_pos _, Nat.succ_le_succ hbody, Nat.zero_le _, nofun⟩
  · exact ⟨Nat.succ_pos _, Nat.succ_le_succ hbody, Nat.sub_le _ _, nofun⟩

theorem byteString_sound (regions : List Nat) (first quote : Char) (cs : List Char) :
    (byteString regions cs).Sound regions (first :: quote :: cs) := by
  have hbody := Nat.add_le_add_right (Body.length_scan_le false cs) 2
  unfold byteString
  dsimp only
  split
  · exact ⟨Nat.succ_pos _, hbody, Nat.zero_le _, nofun⟩
  · exact ⟨Nat.succ_pos _, hbody, Nat.sub_le _ _, nofun⟩
  · exact ⟨Nat.succ_pos _, hbody, Nat.zero_le _, fun _ h => .of_ok h (.plain trivial)⟩

/-- A mark takes a character, and two only if there is a second one; braces are not among these marks. -/
theorem mark?_spec {c : Char} {next : Option Char} {m : Mark} {n : Nat} (h : mark? c next = some (m, n)) :
    0 < n ∧ n ≤ 1 + next.toList.length ∧ (TokenKind.mark m).Plain := by
  have hone {plain : Mark} (h : some (plain, 1) = some (m, n)) (hplain : (TokenKind.mark plain).Plain) :
      0 < n ∧ n ≤ 1 + next.toList.length ∧ (TokenKind.mark m).Plain := by
    cases h
    simpa using hplain
  have htwo {d : Char} {long : Mark} {other : Option (Mark × Nat)}
      (h : (if next = some d then some (long, 2) else other) = some (m, n)) (hlong : (TokenKind.mark long).Plain)
      (hother : other = some (m, n) → 0 < n ∧ n ≤ 1 + next.toList.length ∧ (TokenKind.mark m).Plain) :
      0 < n ∧ n ≤ 1 + next.toList.length ∧ (TokenKind.mark m).Plain := by
    split at h
    next hnext =>
      cases h
      simpa [hnext] using hlong
    next => exact hother h
  unfold mark? at h
  dsimp only at h
  split at h
  all_goals first
    | exact hone h trivial
    | exact htwo h trivial fun h => hone h trivial
    | exact htwo h trivial fun h => htwo h trivial fun h => hone h trivial
    | exact htwo h trivial nofun
    | cases h

theorem markOrFault_sound (regions : List Nat) (c : Char) (cs : List Char) :
    (markOrFault regions c cs).Sound regions (c :: cs) := by
  unfold markOrFault
  split
  next m n hmark =>
    obtain ⟨hpos, hle, hplain⟩ := mark?_spec hmark
    have hnext : cs.head?.toList.length ≤ cs.length := by cases cs <;> simp
    have hlen : n ≤ cs.length + 1 := by omega
    exact ⟨hpos, hlen, Nat.zero_le _, fun _ h => .of_ok h (.plain hplain)⟩
  next => exact ⟨Nat.one_pos, by simp, Nat.zero_le _, nofun⟩

theorem openBrace_sound (regions : List Nat) (first : Char) (cs : List Char) :
    (openBrace regions).Sound regions (first :: cs) := by
  refine ⟨Nat.one_pos, by simp [openBrace], Nat.zero_le _, fun _ h => .of_ok h ?_⟩
  cases regions with
  | nil => exact .outside (.inl rfl)
  | cons depth outer => exact .opens

theorem closeBrace_sound (regions : List Nat) (first : Char) (cs : List Char) :
    (closeBrace regions cs).Sound regions (first :: cs) := by
  unfold closeBrace
  split
  · exact ⟨Nat.one_pos, by simp, Nat.zero_le _, fun _ h => .of_ok h (.outside (.inr rfl))⟩
  · exact string_sound _ false _ _
  · exact ⟨Nat.one_pos, by simp, Nat.zero_le _, fun _ h => .of_ok h .closes⟩

/-- **A lexeme takes a character, and no more than there are.** -/
theorem scan_sound (regions : List Nat) (c : Char) (cs : List Char) : (scan regions c cs).Sound regions (c :: cs) := by
  unfold scan
  split
  next hbytes =>
    obtain ⟨-, hquote⟩ := hbytes
    cases cs with
    | nil => cases hquote
    | cons quote cs => exact byteString_sound _ _ _ _
  · split
    · exact ⟨Nat.one_pos, by simp, Nat.zero_le _, fun _ h => .of_ok h (.plain trivial)⟩
    · split
      next hstart => exact word_sound _ hstart _
      · split
        · exact number_sound _ _ _
        · split
          · exact string_sound _ true _ _
          · split
            · exact openBrace_sound _ _ _
            · split
              · exact closeBrace_sound _ _ _
              · exact markOrFault_sound _ _ _

end Lexeme

/-! ## Steps of the lexer -/

namespace Lexer

/-- A lexer that has read a front part of a text. -/
structure Stands (text before : List Char) (l : Lexer) : Prop where
  split : text = before ++ l.rest
  position : l.position = .reached before

namespace Stands

variable {text before : List Char} {l l' : Lexer}

theorem read (h : l.Stands text before) (n : Nat) : (l.read n).Stands text (before ++ l.rest.take n) where
  split := by
    rw [h.split, Lexer.read, List.append_assoc, List.take_append_drop]
  position := by
    rw [Lexer.read, h.position, Position.reached_after]

/-- The stretch between two places that a lexer can reach. -/
theorem liesIn_read (h : l.Stands text before) {n m : Nat} (hle : n ≤ m) :
    (⟨(l.read n).position, (l.read m).position⟩ : Span).LiesIn text := by
  have htake : l.rest.take m = l.rest.take n ++ (l.rest.drop n).take (m - n) := by
    rw [← List.take_add, Nat.add_sub_cancel' hle]
  have hstop := (h.read m).split
  rw [htake, ← List.append_assoc] at hstop
  rw [(h.read n).position, (h.read m).position, htake, ← List.append_assoc]
  exact .of_append hstop

/-- What stands at the start of a token: a fault in the text, the end, or characters of a token. -/
theorem token (h : l.Stands text before) (running : l.finished = false) (start : l.start = l.position) :
    (∃ e l', l.token = (.error e, l') ∧ e.span.LiesIn text) ∨
    (∃ l', l.token = (.ok (some ⟨.eof, ⟨.reached text, .reached text⟩⟩), l') ∧ l'.finished = true ∧
      l.rest = [] ∧ l.regions = []) ∨ ∃ inside kind l',
      l.token = (.ok (some ⟨kind, ⟨.reached before, .reached (before ++ inside)⟩⟩), l') ∧
      l.rest = inside ++ l'.rest ∧ inside ≠ [] ∧ Fits l.regions kind l'.regions inside l'.rest ∧
      l'.Stands text (before ++ inside) ∧ l'.finished = false := by
  cases hrest : l.rest with
  | nil =>
    have htext : text = before := by simpa [hrest] using h.split
    have hspan : l.span = ⟨.reached text, .reached text⟩ := by
      rw [Lexer.span, start, h.position, htext]
    rw [Lexer.token, hrest]
    dsimp only
    split
    next hempty => exact .inr (.inl ⟨_, by rw [hspan], rfl, rfl, List.isEmpty_iff.1 hempty⟩)
    · refine .inl ⟨_, _, rfl, ?_⟩
      have hend : text = text ++ [] ++ [] := by simp
      simpa [hspan] using Span.LiesIn.of_append hend
  | cons c cs =>
    obtain ⟨hpos, hle, hfault, hfits⟩ := Lexeme.scan_sound l.regions c cs
    rw [Lexer.token, hrest]
    dsimp only
    generalize Lexeme.scan l.regions c cs = lexeme at hpos hle hfault hfits
    have hread := h.read lexeme.length
    cases houtcome : lexeme.outcome with
    | error fault => exact .inl ⟨_, _, rfl, h.liesIn_read hfault⟩
    | ok kind =>
      have hfits := hfits kind houtcome
      rw [← hrest] at hfits
      refine .inr (.inr ⟨l.rest.take lexeme.length, kind,
        { l.read lexeme.length with regions := lexeme.regions }, ?_, ?_, ?_, hfits,
        ⟨hread.split, hread.position⟩, running⟩)
      · rw [← h.position, ← start, ← hread.position]
        rfl
      · rw [← hrest]
        exact (List.take_append_drop _ _).symm
      · rw [hrest, Ne, ← List.length_eq_zero_iff, List.length_take]
        omega

/-- What a step of the lexer gives: a fault in the text, the end, or a token behind a gap. -/
theorem next (h : l.Stands text before) (running : l.finished = false) :
    (∃ e l', l.next = (.error e, l') ∧ e.span.LiesIn text) ∨
    (∃ l', l.next = (.ok (some ⟨.eof, ⟨.reached text, .reached text⟩⟩), l') ∧ l'.finished = true ∧
      Gap.Fills [] l.rest ∧ l.regions = []) ∨ ∃ gap inside kind l',
      l.next = (.ok (some ⟨kind, ⟨.reached (before ++ gap), .reached (before ++ gap ++ inside)⟩⟩), l') ∧
      l.rest = gap ++ inside ++ l'.rest ∧ Gap.Fills (inside ++ l'.rest) gap ∧ inside ≠ [] ∧
      Fits l.regions kind l'.regions inside l'.rest ∧ l'.Stands text (before ++ gap ++ inside) ∧ l'.finished = false := by
  cases hgap : Gap.length l.rest with
  | error opened =>
    refine .inl ⟨_, _, by rw [Lexer.next, running, if_neg Bool.false_ne_true, hgap], ?_⟩
    have hopened : (l.read opened).position = (l.read (min opened l.rest.length)).position := by
      rw [Lexer.read, Lexer.read, ← List.take_eq_take_min]
    dsimp only
    rw [hopened]
    exact h.liesIn_read (Nat.min_le_right _ _)
  | ok n =>
    obtain ⟨hle, hfills⟩ := Gap.length_reads hgap
    have hnext : l.next = (l.read n).begin_.token := by
      rw [Lexer.next, running, if_neg Bool.false_ne_true, hgap]
    have hstands : (l.read n).begin_.Stands text (before ++ l.rest.take n) :=
      ⟨(h.read n).split, (h.read n).position⟩
    have hdrop : (l.read n).begin_.rest = l.rest.drop n := rfl
    rw [hnext]
    obtain ⟨e, l', htoken, hlies⟩ | ⟨l', htoken, hdone, hend, hregions⟩ |
      ⟨inside, kind, l', htoken, hinside, hne, hfits, hstands', hrunning⟩ := hstands.token running rfl
    · exact .inl ⟨e, l', htoken, hlies⟩
    · rw [hdrop] at hend
      refine .inr (.inl ⟨l', htoken, hdone, ?_, hregions⟩)
      have hall : l.rest.take n = l.rest := by simpa [hend] using List.take_append_drop n l.rest
      rwa [hend, hall] at hfills
    · rw [hdrop] at hinside
      refine .inr (.inr ⟨l.rest.take n, inside, kind, l', htoken, ?_, hinside ▸ hfills, hne, hfits, hstands', hrunning⟩)
      rw [List.append_assoc, ← hinside, List.take_append_drop]

end Stands

end Lexer

/-! ## Whole texts -/

/-- Tokens one behind the other, after the front part `before` of a text, with the strings open there. -/
inductive Tiles (text : List Char) : List Nat → List Char → List Token → Prop
  | last {before gap} (split : text = before ++ gap) (fills : Gap.Fills [] gap) :
      Tiles text [] before [⟨.eof, ⟨.reached text, .reached text⟩⟩]
  | token {regions regions' before gap inside after kind tokens} (split : text = before ++ gap ++ inside ++ after)
      (fills : Gap.Fills (inside ++ after) gap) (visible : inside ≠ [])
      (fits : Fits regions kind regions' inside after)
      (rest : Tiles text regions' (before ++ gap ++ inside) tokens) :
      Tiles text regions before
        (⟨kind, ⟨.reached (before ++ gap), .reached (before ++ gap ++ inside)⟩⟩ :: tokens)

/-- The tokens of a text are one behind the other, or there is a fault in the text. -/
theorem Lexer.Stands.tokens {text before : List Char} {l : Lexer} (h : l.Stands text before)
    (running : l.finished = false) {fuel : Nat} (enough : l.rest.length + 2 ≤ fuel) :
    match l.tokens fuel with
    | .error e => e.span.LiesIn text
    | .ok tokens => Tiles text l.regions before tokens := by
  induction fuel generalizing l before with
  | zero => omega
  | succ fuel ih =>
    rw [Lexer.tokens]
    obtain ⟨e, l', hnext, hlies⟩ | ⟨l', hnext, hdone, hfills, hregions⟩ |
      ⟨gap, inside, kind, l', hnext, hrest, hfills, hvisible, hfits, hstands, hrunning⟩ := h.next running
    · simpa only [hnext] using hlies
    · -- The end is reported once; after it the lexer gives nothing.
      have hnil : l'.tokens fuel = .ok [] := by
        cases fuel with
        | zero => rfl
        | succ fuel => rw [Lexer.tokens, Lexer.next, if_pos hdone]
      simpa only [hnext, hnil, Except.map, hregions] using Tiles.last h.split hfills
    · have hlength : l'.rest.length + 2 ≤ fuel := by
        have hpos : 0 < inside.length := List.length_pos_iff.2 hvisible
        rw [hrest, List.length_append, List.length_append] at enough
        omega
      have hsplit : text = before ++ gap ++ inside ++ l'.rest := by
        rw [h.split, hrest, List.append_assoc, List.append_assoc, List.append_assoc]
      have hrec := ih hstands hrunning hlength
      simp only [hnext]
      cases htokens : l'.tokens fuel with
      | error e => simpa only [htokens, Except.map] using hrec
      | ok tokens =>
        rw [htokens] at hrec
        exact .token hsplit hfills hvisible hfits hrec

/-- A lexer at the start of a text. -/
theorem Lexer.stands_ofText (source : String) : (Lexer.ofText source).Stands source.toList [] :=
  ⟨rfl, rfl⟩

/-- The fault of a text that cannot be cut into tokens lies in it. -/
theorem liesIn_of_tokenize_error {source : String} {e : LexError} (h : tokenize source = .error e) :
    e.span.LiesIn source.toList := by
  have htokens := (Lexer.stands_ofText source).tokens rfl (Nat.le_refl _)
  rw [tokenize] at h
  have hlies : match (.error e : Except LexError (List Token)) with
      | .error e => e.span.LiesIn source.toList
      | .ok tokens => Tiles source.toList [] [] tokens := h ▸ htokens
  exact hlies

theorem tiles_of_tokenize {source : String} {tokens : List Token} (h : tokenize source = .ok tokens) :
    Tiles source.toList [] [] tokens := by
  have htokens := (Lexer.stands_ofText source).tokens rfl (Nat.le_refl _)
  rw [tokenize] at h
  have htiles : match (.ok tokens : Except LexError (List Token)) with
      | .error e => e.span.LiesIn source.toList
      | .ok tokens => Tiles source.toList [] [] tokens := h ▸ htokens
  exact htiles

/-- How the tokens of a text lie in it. -/
structure Tiled (text : List Char) (tokens : List Token) : Prop where
  /-- They are in order and do not overlap. -/
  ordered : tokens.Pairwise fun a b => a.span.stop.offset ≤ b.span.start.offset
  /-- A token is where its characters are; only the end has none. -/
  placed : ∀ t ∈ tokens, ∃ before inside after : List Char, text = before ++ inside ++ after ∧
    t.span = ⟨.reached before, .reached (before ++ inside)⟩ ∧ (inside = [] ↔ t.kind = .eof)
  /-- In front of the first token there is a gap, -/
  leading : ∃ t ts gap after, tokens = t :: ts ∧ text = gap ++ after ∧ t.span.start = .reached gap ∧
    Gap.Fills after gap
  /-- and so there is between two tokens. -/
  between : ∀ front a b back, tokens = front ++ a :: b :: back → ∃ before gap after : List Char,
    text = before ++ gap ++ after ∧ a.span.stop = .reached before ∧
      b.span.start = .reached (before ++ gap) ∧ Gap.Fills after gap
  /-- The last token, and no other one, is the end of the text. -/
  ends : ∃ front, tokens = front ++ [⟨.eof, ⟨.reached text, .reached text⟩⟩] ∧ ∀ t ∈ front, t.kind ≠ .eof

namespace Tiles

variable {text before : List Char} {regions : List Nat} {tokens : List Token}

/-- Tokens stand behind what was read before them. -/
theorem offset_le (h : Tiles text regions before tokens) {t : Token} (ht : t ∈ tokens) :
    (Position.reached before).offset ≤ t.span.start.offset := by
  induction h with
  | @last before gap split =>
    rw [List.mem_singleton.1 ht, split, Position.offset_reached_append]
    exact Nat.le_add_right _ _
  | @token regions regions' before gap inside after kind tokens split fills visible fits' rest ih =>
    obtain rfl | ht := List.mem_cons.1 ht
    · rw [Position.offset_reached_append]
      exact Nat.le_add_right _ _
    · have hle := ih ht
      rw [List.append_assoc, Position.offset_reached_append] at hle
      omega

/-- The first token stands behind a gap. -/
theorem leading (h : Tiles text regions before tokens) : ∃ t ts gap after, tokens = t :: ts ∧
    text = before ++ gap ++ after ∧ t.span.start = .reached (before ++ gap) ∧ Gap.Fills after gap := by
  cases h with
  | @last _ gap split fills => exact ⟨_, [], gap, [], rfl, by simpa using split, by rw [split], fills⟩
  | @token _ _ _ gap inside after kind tokens split fills =>
    exact ⟨_, tokens, gap, inside ++ after, rfl, by rw [split, List.append_assoc], rfl, fills⟩

theorem ordered (h : Tiles text regions before tokens) :
    tokens.Pairwise fun a b => a.span.stop.offset ≤ b.span.start.offset := by
  induction h with
  | last => exact List.pairwise_singleton _ _
  | token _ _ _ _ rest ih => exact .cons (fun t ht => rest.offset_le ht) ih

theorem placed (h : Tiles text regions before tokens) {t : Token} (ht : t ∈ tokens) :
    ∃ before inside after, text = before ++ inside ++ after ∧
      t.span = ⟨.reached before, .reached (before ++ inside)⟩ ∧ (inside = [] ↔ t.kind = .eof) := by
  induction h with
  | last =>
    obtain rfl := List.mem_singleton.1 ht
    exact ⟨text, [], [], by simp, by simp, by simp⟩
  | @token regions regions' before gap inside after kind tokens split fills visible fits' rest ih =>
    obtain rfl | ht := List.mem_cons.1 ht
    · exact ⟨before ++ gap, inside, after, split, rfl, by simp [visible, fits'.turn.ne_eof]⟩
    · exact ih ht

theorem between (h : Tiles text regions before tokens) {front back : List Token} {a b : Token}
    (htokens : tokens = front ++ a :: b :: back) : ∃ before gap after, text = before ++ gap ++ after ∧
      a.span.stop = .reached before ∧ b.span.start = .reached (before ++ gap) ∧ Gap.Fills after gap := by
  induction h generalizing front with
  | last => cases front <;> simp at htokens
  | @token regions regions' before gap inside after kind tokens split fills visible fits' rest ih =>
    cases front with
    | nil =>
      obtain ⟨rfl, rfl⟩ := List.cons.inj htokens
      obtain ⟨t, ts, gap', after', hcons, htext, hstart, hfills⟩ := rest.leading
      obtain ⟨rfl, -⟩ := List.cons.inj hcons
      exact ⟨_, gap', after', htext, rfl, hstart, hfills⟩
    | cons t front => exact ih (List.cons.inj htokens).2

theorem ends (h : Tiles text regions before tokens) :
    ∃ front, tokens = front ++ [⟨.eof, ⟨.reached text, .reached text⟩⟩] ∧ ∀ t ∈ front, t.kind ≠ .eof := by
  induction h with
  | last => exact ⟨[], rfl, by simp⟩
  | token _ _ _ fits' _ ih =>
    obtain ⟨front, rfl, hfront⟩ := ih
    exact ⟨_ :: front, rfl, by simpa using ⟨fits'.turn.ne_eof, hfront⟩⟩

end Tiles

/-- **The tokens of a text tile it.**  They are in order, each is where its characters are, in lines,
columns and bytes, only blanks and comments are between them, and the last one is the end of the text. -/
theorem tokenize_tiled {source : String} {tokens : List Token} (h : tokenize source = .ok tokens) :
    Tiled source.toList tokens := by
  have htiles := tiles_of_tokenize h
  exact {
    ordered := htiles.ordered
    placed := fun t ht => htiles.placed ht
    leading := htiles.leading
    between := fun front a b back htokens => htiles.between htokens
    ends := htiles.ends }

/-- A text with comments inside one another, a wide character and an expression inside a string. -/
def nestedSource : String :=
  "/* a /* b */ */é // c\n\"x\x7b1\x7d\""

theorem tokenize_tiled_nested : ∃ tokens, tokenize nestedSource = .ok tokens ∧
    tokens.map (·.span.start.offset) = [15, 23, 26, 27, 29] ∧ Tiled nestedSource.toList tokens := by
  have hstarts : (tokenize nestedSource).toOption.map (·.map (·.span.start.offset)) =
      some [15, 23, 26, 27, 29] := by
    decide +kernel
  obtain ⟨tokens, htokens⟩ := exists_of_isOk (x := tokenize nestedSource) (by decide +kernel)
  rw [htokens] at hstarts
  exact ⟨tokens, htokens, Option.some.inj hstarts, tokenize_tiled htokens⟩

end StackScript
