import StackScript.Proofs.Token.Tiling

/-!
# Strings in texts

A string may have expressions in it, which may have braces and strings in them again.  In the tokens of a text
all these nest.  A string without expressions stands for its characters, whichever way they are written.

## Design Notes

The lexer counts the braces that are open in each open string.  Read from the last token back, these counts say what
is still missing: `Pending` is the grammar of the tokens behind a place, given the counts there.
-/

namespace StackScript

/-! ## Runs of the lexer -/

namespace Lexer

/-- A run of the lexer inside a text, with the tokens that it gives. -/
inductive Gives : Lexer → List Token → Lexer → Prop
  | refl {l} : Gives l [] l
  | step {l l₁ l' t ts} (first : l.next = (.ok (some t), l₁)) (inner : t.kind ≠ .eof) (rest : Gives l₁ ts l') :
      Gives l (t :: ts) l'

variable {l l₁ l' : Lexer} {ts : List Token} {t : Token} {text before : List Char}

/-- A step that gives a token reads characters. -/
theorem Stands.step (h : l.Stands text before) (running : l.finished = false) (first : l.next = (.ok (some t), l₁))
    (inner : t.kind ≠ .eof) : ∃ before', l₁.Stands text before' ∧ l₁.finished = false ∧
      l₁.rest.length < l.rest.length ∧ Turn l.regions t.kind l₁.regions := by
  obtain ⟨e, l', hnext, -⟩ | ⟨l', hnext, -⟩ |
    ⟨gap, inside, kind, l', hnext, hrest, -, hvisible, hfits, hstands, hrunning⟩ := h.next running
  all_goals rw [hnext] at first; cases first
  · exact absurd rfl inner
  · have hpos := List.length_pos_iff.2 hvisible
    refine ⟨_, hstands, hrunning, ?_, hfits.turn⟩
    simp only [hrest, List.length_append]
    omega

/-- The tokens of a run are in front of those that follow. -/
theorem Gives.tokens (h : l.Gives ts l') (hl : l.Stands text before) (running : l.finished = false) {fuel : Nat}
    (enough : l.rest.length + 2 ≤ fuel) : ∃ fuel', l.tokens fuel = (l'.tokens (fuel' + 2)).map (ts ++ ·) := by
  induction h generalizing before fuel with
  | @refl l =>
    obtain ⟨n, rfl⟩ := Nat.exists_eq_add_of_le' (Nat.le_trans (Nat.le_add_left 2 _) enough)
    refine ⟨n, ?_⟩
    cases l.tokens (n + 2) <;> rfl
  | step first inner rest ih =>
    obtain ⟨before', hl₁, hrunning, hlt, -⟩ := hl.step running first inner
    obtain ⟨n, rfl⟩ := Nat.exists_eq_add_of_le' (Nat.le_trans (Nat.le_add_left 1 _) enough)
    obtain ⟨fuel', hfuel⟩ := ih hl₁ hrunning (show _ ≤ n by omega)
    refine ⟨fuel', ?_⟩
    rw [Lexer.tokens, first]
    dsimp only
    rw [hfuel]
    cases Lexer.tokens (fuel' + 2) _ <;> rfl

variable {source : String}

/-- A fault behind a run is the fault of the text. -/
theorem Gives.of_error (h : (ofText source).Gives ts l) {e : LexError} (last : l.next = (.error e, l')) :
    StackScript.tokenize source = .error e := by
  obtain ⟨fuel, hfuel⟩ := h.tokens (stands_ofText source) rfl (Nat.le_refl _)
  rw [StackScript.tokenize]
  refine hfuel.trans ?_
  rw [Lexer.tokens, last]
  rfl

/-- Behind the last token, a text ends or is inside of a string. -/
theorem next_of_end (running : l.finished = false) (gap : Gap.length l.rest = .ok l.rest.length) : ∃ span l',
    l.next = (if l.regions.isEmpty then .ok (some ⟨.eof, span⟩) else .error ⟨.unterminatedString, span⟩, l') := by
  have hrest : (l.read l.rest.length).begin_.rest = [] := List.drop_length
  have hregions : (l.read l.rest.length).begin_.regions = l.regions := rfl
  rw [next, running, if_neg Bool.false_ne_true, gap]
  dsimp only
  rw [token, hrest]
  dsimp only
  rw [hregions]
  split <;> exact ⟨_, _, rfl⟩

end Lexer

/-! ## Strings with expressions in them -/

/-- Where tokens stand: outside of all strings, between braces inside of a string, or behind the first piece of a
string. -/
inductive Nested.Place where
  | text
  | braces
  | string

/-- Tokens in which strings nest, and so do braces inside of strings. -/
inductive Nested : Nested.Place → List TokenKind → Prop
  | nil {p} (inner : p ≠ .string) : Nested p []
  | plain {p k ks} (plain : k.Plain) (rest : Nested p ks) : Nested p (k :: ks)
  /-- Outside of strings, braces are not counted. -/
  | brace {m ks} (brace : m = .lbrace ∨ m = .rbrace) (rest : Nested .text ks) : Nested .text (.mark m :: ks)
  | braces {p is ks} (inner : Nested .braces is) (rest : Nested p ks) :
      Nested p (.mark .lbrace :: (is ++ .mark .rbrace :: ks))
  /-- A string in another string, or outside of strings. -/
  | string {p t is ks} (inner : Nested .string is) (rest : Nested p ks) : Nested p (.strStart t :: (is ++ ks))
  | middle {t ks} (rest : Nested .string ks) : Nested .string (.strMiddle t :: ks)
  | last {t} : Nested .string [.strEnd t]

/-- The tokens behind a place, by the braces open there in the strings that are open. -/
inductive Pending : List Nat → List TokenKind → Prop
  | text {ks} (nested : Nested .text ks) : Pending [] ks
  | string {R is ks} (nested : Nested .string is) (rest : Pending R ks) : Pending (0 :: R) (is ++ ks)
  | brace {d R is ks} (nested : Nested .braces is) (rest : Pending (d :: R) ks) :
      Pending ((d + 1) :: R) (is ++ .mark .rbrace :: ks)

namespace Pending

variable {R R' : List Nat} {k : TokenKind} {ks front : List TokenKind}

/-- What may stand anywhere may stand in front. -/
theorem prepend (hfront : ∀ {p ks}, Nested p ks → Nested p (front ++ ks)) (h : Pending R ks) : Pending R (front ++ ks) := by
  cases h with
  | text nested => exact .text (hfront nested)
  | string nested rest =>
    rw [← List.append_assoc]
    exact .string (hfront nested) rest
  | brace nested rest =>
    rw [← List.append_assoc]
    exact .brace (hfront nested) rest

/-- **A token in front.** -/
theorem cons (h : Pending R' ks) (turn : Turn R k R') : Pending R (k :: ks) := by
  cases turn with
  | plain plain =>
    rw [← List.singleton_append]
    exact h.prepend (.plain plain)
  | outside brace =>
    cases h with
    | text nested => exact .text (.brace brace nested)
  | opens =>
    cases h with
    | @brace d R is ks inner rest =>
      rw [List.append_cons, ← List.cons_append]
      exact rest.prepend fun h => by simpa using Nested.braces inner h
  | closes => exact .brace (.nil nofun) h
  | start =>
    cases h with
    | string inner rest =>
      rw [← List.cons_append]
      exact rest.prepend (.string inner)
  | middle =>
    cases h with
    | string inner rest => exact .string (.middle inner) rest
  | end_ => exact .string .last h

end Pending

theorem Tiles.pending {text before : List Char} {regions : List Nat} {tokens : List Token}
    (h : Tiles text regions before tokens) : ∃ ks, tokens.map (·.kind) = ks ++ [.eof] ∧ Pending regions ks := by
  induction h with
  | last => exact ⟨[], rfl, .text (.nil nofun)⟩
  | token _ _ _ fits' _ ih =>
    obtain ⟨ks, hks, hpending⟩ := ih
    exact ⟨_ :: ks, by simpa using hks, hpending.cons fits'.turn⟩

/-- Tokens that open a string, and those that close one. -/
def TokenKind.opensString : TokenKind → Bool
  | .strStart _ => true
  | _ => false

def TokenKind.closesString : TokenKind → Bool
  | .strEnd _ => true
  | _ => false

theorem Turn.length_eq {R R' : List Nat} {k : TokenKind} (h : Turn R k R') :
    R'.length + [k].countP (·.closesString) = R.length + [k].countP (·.opensString) := by
  cases h with
  | @plain R k plain => cases k <;> first | rfl | cases plain
  | outside => rfl
  | opens | closes | start | middle | end_ => simp [TokenKind.closesString, TokenKind.opensString]

theorem Lexer.Gives.length_regions {l l' : Lexer} {ts : List Token} {text before : List Char} (h : l.Gives ts l')
    (hl : l.Stands text before) (running : l.finished = false) : l'.finished = false ∧
      l'.regions.length + (ts.map (·.kind)).countP (·.closesString) =
        l.regions.length + (ts.map (·.kind)).countP (·.opensString) := by
  induction h generalizing before with
  | refl => exact ⟨running, rfl⟩
  | @step l l₁ l' t ts first inner rest ih =>
    obtain ⟨before', hl₁, hrunning, -, hturn⟩ := hl.step running first inner
    obtain ⟨hrunning', hlength⟩ := ih hl₁ hrunning
    have hfirst := hturn.length_eq
    refine ⟨hrunning', ?_⟩
    rw [List.map_cons, ← List.singleton_append, List.countP_append, List.countP_append]
    omega

/-- **Strings nest**, and so do the braces in them.  If a text ends where more strings were opened than closed, it has
an unterminated string. -/
theorem tokenize_nested (source : String) :
    (∀ tokens, tokenize source = .ok tokens → ∃ ks, tokens.map (·.kind) = ks ++ [.eof] ∧ Nested .text ks) ∧
    ∀ ts l, (Lexer.ofText source).Gives ts l → Gap.length l.rest = .ok l.rest.length →
      (ts.map (·.kind)).countP (·.closesString) < (ts.map (·.kind)).countP (·.opensString) →
        ∃ span, tokenize source = .error ⟨.unterminatedString, span⟩ := by
  refine ⟨fun tokens h => ?_, fun ts l hgives gap hopen => ?_⟩
  · obtain ⟨ks, hks, hpending⟩ := (tiles_of_tokenize h).pending
    cases hpending with
    | text nested => exact ⟨ks, hks, nested⟩
  · obtain ⟨running, hlength⟩ := hgives.length_regions (Lexer.stands_ofText source) rfl
    obtain ⟨span, l', hnext⟩ := Lexer.next_of_end running gap
    have hregions : l.regions.isEmpty = false := by
      cases hnil : l.regions with
      | nil =>
        rw [hnil] at hlength
        simp only [Lexer.ofText, List.length_nil] at hlength
        omega
      | cons => rfl
    rw [hregions, if_neg Bool.false_ne_true] at hnext
    exact ⟨span, hgives.of_error hnext⟩

/-- A string inside of a string, between braces. -/
def stringInString : String :=
  "\"a\x7b\x7b\"b\x7b1\x7d\"\x7d\x7dc\""

theorem tokenize_nested_inside : (∃ tokens ks, tokenize stringInString = .ok tokens ∧
    tokens.map (·.kind) = ks ++ [.eof] ∧ ks.length = 7 ∧ Nested .text ks) ∧
      ∃ span, tokenize "\"a\x7b1 " = .error ⟨.unterminatedString, span⟩ := by
  refine ⟨?_, (tokenize_nested "\"a\x7b1 ").2 _ _ (.step rfl nofun (.step rfl nofun .refl)) rfl (by decide)⟩
  have hlength : (tokenize stringInString).toOption.map (·.length) = some 8 := by decide +kernel
  obtain ⟨tokens, htokens⟩ := exists_of_isOk (x := tokenize stringInString) (by decide +kernel)
  obtain ⟨ks, hks, hnested⟩ := (tokenize_nested stringInString).1 tokens htokens
  rw [htokens] at hlength
  refine ⟨tokens, ks, htokens, hks, ?_, hnested⟩
  simpa [← List.length_map (fun t : Token => t.kind), hks] using Option.some.inj hlength

/-! ## Strings without expressions -/

/-- The letters behind a backslash, with what they stand for. -/
def escapes : List (Char × Char) :=
  [('n', '\n'), ('t', '\t'), ('r', '\r'), ('0', Char.ofNat 0), ('\\', '\\'), ('"', '"'), ('\x7b', '\x7b'), ('\x7d', '\x7d')]

/-- The ways to write characters between quotes.  A brace that opens an expression has to be escaped, except in
bytes. -/
inductive Written (bytes : Bool) : List Char → List Char → Prop
  | nil : Written bytes [] []
  | raw {c w s} (slash : c ≠ '\\') (quote : c ≠ '"') (brace : c = '\x7b' → bytes = true) (rest : Written bytes w s) :
      Written bytes (c :: w) (c :: s)
  | escaped {e c w s} (escape : (e, c) ∈ escapes) (rest : Written bytes w s) : Written bytes ('\\' :: e :: w) (c :: s)

/-- What stands in front of the characters of a string or of bytes. -/
def opener (bytes : Bool) : List Char :=
  if bytes then ['b', '"'] else ['"']

namespace Written

variable {bytes : Bool} {w s front : List Char}

theorem unescape?_eq {e c : Char} (h : (e, c) ∈ escapes) : Body.unescape? e = some c := by
  have hall : ∀ p ∈ escapes, Body.unescape? p.1 = some p.2 := by decide
  exact hall _ h

/-- Reading one character that is written as itself. -/
theorem scan_raw {c : Char} (slash : c ≠ '\\') (quote : c ≠ '"') (brace : c = '\x7b' → bytes = true) (cs : List Char) :
    Body.scan (!bytes) (c :: cs) = (Body.scan (!bytes) cs).push c 1 := by
  cases bytes <;> simp_all [Body.scan]

theorem scan_escaped {e c : Char} (h : (e, c) ∈ escapes) (cs : List Char) :
    Body.scan (!bytes) ('\\' :: e :: cs) = (Body.scan (!bytes) cs).push c 2 := by
  rw [Body.scan, unescape?_eq h]

/-- Up to the closing quote, the characters are read. -/
theorem scan_quoted (h : Written bytes w s) : Body.scan (!bytes) (w ++ ['"']) = ⟨s, w.length + 1, .quote⟩ := by
  induction h with
  | nil => simp [Body.scan]
  | raw slash quote brace _ ih =>
    rw [List.cons_append, scan_raw slash quote brace, ih, Body.push, List.length_cons, Nat.add_comm 1]
  | escaped escape _ ih =>
    rw [List.cons_append, List.cons_append, scan_escaped escape, ih, Body.push, List.length_cons, List.length_cons,
      Nat.add_comm 2]

/-- Without the closing quote, the end is missing, also behind a lone backslash. -/
theorem stop_front (h : Written bytes w s) (hfront : front <+: w) : (Body.scan (!bytes) front).stop = .missing := by
  induction h generalizing front with
  | nil =>
    rw [List.prefix_nil.1 hfront]
    rfl
  | raw slash quote brace _ ih =>
    rcases List.prefix_cons_iff.1 hfront with rfl | ⟨rest, rfl, hrest⟩
    · rfl
    · rw [scan_raw slash quote brace]
      exact ih hrest
  | escaped escape _ ih =>
    rcases List.prefix_cons_iff.1 hfront with rfl | ⟨rest, rfl, hrest⟩
    · rfl
    · rcases List.prefix_cons_iff.1 hrest with rfl | ⟨rest, rfl, hlast⟩
      · rfl
      · rw [scan_escaped escape]
        exact ih hlast

end Written

/-! ### Texts of one lexeme -/

section

variable {c : Char} {cs : List Char}

theorem Gap.length_of_visible (slash : c ≠ '/') (blank : isBlank c = false) : Gap.length (c :: cs) = .ok 0 := by
  simp [Gap.length, Gap.scan, slash, blank]

theorem tokenize_lexeme (slash : c ≠ '/') (blank : Gap.isBlank c = false) {o : Except LexFault TokenKind}
    (scan : Lexeme.scan [] c cs = ⟨(c :: cs).length, o, 0, []⟩) : tokenize (String.ofList (c :: cs)) =
      (o.mapError fun fault => ⟨fault, ⟨.first, .reached (c :: cs)⟩⟩).map fun k =>
        [⟨k, ⟨.first, .reached (c :: cs)⟩⟩, ⟨.eof, ⟨.reached (c :: cs), .reached (c :: cs)⟩⟩] := by
  have hgap : Gap.length (c :: cs) = .ok 0 := Gap.length_of_visible slash blank
  have hend : Gap.length [] = .ok 0 := rfl
  simp only [← Position.after_first]
  cases o <;>
    simp [tokenize, Lexer.ofText, Lexer.tokens, Lexer.next, Lexer.token, Lexer.read, Lexer.begin_, Lexer.span, hgap, hend,
      scan, Except.map, Except.mapError]

theorem tokenize_fault (slash : c ≠ '/') (blank : Gap.isBlank c = false) {fault : LexFault}
    (scan : (Lexeme.scan [] c cs).outcome = .error fault) :
    ∃ span, tokenize (String.ofList (c :: cs)) = .error ⟨fault, span⟩ := by
  have hgap : Gap.length (c :: cs) = .ok 0 := Gap.length_of_visible slash blank
  simp [tokenize, Lexer.ofText, Lexer.tokens, Lexer.next, Lexer.token, Lexer.read, Lexer.begin_, hgap, scan]

theorem Lexeme.scan_string : Lexeme.scan [] '"' cs = Lexeme.string [] true cs := by
  have hstart : Identifier.isStart '"' = false := by decide
  simp [Lexeme.scan, hstart]

theorem Lexeme.scan_byteString : Lexeme.scan [] 'b' ('"' :: cs) = Lexeme.byteString [] cs := by
  simp [Lexeme.scan]

end

/-- **A string stands for its characters**, whichever way they are written, and bytes stand for their encoding.
No front part of a string stands for anything. -/
theorem tokenize_written {bytes : Bool} {w s : List Char} (h : Written bytes w s) :
    (∃ tokens, tokenize (String.ofList (opener bytes ++ w ++ ['"'])) = .ok tokens ∧ tokens.map (·.kind) =
      [if bytes then .bytes (Utf8.encode (String.ofList s)) else .str (String.ofList s), .eof]) ∧
    ∀ front, opener bytes <+: front → front <+: opener bytes ++ w ++ ['"'] → front ≠ opener bytes ++ w ++ ['"'] →
      ∃ span, tokenize (String.ofList front) = .error ⟨.unterminatedString, span⟩ := by
  have hquoted := h.scan_quoted
  refine ⟨?_, ?_⟩
  · cases bytes with
    | false =>
      exact ⟨_, tokenize_lexeme (o := .ok (.str (.ofList s))) (by decide) (by decide)
        (by simp_all [Lexeme.scan_string, Lexeme.string]), rfl⟩
    | true =>
      exact ⟨_, tokenize_lexeme (o := .ok (.bytes (Utf8.encode (.ofList s)))) (by decide) (by decide)
        (by simp_all [Lexeme.scan_byteString, Lexeme.byteString]), rfl⟩
  · rintro _ ⟨front, rfl⟩ hfront hne
    rw [List.append_assoc, List.prefix_append_right_inj, List.prefix_concat_iff] at hfront
    have hstop := h.stop_front (hfront.resolve_left fun heq => hne (by rw [heq, List.append_assoc]))
    cases bytes with
    | false => exact tokenize_fault (by decide) (by decide) (by simp_all [Lexeme.scan_string, Lexeme.string])
    | true => exact tokenize_fault (by decide) (by decide) (by simp_all [Lexeme.scan_byteString, Lexeme.byteString])

theorem tokenize_written_escape : Written false ['a', '\\', 'n'] ['a', '\n'] ∧
    (∃ tokens, tokenize (.ofList ['"', 'a', '\\', 'n', '"']) = .ok tokens ∧
      tokens.map (·.kind) = [.str (.ofList ['a', '\n']), .eof]) ∧
        ∃ span, tokenize (.ofList ['"', 'a', '\\']) = .error ⟨.unterminatedString, span⟩ := by
  have h : Written false ['a', '\\', 'n'] ['a', '\n'] := .raw (by decide) (by decide) nofun (.escaped (by decide) .nil)
  obtain ⟨hok, hfront⟩ := tokenize_written h
  exact ⟨h, hok, hfront ['"', 'a', '\\'] (by decide) (by decide) (by decide)⟩

end StackScript
