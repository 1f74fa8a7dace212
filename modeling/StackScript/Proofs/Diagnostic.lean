import StackScript.Compile
import StackScript.Proofs.Text.Places
import StackScript.Proofs.Token.Tiling
import StackScript.Proofs.Tree.Reading
import StackScript.Proofs.Typing.Program

/-!
# Where an error is

The report of a lexical, syntactic or type error names a stretch of the source text and is drawn below
a line of it.  Faults of the lexer are where it stands, all other ones come from tokens through the tree;
stretches of the text are closed under covering, so they are good places in the sense of both modules on
places.
-/

namespace StackScript

/-! ## Errors of the front end -/

namespace CompileError

/-- The place of an error; faults of the emitter have none. -/
def span? : CompileError → Option Span
  | lex e => some e.span
  | parse e => some e.span
  | type e => some e.span
  | emit _ => none

theorem span_diagnostic {e : CompileError} {s : Span} (h : e.span? = some s) : e.diagnostic.span = s := by
  cases e with
  | emit d => cases h
  | _ => exact Option.some.inj h

end CompileError

variable {α ε : Type} {x : Except ε α} {source : String} {tokens : List Token}

theorem except_mapError_eq_error {ε' : Type} {f : ε → ε'} {e' : ε'}
    (h : x.mapError f = .error e') : ∃ e, x = .error e ∧ f e = e' := by
  cases x with
  | error e => exact ⟨e, rfl, Except.error.inj h⟩
  | ok a => cases h

theorem except_bind_eq_error {β : Type} {f : α → Except ε β} {e : ε}
    (h : (x >>= f) = .error e) : x = .error e ∨ ∃ a, x = .ok a ∧ f a = .error e := by
  cases x with
  | error e' => cases h; exact .inl rfl
  | ok a => exact .inr ⟨a, rfl, h⟩

/-- The places of tokens are stretches of the text. -/
theorem liesIn_of_tokenize (h : tokenize source = .ok tokens) : ∀ t ∈ tokens, t.span.LiesIn source.toList := by
  intro t ht
  obtain ⟨before, inside, after, htext, hspan, -⟩ := (tiles_of_tokenize h).placed ht
  rw [hspan]
  exact .of_append htext

theorem ne_nil_of_tokenize (h : tokenize source = .ok tokens) : tokens ≠ [] := by
  obtain ⟨front, rfl, -⟩ := (tiles_of_tokenize h).ends
  simp

/-- **An error of the front end is in the text.** -/
theorem CompileError.liesIn_of_checkSource {strictMatch : Bool} {e : CompileError}
    (h : checkSource source strictMatch = .error e) : ∃ s, e.span? = some s ∧ s.LiesIn source.toList := by
  rcases except_bind_eq_error h with h | ⟨tokens, htokens, h⟩
  · obtain ⟨e, he, rfl⟩ := except_mapError_eq_error h
    exact ⟨e.span, rfl, liesIn_of_tokenize_error he⟩
  · replace htokens := except_mapError_eq_ok.1 htokens
    have hparse := parse_good Span.LiesIn.merge (liesIn_of_tokenize htokens) (ne_nil_of_tokenize htokens)
    rcases except_bind_eq_error h with h | ⟨tree, htree, h⟩
    · obtain ⟨e, he, rfl⟩ := except_mapError_eq_error h
      exact ⟨e.span, rfl, hparse.2 e he⟩
    · obtain ⟨e, he, rfl⟩ := except_mapError_eq_error h
      exact ⟨e.span, rfl, check_good Span.LiesIn.merge (hparse.1 tree (except_mapError_eq_ok.1 htree)) e he⟩

/-! ## Reports -/

theorem Position.offset_reached_toList (s : String) : (Position.reached s.toList).offset = s.utf8ByteSize := by
  rw [Position.reached, sum_utf8Size, String.ofList_toList]

namespace Diagnostic

/-- A report that shows a line of a text in every style with source lines: behind its number, and with at
least one indicator below the place where the stretch starts. -/
def Shows (f : SourceFile) (d : Diagnostic) (line : String) : Prop :=
  ∀ style : DiagnosticStyle, style.showSource = true → ∃ head margin count tail, 0 < count ∧
    style.render d (some f) = head ++ toString d.span.start.line ++ " | " ++ line ++ "\n" ++
      margin ++ " | " ++ DiagnosticStyle.repeated ' ' (d.span.start.column - 1) ++
      DiagnosticStyle.repeated style.indicator count ++ "\n" ++ tail

/-- A report that points into a text. -/
structure PointsInto (f : SourceFile) (d : Diagnostic) : Prop where
  somewhere : d.span ≠ .nowhere
  ordered : d.span.start.offset ≤ d.span.stop.offset
  bounded : d.span.stop.offset ≤ f.content.utf8ByteSize
  /-- Both ends are counted from the text in front of them. -/
  start : d.span.start.LiesIn f.content.toList
  stop : d.span.stop.LiesIn f.content.toList
  /-- The first line of the place is a line of the text and is shown. -/
  shown : ∃ line, f.line? d.span.start.line = some line ∧ d.Shows f line

theorem shows_of_line {f : SourceFile} {d : Diagnostic} {line : String} (hsomewhere : d.span.isNowhere = false)
    (hline : f.line? d.span.start.line = some line) : d.Shows f line := by
  intro style hstyle
  have hwidth : 0 < DiagnosticStyle.indicatorWidth d.span line := by
    unfold DiagnosticStyle.indicatorWidth
    split <;> omega
  let pad := DiagnosticStyle.repeated ' ' (toString d.span.start.line).length
  let header := d.severity.text ++ "[" ++ d.kind.code ++ "]: " ++ d.message ++ "\n"
  let place := " --> " ++ f.name ++ ":" ++ d.span.start.text ++ "\n"
  obtain ⟨tail, hrender⟩ : ∃ tail,
      style.render d (some f) = header ++ (place ++ style.sourceLines d.span line) ++ tail := by
    simp only [DiagnosticStyle.render, hsomewhere, hstyle, hline, Option.bind_some, Option.map_some,
      Option.getD_some, if_true, Bool.false_eq_true, if_false]
    exact ⟨_, rfl⟩
  refine ⟨header ++ place ++ pad ++ " |\n", pad, _, tail, hwidth, ?_⟩
  simp [hrender, DiagnosticStyle.sourceLines, String.append_assoc, pad]

theorem PointsInto.of_liesIn {f : SourceFile} {d : Diagnostic} (h : d.span.LiesIn f.content.toList) :
    d.PointsInto f := by
  obtain ⟨line, hline⟩ := h.start.exists_line
  have hsomewhere := h.isNowhere
  exact {
    somewhere := fun hspan => by rw [hspan] at hsomewhere; cases hsomewhere
    ordered := h.ordered
    bounded := Position.offset_reached_toList _ ▸ h.stop.offset_le
    start := h.start
    stop := h.stop
    shown := ⟨line, hline, shows_of_line hsomewhere hline⟩ }

/-- **Every report of the front end points into the source.**  Only a fault of the emitter has no place. -/
theorem pointsInto_of_compile {source : String} {config : CompileConfig} {e : CompileError}
    (h : compile source config = .error e) (hfront : ∀ d, e ≠ .emit d) (name : String) :
    e.diagnostic.PointsInto ⟨name, source⟩ := by
  rcases except_bind_eq_error h with h | ⟨typed, -, h⟩
  · obtain ⟨s, hs, hlies⟩ := CompileError.liesIn_of_checkSource h
    rw [← CompileError.span_diagnostic hs] at hlies
    exact .of_liesIn hlies
  · obtain ⟨d, -, rfl⟩ := except_mapError_eq_error h
    exact absurd rfl (hfront d)

/-- A text with an error that covers two lines. -/
def crossedSource : String :=
  "fn f() -> i32 \x7b\n  let é = \"é\" -\n    \"b\";\n\x7d"

/-- The place that a failed compilation names. -/
def failedAt? : Except CompileError Module → Option Span
  | .error e => e.span?
  | .ok _ => none

theorem pointsInto_of_compile_crossed : ∃ e, compile crossedSource {} = .error e ∧
    e.diagnostic.span = ⟨⟨2, 11, 27⟩, ⟨3, 8, 41⟩⟩ ∧ e.diagnostic.PointsInto ⟨"crossed", crossedSource⟩ := by
  have hspan : failedAt? (compile crossedSource {}) = some ⟨⟨2, 11, 27⟩, ⟨3, 8, 41⟩⟩ := by decide +kernel
  cases he : compile crossedSource {} with
  | ok m =>
    rw [he] at hspan
    cases hspan
  | error e =>
    rw [he] at hspan
    exact ⟨e, rfl, CompileError.span_diagnostic hspan,
      pointsInto_of_compile he (fun d hd => by rw [hd] at hspan; cases hspan) "crossed"⟩

end Diagnostic

end StackScript
