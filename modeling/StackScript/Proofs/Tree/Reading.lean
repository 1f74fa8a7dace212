import StackScript.Proofs.Steps
import StackScript.Proofs.Tree.Numbers
import StackScript.Proofs.Tree.Spans
import StackScript.Token.Lexer

/-!
# Reading trees

All places in a tree are places of tokens, or cover places of tokens, and so is the place of a failure to
read one.  The nodes of a program are numbered in the order in which they are completed, without gaps.  Reading
goes on from token to token up to the end, and does not reach the bound on its depth.

## Design Notes

What a good place is stays open; it only has to be closed under covering.  While a text is read, the numbers of
the nodes completed so far are `0, 1, …`, up to the next number of the cursor.  A production is described by this
list before it and after it, so that the descriptions of two productions compose.

A chain of productions without a token in between has fewer than 20 members, so a bound of 20 for each token that
is left is enough.  In front of its first token a production still needs some of it, and behind that it has 20 more.
-/

namespace StackScript

/-! ## Places in a text -/

/-- What the tokens of a text are like: good places, which covering keeps, and good names. -/
structure Grade where
  place : Span → Prop
  merge : ∀ {a b : Span}, place a → place b → place (a.merge b)
  name : String → Prop

/-- A token at a good place and, if it is a name, with a good name. -/
structure Grade.Token (G : Grade) (t : Token) : Prop where
  place : G.place t.span
  name : ∀ n, t.kind = .ident n → G.name n

/-- All tokens of a list are good, and so is the place of none. -/
structure Cursor.Within (G : Grade) (c : Cursor) : Prop where
  before : ∀ t ∈ c.before, G.Token t
  after : ∀ t ∈ c.after, G.Token t
  any : c.before ≠ [] ∨ c.after ≠ [] ∨ G.place .nowhere

/-- Tokens are read from one place to another: none of them is the end. -/
structure Cursor.Reads (c : Cursor) (read : List Token) (c' : Cursor) : Prop where
  after : c.after = read ++ c'.after
  before : c'.before = read.reverse ++ c.before
  inner : ∀ t ∈ read, t.kind ≠ .eof

/-- How many tokens are still to be read. -/
def Cursor.ahead (c : Cursor) : Nat :=
  (c.after.takeWhile (·.kind ≠ .eof)).length

namespace Cursor.Within

variable {G : Grade} {c : Cursor}

theorem span (h : c.Within G) : G.place c.span := by
  unfold Cursor.span
  split
  next _ _ t _ hafter => exact (h.after t (by simp [hafter])).place
  next t ts hafter hbefore => exact (h.before t (by simp [hbefore])).place
  next hafter hbefore => simpa [hafter, hbefore] using h.any

theorem previousSpan (h : c.Within G) : G.place c.previousSpan := by
  unfold Cursor.previousSpan
  split
  next t ts hbefore => exact (h.before t (by simp [hbefore])).place
  next => exact h.span

theorem name (h : c.Within G) {n : String} (hn : c.kind = .ident n) : G.name n := by
  unfold Cursor.kind at hn
  split at hn
  next t ts hafter => exact (h.after t (by simp [hafter])).name n hn
  next => cases hn

/-- Reading tokens stays between them. -/
theorem reads {c' : Cursor} {read : List Token} (h : c.Within G) (hread : c.Reads read c') : c'.Within G := by
  obtain ⟨hbefore, hafter, hany⟩ := h
  rw [hread.after] at hafter hany
  refine ⟨?_, fun t ht => hafter t (List.mem_append_right _ ht), ?_⟩
  · rw [hread.before]
    intro t ht
    rcases List.mem_append.1 ht with ht | ht
    · exact hafter t (List.mem_append_left _ (List.mem_reverse.1 ht))
    · exact hbefore t ht
  · rw [hread.before]
    cases read with
    | nil => exact hany
    | cons t ts => simp

end Cursor.Within

namespace Cursor.Reads

variable {c c₁ c' : Cursor} {read read' : List Token}

theorem refl (c : Cursor) : c.Reads [] c :=
  ⟨rfl, rfl, List.forall_mem_nil _⟩

theorem trans (h : c.Reads read c₁) (h' : c₁.Reads read' c') : c.Reads (read ++ read') c' where
  after := by rw [h.after, h'.after, List.append_assoc]
  before := by rw [h'.before, h.before, List.reverse_append, List.append_assoc]
  inner t ht := (List.mem_append.1 ht).elim (h.inner t) (h'.inner t)

theorem ahead_eq (h : c.Reads read c') : c.ahead = read.length + c'.ahead := by
  have hread : ∀ t ∈ read, decide (t.kind ≠ .eof) = true := fun t ht => decide_eq_true (h.inner t ht)
  rw [ahead, ahead, h.after, List.takeWhile_append_of_pos hread, List.length_append]

/-- Going past a token reads it, unless it is the end. -/
theorem advance (c : Cursor) : ∃ read, c.Reads read c.advance ∧ (read = [] → c.kind = .eof) ∧
    c.advance.nextId = c.nextId := by
  unfold Cursor.advance
  split
  next hafter => exact ⟨[], .refl c, fun _ => by simp [Cursor.kind, hafter], rfl⟩
  next t rest hafter =>
    split
    next heof => exact ⟨[], .refl c, fun _ => by simp [Cursor.kind, hafter, heof], rfl⟩
    next hinner => exact ⟨[t], ⟨hafter, rfl, List.forall_mem_singleton.2 hinner⟩, by simp, rfl⟩

end Cursor.Reads

/-! ## Reading steps -/

namespace Parse

variable {G : Grade} {α β : Type} {K : TokenKind → Prop} {need need' bound : Nat} {S : α → Prop} {T : β → Prop}
  {done : List Nat}

/-- A step at a token of a kind `K` that reads good tokens.  It fails at a good place, or what it gives has `V`; it
does not reach the bound if that is enough for what it needs and for the tokens that are left.  If the nodes
completed before the step have the numbers `done`, those completed after it have the numbers `after a`, where `a`
is what the step gives.  If it reads no token, what it gives has `S`. -/
def Walks (G : Grade) (K : TokenKind → Prop) (need bound : Nat) (S : α → Prop) (done : List Nat) (x : Parse α)
    (V : α → Prop) (after : α → List Nat) : Prop :=
  ∀ c : Cursor, K c.kind → c.Within G → Yields x c
    (fun e => G.place e.span ∧ (need + 20 * c.ahead ≤ bound → e.expected ≠ .shorterText)) fun a c' =>
      (done = List.range c.nextId → after a = List.range c'.nextId) ∧ V a ∧
        ∃ read, c.Reads read c' ∧ (read = [] → S a)

/-- At any token. -/
abbrev Anywhere (_ : TokenKind) : Prop := True

/-- Of a step that may read no token. -/
abbrev Resting (_ : α) : Prop := True

/-- Of a step that reads a token. -/
abbrev Moving (_ : α) : Prop := False

/-- A step behind a token. -/
abbrev Finds (G : Grade) (bound : Nat) (done : List Nat) (x : Parse α) (V : α → Prop) (after : α → List Nat) : Prop :=
  Walks G Anywhere 20 bound Resting done x V after

/-- A step that completes no node. -/
abbrev Quiet (G : Grade) (least bound : Nat) (S : α → Prop) (x : Parse α) (V : α → Prop) : Prop :=
  ∀ {need done}, Walks G Anywhere (need + least) bound S done x V fun _ => done

/-- A step that gives good places, and completes the nodes of what it gives. -/
abbrev Reads (G : Grade) (least bound : Nat) (S : α → Prop) (x : Parse α) (spans : α → List Span)
    (numbers : α → List Nat) : Prop :=
  ∀ {need done}, Walks G Anywhere (need + least) bound S done x (fun a => AllGood G.place (spans a)) fun a =>
    done ++ numbers a

namespace Walks

variable {x : Parse α} {f : α → Parse β} {V V' : α → Prop} {W : β → Prop} {after after' : α → List Nat}
  {final : β → List Nat}

theorem mono (h : Walks G K need bound S done x V after) (hV : ∀ a, V a → V' a) (heq : ∀ a, after a = after' a) :
    Walks G K need bound S done x V' after' :=
  fun c hK hc => (h c hK hc).mono (fun _ => id) fun a _ ⟨hnext, ha, hread⟩ =>
    ⟨fun hdone => (heq a).symm.trans (hnext hdone), hV a ha, hread⟩

theorem up (h : Walks G K need bound S done x V after) : Walks G K (need + 1) (bound + 1) S done x V after :=
  fun c hK hc => (h c hK hc).mono (fun _ he => ⟨he.1, fun hroom => he.2 (by omega)⟩) fun _ _ => id

theorem weaken (h : Walks G K need bound S done x V after) (hneed : need ≤ need') :
    Walks G K need' bound S done x V after :=
  fun c hK hc => (h c hK hc).mono (fun _ he => ⟨he.1, fun hroom => he.2 (by omega)⟩) fun _ _ => id

theorem rest (h : Walks G K need bound S done x V after) : Walks G K need bound Resting done x V after :=
  fun c hK hc => (h c hK hc).mono (fun _ => id)
    fun _ _ ⟨hnext, ha, read, hread, _⟩ => ⟨hnext, ha, read, hread, fun _ => trivial⟩

/-- A step and, where it has read a token, a step behind that. -/
theorem seq (hx : Walks G Anywhere need bound S done x V after)
    (hmoved : ∀ a, V a → ¬S a → Walks G Anywhere (need + 20) bound Resting (after a) (f a) W final)
    (hstill : ∀ a, V a → S a → Walks G Anywhere need bound T (after a) (f a) W final) :
    Walks G K need bound T done (x >>= f) W final := by
  refine fun c _ hc => yields_bind ((hx c trivial hc).mono (fun _ => id)
    fun a c₁ ⟨hnext, ha, read, hread, hS⟩ => ?_)
  have hleft := hread.ahead_eq
  by_cases hs : S a
  · refine (hstill a ha hs c₁ trivial (hc.reads hread)).mono
      (fun _ he => ⟨he.1, fun hroom => he.2 (by omega)⟩) fun b c' ⟨hnext', hb, read', hread', hT⟩ => ?_
    exact ⟨hnext' ∘ hnext, hb, _, hread.trans hread', fun hnil => hT (List.append_eq_nil_iff.1 hnil).2⟩
  · have hpos : 0 < read.length := List.length_pos_iff.2 fun hnil => hs (hS hnil)
    refine (hmoved a ha hs c₁ trivial (hc.reads hread)).mono
      (fun _ he => ⟨he.1, fun hroom => he.2 (by omega)⟩) fun b c' ⟨hnext', hb, read', hread', _⟩ => ?_
    exact ⟨hnext' ∘ hnext, hb, _, hread.trans hread', fun hnil => absurd (hS (List.append_eq_nil_iff.1 hnil).1) hs⟩

theorem bind (hx : Walks G Anywhere need bound S done x V after)
    (hf : ∀ a, V a → Walks G Anywhere need bound T (after a) (f a) W final) :
    Walks G K need bound T done (x >>= f) W final :=
  hx.seq (fun a ha _ => (hf a ha).rest.weaken (Nat.le_add_right _ _)) fun a ha _ => hf a ha

/-- The first token is read by the first step. -/
theorem first (hx : Walks G Anywhere need bound Moving done x V after)
    (hf : ∀ a, V a → Finds G bound (after a) (f a) W final) : Walks G K need bound T done (x >>= f) W final :=
  hx.seq (fun a ha _ => (hf a ha).weaken (Nat.le_add_left _ _)) fun _ _ => False.elim

theorem pure {a : α} (h : V a) (heq : done = after a) : Walks G K need bound Resting done (Pure.pure a) V after :=
  fun c _ _ => ⟨heq.symm.trans, h, [], .refl c, fun _ => trivial⟩

theorem still {a : α} (hS : S a) (h : V a) (heq : done = after a) : Walks G K need bound S done (Pure.pure a) V after :=
  fun c _ _ => ⟨heq.symm.trans, h, [], .refl c, fun _ => hS⟩

theorem give {a : α} (h : V a) (heq : done = after a)
    (hf : ∀ a, V a → Walks G Anywhere need bound T (after a) (f a) W final) :
    Walks G K need bound T done (Pure.pure a >>= f) W final := by
  subst heq
  exact fun c _ hc => hf a h c trivial hc

theorem get {f : Cursor → Parse β} (h : ∀ c, Walks G K need bound T done (f c) W final) :
    Walks G K need bound T done (MonadState.get >>= f) W final :=
  fun c hK hc => yields_bind (h c c hK hc)

theorem kind {f : TokenKind → Parse β}
    (h : ∀ k, (∀ n, k = .ident n → G.name n) → Walks G (· = k) need bound T done (f k) W final) :
    Walks G K need bound T done (Parse.kind >>= f) W final :=
  fun c _ hc => yields_bind (h c.kind (fun _ => hc.name) c rfl hc)

theorem here {f : Span → Parse β} (h : ∀ span, G.place span → Walks G K need bound T done (f span) W final) :
    Walks G K need bound T done (Parse.here >>= f) W final :=
  fun c hK hc => yields_bind (h c.span hc.span c hK hc)

theorem isAt {k : TokenKind} {f : Bool → Parse β} (ht : Walks G (· = k) need bound T done (f true) W final)
    (hf : Walks G Anywhere need bound T done (f false) W final) :
    Walks G K need bound T done (Parse.isAt k >>= f) W final := by
  refine fun c _ hc => yields_bind ?_
  by_cases hk : c.kind = k
  · exact (congrArg (fun b => Yields (f b) c _ _) (decide_eq_true hk)).mpr (ht c hk hc)
  · exact (congrArg (fun b => Yields (f b) c _ _) (decide_eq_false hk)).mpr (hf c trivial hc)

theorem fail {expected : Expectation} (h : expected ≠ .shorterText) :
    Walks G K need bound T done (Parse.fail expected >>= f) W final :=
  fun _ _ hc => yields_bind (show _ ∧ _ from ⟨hc.span, fun _ => h⟩)

/-- Going past a token that is not the end. -/
theorem move {k : TokenKind} (hk : k ≠ .eof) {f : Unit → Parse β} (h : Finds G bound done (f ()) W final) :
    Walks G (· = k) need bound T done (Parse.bump >>= f) W final := by
  refine fun c hc hgood => yields_bind (yields_modify ?_)
  obtain ⟨read, hread, heof, hnext⟩ := Cursor.Reads.advance c
  have hpos : 0 < read.length := List.length_pos_iff.2 fun hnil => hk (hc ▸ heof hnil)
  have hleft := hread.ahead_eq
  refine (h c.advance trivial (hgood.reads hread)).mono
    (fun _ he => ⟨he.1, fun hroom => he.2 (by omega)⟩) fun b c' ⟨hnext', hb, read', hread', _⟩ => ?_
  exact ⟨hnext ▸ hnext', hb, _, hread.trans hread', fun hnil => absurd hpos (by simp [(List.append_eq_nil_iff.1 hnil).1])⟩

end Walks

theorem quiet_previousSpan : Quiet G 0 bound Resting previousSpan G.place :=
  fun c _ hc => ⟨id, hc.previousSpan, [], .refl c, fun _ => trivial⟩

variable {start : Span} {k : TokenKind} {close : Mark} {item : Parse α} {form : ExprForm}

theorem quiet_spanFrom (h : G.place start) : Quiet G 0 bound Resting (spanFrom start) G.place :=
  fun c _ hc => ⟨id, G.merge h hc.previousSpan, [], .refl c, fun _ => trivial⟩

theorem quiet_isAt (k : TokenKind) : Quiet G 0 bound Resting (isAt k) fun _ => True :=
  fun c _ _ => ⟨id, trivial, [], .refl c, fun _ => trivial⟩

theorem quiet_bump : Quiet G 0 bound Resting bump fun _ => True := by
  intro _ _ c _ _
  obtain ⟨read, hread, -, hnext⟩ := Cursor.Reads.advance c
  exact ⟨fun hdone => hdone.trans (congrArg _ hnext.symm), trivial, read, hread, fun _ => trivial⟩

variable {V : α → Prop} {after : α → List Nat}

theorem walks_throw {e : ParseError} (hspan : G.place e.span) (h : e.expected ≠ .shorterText) :
    Walks G K need bound S done (throw e) V after :=
  fun _ _ _ => ⟨hspan, fun _ => h⟩

theorem walks_fail {expected : Expectation} (h : expected ≠ .shorterText) :
    Walks G K need bound S done (fail expected) V after :=
  fun _ _ hc => ⟨hc.span, fun _ => h⟩

theorem walks_exhausted : Walks G K (need + 1) 0 S done exhausted V after :=
  fun _ _ hc => ⟨hc.span, fun hroom => absurd hroom (by omega)⟩

theorem walks_freshId : Walks G Anywhere need bound Resting done freshId (fun _ => True) fun id => done ++ [id] := by
  refine fun c _ _ => ⟨fun hdone => ?_, trivial, [], ⟨rfl, rfl, List.forall_mem_nil _⟩, fun _ => trivial⟩
  show done ++ [c.nextId] = List.range (c.nextId + 1)
  rw [hdone, List.range_succ]

/-- A token is skipped if it is read or is the end. -/
theorem quiet_skip (k : TokenKind) : Quiet G 0 bound (fun skipped => skipped = true → k = .eof) (skip k) fun _ => True := by
  intro need done
  by_cases hk : k = .eof
  · exact .isAt (quiet_bump.bind fun _ _ => .still (fun _ => hk) trivial rfl) (.still (by simp) trivial rfl)
  · exact .isAt (.move hk <| .pure trivial rfl) (.still (by simp) trivial rfl)

theorem quiet_expect (hk : k ≠ .eof) : Quiet G 0 bound Moving (expect k) G.place :=
  .isAt (.here fun _ hspan => .move hk <| .pure hspan rfl) (walks_fail (by simp))

theorem quiet_expectMark (m : Mark) : Quiet G 0 bound Moving (expectMark m) fun _ => True :=
  (quiet_expect (by simp)).first fun _ _ => .pure trivial rfl

theorem quiet_identifier : Quiet G 0 bound Moving identifier fun r => G.name r.1 ∧ G.place r.2 := by
  refine .kind fun k hk => ?_
  split
  next name => exact .here fun span hspan => .move (by simp) <| .pure ⟨hk name rfl, hspan⟩ rfl
  next => exact walks_fail (by simp)

namespace Walks

variable {W : β → Prop} {final : β → List Nat}

theorem bump {f : Unit → Parse β} (h : Walks G Anywhere need bound T done (f ()) W final) :
    Walks G K need bound T done (Parse.bump >>= f) W final :=
  quiet_bump.bind fun _ _ => h

theorem expectMark {m : Mark} {f : Unit → Parse β} (h : Walks G Anywhere need bound T done (f ()) W final) :
    Walks G K need bound T done (Parse.expectMark m >>= f) W final :=
  (quiet_expectMark m).bind fun _ _ => h

theorem skip {k : TokenKind} (hk : k ≠ .eof) {f : Bool → Parse β} (ht : Finds G bound done (f true) W final)
    (hf : Walks G Anywhere need bound T done (f false) W final) :
    Walks G K need bound T done (Parse.skip k >>= f) W final := by
  refine (quiet_skip k).seq (fun skipped _ hskipped => ?_) fun skipped _ hskipped => ?_
  · obtain rfl : skipped = true := by simpa [hk] using hskipped
    exact ht.weaken (Nat.le_add_left _ _)
  · obtain rfl : skipped = false := by simpa [hk] using hskipped
    exact hf

end Walks

variable {f : α → List Nat} {least : Nat}

theorem walks_commaList_rounds
    (h : ∀ {need done}, Walks G Anywhere (need + least) bound Moving done item V fun a => done ++ f a) :
    ∀ rounds need {done}, bound < need + least + rounds → Walks G Anywhere (need + least) bound Resting done
      (commaList close item rounds) (fun as => ∀ a ∈ as, V a) fun as => done ++ as.flatMap f
  | 0, _, _, _ => fun _ _ hc => ⟨hc.span, fun hroom => absurd hroom (by omega)⟩
  | rounds + 1, need, done, henough => by
    rw [commaList]
    refine (quiet_isAt _).bind fun _ _ => ?_
    split
    · exact .pure (by simp) (by simp)
    · refine h.seq (fun a ha _ => ?_) fun _ _ => False.elim
      rw [Nat.add_right_comm]
      refine (quiet_skip _).bind fun _ _ => ?_
      split
      · exact (walks_commaList_rounds h rounds (need + 20) (by omega)).bind fun as has =>
          .pure (by simpa using ⟨ha, has⟩) (by simp)
      · exact .pure (by simpa using ha) (by simp)

/-- Every round of a loop reads a token, so there are fewer rounds than tokens. -/
theorem walks_commaList
    (h : ∀ {need done}, Walks G Anywhere (need + (least + 1)) bound Moving done item V fun a => done ++ f a) :
    ∀ {need done}, Walks G Anywhere (need + (least + 1)) bound Resting done (commaList close item bound)
      (fun as => ∀ a ∈ as, V a) fun as => done ++ as.flatMap f :=
  walks_commaList_rounds h bound _ (by omega)

theorem quiet_commaList (h : Quiet G (least + 1) bound Moving item V) :
    Quiet G (least + 1) bound Resting (commaList close item bound) fun as => ∀ a ∈ as, V a :=
  (walks_commaList (f := fun _ => []) (h.mono (fun _ => id) (by simp))).mono (fun _ => id) (by simp)

theorem walks_many_rounds {close : TokenKind} {item : Parse (Option α)}
    (h : ∀ {need done}, Walks G Anywhere (need + least) bound Moving done item (fun o => ∀ a ∈ o, V a) fun o =>
      done ++ o.toList.flatMap f) :
    ∀ rounds need {done}, bound < need + least + rounds → Walks G Anywhere (need + least) bound Resting done
      (many close item rounds) (fun as => ∀ a ∈ as, V a) fun as => done ++ as.flatMap f
  | 0, _, _, _ => fun _ _ hc => ⟨hc.span, fun hroom => absurd hroom (by omega)⟩
  | rounds + 1, need, done, henough => by
    rw [many]
    refine (quiet_isAt _).bind fun _ _ => ?_
    split
    · exact .pure (by simp) (by simp)
    · refine h.seq (fun o ho _ => ?_) fun _ _ => False.elim
      rw [Nat.add_right_comm]
      cases o with
      | none => exact (walks_many_rounds h rounds (need + 20) (by omega)).mono (fun _ => id) (by simp)
      | some a =>
        exact (walks_many_rounds h rounds (need + 20) (by omega)).bind fun as has =>
          .pure (by simpa using ⟨ho a rfl, has⟩) (by simp)

theorem walks_many {close : TokenKind} {item : Parse (Option α)}
    (h : ∀ {need done}, Walks G Anywhere (need + (least + 1)) bound Moving done item (fun o => ∀ a ∈ o, V a) fun o =>
      done ++ o.toList.flatMap f) :
    Walks G Anywhere (need + (least + 1)) bound Resting done (many close item bound) (fun as => ∀ a ∈ as, V a) fun as =>
      done ++ as.flatMap f :=
  walks_many_rounds h bound _ (by omega)

/-! ## Types, patterns and parameters -/

theorem quiet_typeExpr : ∀ bound {need done}, Walks G Anywhere (need + 1) bound Moving done (typeExpr bound)
    (fun t => AllGood G.place t.spans) fun _ => done
  | 0, _, _ => walks_exhausted
  | bound + 1, need, done => by
    have ih : Quiet G 1 bound Moving (typeExpr bound) fun t => AllGood G.place t.spans := quiet_typeExpr bound
    rw [typeExpr]
    refine .up <| .here fun start hstart => .kind fun k _ => ?_
    have hdone (form : TypeForm) (hform : AllGood G.place form.spans) :
        Finds G bound done (do return ⟨form, ← spanFrom start⟩) (fun t : TypeExpr => AllGood G.place t.spans) fun _ => done :=
      (quiet_spanFrom hstart).bind fun span hspan => .pure (by simp [TypeExpr.spans, hspan, hform]) rfl
    split
    · refine .move (by simp) <| ih.bind fun elem helem => .expectMark ?_
      exact .give (by simpa [TypeForm.spans] using helem) rfl hdone
    · refine .move (by simp) <| .expectMark <|
        (quiet_commaList ih).bind fun params hparams => .expectMark <|
          (quiet_skip _).bind fun _ _ => ?_
      split
      · refine ih.bind fun ret hret => .give ?_ rfl hdone
        simpa [TypeForm.spans, typeSpans_eq] using ⟨hparams, hret⟩
      · refine quiet_previousSpan.bind fun span hspan => .give ?_ rfl hdone
        simpa [TypeForm.spans, TypeExpr.spans, typeSpans_eq] using ⟨hparams, hspan⟩
    · refine .move (by simp) <| .expectMark <| ih.bind fun ok hok =>
        .expectMark <| ih.bind fun err herr => .expectMark ?_
      exact .give (by simpa [TypeForm.spans] using ⟨hok, herr⟩) rfl hdone
    · refine .move (by simp) <| .expectMark <| ih.bind fun inner hinner =>
        .expectMark ?_
      exact .give (by simpa [TypeForm.spans] using hinner) rfl hdone
    · exact .move (by simp) <| .give (by simp [TypeForm.spans]) rfl hdone
    · exact .fail (by simp)

theorem quiet_returnType (bound : Nat) : Quiet G 1 bound Resting (returnType bound) fun o => ∀ t ∈ o, AllGood G.place t.spans := by
  refine (quiet_skip _).bind fun _ _ => ?_
  split
  · exact (quiet_typeExpr bound).bind fun ty hty => .pure (by simpa using hty) rfl
  · exact .pure (by simp) rfl

theorem quiet_pattern : ∀ bound {need done}, Walks G Anywhere (need + 1) bound Moving done (pattern bound)
    (fun p => AllGood G.place p.spans) fun _ => done
  | 0, _, _ => walks_exhausted
  | bound + 1, need, done => by
    have ih : Quiet G 1 bound Moving (pattern bound) fun p => AllGood G.place p.spans := quiet_pattern bound
    rw [pattern]
    refine .up <| .here fun start hstart => .kind fun k _ => ?_
    have hdone (form : PatternForm) (hform : AllGood G.place form.spans) :
        Finds G bound done (do return ⟨form, ← spanFrom start⟩) (fun p : Pattern => AllGood G.place p.spans) fun _ => done :=
      (quiet_spanFrom hstart).bind fun span hspan => .pure (by simp [Pattern.spans, hspan, hform]) rfl
    have hleaf (form : PatternForm) (hform : form.spans = []) :
        Finds G bound done (Pure.pure form) (fun form => AllGood G.place form.spans) fun _ => done :=
      .pure (by simp [hform]) rfl
    have hname (name : Option String × String) : Finds G bound done (Pure.pure name) (fun _ => True) fun _ => done :=
      .pure trivial rfl
    split
    iterate 3 exact .move (by simp) <| (hleaf _ rfl).bind hdone
    · refine .move (by simp) <| .kind fun _ _ => ?_
      split
      · exact .bump <| (hleaf _ rfl).bind hdone
      · exact .bump <| (hleaf _ rfl).bind hdone
      · exact .fail (by simp)
    · exact .move (by simp) <| (hleaf _ rfl).bind hdone
    · exact .move (by simp) <| (hleaf _ rfl).bind hdone
    · refine .move (by simp) <| (quiet_skip _).bind fun _ _ => ?_
      split
      case' isTrue => refine quiet_identifier.bind fun _ _ => ?_
      all_goals
        refine (hname _).bind fun ⟨qualifier, name⟩ _ => (quiet_skip _).bind fun _ _ => ?_
        split
        · exact ih.bind fun payload hp => .expectMark <|
            .give (by simpa [PatternForm.spans] using hp) rfl hdone
        · split <;> exact (hleaf _ rfl).bind hdone
    · exact .fail (by simp)

theorem quiet_param (owner : Option String) (isFirst : Bool) (bound : Nat) :
    Quiet G 20 bound Moving (param owner isFirst bound) fun r => AllGood G.place r.1.spans := by
  refine quiet_identifier.first fun ⟨name, span⟩ ⟨_, hspan⟩ => ?_
  simp only
  split
  · split
    · exact .pure (by simpa [Param.spans, TypeExpr.spans, TypeForm.spans] using hspan) rfl
    · exact walks_throw hspan (by simp)
  · refine .expectMark <| (quiet_typeExpr bound).bind fun ty hty =>
      (quiet_spanFrom hspan).bind fun span hspan => .pure ?_ rfl
    simpa [Param.spans] using ⟨hspan, hty⟩

theorem quiet_laterParam (owner : Option String) (bound : Nat) :
    Quiet G 20 bound Moving (do let (p, _) ← param owner false bound; return p) fun p => AllGood G.place p.spans :=
  (quiet_param owner false bound).first fun _ h => .pure h rfl

theorem quiet_params (owner : Option String) (bound : Nat) :
    Quiet G 20 bound Moving (params owner bound) fun r => ∀ p ∈ r.1, AllGood G.place p.spans := by
  intro need done
  refine (quiet_expectMark _).first fun _ _ => (quiet_isAt _).bind fun _ _ => ?_
  split
  · exact .bump <| .pure (by simp) rfl
  · refine (quiet_param owner true bound).bind fun ⟨first, hasSelf⟩ hfirst => (quiet_skip _).bind fun _ _ => ?_
    have hdone (rest : List Param) (hrest : ∀ p ∈ rest, AllGood G.place p.spans) :
        Finds G bound done (do expectMark .rparen; return (first :: rest, hasSelf)) (fun r : List Param × Bool =>
          ∀ p ∈ r.1, AllGood G.place p.spans) fun _ => done :=
      .expectMark <| .pure (by simpa using ⟨hfirst, hrest⟩) rfl
    split
    · exact (quiet_commaList (quiet_laterParam owner bound)).bind hdone
    · exact .give (by simp) rfl hdone

/-! ## Expressions and statements -/

theorem finds_node {before : List Nat} (hform : AllGood G.place form.spans)
    (hstart : G.place start) (heq : before = done ++ form.numbers) :
    Finds G bound before (node form start) (fun e => AllGood G.place e.spans) fun e => done ++ e.numbers :=
  (quiet_spanFrom hstart).bind fun span hspan => walks_freshId.bind fun _ _ =>
    .pure (by simpa using ⟨hspan, hform⟩) (by simp [heq])

theorem reads_literal (hspans : form.spans = []) (hnumbers : form.numbers = [])
    (hstart : G.place start) (hk : k ≠ .eof) : Walks G (· = k) need bound Moving done
      (literal form start) (fun e => AllGood G.place e.spans) fun e => done ++ e.numbers :=
  .move hk <| finds_node (by simp [hspans]) hstart (by simp [hnumbers])

/-- With a given bound on their depth, all productions of expressions and statements read good places and number
what they read; what follows an operand is read when the operand has its numbers. -/
structure Productions (G : Grade) (bound : Nat) : Prop where
  expression : ∀ bare level, Reads G 2 bound Moving (expression bound bare level) Expr.spans Expr.numbers
  infixes : ∀ bare level lhs {need done}, AllGood G.place lhs.spans → Walks G Anywhere (need + 1) bound (· = lhs)
    (done ++ lhs.numbers) (infixes bound bare level lhs) (fun e => AllGood G.place e.spans) fun e => done ++ e.numbers
  operand : ∀ bare, Reads G 1 bound Moving (operand bound bare) Expr.spans Expr.numbers
  named : ∀ bare name, Reads G 3 bound Resting (named bound bare name) ExprForm.spans ExprForm.numbers
  fieldInit : Reads G 1 bound Moving (fieldInit bound) FieldInit.spans (·.value.numbers)
  interpolation : Reads G 3 bound Moving (interpolation bound) partSpans partNumbers
  arm : ∀ {need done}, Walks G Anywhere (need + 2) bound Moving done (arm bound) (fun o => ∀ a ∈ o, AllGood G.place a.spans) fun o =>
    done ++ o.toList.flatMap (·.body.numbers)
  lambdaBody : Reads G 2 bound Moving (lambdaBody bound) LambdaBody.spans LambdaBody.numbers
  block : Reads G 1 bound Moving (block bound) Block.spans Block.numbers
  blockItem : ∀ {need done}, Walks G Anywhere (need + 5) bound Moving done (blockItem bound) (fun o => ∀ s ∈ o, AllGood G.place s.spans) fun o =>
    done ++ o.toList.flatMap Stmt.numbers
  stmt : Reads G 4 bound Moving (stmt bound) Stmt.spans Stmt.numbers
  binding : ∀ isConst, Reads G 1 bound Moving (binding bound isConst) StmtForm.spans StmtForm.numbers
  conditional : Reads G 3 bound Moving (conditional bound) StmtForm.spans StmtForm.numbers
  exprStmt : Reads G 3 bound Moving (exprStmt bound) StmtForm.spans StmtForm.numbers

namespace Productions

theorem zero : Productions G 0 where
  expression _ _ := walks_exhausted
  infixes _ _ _ _ _ _ := walks_exhausted
  operand _ := walks_exhausted
  named _ _ := walks_exhausted
  fieldInit := walks_exhausted
  interpolation := walks_exhausted
  arm := walks_exhausted
  lambdaBody := walks_exhausted
  block := walks_exhausted
  blockItem := walks_exhausted
  stmt := walks_exhausted
  binding _ := walks_exhausted
  conditional := walks_exhausted
  exprStmt := walks_exhausted

variable {bound : Nat} (ih : Productions G bound)

include ih

theorem args (close : Mark) : Reads G 2 bound Resting (commaList close (Parse.expression bound false 0) bound) exprSpans exprNumbers :=
  (walks_commaList (ih.expression false 0)).mono (fun es hes => by simpa [exprSpans_eq] using hes)
    fun es => by rw [exprNumbers_eq]

theorem infixes_succ (bare : Bool) (level : Nat) (lhs : Expr)
    (hlhs : AllGood G.place lhs.spans) : Walks G Anywhere (need + 1) (bound + 1) (· = lhs) (done ++ lhs.numbers) (Parse.infixes (bound + 1) bare level lhs)
      (fun e => AllGood G.place e.spans) fun e => done ++ e.numbers := by
  rw [Parse.infixes]
  refine .up <| .kind fun k _ => ?_
  have hspan : G.place lhs.span := hlhs _ (by cases lhs; simp)
  have hdone (form : ExprForm) (hform : AllGood G.place form.spans) :
      Finds G bound (done ++ form.numbers) (do let e ← node form lhs.span; Parse.infixes bound bare level e)
        (fun e => AllGood G.place e.spans) fun e => done ++ e.numbers :=
    (finds_node hform hspan rfl).bind fun e he => (ih.infixes bare level e he).rest
  split
  · exact .still rfl hlhs rfl
  next op hop =>
    split
    · exact .still rfl hlhs rfl
    · refine .move (by rintro rfl; cases hop) ?_
      split
      · exact (ih.expression _ _).bind fun rhs hrhs =>
          .give (by simpa using ⟨hlhs, hrhs⟩) (by simp) hdone
      · exact (quiet_typeExpr _).bind fun ty hty => .give (by simpa using ⟨hlhs, hty⟩) (by simp) hdone
      · exact .give (by simpa using hlhs) (by simp) hdone
      · exact (ih.args _).bind fun args hargs => .expectMark <|
          .give (by simpa using ⟨hlhs, hargs⟩) (by simp) hdone
      · refine quiet_identifier.bind fun _ _ => (quiet_skip _).bind fun _ _ => ?_
        split
        · exact (ih.args _).bind fun args hargs => .expectMark <|
            .give (by simpa using ⟨hlhs, hargs⟩) (by simp) hdone
        · exact .give (by simpa using hlhs) (by simp) hdone
      · exact (ih.expression _ _).bind fun position hposition => .expectMark <|
          .give (by simpa using ⟨hlhs, hposition⟩) (by simp) hdone

theorem operand_succ (bare : Bool) : Reads G 1 (bound + 1) Moving (Parse.operand (bound + 1) bare) Expr.spans Expr.numbers := by
  intro need done
  rw [Parse.operand]
  refine .up <| .here fun start hstart => .kind fun k _ => ?_
  have hunary (form : Expr → ExprForm) (hspans : ∀ e, (form e).spans = e.spans)
      (hnumbers : ∀ e, (form e).numbers = e.numbers) (level : Nat) : Finds G bound done (do
        let e ← Parse.expression bound bare level
        node (form e) start) (fun e => AllGood G.place e.spans) fun e => done ++ e.numbers :=
    (ih.expression _ _).bind fun e he =>
      finds_node (by rwa [hspans]) hstart (by rw [hnumbers])
  split
  iterate 3 exact .move (by simp) (hunary _ (by simp) (by simp) _)
  iterate 5 exact reads_literal rfl rfl hstart (by simp)
  · exact .move (by simp) <| ih.interpolation.bind fun parts hparts =>
      finds_node (by simpa using hparts) hstart (by simp)
  · exact .move (by simp) <| (ih.named _ _).bind fun form hform => finds_node hform hstart rfl
  · refine .move (by simp) <| (ih.expression _ _).bind fun inner hinner =>
      .expectMark <| (quiet_spanFrom hstart).bind fun span hspan => ?_
    -- The inner node keeps its number; only its place grows.
    obtain ⟨id, form, old⟩ := inner
    exact .pure (allGood_cons.2 ⟨hspan, (allGood_cons.1 hinner).2⟩) (by simp)
  · exact .move (by simp) <| (ih.args _).bind fun es hes => .expectMark <|
      finds_node (by simpa using hes) hstart (by simp)
  · refine .move (by simp) <| (ih.expression _ _).bind fun scrutinee hscrutinee =>
      .expectMark <| (walks_many ih.arm).bind fun arms harms =>
        .expectMark <| finds_node ?_ hstart (by simp [armNumbers_eq])
    simpa [armSpans_eq] using ⟨hscrutinee, harms⟩
  · refine .move (by simp) <| (quiet_params none bound).bind fun ⟨ps, _⟩ hps =>
      (quiet_returnType bound).bind fun ret hret => ih.lambdaBody.bind fun body hbody =>
        finds_node ?_ hstart (by simp)
    simpa using ⟨hps, hret, hbody⟩
  · exact walks_fail (by simp)

theorem named_succ (bare : Bool) (name : String) :
    Reads G 3 (bound + 1) Resting (Parse.named (bound + 1) bare name) ExprForm.spans ExprForm.numbers := by
  intro need done
  rw [Parse.named]
  refine .up <| (quiet_skip _).bind fun _ _ => ?_
  split
  · exact quiet_identifier.bind fun _ _ => .pure (by simp) (by simp)
  · refine (quiet_isAt _).bind fun _ _ => ?_
    split
    · exact .bump <| (ih.expression _ _).bind fun value hvalue =>
        .expectMark <| .pure (by simpa using hvalue) (by simp)
    · refine (quiet_isAt _).bind fun _ _ => ?_
      split
      · exact .bump <| (walks_commaList ih.fieldInit).bind fun fields hfields =>
          .expectMark <|
            .pure (by simpa [fieldSpans_eq] using hfields) (by simp [fieldNumbers_eq])
      · exact .pure (by simp) (by simp)

theorem fieldInit_succ : Reads G 1 (bound + 1) Moving (Parse.fieldInit (bound + 1)) FieldInit.spans (·.value.numbers) := by
  intro need done
  rw [Parse.fieldInit]
  exact .up <| quiet_identifier.first fun _ ⟨_, hstart⟩ => .expectMark <|
    (ih.expression _ _).bind fun value hvalue => (quiet_spanFrom hstart).bind fun span hspan =>
      .pure (by simpa [FieldInit.spans] using ⟨hspan, hvalue⟩) rfl

theorem interpolation_succ : Reads G 3 (bound + 1) Moving (Parse.interpolation (bound + 1)) partSpans partNumbers := by
  intro need done
  rw [Parse.interpolation]
  refine .up <| (ih.expression _ _).first fun e he => .kind fun _ _ => ?_
  split
  · exact .bump <| ih.interpolation.bind fun parts hparts =>
      .pure (by simpa using ⟨he, hparts⟩) (by simp)
  next _ text _ =>
    have hspans : partSpans (InterpPart.ofText text) = [] := by simpa using partSpans_ofText_append text []
    have hnumbers : partNumbers (InterpPart.ofText text) = [] := by simpa using partNumbers_ofText_append text []
    exact .bump <| .pure (by simpa [hspans] using he) (by simp [hnumbers])
  · exact walks_fail (by simp)

theorem arm_succ : Walks G Anywhere (need + 2) (bound + 1) Moving done (Parse.arm (bound + 1)) (fun o => ∀ a ∈ o, AllGood G.place a.spans)
    fun o => done ++ o.toList.flatMap (·.body.numbers) := by
  rw [Parse.arm]
  refine .up <| .here fun start hstart => (quiet_pattern bound).first fun p hp =>
    .expectMark <| (quiet_isAt _).bind fun _ _ => ?_
  have hdone (body : Expr) (hbody : AllGood G.place body.spans) {before : List Nat}
      (heq : before = done ++ body.numbers) : Finds G bound before (do return some ⟨p, body, ← spanFrom start⟩)
        (fun o : Option MatchArm => ∀ a ∈ o, AllGood G.place a.spans) fun o =>
          done ++ o.toList.flatMap (·.body.numbers) :=
    (quiet_spanFrom hstart).bind fun span hspan =>
      .pure (by simpa [MatchArm.spans] using ⟨hspan, hp, hbody⟩) (by simp [heq])
  split
  · -- A block in place of an expression is a node of its own, completed after the block.
    refine ih.block.bind fun b hb => (quiet_skip _).bind fun _ _ => walks_freshId.bind fun _ _ =>
      hdone _ ?_ (by simp)
    have hspan : G.place b.span := hb _ (by cases b; simp)
    simpa using ⟨hspan, hb⟩
  · refine (ih.expression _ _).bind fun body hbody => (quiet_skip _).bind fun _ _ => ?_
    split
    · exact hdone body hbody rfl
    · refine (quiet_isAt _).bind fun _ _ => ?_
      split
      · exact hdone body hbody rfl
      · exact walks_fail (by simp)

theorem lambdaBody_succ : Reads G 2 (bound + 1) Moving (Parse.lambdaBody (bound + 1)) LambdaBody.spans LambdaBody.numbers := by
  intro need done
  rw [Parse.lambdaBody]
  refine .up <| .skip (by simp) ?_ <| (quiet_isAt _).bind fun _ _ => ?_
  · exact (ih.expression _ _).bind fun e he => .pure (by simpa using he) (by simp)
  · split
    · exact ih.block.first fun b hb => .pure (by simpa using hb) (by simp)
    · exact walks_fail (by simp)

theorem block_succ : Reads G 1 (bound + 1) Moving (Parse.block (bound + 1)) Block.spans Block.numbers := by
  intro need done
  rw [Parse.block]
  exact .up <| (quiet_expect (by simp)).first fun start hstart => (walks_many ih.blockItem).bind fun stmts hstmts =>
    .expectMark <| (quiet_spanFrom hstart).bind fun span hspan =>
      .pure (by simpa [stmtSpans_eq] using ⟨hspan, hstmts⟩) (by simp [stmtNumbers_eq])

theorem blockItem_succ : Walks G Anywhere (need + 5) (bound + 1) Moving done (Parse.blockItem (bound + 1))
    (fun o => ∀ s ∈ o, AllGood G.place s.spans) fun o => done ++ o.toList.flatMap Stmt.numbers := by
  rw [Parse.blockItem]
  refine .up <| (quiet_isAt _).bind fun _ _ => ?_
  split
  · exact walks_fail (by simp)
  · refine .skip (by simp) ?_ ?_
    · exact .pure (by simp) (by simp)
    · exact ih.stmt.first fun s hs => .pure (by simpa using hs) (by simp)

theorem stmt_succ : Reads G 4 (bound + 1) Moving (Parse.stmt (bound + 1)) Stmt.spans Stmt.numbers := by
  intro need done
  rw [Parse.stmt]
  refine .up <| .here fun start hstart => .kind fun _ _ => ?_
  have hdone (form : StmtForm) (hform : AllGood G.place form.spans) :
      Finds G bound (done ++ form.numbers) (do return ⟨form, ← spanFrom start⟩) (fun s : Stmt => AllGood G.place s.spans)
        fun s => done ++ s.numbers :=
    (quiet_spanFrom hstart).bind fun span hspan => .pure (by simpa using ⟨hspan, hform⟩) (by simp)
  split
  · exact (ih.binding _).first hdone
  · exact (ih.binding _).first hdone
  · exact .move (by simp) <| ih.conditional.bind hdone
  · exact .move (by simp) <| (ih.expression _ _).bind fun cond hcond => ih.block.bind fun body hbody =>
      .give (by simpa using ⟨hcond, hbody⟩) (by simp) hdone
  · exact .move (by simp) <| quiet_identifier.bind fun _ _ => (quiet_expect (by simp)).bind fun _ _ =>
      (ih.expression _ _).bind fun iterable hiterable => ih.block.bind fun body hbody =>
        walks_freshId.bind fun _ _ => .give (by simpa using ⟨hiterable, hbody⟩) (by simp) hdone
  · exact .move (by simp) <| .expectMark <|
      .give (by simp) (by simp) hdone
  · exact .move (by simp) <| .expectMark <|
      .give (by simp) (by simp) hdone
  · refine .move (by simp) <| (quiet_isAt _).bind fun _ _ => ?_
    split
    · exact .bump <| .give (by simp) (by simp) hdone
    · exact (ih.expression _ _).bind fun value hvalue => .expectMark <|
        .give (by simpa using hvalue) (by simp) hdone
  · exact ih.block.first fun b hb => .give (by simpa using hb) (by simp) hdone
  · exact ih.exprStmt.first hdone

theorem binding_succ (isConst : Bool) :
    Reads G 1 (bound + 1) Moving (Parse.binding (bound + 1) isConst) StmtForm.spans StmtForm.numbers := by
  intro need done
  rw [Parse.binding]
  refine .up <| .bump <| quiet_identifier.first fun ⟨name, _⟩ _ => (quiet_skip _).bind fun _ _ => ?_
  have hdone (ty : Option TypeExpr) (hty : ∀ t ∈ ty, AllGood G.place t.spans) : Finds G bound done (do
        expectMark .assign
        let init ← Parse.expression bound false 0
        expectMark .semicolon
        let id ← freshId
        return .let_ id name isConst ty init) (fun form : StmtForm => AllGood G.place form.spans) fun form =>
          done ++ form.numbers :=
    .expectMark <| (ih.expression _ _).bind fun init hinit =>
      .expectMark <| walks_freshId.bind fun _ _ =>
        .pure (by simpa using ⟨hty, hinit⟩) (by simp)
  split
  · exact (quiet_typeExpr _).bind fun ty hty => .give (by simpa using hty) rfl hdone
  · exact .give (by simp) rfl hdone

theorem conditional_succ : Reads G 3 (bound + 1) Moving (Parse.conditional (bound + 1)) StmtForm.spans StmtForm.numbers := by
  intro need done
  rw [Parse.conditional]
  refine .up <| (ih.expression _ _).first fun cond hcond => ih.block.bind fun thenBlock hthen =>
    (quiet_skip _).bind fun _ _ => ?_
  split
  · refine (quiet_isAt _).bind fun _ _ => ?_
    split
    · exact .here fun start hstart => .bump <|
        ih.conditional.bind fun form hform => (quiet_spanFrom hstart).bind fun span hspan =>
          .pure (by simpa using ⟨hcond, hthen, hspan, hform⟩) (by simp)
    · exact ih.block.bind fun elseBlock helse => .pure (by simpa using ⟨hcond, hthen, helse⟩) (by simp)
  · exact .pure (by simpa using ⟨hcond, hthen⟩) (by simp)

theorem exprStmt_succ : Reads G 3 (bound + 1) Moving (Parse.exprStmt (bound + 1)) StmtForm.spans StmtForm.numbers := by
  intro need done
  rw [Parse.exprStmt]
  refine .up <| (ih.expression _ _).first fun e he => .kind fun _ _ => ?_
  split
  · split
    · exact .bump <| (ih.expression _ _).bind fun value hvalue =>
        .expectMark <| .pure (by simpa using ⟨he, hvalue⟩) (by simp)
    · exact walks_throw (he _ (by cases e; simp)) (by simp)
  · split
    · exact (quiet_skip _).bind fun _ _ => .pure (by simpa using he) (by simp)
    · exact .expectMark <| .pure (by simpa using he) (by simp)

theorem succ : Productions G (bound + 1) where
  expression bare level := .up <| (ih.operand bare).first fun lhs hlhs => (ih.infixes bare level lhs hlhs).rest
  infixes _ _ _ _ := ih.infixes_succ _ _ _
  operand := ih.operand_succ
  named := ih.named_succ
  fieldInit := ih.fieldInit_succ
  interpolation := ih.interpolation_succ
  arm := ih.arm_succ
  lambdaBody := ih.lambdaBody_succ
  block := ih.block_succ
  blockItem := ih.blockItem_succ
  stmt := ih.stmt_succ
  binding := ih.binding_succ
  conditional := ih.conditional_succ
  exprStmt := ih.exprStmt_succ

omit ih in
theorem all : ∀ bound, Productions G bound
  | 0 => .zero
  | bound + 1 => (all bound).succ

end Productions

end Parse

/-! ## Items -/

/-- The functions and methods of an item have good names, and bodies unless they are of the host. -/
def Item.Fit (N : String → Prop) : Item → Prop
  | .function d => N d.name ∧ (d.isExternal = false → d.body.isSome)
  | .struct d => N d.name ∧ ∀ m ∈ d.methods, N m.name ∧ m.body.isSome
  | _ => True

namespace Parse

variable {G : Grade} {done : List Nat} {need bound : Nat} {start : Span}

theorem walks_function (hstart : G.place start) (isAsync isExport : Bool) (owner : Option String) :
    Walks G Anywhere (need + 20) bound Moving done (function bound start isAsync isExport owner)
      (fun d => AllGood G.place d.spans ∧ G.name d.name ∧ d.body.isSome) fun d => done ++ d.numbers :=
  quiet_identifier.first fun _ ⟨hname, _⟩ => (quiet_params owner bound).bind fun ⟨ps, _⟩ hps =>
    (quiet_returnType bound).bind fun ret hret => (Productions.all bound).block.bind fun body hbody =>
      (quiet_spanFrom hstart).bind fun span hspan => .pure
        ⟨by simpa [FunctionDecl.spans] using ⟨hspan, hps, hret, hbody⟩, hname, rfl⟩ (by simp [FunctionDecl.numbers])

theorem walks_externalFunction (hstart : G.place start) : Finds G bound done (externalFunction bound start)
    (fun d => AllGood G.place d.spans ∧ G.name d.name ∧ d.isExternal = true) fun d => done ++ d.numbers :=
  (quiet_expect (by simp)).bind fun _ _ => quiet_identifier.bind fun _ ⟨hname, _⟩ =>
    (quiet_params none bound).bind fun ⟨ps, _⟩ hps => (quiet_returnType bound).bind fun ret hret =>
      .expectMark <| (quiet_spanFrom hstart).bind fun span hspan => .pure
        ⟨by simpa [FunctionDecl.spans] using ⟨hspan, hps, hret⟩, hname, rfl⟩ (by simp [FunctionDecl.numbers])

theorem quiet_isAtMethod : Quiet G 0 bound Resting isAtMethod fun _ => True := by
  refine (quiet_isAt _).bind fun _ _ => ?_
  split
  · exact .pure trivial rfl
  · exact quiet_isAt _

/-- A good field or method. -/
def GoodMember (G : Grade) (m : FieldDecl ⊕ FunctionDecl) : Prop :=
  (∀ d ∈ m.getLeft?, AllGood G.place d.spans) ∧
    ∀ d ∈ m.getRight?, AllGood G.place d.spans ∧ G.name d.name ∧ d.body.isSome

theorem walks_member (owner : String) : Walks G Anywhere (need + 20) bound Moving done (member bound owner) (GoodMember G) fun m =>
    done ++ m.getRight?.toList.flatMap FunctionDecl.numbers := by
  refine .here fun start hstart => quiet_isAtMethod.bind fun _ _ => ?_
  split
  · exact (quiet_skip _).bind fun _ _ => (quiet_expect (by simp)).first fun _ _ =>
      (walks_function hstart _ _ _).bind fun method hmethod => (quiet_skip _).bind fun _ _ =>
        .pure (by simpa [GoodMember] using hmethod) (by simp)
  · refine quiet_identifier.first fun ⟨name, _⟩ _ => .expectMark <|
      (quiet_typeExpr bound).bind fun ty hty => (quiet_spanFrom hstart).bind fun span hspan => ?_
    have hfield : AllGood G.place (FieldDecl.spans ⟨name, ty, span⟩) := allGood_cons.2 ⟨hspan, hty⟩
    refine (quiet_skip _).bind fun _ _ => ?_
    split
    · exact .pure (by simpa [GoodMember] using hfield) (by simp)
    · refine (quiet_isAt _).bind fun _ _ => ?_
      split
      · exact .pure (by simpa [GoodMember] using hfield) (by simp)
      · refine quiet_isAtMethod.bind fun _ _ => ?_
        split
        · exact .pure (by simpa [GoodMember] using hfield) (by simp)
        · exact walks_fail (by simp)

theorem walks_struct (hstart : G.place start) : Finds G bound done (struct bound start)
    (fun d => AllGood G.place (Item.struct d).spans ∧ (Item.struct d).Fit G.name) fun d =>
      done ++ (Item.struct d).numbers := by
  refine quiet_identifier.bind fun ⟨name, _⟩ ⟨hname, _⟩ => .expectMark ?_
  have hmember {need : Nat} {done : List Nat} : Walks G Anywhere (need + 20) bound Moving done (do return some (← member bound name))
      (fun o => ∀ m ∈ o, GoodMember G m) fun o =>
        done ++ o.toList.flatMap fun m => m.getRight?.toList.flatMap FunctionDecl.numbers :=
    (walks_member name).first fun m hm => .pure (by simpa using hm) (by simp)
  refine (walks_many hmember).bind fun members hmembers => .expectMark <| (quiet_spanFrom hstart).bind fun span hspan =>
    .pure ⟨?_, hname, ?_⟩ ?_
  · refine allGood_cons.2 ⟨hspan, allGood_append.2 ⟨allGood_flatMap.2 ?_, allGood_flatMap.2 ?_⟩⟩
    · intro d hd
      obtain ⟨m, hm, hleft⟩ := List.mem_filterMap.1 hd
      exact (hmembers m hm).1 d hleft
    · intro d hd
      obtain ⟨m, hm, hright⟩ := List.mem_filterMap.1 hd
      exact ((hmembers m hm).2 d hright).1
  · intro d hd
    obtain ⟨m, hm, hright⟩ := List.mem_filterMap.1 hd
    exact ((hmembers m hm).2 d hright).2
  · rw [Item.numbers, List.filterMap_eq_flatMap_toList Sum.getRight?, List.flatMap_assoc]

theorem quiet_variant : Quiet G 20 bound Moving (variant bound) fun d => AllGood G.place d.spans := by
  intro need done
  refine quiet_identifier.first fun ⟨name, start⟩ ⟨_, hstart⟩ => (quiet_skip _).bind fun _ _ => ?_
  have hdone (payload : Option TypeExpr) (hpayload : ∀ t ∈ payload, AllGood G.place t.spans) :
      Finds G bound done (do return ⟨name, payload, ← spanFrom start⟩) (fun d : VariantDecl => AllGood G.place d.spans)
        fun _ => done :=
    (quiet_spanFrom hstart).bind fun span hspan =>
      .pure (by simpa [VariantDecl.spans] using ⟨hspan, hpayload⟩) rfl
  split
  · exact (quiet_typeExpr bound).bind fun ty hty => .expectMark <|
      .give (by simpa using hty) rfl hdone
  · exact .give (by simp) rfl hdone

theorem quiet_enum (hstart : G.place start) : Quiet G 20 bound Resting (enum bound start) fun d =>
    AllGood G.place (Item.enum d).spans :=
  quiet_identifier.bind fun _ _ => .expectMark <|
    (quiet_commaList quiet_variant).bind fun _ hvariants =>
      .expectMark <| (quiet_spanFrom hstart).bind fun _ hspan =>
        .pure (allGood_cons.2 ⟨hspan, allGood_flatMap.2 hvariants⟩) rfl

theorem walks_item : Walks G Anywhere (need + 4) bound Moving done (item bound) (fun i => AllGood G.place i.spans ∧ i.Fit G.name) fun i =>
    done ++ i.numbers := by
  refine .here fun start hstart => .kind fun _ _ => ?_
  have hfunction (isAsync isExport : Bool) :
      Finds G bound done (do return .function (← function bound start isAsync isExport none))
        (fun i : Item => AllGood G.place i.spans ∧ i.Fit G.name) fun i => done ++ i.numbers :=
    (walks_function hstart _ _ _).bind fun d ⟨hspans, hname, hbody⟩ => .pure ⟨hspans, hname, fun _ => hbody⟩ rfl
  have hstmt {K : TokenKind → Prop} : Walks G K (need + 4) bound Moving done (do return .stmt (← stmt bound))
      (fun i : Item => AllGood G.place i.spans ∧ i.Fit G.name) fun i => done ++ i.numbers :=
    (Productions.all bound).stmt.first fun s hs => .pure ⟨hs, trivial⟩ rfl
  split
  · exact .move (by simp) <| (quiet_skip _).bind fun _ _ => (quiet_expect (by simp)).bind fun _ _ => hfunction _ _
  · exact .move (by simp) <| (quiet_expect (by simp)).bind fun _ _ => hfunction _ _
  · refine .get fun c => ?_
    split
    · exact .move (by simp) <| hfunction _ _
    · exact hstmt
  · exact .move (by simp) <| (walks_externalFunction hstart).bind fun d ⟨hspans, hname, hext⟩ =>
      .pure ⟨hspans, hname, by simp [hext]⟩ rfl
  · exact .move (by simp) <| (walks_struct hstart).bind fun d hd => .pure hd rfl
  · exact .move (by simp) <| (quiet_enum hstart).bind fun d hd =>
      .pure ⟨hd, trivial⟩ (by simp [Item.numbers])
  · exact hstmt

theorem walks_programItem : Walks G Anywhere (need + 4) bound Moving done (programItem bound)
    (fun o => ∀ i ∈ o, AllGood G.place i.spans ∧ i.Fit G.name) fun o => done ++ o.toList.flatMap Item.numbers := by
  refine .skip (by simp) ?_ ?_
  · exact .pure (by simp) (by simp)
  · exact walks_item.first fun i hi => .pure (by simpa using hi) (by simp)

/-- **Reading the items of a program.** -/
theorem yields_items {tokens : List Token} (h : ∀ t ∈ tokens, G.Token t) (hany : tokens ≠ [] ∨ G.place .nowhere) :
    Yields (many .eof (programItem (boundFor tokens)) (boundFor tokens)) (.ofTokens tokens)
      (fun e => G.place e.span ∧ e.expected ≠ .shorterText) fun items c =>
        items.flatMap Item.numbers = List.range c.nextId ∧ (∀ i ∈ items, AllGood G.place i.spans ∧ i.Fit G.name) ∧
          ∃ read, (Cursor.ofTokens tokens).Reads read c := by
  have hitems : Walks G Anywhere 4 (boundFor tokens) Resting [] (many .eof (programItem (boundFor tokens))
      (boundFor tokens)) (fun items => ∀ i ∈ items, AllGood G.place i.spans ∧ i.Fit G.name) fun items =>
        [] ++ items.flatMap Item.numbers := walks_many walks_programItem
  have hroom : 4 + 20 * (Cursor.ofTokens tokens).ahead ≤ boundFor tokens := by
    have hleft : (Cursor.ofTokens tokens).ahead ≤ tokens.length := (List.takeWhile_prefix _).length_le
    rw [boundFor]
    omega
  refine (hitems (.ofTokens tokens) trivial ⟨List.forall_mem_nil _, h, .inr hany⟩).mono
    (fun e he => ⟨he.1, he.2 hroom⟩) fun items c ⟨hnext, hall, read, hread, _⟩ => ⟨hnext rfl, hall, read, hread⟩

end Parse

/-! ## Programs -/

/-- What a program and a failure to read one come of. -/
theorem parse_cases {tokens : List Token} {E : ParseError → Prop} {Q : List Item → Cursor → Prop}
    (h : Yields (Parse.many .eof (Parse.programItem (Parse.boundFor tokens)) (Parse.boundFor tokens))
      (.ofTokens tokens) E Q) :
    (∀ p, parse tokens = .ok p → ∃ c, p = ⟨p.items, c.nextId, tokensSpan tokens⟩ ∧ Q p.items c) ∧
      ∀ e, parse tokens = .error e → E e := by
  unfold Yields at h
  unfold parse
  split at h
  next items c hrun =>
    simp only [hrun]
    refine ⟨fun p hp => ?_, fun e he => by cases he⟩
    cases hp
    exact ⟨c, rfl, h⟩
  next e hrun =>
    simp only [hrun]
    refine ⟨fun p hp => (by cases hp), fun e' he => ?_⟩
    cases he
    exact h

section

variable {P : Span → Prop} (merge : ∀ {a b : Span}, P a → P b → P (a.merge b)) {tokens : List Token}

include merge

theorem tokensSpan_good (h : ∀ t ∈ tokens, P t.span) (hne : tokens ≠ []) : P (tokensSpan tokens) := by
  unfold tokensSpan
  split
  next first last hfirst hlast =>
    exact merge (h first (List.mem_of_mem_head? hfirst)) (h last (List.mem_of_mem_getLast? hlast))
  next hmissing =>
    exact absurd (List.getLast?_eq_some_getLast hne) (hmissing _ _ (List.head?_eq_some_head hne))

/-- A program read from tokens at good places has only good places, and a failure to read one is at a
good place. -/
theorem parse_good (h : ∀ t ∈ tokens, P t.span) (hne : tokens ≠ []) :
    (∀ p, parse tokens = .ok p → AllGood P p.spans) ∧ ∀ e, parse tokens = .error e → P e.span := by
  obtain ⟨hok, herror⟩ := parse_cases (Parse.yields_items (G := ⟨P, merge, fun _ => True⟩)
    (fun t ht => ⟨h t ht, fun _ _ => trivial⟩) (.inl hne))
  refine ⟨fun p hp => ?_, fun e he => (herror e he).1⟩
  obtain ⟨c, hp, -, hitems, -⟩ := hok p hp
  rw [hp]
  exact allGood_cons.2 ⟨tokensSpan_good merge h hne, allGood_flatMap.2 fun i hi => (hitems i hi).1⟩

end

variable {tokens : List Token} {p : Program}

/-- The nodes of a program are numbered as they are completed, and its items have the names of tokens and bodies. -/
theorem parse_spec {N : String → Prop} (hnames : ∀ t ∈ tokens, ∀ n, t.kind = .ident n → N n)
    (h : parse tokens = .ok p) : p.numbers = List.range p.nodeCount ∧ ∀ i ∈ p.items, i.Fit N := by
  obtain ⟨c, hp, hnumbers, hall, -⟩ := (parse_cases (Parse.yields_items (G := ⟨fun _ => True, fun _ _ => trivial, N⟩)
    (fun t ht => ⟨trivial, hnames t ht⟩) (.inr trivial))).1 p h
  rw [hp]
  exact ⟨hnumbers, fun i hi => (hall i hi).2⟩

/-- In the order in which they are completed, the nodes of a program have the numbers `0, 1, …`. -/
theorem Program.numbers_eq_range (h : parse tokens = .ok p) : p.numbers = List.range p.nodeCount :=
  (parse_spec (N := fun _ => True) (fun _ _ _ _ => trivial) h).1

/-- **Numbers are unique and dense**: no two nodes of a program have the same number, and the numbers are
exactly those below its count of nodes. -/
theorem numbers_of_parse {tokens : List Token} {p : Program} (h : parse tokens = .ok p) :
    p.numbers.Nodup ∧ ∀ n, n ∈ p.numbers ↔ n < p.nodeCount := by
  rw [Program.numbers_eq_range h]
  exact ⟨List.nodup_range, fun n => List.mem_range⟩

/-- A text with parentheses, an arm that is a block, a method, a function literal and an expression inside
a string. -/
def numberedSource : String :=
  "struct P \x7b a: i32, fn m(self) \x7b for x in [1] \x7b f((x)); \x7d \x7d \x7d " ++
  "match 1 \x7b _ => \x7b let s = \"\x7b2\x7d\"; \x7d \x7d g(fn(k: i32) => (k + 1) * 2);"

theorem numbers_of_parse_nested : ∃ tokens p, tokenize numberedSource = .ok tokens ∧
    parse tokens = .ok p ∧ p.nodeCount = 20 ∧ p.numbers.Nodup ∧ ∀ n, n ∈ p.numbers ↔ n < p.nodeCount := by
  have hcount : (tokenize numberedSource).toOption.bind (fun tokens =>
      (parse tokens).toOption.map Program.nodeCount) = some 20 := by
    decide +kernel
  obtain ⟨tokens, htokens⟩ : ∃ tokens, tokenize numberedSource = .ok tokens :=
    exists_of_isOk (by decide +kernel)
  rw [htokens] at hcount
  cases hparse : parse tokens with
  | error e =>
    rw [Except.toOption, Option.bind_some, hparse] at hcount
    cases hcount
  | ok p =>
    rw [Except.toOption, Option.bind_some, hparse] at hcount
    exact ⟨tokens, p, htokens, hparse, Option.some.inj hcount, numbers_of_parse hparse⟩

end StackScript
