import StackScript.Proofs.Exec.Instructions
import StackScript.Proofs.Machine.Nesting

/-!
# Positions in structured code

A frame has a position in a flat body and a list of open labels.  When the body is the flat form of
structured code, they belong together: from the position on, the body holds the rest of the construct
that the innermost label belongs to, and behind its end the rest of the next one.
-/

namespace StackScript

open Code (flatList)

/-- At a position of a body, what is left of the construct of the innermost label, if all code behind
the ends of constructs, and all bodies of loops, have a property.  It is told up to the end of some construct:
`ls₀` are the labels there, and `is₀` is what follows. -/
inductive StandsIn (P : Nat → List Code → Prop) (B : List Instr) (j : Jumps) (ls₀ : List Label)
    (is₀ : List Instr) : Nat → List Code → List Label → Prop
  | top {pc rest} (code : B.drop pc = flatList rest ++ .end_ :: is₀) (located : j.LocatesAll pc rest) :
      StandsIn P B j ls₀ is₀ pc rest ls₀
  | inner {pc rest ls l after tail} (kind : l.kind ≠ .loop)
      (code : B.drop pc = flatList rest ++ .end_ :: tail) (located : j.LocatesAll pc rest)
      (target : l.target = pc + (flatList rest).length)
      (outer : StandsIn P B j ls₀ is₀ (l.target + 1) after ls) (holds : P ls.length after) :
      StandsIn P B j ls₀ is₀ pc rest (l :: ls)
  /-- A condition with another branch. -/
  | thenPart {pc rest ls l other after tail} (kind : l.kind ≠ .loop)
      (code : B.drop pc = flatList rest ++ .else_ :: (flatList other ++ .end_ :: tail))
      (located : j.LocatesAll pc rest)
      (target : l.target = pc + (flatList rest).length + 1 + (flatList other).length)
      (outer : StandsIn P B j ls₀ is₀ (l.target + 1) after ls) (holds : P ls.length after) :
      StandsIn P B j ls₀ is₀ pc rest (l :: ls)
  /-- A loop, which a jump starts again. -/
  | loop {pc rest ls l body after tail tail'} (kind : l.kind = .loop)
      (code : B.drop pc = flatList rest ++ .end_ :: tail) (located : j.LocatesAll pc rest)
      (again : B.drop (l.target + 1) = flatList body ++ .end_ :: tail')
      (relocated : j.LocatesAll (l.target + 1) body) (holdsBody : P (ls.length + 1) body)
      (stop : pc + (flatList rest).length = l.target + 1 + (flatList body).length)
      (outer : StandsIn P B j ls₀ is₀ (pc + (flatList rest).length + 1) after ls) (holds : P ls.length after) :
      StandsIn P B j ls₀ is₀ pc rest (l :: ls)

/-- At a position of a body, what is left of all open constructs. -/
abbrev Stands (P : Nat → List Code → Prop) (B : List Instr) (j : Jumps) : Nat → List Code → List Label → Prop :=
  StandsIn P B j [] []

/-- Code with one property at a depth has constructs, and is followed by code, with another one. -/
structure Code.Opens (Q P : Nat → List Code → Prop) : Prop where
  nil : ∀ d, P (d + 1) []
  block : ∀ {d ty body xs}, Q d (.block ty body :: xs) → P (d + 1) body ∧ P d xs
  loop : ∀ {d body xs}, Q d (.loop body :: xs) → P (d + 1) body ∧ P d xs
  cond : ∀ {d ty body xs}, Q d (.cond ty body :: xs) → P (d + 1) body ∧ P d xs
  condElse : ∀ {d ty body other xs}, Q d (.condElse ty body other :: xs) →
    P (d + 1) body ∧ P (d + 1) other ∧ P d xs

namespace StandsIn

variable {P Q : Nat → List Code → Prop} {B : List Instr} {j : Jumps} {pc : Nat} {rest xs : List Code}
  {ls ls₀ : List Label} {is₀ : List Instr}

theorem drop_of_append {is tail : List Instr} (h : B.drop pc = is ++ tail) : B.drop (pc + is.length) = tail := by
  rw [← List.drop_drop, h, List.drop_left]

variable {tail : List Instr} {i : Instr} {c : Code} {f : Frame}

theorem drop_of_cons (h : B.drop pc = i :: tail) : B.drop (pc + 1) = tail :=
  @drop_of_append B pc [i] tail h

theorem getElem?_of_drop (h : B.drop pc = i :: tail) : B[pc]? = some i := by
  rw [← List.head?_drop, h, List.head?_cons]

/-- From a position on, the body starts with the rest of the innermost construct. -/
theorem code_eq (h : StandsIn P B j ls₀ is₀ pc rest ls) : ∃ tail, B.drop pc = flatList rest ++ tail := by
  cases h with
  | top code | inner _ code | thenPart _ code | loop _ code => exact ⟨_, code⟩

theorem located (h : StandsIn P B j ls₀ is₀ pc rest ls) : j.LocatesAll pc rest := by
  cases h with
  | top _ located | inner _ _ located | thenPart _ _ located | loop _ _ located => exact located

/-- The labels of the end are around all others. -/
theorem suffix (h : StandsIn P B j ls₀ is₀ pc rest ls) : ls₀ <:+ ls := by
  induction h with
  | top => exact List.suffix_refl _
  | inner _ _ _ _ _ _ ih | thenPart _ _ _ _ _ _ ih | loop _ _ _ _ _ _ _ _ _ ih =>
    exact ih.trans (List.suffix_cons _ _)

/-- It stands before that end, or in another construct. -/
theorem top_or (h : StandsIn P B j ls₀ is₀ pc rest ls) :
    (ls = ls₀ ∧ B.drop pc = flatList rest ++ .end_ :: is₀) ∨ ∃ l outer, ls = l :: outer ∧ ls₀.length ≤ outer.length := by
  cases h with
  | top code => exact .inl ⟨rfl, code⟩
  | inner _ _ _ _ outer | thenPart _ _ _ _ outer | loop _ _ _ _ _ _ _ outer =>
    exact .inr ⟨_, _, rfl, outer.suffix.length_le⟩

/-- Behind the first part of the rest, the labels are the same. -/
theorem advance (h : StandsIn P B j ls₀ is₀ pc (c :: xs) ls) : StandsIn P B j ls₀ is₀ (pc + c.flat.length) xs ls := by
  have hdrop {tail : List Instr} (code : B.drop pc = flatList (c :: xs) ++ tail) :
      B.drop (pc + c.flat.length) = flatList xs ++ tail := by
    rw [flatList, List.append_assoc] at code
    exact drop_of_append code
  have hlength : (flatList (c :: xs)).length = c.flat.length + (flatList xs).length := by
    rw [flatList, List.length_append]
  cases h with
  | top code located => exact .top (hdrop code) located.2
  | inner kind code located target outer holds =>
    exact .inner kind (hdrop code) located.2 (by omega) outer holds
  | thenPart kind code located target outer holds =>
    exact .thenPart kind (hdrop code) located.2 (by omega) outer holds
  | loop kind code located again relocated holdsBody stop outer holds =>
    rw [hlength, ← Nat.add_assoc] at outer
    exact .loop kind (hdrop code) located.2 again relocated holdsBody (by omega) outer holds

/-- The instruction at a position where something is left. -/
theorem getElem?_cons {is : List Instr} (h : StandsIn P B j ls₀ is₀ pc (c :: xs) ls)
    (hflat : c.flat = i :: is) : B[pc]? = some i := by
  obtain ⟨tail, code⟩ := h.code_eq
  rw [flatList, hflat, List.append_assoc, List.cons_append] at code
  exact getElem?_of_drop code

/-! ### Entering constructs -/

variable {ty : Option ValType} {body : List Code} {l : Label} {outer : List Label} {depth : Nat}

/-- A construct is left first: its code, and the place behind it. -/
theorem opened {c : Code} {i : Instr} {a : List Instr} (h : StandsIn P B j ls₀ is₀ pc (c :: xs) ls)
    (hflat : c.flat = i :: (a ++ [.end_])) :
    (∃ tail, B.drop (pc + 1) = a ++ .end_ :: tail) ∧ StandsIn P B j ls₀ is₀ (pc + 1 + a.length + 1) xs ls := by
  obtain ⟨tail, code⟩ := h.code_eq
  have houter := h.advance
  rw [flatList, hflat, List.cons_append, List.cons_append, List.append_assoc, List.append_assoc] at code
  rw [hflat, List.length_cons, List.length_append, List.length_singleton] at houter
  have hpc : pc + (a.length + 1 + 1) = pc + 1 + a.length + 1 := by omega
  exact ⟨⟨_, drop_of_cons code⟩, hpc ▸ houter⟩

theorem enterBlock (opens : Code.Opens Q P)
    (h : StandsIn P B j ls₀ is₀ pc (.block ty body :: xs) ls) (hq : Q ls.length (.block ty body :: xs))
    (kind : l.kind ≠ .loop) (target : l.target = j.endOf pc) :
    StandsIn P B j ls₀ is₀ (pc + 1) body (l :: ls) ∧ P (ls.length + 1) body := by
  obtain ⟨⟨hend, hbody⟩, -⟩ := h.located
  obtain ⟨⟨tail, code⟩, houter⟩ := h.opened rfl
  obtain ⟨hp, hxs⟩ := opens.block hq
  rw [← hend, ← target] at houter
  exact ⟨.inner kind code hbody (target.trans hend) houter hxs, hp⟩

theorem enterLoop (opens : Code.Opens Q P)
    (h : StandsIn P B j ls₀ is₀ pc (.loop body :: xs) ls) (hq : Q ls.length (.loop body :: xs))
    (kind : l.kind = .loop) (target : l.target = pc) :
    StandsIn P B j ls₀ is₀ (pc + 1) body (l :: ls) ∧ P (ls.length + 1) body := by
  obtain ⟨⟨-, hbody⟩, -⟩ := h.located
  obtain ⟨⟨tail, code⟩, houter⟩ := h.opened rfl
  obtain ⟨hp, hxs⟩ := opens.loop hq
  exact ⟨.loop kind code hbody (target ▸ code) (target ▸ hbody) hp (by rw [target]) houter hxs, hp⟩

/-- Into the branch of a condition, or to its end. -/
theorem enterCond (opens : Code.Opens Q P)
    (h : StandsIn P B j ls₀ is₀ pc (.cond ty body :: xs) ls) (hq : Q ls.length (.cond ty body :: xs))
    (kind : l.kind ≠ .loop) (target : l.target = j.endOf pc) :
    (StandsIn P B j ls₀ is₀ (pc + 1) body (l :: ls) ∧ P (ls.length + 1) body) ∧
      j.elseOf pc = none ∧ StandsIn P B j ls₀ is₀ l.target [] (l :: ls) := by
  obtain ⟨⟨helse, hend, hbody⟩, -⟩ := h.located
  obtain ⟨⟨tail, code⟩, houter⟩ := h.opened rfl
  obtain ⟨hp, hxs⟩ := opens.cond hq
  have hstop := drop_of_append code
  rw [← hend, ← target] at houter hstop
  exact ⟨⟨.inner kind code hbody (target.trans hend) houter hxs, hp⟩, helse,
    .inner kind hstop trivial rfl houter hxs⟩

/-- Into one of the branches of a condition. -/
theorem enterCondElse {other : List Code}
    (opens : Code.Opens Q P) (h : StandsIn P B j ls₀ is₀ pc (.condElse ty body other :: xs) ls)
    (hq : Q ls.length (.condElse ty body other :: xs)) (kind : l.kind ≠ .loop) (target : l.target = j.endOf pc) :
    (StandsIn P B j ls₀ is₀ (pc + 1) body (l :: ls) ∧ P (ls.length + 1) body) ∧
      ∃ middle, j.elseOf pc = some middle ∧ StandsIn P B j ls₀ is₀ (middle + 1) other (l :: ls) ∧
        P (ls.length + 1) other := by
  obtain ⟨⟨helse, hend, hbody, hother⟩, -⟩ := h.located
  obtain ⟨⟨tail, code⟩, houter⟩ := h.opened (i := .if_ ty) (a := flatList body ++ .else_ :: flatList other)
    (by simp [Code.flat])
  obtain ⟨hp, hp', hxs⟩ := opens.condElse hq
  rw [List.append_assoc, List.cons_append] at code
  rw [List.length_append, List.length_cons] at houter
  have hpc : pc + 1 + ((flatList body).length + ((flatList other).length + 1)) = l.target := by omega
  rw [hpc] at houter
  refine ⟨⟨.thenPart kind code hbody (target.trans hend) houter hxs, hp⟩, _, helse, ?_, hp'⟩
  exact .inner kind (drop_of_cons (drop_of_append code)) hother (target.trans hend) houter hxs

/-! ### Leaving constructs -/

/-- Behind a construct, what is left of the one around it. -/
theorem outside (h : StandsIn P B j ls₀ is₀ pc rest (l :: outer)) (hin : ls₀.length ≤ outer.length) :
    ∃ pc after, StandsIn P B j ls₀ is₀ pc after outer := by
  cases h with
  | top => exact absurd hin (Nat.not_succ_le_self _)
  | inner _ _ _ _ stands | thenPart _ _ _ _ stands | loop _ _ _ _ _ _ _ stands => exact ⟨_, _, stands⟩

/-- Where a label is, it stands at the end of its construct or at its start. -/
theorem labels_drop (h : StandsIn P B j ls₀ is₀ pc rest ls)
    (hl : ls.drop depth = l :: outer) (hdepth : depth + ls₀.length < ls.length) :
    ∃ pc rest, StandsIn P B j ls₀ is₀ pc rest (l :: outer) := by
  induction depth generalizing pc rest ls with
  | zero => exact ⟨pc, rest, hl ▸ h⟩
  | succ depth ih =>
    cases ls with
    | nil => cases hl
    | cons l' ls =>
      rw [List.length_cons] at hdepth
      obtain ⟨pc, rest, stands⟩ := h.outside (by omega)
      exact ih stands hl (by omega)

/-- A jump to a label that is no loop leads behind the end of its construct. -/
theorem exit (h : StandsIn P B j ls₀ is₀ pc rest (l :: outer))
    (hin : ls₀.length ≤ outer.length) (kind : l.kind ≠ .loop) :
    ∃ after, StandsIn P B j ls₀ is₀ (l.target + 1) after outer ∧ P outer.length after := by
  cases h with
  | top => exact absurd hin (Nat.not_succ_le_self _)
  | inner _ _ _ _ stands holds | thenPart _ _ _ _ stands holds => exact ⟨_, stands, holds⟩
  | loop kind' => exact absurd kind' kind

/-- A jump to the label of a loop leads to the start of its body. -/
theorem restart (h : StandsIn P B j ls₀ is₀ pc rest (l :: outer))
    (hin : ls₀.length ≤ outer.length) (kind : l.kind = .loop) :
    ∃ body, StandsIn P B j ls₀ is₀ (l.target + 1) body (l :: outer) ∧ P (outer.length + 1) body := by
  cases h with
  | top => exact absurd hin (Nat.not_succ_le_self _)
  | inner kind' | thenPart kind' => exact absurd kind kind'
  | loop _ code _ again relocated holdsBody stop stands holds =>
    rw [stop] at stands
    exact ⟨_, .loop kind again relocated again relocated holdsBody rfl stands holds, holdsBody⟩

/-- Where jumps lead. -/
theorem branch (h : StandsIn P B j ls₀ is₀ f.pc rest f.labels)
    (hdepth : depth + ls₀.length < f.labels.length) (s : Stack) : f.branch s depth = .error .stackUnderflow ∨
      ∃ pc' labels' s' rest', f.branch s depth = .ok ({ f with pc := pc', labels := labels' }, s') ∧
        StandsIn P B j ls₀ is₀ pc' rest' labels' ∧ P labels'.length rest' := by
  obtain ⟨l, outer, hl⟩ : ∃ l outer, f.labels.drop depth = l :: outer := by
    cases hdrop : f.labels.drop depth with
    | nil =>
      have := List.drop_eq_nil_iff.1 hdrop
      omega
    | cons l outer => exact ⟨l, outer, rfl⟩
  obtain ⟨pc₀, rest₀, stands⟩ := h.labels_drop hl hdepth
  have hin : ls₀.length ≤ outer.length := by
    have hlength := congrArg List.length hl
    simp only [List.length_drop, List.length_cons] at hlength
    omega
  unfold Frame.branch
  rw [hl]
  dsimp only
  cases hkind : l.kind with
  | loop =>
    obtain ⟨body, stands, hbody⟩ := stands.restart hin hkind
    exact .inr ⟨_, _, _, body, rfl, stands, hbody⟩
  | block | cond =>
    obtain ⟨after, stands, hafter⟩ := stands.exit hin (by simp [hkind])
    dsimp only
    cases s.split? l.arity with
    | none => exact .inl rfl
    | some r => exact .inr ⟨_, _, _, after, rfl, stands, hafter⟩

/-- The end of a construct, or of its first branch. -/
theorem close (h : StandsIn P B j ls₀ is₀ pc [] (l :: outer)) (hin : ls₀.length ≤ outer.length) :
    (B[pc]? = some .end_ ∧ ∃ after, StandsIn P B j ls₀ is₀ (pc + 1) after outer ∧ P outer.length after) ∨
      (B[pc]? = some .else_ ∧ StandsIn P B j ls₀ is₀ l.target [] (l :: outer)) := by
  cases h with
  | top => exact absurd hin (Nat.not_succ_le_self _)
  | inner kind code located target stands holds =>
    rw [target] at stands
    exact .inl ⟨getElem?_of_drop code, _, stands, holds⟩
  | @thenPart _ _ _ _ other after tail kind code located target stands holds =>
    have hcode : B.drop l.target = .end_ :: tail := by
      rw [target]
      exact drop_of_append (drop_of_cons code)
    exact .inr ⟨getElem?_of_drop code, .inner kind hcode trivial rfl stands holds⟩
  | loop kind code located again relocated holdsBody stop stands holds =>
    exact .inl ⟨getElem?_of_drop code, _, stands, holds⟩

/-- There is an instruction at every position; one without structure is what is left first. -/
theorem exists_instr (h : StandsIn P B j ls₀ is₀ pc rest ls) :
    ∃ i, B[pc]? = some i ∧ (i = .else_ → ls ≠ []) ∧ ∀ o, i = .op o → ∃ xs, rest = .op o :: xs := by
  cases rest with
  | nil =>
    cases h with
    | top code | inner _ code | loop _ code => exact ⟨_, getElem?_of_drop code, nofun, nofun⟩
    | thenPart _ code => exact ⟨_, getElem?_of_drop code, fun _ => List.cons_ne_nil _ _, nofun⟩
  | cons c xs =>
    cases c with
    | op o => exact ⟨_, h.getElem?_cons rfl, nofun, fun o' ho => ⟨xs, by cases ho; rfl⟩⟩
    | _ => exact ⟨_, h.getElem?_cons rfl, nofun, nofun⟩

theorem exists_op {o : Op} (h : StandsIn P B j ls₀ is₀ pc rest ls) (hget : B[pc]? = some (.op o)) :
    ∃ xs, rest = .op o :: xs := by
  obtain ⟨i, hi, -, hop⟩ := h.exists_instr
  exact hop o (Option.some.inj (hi.symm.trans hget))

/-- Where a jump leads, if it does. -/
theorem branch_eq_ok {f' : Frame} {s s' : Stack}
    (h : Stands P B j f.pc rest f.labels) (hjump : f.branch s depth = .ok (f', s')) :
    ∃ rest', f' = { f with pc := f'.pc, labels := f'.labels } ∧ Stands P B j f'.pc rest' f'.labels ∧
      P f'.labels.length rest' := by
  by_cases hdepth : depth < f.labels.length
  · obtain herror | ⟨pc', labels', s'', rest', hok, hstands, hp⟩ := h.branch hdepth s
    · rw [herror] at hjump
      cases hjump
    · rw [hok] at hjump
      cases hjump
      exact ⟨rest', rfl, hstands, hp⟩
  · unfold Frame.branch at hjump
    rw [List.drop_eq_nil_of_le (Nat.le_of_not_lt hdepth)] at hjump
    cases hjump

end StandsIn

namespace Run

variable {P Q : Nat → List Code → Prop} {img : Image} {fn : LoadedFunction} {B : List Instr}
  {f : Frame} {rest : List Code} {ls₀ : List Label} {is₀ : List Instr}

theorem step_eq {i : Instr} (hfn : img.functions[f.function]? = some fn) (hbody : fn.body[f.pc]? = some i)
    (id : Nat) (outer : List Frame) (s : Stack) (awaiting : Option PromiseHandle) :
    step img ⟨id, f :: outer, s, awaiting⟩ = exec img fn id { f with pc := f.pc + 1 } outer s f.pc i := by
  simp only [step, hfn, hbody]

/-- **Where the next instruction leads**, if the frame stands somewhere: it runs an instruction without structure,
or returns, or only moves to another place of the same body. -/
theorem step_leads {id : Nat} {outer : List Frame} {s : Stack} {awaiting : Option PromiseHandle} {p : Progress}
    (opens : Code.Opens Q P) (hfn : img.functions[f.function]? = some fn) (hB : fn.body = B.toArray)
    (h : StandsIn P B fn.jumps ls₀ is₀ f.pc rest f.labels) (hq : Q f.labels.length rest)
    (hstep : StepLeads img ⟨id, f :: outer, s, awaiting⟩ p) :
    (∃ o xs, rest = .op o :: xs ∧ fn.body[f.pc]? = some (.op o) ∧
        o.Leads img fn.name id { f with pc := f.pc + 1 } outer s p ∧
        StandsIn P B fn.jumps ls₀ is₀ (f.pc + 1) xs f.labels) ∨
      (rest = [] ∧ f.labels = ls₀ ∧ B.drop (f.pc + 1) = is₀ ∧
        Instr.end_.Leads img fn id { f with pc := f.pc + 1 } outer s f.pc p) ∨
      (∀ o xs, rest ≠ .op o :: xs) ∧
        ∃ pc' labels' s' rest', p = proceed id outer { f with pc := pc', labels := labels' } s' ∧
          (s' = s ∨ ∃ c, s = .i32 c :: s') ∧ StandsIn P B fn.jumps ls₀ is₀ pc' rest' labels' ∧
          P labels'.length rest' := by
  obtain ⟨f', outer', fn', i, hframes, hfn', hi, hleads⟩ := hstep
  cases hframes
  cases hfn.symm.trans hfn'
  have hat {j : Instr} (hj : B[f.pc]? = some j) : j = i := by
    rw [hB, List.getElem?_toArray, hj] at hi
    exact Option.some.inj hi
  cases rest with
  | nil =>
    obtain ⟨hlabels, code⟩ | ⟨l, ls, hlabels, hin⟩ := h.top_or
    · cases hat (StandsIn.getElem?_of_drop code)
      exact .inr (.inl ⟨rfl, hlabels, StandsIn.drop_of_cons code, hleads⟩)
    · rw [hlabels] at h ⊢
      obtain ⟨hend, after, stands, hafter⟩ | ⟨helse, stands⟩ := h.close hin
      · cases hat hend
        cases hleads with
        | end_ labels =>
          cases hlabels.symm.trans labels
          exact .inr (.inr ⟨by simp, _, _, s, after, rfl, .inl rfl, stands, hafter⟩)
        | leave labels => cases hlabels.symm.trans labels
      · cases hat helse
        cases hleads with
        | else_ labels =>
          cases hlabels.symm.trans labels
          refine .inr (.inr ⟨by simp, _, _, s, [], ?_, .inl rfl, stands, opens.nil _⟩)
          rw [← hlabels]
  | cons c xs =>
    cases c with
    | op o =>
      cases hat (h.getElem?_cons rfl)
      cases hleads with
      | op leads => exact .inl ⟨o, xs, rfl, hi, leads, h.advance⟩
    | block ty body =>
      cases hat (h.getElem?_cons rfl)
      cases hleads with
      | block =>
        obtain ⟨stands, hp⟩ := h.enterBlock
          (l := ⟨.block, fn.jumps.endOf f.pc, s.length, arityOf ty⟩) opens hq (by simp) rfl
        exact .inr (.inr ⟨by simp, _, _, s, body, rfl, .inl rfl, stands, hp⟩)
    | loop body =>
      cases hat (h.getElem?_cons rfl)
      cases hleads with
      | loop =>
        obtain ⟨stands, hp⟩ := h.enterLoop (l := ⟨.loop, f.pc, s.length, 0⟩) opens hq rfl rfl
        exact .inr (.inr ⟨by simp, _, _, s, body, rfl, .inl rfl, stands, hp⟩)
    | cond ty body =>
      cases hat (h.getElem?_cons rfl)
      cases hleads with
      | @ifNot _ s' top =>
        obtain ⟨-, helse, stands⟩ := h.enterCond
          (l := ⟨.cond, fn.jumps.endOf f.pc, s'.length, arityOf ty⟩) opens hq (by simp) rfl
        rw [helse]
        exact .inr (.inr ⟨by simp, _, _, s', [], rfl, .inr ⟨0, top⟩, stands, opens.nil _⟩)
      | @if_ _ c s' top =>
        obtain ⟨⟨stands, hp⟩, -⟩ := h.enterCond
          (l := ⟨.cond, fn.jumps.endOf f.pc, s'.length, arityOf ty⟩) opens hq (by simp) rfl
        exact .inr (.inr ⟨by simp, _, _, s', body, rfl, .inr ⟨c, top⟩, stands, hp⟩)
    | condElse ty body other =>
      cases hat (h.getElem?_cons rfl)
      cases hleads with
      | @ifNot _ s' top =>
        obtain ⟨-, middle, helse, stands, hp⟩ := h.enterCondElse
          (l := ⟨.cond, fn.jumps.endOf f.pc, s'.length, arityOf ty⟩) opens hq (by simp) rfl
        rw [helse]
        exact .inr (.inr ⟨by simp, _, _, s', other, rfl, .inr ⟨0, top⟩, stands, hp⟩)
      | @if_ _ c s' top =>
        obtain ⟨⟨stands, hp⟩, -⟩ := h.enterCondElse
          (l := ⟨.cond, fn.jumps.endOf f.pc, s'.length, arityOf ty⟩) opens hq (by simp) rfl
        exact .inr (.inr ⟨by simp, _, _, s', body, rfl, .inr ⟨c, top⟩, stands, hp⟩)

end Run

end StackScript
