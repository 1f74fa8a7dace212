import StackScript.Exec.Jumps
import StackScript.Proofs.Emit.Valid
import StackScript.Proofs.Steps

/-!
# Nesting in flat bodies

A flat body has no blocks of its own: which constructs are open at an instruction follows from the
instructions before it.  Here the flat form of structured code is shown to be nested as the code is,
and the jump targets that are found in it are the ends and other branches of its constructs.
-/

namespace StackScript

/-! ## Open constructs -/

/-- A construct that is open at some place of a body. -/
inductive Construct where
  | block
  | loop
  | thenPart
  | elsePart
  deriving DecidableEq, Repr

/-- The constructs that are open after an instruction, the innermost first.  An `else` closes the
then-part of a condition and opens its other part, and an `end` closes any construct. -/
def Construct.after : List Construct → Instr → Option (List Construct)
  | cs, .block _ => some (.block :: cs)
  | cs, .loop _ => some (.loop :: cs)
  | cs, .if_ _ => some (.thenPart :: cs)
  | .thenPart :: cs, .else_ => some (.elsePart :: cs)
  | _, .else_ => none
  | _ :: cs, .end_ => some cs
  | [], .end_ => none
  | cs, .op _ => some cs

/-- The constructs around the instruction at a position. -/
def around (body : List Instr) (pc : Nat) : Option (List Construct) :=
  (body.take pc).foldlM Construct.after []

/-- An instruction that may stand inside constructs. -/
def Instr.Placed (b : Bounds) (cs : List Construct) : Instr → Prop
  | .op o => o.Valid { b with depth := cs.length }
  | .else_ => ∃ outer, cs = .thenPart :: outer
  | _ => True

/-- Instructions that stand where they may when constructs are open before them, and leave others
open. -/
structure Nests (b : Bounds) (cs : List Construct) (is : List Instr) (cs' : List Construct) : Prop where
  placed : ∀ pc i, is[pc]? = some i →
    ∃ inner, (is.take pc).foldlM Construct.after cs = some inner ∧ i.Placed b inner
  after : is.foldlM Construct.after cs = some cs'

namespace Nests

variable {b : Bounds} {cs cs₁ cs' : List Construct} {i : Instr} {is js : List Instr}

theorem nil : Nests b cs [] cs :=
  ⟨fun _ _ h => by simp at h, rfl⟩

theorem cons (hplaced : i.Placed b cs) (hstep : Construct.after cs i = some cs₁)
    (h : Nests b cs₁ is cs') : Nests b cs (i :: is) cs' where
  placed := by
    intro pc k hk
    cases pc with
    | zero =>
      obtain rfl : i = k := by simpa using hk
      exact ⟨cs, rfl, hplaced⟩
    | succ pc =>
      obtain ⟨inner, hinner, hplaced'⟩ := h.placed pc k (by simpa using hk)
      exact ⟨inner, by simpa [hstep] using hinner, hplaced'⟩
  after := by simpa [hstep] using h.after

theorem append (h : Nests b cs is cs₁) (h' : Nests b cs₁ js cs') : Nests b cs (is ++ js) cs' := by
  induction is generalizing cs with
  | nil =>
    obtain rfl : cs = cs₁ := by simpa using h.after
    exact h'
  | cons i is ih =>
    obtain ⟨inner, hinner, hplaced⟩ := h.placed 0 i rfl
    obtain rfl : cs = inner := by simpa using hinner
    have hafter := h.after
    rw [List.foldlM_cons] at hafter
    obtain ⟨next, hstep, hrest⟩ := Option.bind_eq_some_iff.mp hafter
    refine cons hplaced hstep (ih ⟨fun pc k hk => ?_, hrest⟩)
    obtain ⟨inner, hinner, hk'⟩ := h.placed (pc + 1) k (by simpa using hk)
    exact ⟨inner, by simpa [hstep] using hinner, hk'⟩

/-- The depth of the bounds does not matter, since the open constructs have their own. -/
theorem ofDeeper (h : Nests b.deeper cs is cs') : Nests b cs is cs' :=
  ⟨h.placed, h.after⟩

/-- Instructions between the start and the end of a construct. -/
theorem enclose {c c' : Construct} (hplaced : i.Placed b cs)
    (hstep : Construct.after cs i = some (c :: cs)) (h : Nests b (c :: cs) is (c' :: cs)) :
    Nests b cs (i :: (is ++ [.end_])) cs :=
  cons hplaced hstep (h.append (cons trivial rfl nil))

end Nests

mutual

theorem nests_flat : ∀ (c : Code) {b : Bounds} {cs : List Construct}, b.depth = cs.length →
    c.Valid b → Nests b cs c.flat cs
  | .op _, _, _, hdepth, h => by
    refine .cons ?_ rfl .nil
    rw [Instr.Placed, ← hdepth]
    exact h
  | .block _ body, _, _, hdepth, h =>
    .enclose trivial rfl (nests_inside .block body hdepth h)
  | .loop body, _, _, hdepth, h =>
    .enclose trivial rfl (nests_inside .loop body hdepth h)
  | .cond _ body, _, _, hdepth, h =>
    .enclose trivial rfl (nests_inside .thenPart body hdepth h)
  | .condElse ty body other, b, cs, hdepth, h => by
    have hother : Nests b (.thenPart :: cs) (.else_ :: Code.flatList other) (.elsePart :: cs) :=
      .cons ⟨cs, rfl⟩ rfl (nests_inside .elsePart other hdepth h.2)
    have hboth := (nests_inside .thenPart body hdepth h.1).append hother
    have hwhole := Nests.enclose (i := .if_ ty) trivial rfl hboth
    rwa [List.append_assoc, List.cons_append] at hwhole

theorem nests_inside (c : Construct) : ∀ (xs : List Code) {b : Bounds} {cs : List Construct},
    b.depth = cs.length → Code.AllValid b.deeper xs → Nests b (c :: cs) (Code.flatList xs) (c :: cs)
  | [], _, _, _, _ => .nil
  | x :: xs, b, cs, hdepth, h =>
    (@nests_flat x b.deeper (c :: cs) (by simp [hdepth]) h.1).ofDeeper.append (nests_inside c xs hdepth h.2)

end

/-- **The flat form of valid code is nested.** -/
theorem nests_flatList {b : Bounds} {cs : List Construct} (hdepth : b.depth = cs.length) :
    ∀ {xs : List Code}, Code.AllValid b xs → Nests b cs (Code.flatList xs) cs
  | [], _ => .nil
  | x :: _, h => (nests_flat x hdepth h.1).append (nests_flatList hdepth h.2)

/-! ## Positions inside constructs -/

/-- An instruction that opens a construct. -/
def Instr.Opens : Instr → Prop
  | .block _ | .loop _ | .if_ _ => True
  | _ => False

/-- The starts of the constructs around a position of a body, the innermost first. -/
def enclosing (body : List Instr) : Nat → List Nat
  | 0 => []
  | pc + 1 =>
    match body[pc]? with
    | some (.block _) | some (.loop _) | some (.if_ _) => pc :: enclosing body pc
    | some .end_ => (enclosing body pc).tail
    | _ => enclosing body pc

section Enclosing

variable {body : List Instr} {pc start : Nat} {outer : List Nat}

theorem enclosing_opens {i : Instr} (h : body[pc]? = some i) (hi : i.Opens) :
    enclosing body (pc + 1) = pc :: enclosing body pc := by
  cases i <;> first | exact hi.elim | simp only [enclosing, h]

theorem enclosing_end (h : body[pc]? = some .end_) : enclosing body (pc + 1) = (enclosing body pc).tail := by
  simp only [enclosing, h]

theorem enclosing_op {o : Op} (h : body[pc]? = some (.op o)) : enclosing body (pc + 1) = enclosing body pc := by
  simp only [enclosing, h]

theorem enclosing_else (h : body[pc]? = some .else_) : enclosing body (pc + 1) = enclosing body pc := by
  simp only [enclosing, h]

/-- What an instruction makes of the constructs around it. -/
theorem enclosing_succ (body : List Instr) (pc : Nat) :
    (enclosing body (pc + 1) = pc :: enclosing body pc ∧ ∃ i, body[pc]? = some i ∧ i.Opens) ∨
      (enclosing body (pc + 1) = (enclosing body pc).tail ∧ body[pc]? = some .end_) ∨
      enclosing body (pc + 1) = enclosing body pc := by
  cases h : body[pc]? with
  | none => exact .inr (.inr (by simp only [enclosing, h]))
  | some i =>
    cases i with
    | block | loop | if_ => exact .inl ⟨enclosing_opens h trivial, _, rfl, trivial⟩
    | else_ => exact .inr (.inr (enclosing_else h))
    | end_ => exact .inr (.inl ⟨enclosing_end h, rfl⟩)
    | op => exact .inr (.inr (enclosing_op h))

/-- A construct stands inside those that are around its start. -/
theorem enclosing_of_append {w : List Nat} (h : enclosing body pc = w ++ start :: outer) :
    start < pc ∧ enclosing body start = outer ∧ ∃ i, body[start]? = some i ∧ i.Opens := by
  induction pc generalizing w with
  | zero => simp [enclosing] at h
  | succ pc ih =>
    have hnext {w : List Nat} (h : enclosing body pc = w ++ start :: outer) :=
      And.imp_left Nat.lt_succ_of_lt (ih h)
    obtain ⟨heq, hopens⟩ | ⟨heq, -⟩ | heq := enclosing_succ body pc
    · rw [heq] at h
      cases w with
      | nil =>
        cases h
        exact ⟨Nat.lt_succ_self _, rfl, hopens⟩
      | cons => exact hnext (List.cons.inj h).2
    · rw [heq] at h
      cases hpc : enclosing body pc with
      | nil => simp [hpc] at h
      | cons first =>
        rw [hpc, List.tail_cons] at h
        exact hnext (w := first :: w) (by rw [hpc, h, List.cons_append])
    · exact hnext (heq ▸ h)

theorem lt_of_mem_enclosing (h : start ∈ enclosing body pc) : start < pc := by
  obtain ⟨front, outer, h⟩ := List.append_of_mem h
  exact (enclosing_of_append h).1

end Enclosing

/-- The construct at one position ends at the other. -/
def Closes (body : List Instr) (start stop : Nat) : Prop :=
  body[stop]? = some .end_ ∧ (enclosing body stop).head? = some start

/-- A construct that does not surround a later position has ended before. -/
theorem exists_closes {body : List Instr} {start pc : Nat} (n : Nat) (h : start ∈ enclosing body pc)
    (hend : start ∉ enclosing body (pc + n)) : ∃ stop, Closes body start stop := by
  induction n with
  | zero => exact absurd h hend
  | succ n ih =>
    by_cases hmem : start ∈ enclosing body (pc + n)
    · obtain ⟨heq, -⟩ | ⟨heq, hat⟩ | heq := enclosing_succ body (pc + n)
      · exact absurd (heq ▸ List.mem_cons_of_mem _ hmem) hend
      · refine ⟨pc + n, hat, ?_⟩
        rw [← Nat.add_assoc, heq] at hend
        cases hpc : enclosing body (pc + n) with
        | nil => simp [hpc] at hmem
        | cons first rest => grind
      · exact absurd (heq ▸ hmem) hend
    · exact ih hmem

/-! ## Jump targets -/

namespace Jumps

open Code (flatList)

mutual

/-- The targets are right for code at a position. -/
def Locates (j : Jumps) (pc : Nat) : Code → Prop
  | .op _ => True
  | .block _ body | .loop body =>
    j.endOf pc = pc + 1 + (flatList body).length ∧ LocatesAll j (pc + 1) body
  | .cond _ body =>
    j.elseOf pc = none ∧ j.endOf pc = pc + 1 + (flatList body).length ∧ LocatesAll j (pc + 1) body
  | .condElse _ body other =>
    let middle := pc + 1 + (flatList body).length
    j.elseOf pc = some middle ∧ j.endOf pc = middle + 1 + (flatList other).length ∧
      LocatesAll j (pc + 1) body ∧ LocatesAll j (middle + 1) other

/-- The targets are right for code in order from a position on. -/
def LocatesAll (j : Jumps) (pc : Nat) : List Code → Prop
  | [] => True
  | c :: cs => Locates j pc c ∧ LocatesAll j (pc + c.flat.length) cs

end

/-- The targets of two tables at a position are the same. -/
def SameAt (j j' : Jumps) (pc : Nat) : Prop :=
  j'.endOf pc = j.endOf pc ∧ j'.elseOf pc = j.elseOf pc

mutual

theorem Locates.congr {j j' : Jumps} : ∀ {c : Code} {pc : Nat},
    (∀ i, pc ≤ i → i < pc + c.flat.length → SameAt j j' i) → Locates j pc c → Locates j' pc c
  | .op _, _, _, _ => trivial
  | .block _ body, pc, hsame, h | .loop body, pc, hsame, h => by
    simp only [Code.flat, List.length_cons, List.length_append] at hsame
    have hstart := hsame pc (Nat.le_refl _) (by omega)
    exact ⟨hstart.1.trans h.1, LocatesAll.congr (fun i hi hlt => hsame i (by omega) (by omega)) h.2⟩
  | .cond _ _, pc, hsame, h => by
    simp only [Code.flat, List.length_cons, List.length_append] at hsame
    have hstart := hsame pc (Nat.le_refl _) (by omega)
    exact ⟨hstart.2.trans h.1, hstart.1.trans h.2.1,
      LocatesAll.congr (fun i hi hlt => hsame i (by omega) (by omega)) h.2.2⟩
  | .condElse _ _ _, pc, hsame, h => by
    simp only [Code.flat, List.length_cons, List.length_append] at hsame
    have hstart := hsame pc (Nat.le_refl _) (by omega)
    obtain ⟨helse, hend, hbody, hother⟩ := h
    exact ⟨hstart.2.trans helse, hstart.1.trans hend,
      LocatesAll.congr (fun i hi hlt => hsame i (by omega) (by omega)) hbody,
      LocatesAll.congr (fun i hi hlt => hsame i (by omega) (by omega)) hother⟩

theorem LocatesAll.congr {j j' : Jumps} : ∀ {cs : List Code} {pc : Nat},
    (∀ i, pc ≤ i → i < pc + (flatList cs).length → SameAt j j' i) → LocatesAll j pc cs → LocatesAll j' pc cs
  | [], _, _, _ => trivial
  | _ :: _, _, hsame, h => by
    simp only [flatList, List.length_append] at hsame
    exact ⟨Locates.congr (fun i hi hlt => hsame i hi (by omega)) h.1,
      LocatesAll.congr (fun i hi hlt => hsame i (by omega) (by omega)) h.2⟩

end

/-! ### The search for targets -/

variable {j j' : Jumps} {pc size start stop : Nat}

theorem endOf_setEnd_self (h : start < j.ends.size) (stop : Nat) :
    endOf { j with ends := j.ends.setIfInBounds start stop } start = stop := by
  simp [endOf, h]

theorem endOf_setEnd_ne {i : Nat} (h : start ≠ i) (stop : Nat) :
    endOf { j with ends := j.ends.setIfInBounds start stop } i = j.endOf i := by
  simp [endOf, h]

theorem elseOf_setElse_self (h : start < j.elses.size) (middle : Option Nat) :
    elseOf { j with elses := j.elses.setIfInBounds start middle } start = middle := by
  simp [elseOf, h]

theorem elseOf_setElse_ne {i : Nat} (h : start ≠ i) (middle : Option Nat) :
    elseOf { j with elses := j.elses.setIfInBounds start middle } i = j.elseOf i := by
  simp [elseOf, h]

/-- A table for a body of a size, before a position is read. -/
structure Before (size pc : Nat) (j : Jumps) : Prop where
  ends : j.ends.size = size
  elses : j.elses.size = size
  fresh : ∀ i, pc ≤ i → j.elseOf i = none

/-- A table for the same body with other targets only between two positions. -/
structure Fills (j j' : Jumps) (pc stop : Nat) : Prop where
  ends : j'.ends.size = j.ends.size
  elses : j'.elses.size = j.elses.size
  same : ∀ i, i < pc ∨ stop ≤ i → SameAt j j' i

theorem Before.after (h : Before size pc j) (hfills : Fills j j' pc stop) (hle : pc ≤ stop) : Before size stop j' where
  ends := hfills.ends.trans h.ends
  elses := hfills.elses.trans h.elses
  fresh i hi := (hfills.same i (.inr hi)).2.trans (h.fresh i (by omega))

theorem Before.next (h : Before size pc j) : Before size (pc + 1) j :=
  ⟨h.ends, h.elses, fun i hi => h.fresh i (by omega)⟩

theorem Fills.trans {j₁ : Jumps} {mid : Nat} (h : Fills j j₁ pc mid)
    (h' : Fills j₁ j' mid stop) (hpc : pc ≤ mid) (hmid : mid ≤ stop) : Fills j j' pc stop where
  ends := h'.ends.trans h.ends
  elses := h'.elses.trans h.elses
  same i hi := by
    have hfirst := h.same i (by omega)
    have hsecond := h'.same i (by omega)
    exact ⟨hsecond.1.trans hfirst.1, hsecond.2.trans hfirst.2⟩

theorem Fills.mono {pc' stop' : Nat} (h : Fills j j' pc stop)
    (hpc : pc' ≤ pc) (hstop : stop ≤ stop') : Fills j j' pc' stop' :=
  ⟨h.ends, h.elses, fun i hi => h.same i (by omega)⟩

/-- The end of a construct is found. -/
theorem Fills.setEnd (h : Fills j j' pc stop) (hlt : pc < stop)
    (target : Nat) : Fills j { j' with ends := j'.ends.setIfInBounds pc target } pc stop where
  ends := by rw [Array.size_setIfInBounds, h.ends]
  elses := h.elses
  same i hi := by
    have hsame := h.same i hi
    exact ⟨(endOf_setEnd_ne (by omega) target).trans hsame.1, hsame.2⟩

/-- The other branch of a construct is found. -/
theorem Fills.setElse (h : Fills j j' pc stop) (hlt : pc < stop) (target : Option Nat) :
    Fills j { j' with elses := j'.elses.setIfInBounds pc target } pc stop where
  ends := h.ends
  elses := by rw [Array.size_setIfInBounds, h.elses]
  same i hi := by
    have hsame := h.same i hi
    exact ⟨hsame.1, (elseOf_setElse_ne (by omega) target).trans hsame.2⟩

/-- Reading code from a position on leads to its end with a table that is right for it. -/
def Reads (size pc : Nat) (opened : List Nat) (j : Jumps) (is rest : List Instr) (P : Jumps → Prop) : Prop :=
  ∃ j', scan size pc opened j (is ++ rest) = scan size (pc + is.length) opened j' rest ∧
    Fills j j' pc (pc + is.length) ∧ P j'

/-- A construct without another branch, which is read when its body is. -/
theorem Reads.construct {opened : List Nat} (i : Instr) {body : List Code} {rest : List Instr}
    (hopen : ∀ is, scan size pc opened j (i :: is) = scan size (pc + 1) (pc :: opened) j is)
    (hj : Before size pc j) (hsize : pc < size)
    (h : Reads size (pc + 1) (pc :: opened) j (flatList body) (.end_ :: rest)
      (LocatesAll · (pc + 1) body)) : Reads size pc opened j (i :: (flatList body ++ [.end_])) rest fun j' =>
      j'.elseOf pc = none ∧ j'.endOf pc = pc + 1 + (flatList body).length ∧ LocatesAll j' (pc + 1) body := by
  obtain ⟨j₁, hscan, hfills, hbody⟩ := h
  have hpc : pc < j₁.ends.size := by rwa [hfills.ends, hj.ends]
  have hstop : pc + (i :: (flatList body ++ [.end_])).length = pc + 1 + (flatList body).length + 1 := by
    simp only [List.length_cons, List.length_append, List.length_nil]
    omega
  refine ⟨{ j₁ with ends := j₁.ends.setIfInBounds pc (pc + 1 + (flatList body).length) },
    ?_, ?_, ?_, endOf_setEnd_self hpc _, hbody.congr ?_⟩
  · rw [hstop, List.cons_append, hopen, List.append_assoc, List.singleton_append, hscan, scan]
  · rw [hstop]
    exact (hfills.mono (Nat.le_succ _) (Nat.le_succ _)).setEnd (by omega) _
  · exact (hfills.same pc (.inl (by omega))).2.trans (hj.fresh pc (Nat.le_refl _))
  · intro k hk _
    exact ⟨endOf_setEnd_ne (by omega) _, rfl⟩

/-- A condition with another branch, which is read when both branches are. -/
theorem Reads.condElse {mid : Nat} {opened : List Nat} {ty : Option ValType}
    {body other : List Code} {rest : List Instr} (hj : Before size pc j) (hsize : pc < size)
    (hmid : pc + 1 + (flatList body).length = mid) (h : Reads size (pc + 1) (pc :: opened) j (flatList body)
      (.else_ :: (flatList other ++ .end_ :: rest)) (LocatesAll · (pc + 1) body))
    (h' : ∀ {j₁ : Jumps}, Before size (mid + 1) j₁ →
      Reads size (mid + 1) (pc :: opened) j₁ (flatList other) (.end_ :: rest)
        (LocatesAll · (mid + 1) other)) : Reads size pc opened j (Code.flat (.condElse ty body other)) rest
      (Locates · pc (.condElse ty body other)) := by
  obtain ⟨j₁, hscan, hfills, hbody⟩ := h
  rw [hmid] at hscan hfills
  have hfills₁ := (hfills.mono (Nat.le_succ _) (Nat.le_succ mid)).setElse (by omega) (some mid)
  obtain ⟨j₂, hscan', hfills', hother⟩ := h' (hj.after hfills₁ (by omega))
  have hfills₂ := (hfills₁.trans hfills' (by omega) (by omega)).mono (Nat.le_refl _) (Nat.le_succ _)
  have hends : pc < j₂.ends.size := by rwa [hfills₂.ends, hj.ends]
  have helses : pc < j₁.elses.size := by rwa [hfills.elses, hj.elses]
  have hstop : pc + (Code.flat (.condElse ty body other)).length = mid + 1 + (flatList other).length + 1 := by
    simp only [Code.flat, List.length_cons, List.length_append, List.length_nil]
    omega
  refine ⟨{ j₂ with ends := j₂.ends.setIfInBounds pc (mid + 1 + (flatList other).length) },
    ?_, ?_, ?_, ?_, hbody.congr ?_, ?_⟩
  · rw [hstop, Code.flat, List.cons_append, List.append_assoc, List.cons_append, List.append_assoc,
      List.singleton_append, scan, hscan, scan, hscan', scan]
  · rw [hstop]
    exact hfills₂.setEnd (by omega) _
  · rw [hmid]
    exact (hfills'.same pc (.inl (by omega))).2.trans (elseOf_setElse_self helses _)
  · rw [hmid]
    exact endOf_setEnd_self hends _
  · intro i hi hlt
    have hsame := hfills'.same i (.inl (by omega))
    exact ⟨(endOf_setEnd_ne (by omega) _).trans hsame.1, hsame.2.trans (elseOf_setElse_ne (by omega) _)⟩
  · rw [hmid]
    refine hother.congr ?_
    intro i hi _
    exact ⟨endOf_setEnd_ne (by omega) _, rfl⟩

mutual

theorem scan_flat : ∀ (c : Code) (opened : List Nat) (rest : List Instr) {size pc : Nat} {j : Jumps},
    Before size pc j → pc + c.flat.length ≤ size → Reads size pc opened j c.flat rest (Locates · pc c)
  | .op _, _, _, _, _, j, _, _ =>
    ⟨j, rfl, ⟨rfl, rfl, fun _ _ => ⟨rfl, rfl⟩⟩, trivial⟩
  | .block ty body, opened, rest, _, pc, _, hj, hsize => by
    simp only [Code.flat, List.length_cons, List.length_append, List.length_nil] at hsize
    obtain ⟨j', hscan, hfills, -, hlocates⟩ := Reads.construct (.block ty) (fun _ => rfl) hj (by omega)
      (scan_flatList body (pc :: opened) (.end_ :: rest) hj.next (by omega))
    exact ⟨j', hscan, hfills, hlocates⟩
  | .loop body, opened, rest, _, pc, _, hj, hsize => by
    simp only [Code.flat, List.length_cons, List.length_append, List.length_nil] at hsize
    obtain ⟨j', hscan, hfills, -, hlocates⟩ := Reads.construct (.loop none) (fun _ => rfl) hj (by omega)
      (scan_flatList body (pc :: opened) (.end_ :: rest) hj.next (by omega))
    exact ⟨j', hscan, hfills, hlocates⟩
  | .cond ty body, opened, rest, _, pc, _, hj, hsize => by
    simp only [Code.flat, List.length_cons, List.length_append, List.length_nil] at hsize
    exact Reads.construct (.if_ ty) (fun _ => rfl) hj (by omega)
      (scan_flatList body (pc :: opened) (.end_ :: rest) hj.next (by omega))
  | .condElse _ body other, opened, rest, _, pc, _, hj, hsize => by
    simp only [Code.flat, List.length_cons, List.length_append, List.length_nil] at hsize
    exact Reads.condElse hj (by omega) rfl (scan_flatList body (pc :: opened) _ hj.next (by omega))
      (fun hj₁ => scan_flatList other (pc :: opened) (.end_ :: rest) hj₁ (by omega))

theorem scan_flatList : ∀ (cs : List Code) (opened : List Nat) (rest : List Instr) {size pc : Nat}
    {j : Jumps}, Before size pc j → pc + (flatList cs).length ≤ size →
      Reads size pc opened j (flatList cs) rest (LocatesAll · pc cs)
  | [], _, _, _, _, j, _, _ =>
    ⟨j, rfl, ⟨rfl, rfl, fun _ _ => ⟨rfl, rfl⟩⟩, trivial⟩
  | c :: cs, opened, rest, _, _, _, hj, hsize => by
    rw [flatList, List.length_append] at hsize
    obtain ⟨j₁, hscan, hfills, hc⟩ := scan_flat c opened (flatList cs ++ rest) hj (by omega)
    obtain ⟨j₂, hscan', hfills', hcs⟩ :=
      scan_flatList cs opened rest (hj.after hfills (by omega)) (by omega)
    refine ⟨j₂, ?_, ?_, hc.congr fun i _ hi => hfills'.same i (.inl hi), hcs⟩
    · rw [flatList, List.length_append, List.append_assoc, hscan, hscan', Nat.add_assoc]
    · rw [flatList, List.length_append, ← Nat.add_assoc]
      exact hfills.trans hfills' (by omega) (by omega)

end

theorem before_empty (size : Nat) : Before size 0 ⟨.replicate size 0, .replicate size none⟩ where
  ends := Array.size_replicate
  elses := Array.size_replicate
  fresh i _ := by
    simp only [elseOf, Array.getElem?_replicate]
    split <;> rfl

/-- **The jump targets of a flat body exist and are right.** -/
theorem ofBody_flatList (code : List Code) : ∃ j, ofBody (flatList code ++ [.end_]) = .ok j ∧ LocatesAll j 0 code := by
  have hlength : (flatList code ++ [Instr.end_]).length = 0 + (flatList code).length + 1 := by simp
  obtain ⟨j, hscan, -, hlocates⟩ := scan_flatList code [] [.end_]
    (before_empty (flatList code ++ [Instr.end_]).length) (by omega)
  have hend : scan (flatList code ++ [Instr.end_]).length (0 + (flatList code).length) [] j [.end_] = .ok j := by
    rw [scan, if_pos hlength.symm]
    rfl
  refine ⟨j, ?_, hlocates⟩
  rw [ofBody, hscan, hend, List.getLast?_concat]
  rfl

/-! ### Code inside a body -/

/-- Reading on finds targets for what is open or comes only. -/
theorem scan_same {a b : Nat} : ∀ (is : List Instr) {size pc : Nat} {opened : List Nat} {j found : Jumps},
    scan size pc opened j is = .ok found → b ≤ pc → (∀ start ∈ opened, start < a ∨ b ≤ start) →
      ∀ k, a ≤ k → k < b → SameAt j found k
  | [], _, _, _, _, _, h, _, _, _, _, _ => by
    rw [scan] at h
    split at h
    · cases h
      exact ⟨rfl, rfl⟩
    · cases h
  | i :: is, _, pc, opened, _, _, h, hpc, hopened, k, hlo, hhi => by
    have hnext : b ≤ pc + 1 := Nat.le_succ_of_le hpc
    cases i with
    | op o => exact scan_same is h hnext hopened k hlo hhi
    | block ty | loop ty | if_ ty =>
      exact scan_same is h hnext (List.forall_mem_cons.2 ⟨.inr hpc, hopened⟩) k hlo hhi
    | else_ =>
      cases opened with
      | nil => cases h
      | cons start outer =>
        have hsame := scan_same is h hnext hopened k hlo hhi
        have hstart := hopened start List.mem_cons_self
        exact ⟨hsame.1, hsame.2.trans (elseOf_setElse_ne (by omega) _)⟩
    | end_ =>
      cases opened with
      | nil =>
        rw [scan] at h
        split at h
        · exact scan_same is h hnext nofun k hlo hhi
        · cases h
      | cons start outer =>
        obtain ⟨hstart, houter⟩ := List.forall_mem_cons.1 hopened
        have hsame := scan_same is h hnext houter k hlo hhi
        exact ⟨hsame.1.trans (endOf_setEnd_ne (by omega) _), hsame.2⟩

variable {body : List Instr}

theorem ofBody_eq_ok (h : ofBody body = .ok j) :
    scan body.length 0 [] ⟨.replicate body.length 0, .replicate body.length none⟩ body = .ok j ∧
      body[body.length - 1]? = some .end_ := by
  obtain ⟨j', hscan, h⟩ := except_bind_eq_ok.1 h
  split at h
  next hlast =>
    cases h
    exact ⟨hscan, by rwa [← List.getLast?_eq_getElem?]⟩
  next => cases h

/-- What has been found in a body up to a position. -/
structure Upto (body : List Instr) (pc : Nat) (found j : Jumps) : Prop extends Before body.length pc j where
  rest : scan body.length pc (enclosing body pc) j (body.drop pc) = .ok found
  other : ∀ start middle, j.elseOf start = some middle →
    body[middle]? = some .else_ ∧ (enclosing body middle).head? = some start

/-- Reading a body opens the constructs around every position of it. -/
theorem exists_upto {found : Jumps} (h : ofBody body = .ok found) (hpc : pc ≤ body.length) :
    ∃ j, Upto body pc found j := by
  induction pc with
  | zero =>
    refine ⟨_, before_empty _, (ofBody_eq_ok h).1, fun start middle he => ?_⟩
    rw [(before_empty body.length).fresh start (Nat.zero_le _)] at he
    cases he
  | succ pc ih =>
    obtain ⟨j, hj, hscan, hother⟩ := ih (Nat.le_of_lt hpc)
    have hat : body[pc]? = some body[pc] := List.getElem?_eq_getElem hpc
    rw [List.drop_eq_getElem_cons hpc] at hscan
    generalize body[pc] = i at hat hscan
    cases i with
    | op o => exact ⟨j, hj.next, by rw [enclosing_op hat]; exact hscan, hother⟩
    | block ty | loop ty | if_ ty =>
      exact ⟨j, hj.next, by rw [enclosing_opens hat trivial]; exact hscan, hother⟩
    | else_ =>
      cases hopen : enclosing body pc with
      | nil =>
        rw [hopen] at hscan
        cases hscan
      | cons start outer =>
        have hstart : start < pc := lt_of_mem_enclosing (hopen ▸ List.mem_cons_self)
        rw [hopen, scan] at hscan
        refine ⟨{ j with elses := j.elses.setIfInBounds start (some pc) },
          ⟨hj.ends, ?_, fun k hk => ?_⟩, by rwa [enclosing_else hat, hopen], ?_⟩
        · rw [Array.size_setIfInBounds, hj.elses]
        · exact (elseOf_setElse_ne (by omega) _).trans (hj.fresh k (by omega))
        · intro k middle he
          by_cases hk : start = k
          · subst hk
            rw [elseOf_setElse_self (by rw [hj.elses]; omega)] at he
            cases he
            exact ⟨hat, by rw [hopen, List.head?_cons]⟩
          · rw [elseOf_setElse_ne hk] at he
            exact hother k middle he
    | end_ =>
      cases hopen : enclosing body pc with
      | nil =>
        rw [hopen, scan] at hscan
        split at hscan
        · exact ⟨j, hj.next, by rw [enclosing_end hat, hopen]; exact hscan, hother⟩
        · cases hscan
      | cons start outer =>
        rw [hopen, scan] at hscan
        refine ⟨{ j with ends := j.ends.setIfInBounds start pc },
          ⟨?_, hj.elses, hj.next.fresh⟩, by rwa [enclosing_end hat, hopen], hother⟩
        rw [Array.size_setIfInBounds, hj.ends]

/-- The last `end` of a body is its last instruction, and all constructs have ended before. -/
theorem enclosing_length (h : ofBody body = .ok j) : enclosing body body.length = [] := by
  obtain ⟨j', -, hscan, -⟩ := exists_upto h (Nat.le_refl _)
  rw [List.drop_length, scan] at hscan
  split at hscan
  next hempty => exact List.isEmpty_iff.1 hempty
  next => cases hscan

theorem elseOf_ofBody (h : ofBody body = .ok j) {middle : Nat} (he : j.elseOf start = some middle) :
    body[middle]? = some .else_ ∧ (enclosing body middle).head? = some start := by
  obtain ⟨j', -, hscan, hother⟩ := exists_upto h (Nat.le_refl _)
  rw [List.drop_length, scan] at hscan
  split at hscan
  · cases hscan
    exact hother start middle he
  · cases hscan

/-- The end that is found for a construct is where it ends. -/
theorem endOf_eq_of_closes (h : ofBody body = .ok j) (hc : Closes body start stop) : j.endOf start = stop := by
  obtain ⟨hend, hhead⟩ := hc
  obtain ⟨hlt, hget⟩ := List.getElem?_eq_some_iff.1 hend
  obtain ⟨outer, hopen⟩ := List.head?_eq_some_iff.1 hhead
  obtain ⟨hstart, houter, -⟩ := enclosing_of_append (w := []) hopen
  obtain ⟨j', hj, hscan, -⟩ := exists_upto h (Nat.le_of_lt hlt)
  rw [List.drop_eq_getElem_cons hlt, hget, hopen, scan] at hscan
  have hsame := scan_same (a := start) (b := stop + 1) _ hscan (Nat.le_refl _)
    (fun k hk => .inl (lt_of_mem_enclosing (houter ▸ hk))) start (Nat.le_refl _) (by omega)
  exact hsame.1.trans (endOf_setEnd_self (by rw [hj.ends]; omega) _)

theorem closes_endOf (h : ofBody body = .ok j) {i : Instr} (hat : body[start]? = some i) (hi : i.Opens) :
    Closes body start (j.endOf start) := by
  obtain ⟨hlt, -⟩ := List.getElem?_eq_some_iff.1 hat
  obtain ⟨n, hn⟩ := Nat.exists_eq_add_of_le (Nat.succ_le_of_lt hlt)
  have hopened : start ∈ enclosing body (start + 1) := enclosing_opens hat hi ▸ List.mem_cons_self
  obtain ⟨stop, hstop⟩ := exists_closes n hopened
    (by rw [← Nat.succ_eq_add_one, ← hn, enclosing_length h]; exact List.not_mem_nil)
  rwa [endOf_eq_of_closes h hstop]

/-- The jump targets of a body are right for all code in it. -/
theorem locatesAll_of_ofBody {front back : List Instr} {cs : List Code}
    (h : ofBody (front ++ (flatList cs ++ back)) = .ok j) : LocatesAll j front.length cs := by
  obtain ⟨j₁, hbefore, hscan₁, -⟩ := exists_upto h (show front.length ≤ _ by simp)
  rw [List.drop_left] at hscan₁
  obtain ⟨j₂, hscan₂, -, hlocates⟩ := scan_flatList cs _ back hbefore (by simp)
  rw [hscan₂] at hscan₁
  refine hlocates.congr fun k hlo hhi => ?_
  exact scan_same back hscan₁ (Nat.le_refl _) (fun start hstart => .inl (lt_of_mem_enclosing hstart)) k hlo hhi

end Jumps

end StackScript
