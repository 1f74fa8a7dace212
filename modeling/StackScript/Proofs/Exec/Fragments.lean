import Mathlib.Logic.Relation
import StackScript.Proofs.Emit.Shown
import StackScript.Proofs.Exec.Lone
import StackScript.Proofs.Exec.Position

/-!
# Structured code at work

A body is flat, but it comes of structured code.  This module says what a piece of structured code does
without regard to where it stands: whatever the labels around, it goes on behind itself, or fails.
-/

namespace StackScript

open Code (flatList)

/-! ## Code at a position -/

/-- The number of instructions of code. -/
def Code.size (cs : List Code) : Nat :=
  (flatList cs).length

namespace Code

@[simp] theorem size_append (cs ds : List Code) : size (cs ++ ds) = size cs + size ds := by
  rw [size, flatList_append, List.length_append, size, size]

@[simp] theorem size_cond (ty : Option ValType) (body : List Code) : size [.cond ty body] = size body + 2 := by
  simp [size, flatList, flat]

end Code

namespace LoadedFunction

open Code (size)

/-- Code stands at a position of a body, and the jump targets are right for it. -/
structure HasAt (fn : LoadedFunction) (pc : Nat) (cs : List Code) : Prop where
  code : flatList cs <+: fn.body.toList.drop pc
  located : fn.jumps.LocatesAll pc cs

variable {fn : LoadedFunction} {pc : Nat} {cs ds : List Code}

theorem getElem?_of_prefix {i : Instr} (is : List Instr) {js : List Instr}
    (h : is ++ i :: js <+: fn.body.toList.drop pc) : fn.body[pc + is.length]? = some i := by
  obtain ⟨tail, htail⟩ := h
  rw [← Array.getElem?_toList, ← List.getElem?_drop, ← htail]
  simp

theorem prefix_of_append (is : List Instr) {js : List Instr} (h : is ++ js <+: fn.body.toList.drop pc) :
    js <+: fn.body.toList.drop (pc + is.length) := by
  obtain ⟨tail, htail⟩ := h
  exact ⟨tail, by rw [← List.drop_drop, ← htail, List.append_assoc, List.drop_left]⟩

theorem locatesAll_append {j : Jumps} : ∀ {cs : List Code} {pc : Nat}, j.LocatesAll pc (cs ++ ds) →
    j.LocatesAll pc cs ∧ j.LocatesAll (pc + size cs) ds
  | [], _, h => ⟨trivial, h⟩
  | c :: cs, pc, h => by
    have htail : j.LocatesAll (pc + c.flat.length) (cs ++ ds) := h.2
    obtain ⟨hfirst, hrest⟩ := locatesAll_append htail
    refine ⟨⟨h.1, hfirst⟩, ?_⟩
    rwa [Nat.add_assoc, show c.flat.length + size cs = size (c :: cs) by
      simp [size, flatList]] at hrest

namespace HasAt

theorem append (h : fn.HasAt pc (cs ++ ds)) : fn.HasAt pc cs ∧ fn.HasAt (pc + size cs) ds := by
  obtain ⟨hcode, hlocated⟩ := h
  rw [Code.flatList_append] at hcode
  obtain ⟨hfirst, hrest⟩ := locatesAll_append hlocated
  exact ⟨⟨(List.prefix_append _ _).trans hcode, hfirst⟩, ⟨prefix_of_append _ hcode, hrest⟩⟩

theorem op {o : Op} (h : fn.HasAt pc [.op o]) : fn.body[pc]? = some (.op o) :=
  getElem?_of_prefix [] h.code

/-- What a condition without another branch consists of. -/
structure Encloses (fn : LoadedFunction) (pc : Nat) (ty : Option ValType) (body : List Code) : Prop where
  opening : fn.body[pc]? = some (.if_ ty)
  inner : fn.HasAt (pc + 1) body
  closing : fn.body[pc + 1 + size body]? = some .end_
  endOf : fn.jumps.endOf pc = pc + 1 + size body
  elseOf : fn.jumps.elseOf pc = none

theorem cond {ty : Option ValType} {body : List Code} (h : fn.HasAt pc [.cond ty body]) : Encloses fn pc ty body := by
  obtain ⟨hcode, ⟨helse, hend, hbody⟩, -⟩ := h
  rw [Code.flatList_singleton, Code.flat] at hcode
  have hinner : flatList body ++ [.end_] <+: fn.body.toList.drop (pc + 1) := prefix_of_append [.if_ ty] hcode
  have hopen := getElem?_of_prefix [] hcode
  have hclose := getElem?_of_prefix _ hinner
  exact ⟨hopen, ⟨(List.prefix_append _ _).trans hinner, hbody⟩, hclose, hend, helse⟩

/-- Code in a body stands at a position of the loaded function. -/
theorem of_infix {f : Function} {fn : LoadedFunction} (hload : Image.load f = .ok fn) {cs : List Code}
    (h : flatList cs <:+: f.body) : ∃ pc, fn.HasAt pc cs := by
  obtain ⟨front, back, hbody⟩ := h
  rw [List.append_assoc] at hbody
  unfold Image.load at hload
  split at hload
  · cases hload
  next jumps hjumps =>
    cases hload
    rw [← hbody] at hjumps
    exact ⟨front.length, ⟨back, by simp [← hbody]⟩, Jumps.locatesAll_of_ofBody hjumps⟩

end HasAt

end LoadedFunction

namespace Run

variable {img : Image}

variable {α : Type} {pc : Nat} {ls : List Label} {i : Instr}

variable {r : Except Fault α} {a : α} {x y : Data} {o : Op}

theorem ofExcept_of_ok (h : r = .ok a) (m : Machine) : ofExcept r m = .ok a m := by
  rw [h]
  rfl

theorem ofExcept_of_error {e : Fault} (h : r = .error e) (m : Machine) : ofExcept r m = .error e m := by
  rw [h]
  rfl

/-- What can fail, and does not, is followed by the rest. -/
theorem ofExcept_bind {β : Type} (h : r = .ok a) (f : α → Run β) (m : Machine) : (ofExcept r >>= f) m = f a m :=
  bind_of_ok f (ofExcept_of_ok h m)

/-! ## Instructions one after the other -/

/-- The next instruction of a task that waits for nothing; it starts no other task. -/
structure Next (img : Image) (x y : Task × Machine) : Prop where
  free : x.1.awaiting = none
  lone : ¬x.1.Spawns img
  step : step img x.1 x.2 = .ok (.next y.1) y.2

/-- Instructions of a task, one after the other. -/
abbrev Steps (img : Image) : Task × Machine → Task × Machine → Prop :=
  Relation.ReflTransGen (Next img)

/-- After some instructions, the next one is the last of a task, or it fails. -/
def Stops (img : Image) (x : Task × Machine) (r : EStateM.Result Fault Machine Progress) : Prop :=
  ∃ y, Steps img x y ∧ y.1.awaiting = none ∧ ¬y.1.Spawns img ∧ step img y.1 y.2 = r

theorem Stops.of_steps {x y : Task × Machine} {r : EStateM.Result Fault Machine Progress}
    (h : Steps img x y) (h' : Stops img y r) : Stops img x r := by
  obtain ⟨z, hz, hlast⟩ := h'
  exact ⟨z, h.trans hz, hlast⟩

/-! ## What code works on -/

/-- What code works on: the locals of its frame, the operands and the machine. -/
structure Data where
  locals : Array Value
  stack : Stack
  machine : Machine

/-- A function of an image, with a number of calls around. -/
structure Level (img : Image) where
  place : Nat
  fn : LoadedFunction
  found : img.functions[place]? = some fn
  depth : Nat

/-- A call in progress, without what its code changes. -/
structure Level.Call (g : Level img) where
  id : Nat
  base : Nat
  outer : List Frame
  deep : outer.length = g.depth

variable {g : Level img}

/-- The frame of a call at a position. -/
def Level.Call.frame (a : g.Call) (pc : Nat) (ls : List Label) (locals : Array Value) : Frame :=
  ⟨g.place, pc, locals, a.base, ls⟩

/-- The task of a call at a position. -/
def Level.Call.task (a : g.Call) (pc : Nat) (ls : List Label) (x : Data) : Task :=
  ⟨a.id, a.frame pc ls x.locals :: a.outer, x.stack, none⟩

/-- The task and the machine of a call at a position. -/
def Level.Call.at_ (a : g.Call) (pc : Nat) (ls : List Label) (x : Data) : Task × Machine :=
  (a.task pc ls x, x.machine)

theorem step_task (a : g.Call) (h : g.fn.body[pc]? = some i) : step img (a.task pc ls x) =
      exec img g.fn a.id (a.frame (pc + 1) ls x.locals) a.outer x.stack pc i :=
  step_eq (f := a.frame pc ls x.locals) g.found h a.id a.outer x.stack none

/-- Only calls start tasks. -/
theorem not_spawns_task (a : g.Call)
    (h : g.fn.body[pc]? = some i) (hcall : ∀ index, i ≠ .op (.call index)) : ¬(a.task pc ls x).Spawns img := by
  have hnone : (a.task pc ls x).hostCall? img = none := by
    simp only [Task.hostCall?, Level.Call.task, Level.Call.frame, List.head?_cons, Option.bind_eq_bind,
      Option.bind_some, g.found, h]
  simp [Task.Spawns, hnone]

theorem next_of_exec (a : g.Call) {pc' : Nat} {ls' : List Label}
    (h : g.fn.body[pc]? = some i) (hcall : ∀ index, i ≠ .op (.call index))
    (hexec : exec img g.fn a.id (a.frame (pc + 1) ls x.locals) a.outer x.stack pc i x.machine =
      .ok (.next (a.task pc' ls' y)) y.machine) : Next img (a.at_ pc ls x) (a.at_ pc' ls' y) :=
  ⟨rfl, not_spawns_task a h hcall, (congrFun (step_task a h) _).trans hexec⟩

theorem stops_of_exec (a : g.Call)
    {r : EStateM.Result Fault Machine Progress} (h : g.fn.body[pc]? = some i) (hcall : ∀ index, i ≠ .op (.call index))
    (hexec : exec img g.fn a.id (a.frame (pc + 1) ls x.locals) a.outer x.stack pc i x.machine = r) :
    Stops img (a.at_ pc ls x) r :=
  ⟨_, .refl, rfl, not_spawns_task a h hcall, (congrFun (step_task a h) _).trans hexec⟩

/-! ## How code ends -/

/-- The ways in which code ends. -/
inductive Exit where
  /-- Behind itself. -/
  | next (x : Data)
  | fault (e : Fault) (m : Machine)

/-- From a task and a machine, a piece of code ends in a way; `stop` is the position behind it. -/
def Exit.Reached (a : g.Call) (ls : List Label) (stop : Nat) (start : Task × Machine) : Exit → Prop
  | .next y => Steps img start (a.at_ stop ls y)
  | .fault e m => Stops img start (.error e m)

/-- Code does not go on behind itself. -/
def Exit.Abrupt : Exit → Prop
  | .next _ => False
  | _ => True

namespace Exit

variable {a : g.Call} {ls : List Label} {stop : Nat} {start : Task × Machine} {e : Exit}

theorem Reached.of_steps {start' : Task × Machine} (h : Steps img start start')
    (h' : e.Reached a ls stop start') : e.Reached a ls stop start := by
  cases e with
  | next y => exact h.trans h'
  | fault e m => exact Stops.of_steps h h'

/-- Where code stands does not matter if it does not go on behind itself. -/
theorem Reached.elsewhere (h : e.Reached a ls stop start) (he : e.Abrupt) (stop' : Nat) :
    e.Reached a ls stop' start := by
  cases e with
  | next y => exact he.elim
  | fault e m => exact h

end Exit

/-- What code of a function does, wherever it stands and whoever called the function. -/
def Does (g : Level img) (cs : List Code) (x : Data) (e : Exit) : Prop :=
  ∀ (a : g.Call) (pc : Nat) (ls : List Label), g.fn.HasAt pc cs → e.Reached a ls (pc + Code.size cs) (a.at_ pc ls x)

namespace Does

variable {cs ds : List Code} {x y : Data} {e : Exit}

theorem nil (x : Data) : Does g [] x (.next x) :=
  fun _ _ _ _ => .refl

theorem append (h : Does g cs x (.next y)) (h' : Does g ds y e) : Does g (cs ++ ds) x e := by
  intro a pc ls hat
  obtain ⟨hfirst, hrest⟩ := hat.append
  have hsteps : Steps img (a.at_ pc ls x) (a.at_ (pc + Code.size cs) ls y) := h a pc ls hfirst
  have hend := h' a _ ls hrest
  rw [Code.size_append, ← Nat.add_assoc]
  exact hend.of_steps hsteps

theorem early (h : Does g cs x e) (he : e.Abrupt) : Does g (cs ++ ds) x e :=
  fun a pc ls hat => (h a pc ls hat.append.1).elsewhere he _

end Does

/-! ## Instructions without structure -/

/-- What an instruction makes of the data, if it is one that only goes on and does not fail. -/
def Data.op? (name : String) (x : Data) : Op → Option Data
  | .drop =>
    match x.stack with
    | [] => none
    | _ :: s => some { x with stack := s }
  | .localGet i => (x.locals[i.toNat]?).map fun v => { x with stack := v :: x.stack }
  | .localSet i =>
    match x.stack with
    | [] => none
    | v :: s =>
      if i.toNat < x.locals.size then
        some { x with locals := x.locals.setIfInBounds i.toNat v, stack := s }
      else none
  | .i32Const v => some { x with stack := .i32 v :: x.stack }
  | .i64Const v => some { x with stack := .i64 v :: x.stack }
  | .f64Const v => some { x with stack := .f64 v :: x.stack }
  | .load kind offset =>
    match x.stack with
    | .i32 addr :: s =>
      match Memory.load kind addr offset.toNat x.machine.memory with
      | .ok v _ => some { x with stack := v :: s }
      | .error _ _ => none
    | _ => none
  | .num op =>
    match op.eval name x.stack with
    | .ok s => some { x with stack := s }
    | .error _ => none
  | _ => none

/-- What instructions make of the data. -/
def Data.ops? (name : String) (x : Data) : List Op → Option Data
  | [] => some x
  | o :: os => (x.op? name o).bind fun y => y.ops? name os

theorem onMemory_load {kind : MemKind} {addr : BitVec 32} {offset : Nat} {m : Machine} {v : Value}
    {memory : Memory} (h : Memory.load kind addr offset m.memory = .ok v memory) :
    onMemory (Memory.load kind addr offset) m = .ok v m := by
  obtain rfl : memory = m.memory := by
    rw [Memory.load_eq] at h
    split at h
    · cases h
      rfl
    · cases h
  exact onMemory_of_ok h

/-- Instructions that only go on do what they make of the data. -/
theorem exec_of_op? (h : x.op? g.fn.name o = some y) (a : g.Call) (pc : Nat) (ls : List Label) :
    execOp img g.fn a.id (a.frame pc ls x.locals) a.outer x.stack o x.machine =
      .ok (.next (a.task pc ls y)) y.machine := by
  obtain ⟨locals, s, m⟩ := x
  cases o with
  | drop =>
    cases s with
    | nil => cases h
    | cons v s =>
      cases h
      rfl
  | localGet i =>
    obtain ⟨v, hv, rfl⟩ := Option.map_eq_some_iff.1 h
    simp only [execOp, Frame.getLocal, Level.Call.frame]
    rw [hv]
    rfl
  | localSet i =>
    cases s with
    | nil => cases h
    | cons v s =>
      simp only [Data.op?] at h
      split at h
      next hbound =>
        cases h
        have hset : Frame.setLocal (a.frame pc ls locals) i.toNat v =
            .ok (a.frame pc ls (locals.setIfInBounds i.toNat v)) := if_pos hbound
        simp only [execOp, Stack.pop]
        exact (ofExcept_bind (a := (v, s)) rfl _ _).trans (ofExcept_bind hset _ _)
      · cases h
  | i32Const | i64Const | f64Const => cases h; rfl
  | load kind offset =>
    rcases s with _ | ⟨addr | _ | _, s⟩
    · cases h
    · simp only [Data.op?] at h
      split at h
      next v memory hload =>
        cases h
        exact (ofExcept_bind (a := (addr, s)) rfl _ _).trans (bind_of_ok _ (onMemory_load hload))
      · cases h
    · cases h
    · cases h
  | num op =>
    simp only [Data.op?] at h
    split at h
    next s' hs =>
      cases h
      exact ofExcept_bind hs _ _
    · cases h
  | _ => cases h

theorem next_of_op? (a : g.Call) (hop : g.fn.body[pc]? = some (.op o))
    (h : x.op? g.fn.name o = some y) (ls : List Label) : Next img (a.at_ pc ls x) (a.at_ (pc + 1) ls y) := by
  refine next_of_exec a hop ?_ (exec_of_op? h a (pc + 1) ls)
  rintro index heq
  cases heq
  cases h

namespace Does

variable {x y : Data} {o : Op} {os : List Op}

theorem op (h : x.op? g.fn.name o = some y) : Does g [.op o] x (.next y) :=
  fun a _ ls hat => .single (next_of_op? a hat.op h ls)

theorem ops (h : x.ops? g.fn.name os = some y) : Does g (Code.ops os) x (.next y) := by
  induction os generalizing x with
  | nil =>
    obtain rfl : x = y := Option.some.inj h
    exact nil _
  | cons o os ih =>
    obtain ⟨z, hz, hrest⟩ := Option.bind_eq_some_iff.1 h
    exact (op hz).append (ih hrest)

variable {ty : Option ValType} {body : List Code} {s : Stack}

/-- A condition that holds, and whose body does not go on. -/
theorem cond_true {c : BitVec 32} {e : Exit} (hc : c ≠ 0)
    (hstack : x.stack = .i32 c :: s) (h : Does g body { x with stack := s } e) (he : e.Abrupt) :
    Does g [.cond ty body] x e := by
  intro a pc ls hat
  obtain ⟨hopen, hinner, -, hendOf, -⟩ := hat.cond
  let l : Label := ⟨.cond, pc + 1 + Code.size body, s.length, arityOf ty⟩
  have henter : Next img (a.at_ pc ls x) (a.at_ (pc + 1) (l :: ls) { x with stack := s }) := by
    refine next_of_exec a hopen (by simp) ?_
    rw [exec, hstack, hendOf]
    refine (ofExcept_bind (a := (c, s)) rfl _ _).trans ?_
    simp only [if_neg hc]
    rfl
  have hbody := (h a (pc + 1) (l :: ls) hinner).of_steps (.single henter)
  cases e with
  | next y => exact he.elim
  | fault e m => exact hbody

/-- A condition that does not hold. -/
theorem cond_false (hstack : x.stack = .i32 0 :: s) : Does g [.cond ty body] x (.next { x with stack := s }) := by
  intro a pc ls hat
  obtain ⟨hopen, -, hclose, hendOf, helse⟩ := hat.cond
  rw [Code.size_cond, show pc + (Code.size body + 2) = pc + 1 + Code.size body + 1 by omega]
  let l : Label := ⟨.cond, pc + 1 + Code.size body, s.length, arityOf ty⟩
  have henter : Next img (a.at_ pc ls x) (a.at_ (pc + 1 + Code.size body) (l :: ls) { x with stack := s }) := by
    refine next_of_exec a hopen (by simp) ?_
    rw [exec, hstack, hendOf, helse]
    rfl
  exact .tail (.single henter) (next_of_exec a hclose (by simp) rfl)

theorem unreachable : Does g [.op .unreachable] x (.fault (.trap g.fn.name .unreachable) x.machine) :=
  fun a _ _ hat => stops_of_exec a hat.op (by simp) rfl

/-- An operator that fails. -/
theorem num_fault {op : NumOp} {e : Fault} (h : op.eval g.fn.name x.stack = .error e) :
    Does g [.op (.num op)] x (.fault e x.machine) := by
  intro a pc ls hat
  exact stops_of_exec a hat.op (by simp) (bind_of_error _ (ofExcept_of_error h _))

end Does

end Run

end StackScript
