import StackScript.Proofs.Exec.Calls
import StackScript.Proofs.Indexing
import StackScript.Proofs.Loops

/-!
# Rounds of loops over elements

A loop over elements keeps the array, its length and the number of the round in locals of its own.  Its body may
change the array, its variable and all of memory, call functions and wait; it cannot change these locals, and leaves
its block only at the end, by the next round or out of the loop.  So whatever the body does, the number of rounds is
bounded by the length that was read at the start.

A task is followed instruction by instruction, each on the machine that it then finds: other tasks may run in
between.

## Design Notes

The machine is not part of a trail: a task finds it as others have left it.  The elements need only be in memory when
they are read.
-/

namespace StackScript

open Typed
open Code (size flatList)
open Run (Data Level)

/-! ## The code of a loop -/

/-- A loop over elements: the first of its four locals, the type of the elements and the code of its body.  The
locals are those of the array, of its length, of the number of the round and of the element. -/
structure Loop where
  first : Nat
  elem : Ty
  body : List Code

namespace Loop

/-- Whether there is no next element. -/
def test (l : Loop) : List Op := [.get (l.first + 2), .get (l.first + 1), .notBelow]

/-- The address of the next element. -/
def seek (l : Loop) : List Op := [Op.get l.first, .get (l.first + 2)] ++ Op.offsetWords

def fetch (l : Loop) : Op := .read l.elem.slotKind Layout.arrayHeader

def count (l : Loop) : List Op := [.get (l.first + 2), .const 1, .add, .set (l.first + 2)]

/-- One round. -/
def round (l : Loop) : List Code :=
  Code.ops l.test ++ ([Code.op (.brIf 1)] ++ (Code.ops l.seek ++ ([Code.op l.fetch] ++ ([Code.op (.set (l.first + 3))] ++
    ([Code.block none l.body] ++ (Code.ops l.count ++ [Code.op (.br 0)]))))))

/-- All rounds. -/
def code (l : Loop) : List Code := [.block none [.loop l.round]]

/-- What comes before the rounds, when the array is on the stack. -/
def prepare (l : Loop) : List Op :=
  [.set l.first, .get l.first, .head, .set (l.first + 1), .const 0, .set (l.first + 2)]

theorem forCode_eq (l : Loop) (ac : List Code) :
    Emit.forCode ac l.body l.elem l.first (l.first + 1) (l.first + 2) (l.first + 3) =
      ac ++ Code.ops l.prepare ++ l.code := by
  simp [Emit.forCode, code, round, test, seek, fetch, count, prepare, Code.ops]

/-- The loop stands in a function; its body leaves the first three locals alone, and leaves itself only to the next
round or out of the loop. -/
structure In (l : Loop) (fn : LoadedFunction) (start : Nat) : Prop where
  code : fn.HasAt start l.code
  spares : ∀ k, l.first ≤ k → k < l.first + 3 → Code.Spares k l.body
  escapes : ∀ n ∈ Code.escapes l.body, n = 0 ∨ n = 2
  small : l.first + 3 < Layout.addressLimit

/-- Where the parts of a round stand. -/
structure Placed (l : Loop) (fn : LoadedFunction) (start : Nat) : Prop where
  test : fn.HasAt (start + 2) (Code.ops l.test)
  leave : fn.body[start + 5]? = some (.op (.brIf 1))
  seek : fn.HasAt (start + 6) (Code.ops l.seek)
  fetch : fn.body[start + 11]? = some (.op l.fetch)
  bind : fn.body[start + 12]? = some (.op (.set (l.first + 3)))
  enter : fn.HasAt (start + 13) [.block none l.body]
  count : fn.HasAt (fn.jumps.endOf (start + 13) + 1) (Code.ops l.count)
  again : fn.body[fn.jumps.endOf (start + 13) + 5]? = some (.op (.br 0))

theorem placed {l : Loop} {fn : LoadedFunction} {start : Nat} (h : fn.HasAt start l.code) : l.Placed fn start := by
  obtain ⟨htest, hrest⟩ := h.block.2.loop.append
  obtain ⟨hleave, hrest⟩ := hrest.append
  obtain ⟨hseek, hrest⟩ := hrest.append
  obtain ⟨hfetch, hrest⟩ := hrest.append
  obtain ⟨hbind, hrest⟩ := hrest.append
  obtain ⟨henter, hrest⟩ := hrest.append
  have hend := henter.block.1
  obtain ⟨hcount, hagain⟩ := hrest.append
  rw [← hend] at hcount hagain
  exact ⟨htest, hleave.op, hseek, hfetch.op, hbind.op, henter, hcount, hagain.op⟩

end Loop

/-! ## A loop at work -/

/-- An instruction that reads memory. -/
def Op.loads : Op → Bool
  | .load _ _ => true
  | _ => false

/-- Other instructions do the same on all machines. -/
theorem op?_machine {name : String} {locals : Array Value} {s : Stack} {m : Machine} {o : Op} {y : Data}
    (dry : o.loads = false) (h : Data.op? name ⟨locals, s, m⟩ o = some y) (m' : Machine) :
    y.machine = m ∧ Data.op? name ⟨locals, s, m'⟩ o = some { y with machine := m' } := by
  cases o with
  | drop | localSet | num =>
    simp only [Data.op?] at h ⊢
    repeat' split at h
    all_goals simp_all
    try (subst h; simp)
  | localGet i =>
    obtain ⟨v, hv, rfl⟩ := Option.map_eq_some_iff.1 h
    simp [Data.op?, hv]
  | i32Const | i64Const | f64Const =>
    obtain rfl := Option.some.inj h
    simp [Data.op?]
  | load => cases dry
  | _ => cases h

/-- A loop that a call has started on an array, with the length that it had. -/
structure Trip (img : Image) where
  level : Level img
  call : level.Call
  loop : Loop
  start : Nat
  found : loop.In level.fn start
  /-- The labels around the loop. -/
  labels : List Label
  /-- The number of operands at its start. -/
  height : Nat
  array : BitVec 32
  length : BitVec 32

namespace Trip

variable {img : Image} (x : Trip img)

/-- The labels in the loop, outside of its body. -/
def inner : List Label := x.level.fn.loopLabels x.start x.height ++ x.labels

/-- The labels in the body, if it was entered with a number of operands. -/
def bodyLabels (n : Nat) : List Label := ⟨.block, x.level.fn.jumps.endOf (x.start + 13), n, 0⟩ :: x.inner

/-- Where a call goes on behind the body. -/
def next : Nat := x.level.fn.jumps.endOf (x.start + 13) + 1

/-- The address of an element, without the header of the array. -/
def slot (k : Nat) : BitVec 32 := x.array + BitVec.ofNat 32 k * BitVec.ofNat 32 Layout.word

/-- An element of the array in a memory. -/
def Element (m : Machine) (k : Nat) (v : Value) : Prop :=
  Memory.load x.loop.elem.slotKind (x.slot k) Layout.arrayHeader m.memory = .ok v m.memory

/-- The elements of the array are in memory. -/
def InMemory (m : Machine) : Prop := ∀ k < x.length.toNat, ∃ v, x.Element m k v

/-- The locals of the loop before a round. -/
structure Holds (k : Nat) (locals : Array Value) : Prop where
  array : locals[x.loop.first]? = some (.i32 x.array)
  length : locals[x.loop.first + 1]? = some (.i32 x.length)
  number : locals[x.loop.first + 2]? = some (.i32 (BitVec.ofNat 32 k))
  item : x.loop.first + 3 < locals.size

/-- Code in the body, inside of a number of labels. -/
structure Tame (d : Nat) (code : List Code) : Prop where
  spares : ∀ k, x.loop.first ≤ k → k < x.loop.first + 3 → Code.Spares k code
  escapes : ∀ n ∈ Code.escapes code, n + x.inner.length < d + 2 ∧ n + x.inner.length ≠ d

/-- A call that is in the body, for the last of some elements. -/
def InBody (vs : List Value) (f : Frame) : Prop :=
  ∃ k n rest, vs.length = k + 1 ∧ k < x.length.toNat ∧ f.function = x.level.place ∧ f.base = x.call.base ∧
    x.Holds k f.locals ∧ x.Tame f.labels.length rest ∧
    StandsIn x.Tame x.level.fn.body.toList x.level.fn.jumps (x.bodyLabels n)
      (x.level.fn.body.toList.drop x.next) f.pc rest f.labels

/-- Where a call is in the loop, outside of the body, when it has found some elements: position, locals and operands. -/
inductive Phase : List Value → Nat → Array Value → Stack → Prop
  /-- It has some instructions ahead that do not touch memory. -/
  | line {vs pc locals s os locals' s'} (code : x.level.fn.HasAt pc (Code.ops os)) (dry : os.any Op.loads = false)
      (within : pc + os.length ≤ x.start + 11 ∨ x.start + 13 < pc ∧ pc + os.length ≤ x.next + 4)
      (leads : ∀ m, Data.ops? x.level.fn.name ⟨locals, s, m⟩ os = some ⟨locals', s', m⟩)
      (phase : Phase vs (pc + os.length) locals' s') : Phase vs pc locals s
  | leave {vs locals s} (holds : x.Holds vs.length locals) (le : vs.length ≤ x.length.toNat) :
      Phase vs (x.start + 5) locals (.ofBool (decide (x.length ≤ BitVec.ofNat 32 vs.length)) :: s)
  | fetch {vs locals s} (holds : x.Holds vs.length locals) (lt : vs.length < x.length.toNat) :
      Phase vs (x.start + 11) locals (.i32 (x.slot vs.length) :: s)
  | bind {vs v locals s} (holds : x.Holds vs.length locals) (lt : vs.length < x.length.toNat) :
      Phase (vs ++ [v]) (x.start + 12) locals (v :: s)
  | enter {vs v locals s} (holds : x.Holds vs.length locals) (lt : vs.length < x.length.toNat)
      (item : locals[x.loop.first + 3]? = some v) : Phase (vs ++ [v]) (x.start + 13) locals s
  | again {vs locals s} (holds : x.Holds vs.length locals) (le : vs.length ≤ x.length.toNat) :
      Phase vs (x.next + 4) locals s

/-- Where a task is in the loop when it has found some elements. -/
inductive Stage (vs : List Value) : Task → Prop
  | own {pc locals s} (m : Machine) (phase : x.Phase vs pc locals s) :
      Stage vs (x.call.task pc x.inner ⟨locals, s, m⟩)
  | body {t f} (id : t.id = x.call.id) (frames : (f :: x.call.outer) <:+ t.frames) (inBody : x.InBody vs f) :
      Stage vs t

/-- A task is in the loop. -/
def Inside (t : Task) : Prop :=
  ∃ f, (f :: x.call.outer) <:+ t.frames ∧ x.inner <:+ f.labels

/-- A task is in the loop, outside of the body, with a call at a position. -/
def At (pc : Nat) (t : Task) : Prop :=
  ∃ f, t.frames = f :: x.call.outer ∧ f.labels = x.inner ∧ f.pc = pc

/-- The elements that have been found after an instruction. -/
def Finds (m : Machine) (vs : List Value) (t : Task) (vs' : List Value) : Prop :=
  (x.At (x.start + 11) t → ∃ v, x.Element m vs.length v ∧ vs' = vs ++ [v]) ∧ (¬x.At (x.start + 11) t → vs' = vs)

/-- The number of instructions before the body. -/
def ahead (pc : Nat) : Nat :=
  if pc ≤ x.start + 13 then x.start + 13 - pc else x.next + 16 - pc

/-- What an instruction outside of the body leads to. -/
inductive Goes (m : Machine) (vs : List Value) : Nat → Task → Prop
  /-- The task comes closer to the body; there is an element for the round. -/
  | on {pc pc' t} (other : pc ≠ x.start + 11) (more : pc = x.start + 5 → vs.length < x.length.toNat)
      (closer : x.ahead pc' + 1 = x.ahead pc) (next : x.At pc' t) : Goes m vs pc t
  /-- The element of the round is read from memory as it is. -/
  | fetch {v t} (element : x.Element m vs.length v) (found : t.stack.head? = some v) (next : x.At (x.start + 12) t) :
      Goes m vs (x.start + 11) t
  | enter {n data} : Goes m vs (x.start + 13) (x.call.task (x.start + 14) (x.bodyLabels n) data)
  /-- There have been rounds for all elements. -/
  | stop {data} (all : vs.length = x.length.toNat) :
      Goes m vs (x.start + 5) (x.call.task (x.start + size x.loop.code) x.labels data)

/-- The next instruction outside of the body. -/
def Advances (m : Machine) (vs : List Value) (pc : Nat) (locals : Array Value) (s : Stack) : Prop :=
  ∃ t, Run.Next img (x.call.at_ pc x.inner ⟨locals, s, m⟩) (t, m) ∧ x.Goes m vs pc t ∧
    ∀ vs', x.Inside t → x.Finds m vs (x.call.task pc x.inner ⟨locals, s, m⟩) vs' → x.Stage vs' t

variable {x} {vs : List Value} {locals : Array Value} {s : Stack} {k : Nat}

variable {v : Value} {f : Frame} {t : Task} {m : Machine} {pc : Nat}

theorem Holds.set (h : x.Holds k locals) {i : Nat} (hi : i < x.loop.first ∨ x.loop.first + 3 ≤ i) :
    x.Holds k (locals.setIfInBounds i v) := by
  refine ⟨?_, ?_, ?_, by simpa using h.item⟩
  · rw [Array.getElem?_setIfInBounds_ne (by omega), h.array]
  · rw [Array.getElem?_setIfInBounds_ne (by omega), h.length]
  · rw [Array.getElem?_setIfInBounds_ne (by omega), h.number]

section

variable (holds : x.Holds k locals) {name : String} {m : Machine} {v : Value}

theorem toNat_local {i : Nat} (hi : i ≤ x.loop.first + 3) : i.toUInt32.toNat = i :=
  toNat_toUInt32 (Nat.lt_of_le_of_lt hi x.found.small)

include holds

theorem Holds.op?_array : Data.op? name ⟨locals, s, m⟩ (.get x.loop.first) = some ⟨locals, .i32 x.array :: s, m⟩ := by
  simp only [Data.op?, Op.get, toNat_local (x := x) (Nat.le_add_right _ _), holds.array, Option.map_some]

theorem Holds.op?_length :
    Data.op? name ⟨locals, s, m⟩ (.get (x.loop.first + 1)) = some ⟨locals, .i32 x.length :: s, m⟩ := by
  simp only [Data.op?, Op.get, toNat_local (x := x) (Nat.add_le_add_left (show 1 ≤ 3 by decide) _), holds.length,
    Option.map_some]

theorem Holds.op?_number :
    Data.op? name ⟨locals, s, m⟩ (.get (x.loop.first + 2)) = some ⟨locals, .i32 (BitVec.ofNat 32 k) :: s, m⟩ := by
  simp only [Data.op?, Op.get, toNat_local (x := x) (Nat.le_succ _), holds.number, Option.map_some]

theorem Holds.op?_set {i : Nat} (hi : i ≤ x.loop.first + 3) :
    Data.op? name ⟨locals, v :: s, m⟩ (.set i) = some ⟨locals.setIfInBounds i v, s, m⟩ := by
  have hlt : i < locals.size := Nat.lt_of_le_of_lt hi holds.item
  simp only [Data.op?, Op.set, toNat_local hi, hlt, if_true]

end

/-! ### Outside of the body -/

theorem placed (x : Trip img) : x.loop.Placed x.level.fn x.start := Loop.placed x.found.code

/-- The body stands before what comes behind it. -/
theorem lt_next (x : Trip img) : x.start + 14 < x.next := by
  have hend := x.placed.enter.block.1
  have hsize : 2 ≤ size [.block none x.loop.body] := by simp [size, flatList, Code.flat]
  unfold next
  omega

theorem length_inner (x : Trip img) : x.inner.length = x.labels.length + 2 := by
  simp [inner, LoadedFunction.loopLabels, LoadedFunction.blockLabels]

/-- A call that has left the loop is not in it. -/
theorem not_inside {id : Nat} {awaiting : Option PromiseHandle} (h : f.labels = x.labels) :
    ¬x.Inside ⟨id, f :: x.call.outer, s, awaiting⟩ := by
  rintro ⟨g, hframes, hlabels⟩
  obtain ⟨rfl, -⟩ := List.cons.inj (hframes.eq_of_length rfl)
  have hle := hlabels.length_le
  rw [h, length_inner] at hle
  omega

/-- The start of a round. -/
theorem phase_test (holds : x.Holds vs.length locals) (le : vs.length ≤ x.length.toNat) :
    x.Phase vs (x.start + 2) locals s := by
  refine .line x.placed.test rfl (.inl (Nat.add_le_add_left (show 5 ≤ 11 by decide) _)) (fun m => ?_) (.leave (s := s) holds le)
  rw [Loop.test, Data.ops?, holds.op?_number, Option.bind_some, Data.ops?, holds.op?_length, Option.bind_some]
  rfl

/-- There is an element for the round. -/
theorem phase_seek (holds : x.Holds vs.length locals) (lt : vs.length < x.length.toNat) :
    x.Phase vs (x.start + 6) locals s := by
  refine .line x.placed.seek rfl (.inl (Nat.le_refl _)) (fun m => ?_) (.fetch (s := s) holds lt)
  rw [Loop.seek, List.cons_append, Data.ops?, holds.op?_array, Option.bind_some, List.cons_append, Data.ops?,
    holds.op?_number, Option.bind_some]
  rfl

/-- The end of a round. -/
theorem phase_count (holds : x.Holds vs.length locals) (lt : vs.length < x.length.toNat) :
    x.Phase (vs ++ [v]) x.next locals s := by
  have hnext : x.Holds (vs ++ [v]).length
      (locals.setIfInBounds (x.loop.first + 2) (.i32 (BitVec.ofNat 32 (vs ++ [v]).length))) := by
    have hitem := holds.item
    refine ⟨?_, ?_, Array.getElem?_setIfInBounds_self_of_lt (by omega), by simpa using hitem⟩
    · rw [Array.getElem?_setIfInBounds_ne (by omega), holds.array]
    · rw [Array.getElem?_setIfInBounds_ne (by omega), holds.length]
  have hlater := x.lt_next
  refine .line x.placed.count rfl (.inr ⟨by omega, Nat.le_refl _⟩) (fun m => ?_) (.again (s := s) hnext ?_)
  · have hnumber : BitVec.ofNat 32 (vs ++ [v]).length = BitVec.ofNat 32 vs.length + 1#32 := by
      rw [List.length_append, List.length_singleton, BitVec.ofNat_add]
    rw [Loop.count, Data.ops?, holds.op?_number, Option.bind_some, hnumber]
    exact congrArg (Option.bind · _) (holds.op?_set (Nat.le_succ _))
  · rw [List.length_append]
    exact lt

/-- The body starts where its block does. -/
theorem inBody_enter {n : Nat} (holds : x.Holds vs.length locals) (lt : vs.length < x.length.toNat) :
    x.InBody (vs ++ [v]) (x.call.frame (x.start + 14) (x.bodyLabels n) locals) := by
  obtain ⟨⟨tail, hcode⟩, ⟨hend, hlocated⟩, -⟩ := x.placed.enter
  refine ⟨vs.length, n, x.loop.body, by simp, lt, rfl, rfl, holds, ⟨x.found.spares, fun i hi => ?_⟩, .top ?_ hlocated⟩
  · simp only [bodyLabels, Level.Call.frame, List.length_cons]
    have := x.found.escapes i hi
    omega
  · rw [Code.flatList_singleton, Code.flat, List.cons_append, List.append_assoc] at hcode
    have hdrop : x.level.fn.body.toList.drop (x.start + 14) = flatList x.loop.body ++ .end_ :: tail :=
      StandsIn.drop_of_cons hcode.symm
    have htail := StandsIn.drop_of_cons (StandsIn.drop_of_append hdrop)
    exact hdrop.trans (by rw [next, hend, ← htail])

section

variable {m : Machine} {pc pc' : Nat} {y : Data}

theorem at_task : x.At pc' (x.call.task pc x.inner y) ↔ pc = pc' := by
  refine ⟨?_, fun heq => ⟨_, rfl, rfl, heq⟩⟩
  rintro ⟨f, hframes, -, hpc⟩
  cases hframes
  exact hpc

theorem advances_on {locals' : Array Value} {s' : Stack}
    (next : Run.Next img (x.call.at_ pc x.inner ⟨locals, s, m⟩) (x.call.at_ pc' x.inner ⟨locals', s', m⟩))
    (other : pc ≠ x.start + 11) (more : pc = x.start + 5 → vs.length < x.length.toNat)
    (closer : x.ahead pc' + 1 = x.ahead pc) (phase : x.Phase vs pc' locals' s') : x.Advances m vs pc locals s := by
  refine ⟨_, next, .on other more closer (at_task.2 rfl), fun vs' _ hfinds => ?_⟩
  obtain rfl := hfinds.2 (other ∘ at_task.1)
  exact .own m phase

/-- An instruction outside of the body. -/
theorem Phase.advances (h : x.Phase vs pc locals s)
    (ok : pc = x.start + 11 → vs.length < x.length.toNat → ∃ v, x.Element m vs.length v) : x.Advances m vs pc locals s := by
  have hplaced := x.placed
  have hlater := x.lt_next
  induction h with
  | @line vs pc locals s os locals' s' code dry within leads phase ih =>
    cases os with
    | nil =>
      obtain ⟨rfl, rfl⟩ : locals = locals' ∧ s = s' := by simpa [Data.ops?] using leads m
      exact ih ok
    | cons o os =>
      obtain ⟨hfirst, hrest⟩ := (show x.level.fn.HasAt pc ([.op o] ++ Code.ops os) from code).append
      obtain ⟨⟨locals₁, s₁, m₁⟩, hy, -⟩ := Option.bind_eq_some_iff.1 (leads m)
      obtain ⟨hdry, hothers⟩ := Bool.or_eq_false_iff.1 (List.any_cons.symm.trans dry)
      obtain rfl : m₁ = m := (op?_machine hdry hy m).1
      have hleads (m' : Machine) : Data.ops? x.level.fn.name ⟨locals₁, s₁, m'⟩ os = some ⟨locals', s', m'⟩ := by
        have hm := leads m'
        rwa [Data.ops?, (op?_machine hdry hy m').2, Option.bind_some] at hm
      rw [List.length_cons] at within
      rw [List.length_cons, Nat.add_comm os.length, ← Nat.add_assoc] at phase
      refine advances_on (Run.next_of_op? x.call hfirst.op hy _) ?_ ?_ ?_ (.line hrest hothers (by omega) hleads phase)
      · rintro rfl
        omega
      · rintro rfl
        cases hfirst.op.symm.trans hplaced.leave
        cases hy
      · unfold ahead
        split <;> split <;> omega
  | @leave vs locals s holds le =>
    have hnumber : (BitVec.ofNat 32 vs.length).toNat = vs.length := by
      rw [BitVec.toNat_ofNat]
      omega
    by_cases hend : x.length ≤ BitVec.ofNat 32 vs.length
    · have hstop : x.level.fn.jumps.endOf x.start + 1 = x.start + size x.loop.code := x.found.code.block.1
      refine ⟨x.call.task (x.start + size x.loop.code) x.labels ⟨locals, Stack.truncate s x.height, m⟩,
        Run.next_of_exec x.call hplaced.leave (by rintro _ ⟨⟩) ?_, .stop ?_, fun vs' inside => absurd inside (not_inside rfl)⟩
      · rw [decide_eq_true hend, ← hstop]
        rfl
      · rw [BitVec.le_def, hnumber] at hend
        omega
    · have hlt : vs.length < x.length.toNat := by
        rw [BitVec.le_def, hnumber] at hend
        omega
      refine advances_on (Run.next_of_exec x.call hplaced.leave (by rintro _ ⟨⟩) ?_) (by omega) (fun _ => hlt) ?_
        (phase_seek (s := s) holds hlt)
      · rw [decide_eq_false hend]
        rfl
      · unfold ahead
        split <;> split <;> omega
  | @fetch vs locals s holds lt =>
    obtain ⟨v, hv⟩ := ok rfl lt
    have hload : Data.op? x.level.fn.name ⟨locals, .i32 (x.slot vs.length) :: s, m⟩ x.loop.fetch =
        some ⟨locals, v :: s, m⟩ := by
      have hoffset : Layout.arrayHeader.toUInt32.toNat = Layout.arrayHeader := rfl
      simp only [Data.op?, Loop.fetch, Op.read, hoffset]
      rw [hv]
    refine ⟨x.call.task (x.start + 12) x.inner ⟨locals, v :: s, m⟩, Run.next_of_op? x.call hplaced.fetch hload _,
      .fetch hv rfl (at_task.2 rfl), fun vs' _ hfinds => ?_⟩
    obtain ⟨v', hv', rfl⟩ := hfinds.1 (at_task.2 rfl)
    cases hv.symm.trans hv'
    exact .own m (.bind holds lt)
  | @bind vs v locals s holds lt =>
    refine advances_on (Run.next_of_op? x.call hplaced.bind (holds.op?_set (Nat.le_refl _)) _) (by omega) (by omega) ?_
      (.enter (holds.set (.inr (Nat.le_refl _))) lt (Array.getElem?_setIfInBounds_self_of_lt holds.item))
    unfold ahead
    split <;> split <;> omega
  | @enter vs v locals s holds lt item =>
    have hblock : x.level.fn.body[x.start + 13]? = some (.block none) :=
      LoadedFunction.getElem?_of_prefix [] hplaced.enter.code
    refine ⟨x.call.task (x.start + 14) (x.bodyLabels s.length) ⟨locals, s, m⟩,
      Run.next_of_exec x.call hblock (by rintro _ ⟨⟩) rfl, .enter, fun vs' _ hfinds => ?_⟩
    obtain rfl := hfinds.2 (by rw [at_task]; omega)
    exact .body rfl (List.suffix_refl _) (inBody_enter holds lt)
  | @again vs locals s holds le =>
    have hcloser : x.ahead (x.start + 2) + 1 = x.ahead (x.next + 4) := by
      unfold ahead
      split <;> split <;> omega
    exact advances_on (Run.next_of_exec x.call hplaced.again (by rintro _ ⟨⟩) rfl) (by omega) (by omega) hcloser (phase_test holds le)

end

/-! ### The body -/

variable {d : Nat} {c : Code} {xs : List Code}

theorem Tame.tail (h : x.Tame d (c :: xs)) : x.Tame d xs :=
  ⟨fun k hlo hhi o ho => h.spares k hlo hhi o (List.mem_append_right _ ho),
    fun n hn => h.escapes n (List.mem_append_right _ hn)⟩

theorem Tame.inside {body : List Code} (h : x.Tame d (c :: xs)) (hd : x.inner.length < d) (hbody : body ∈ c.bodies) :
    x.Tame (d + 1) body := by
  have hflat : ∀ i ∈ flatList body, i ∈ c.flat := by
    cases c <;> simp_all [Code.bodies, Code.flat]
    rcases hbody with rfl | rfl <;> simp_all
  have hexits (n : Nat) (hn : n + 1 ∈ Code.escapes body) : n ∈ c.exits := by
    have hout {levels : List Nat} (h : n + 1 ∈ levels) : n ∈ Code.outward levels := List.mem_filterMap.2 ⟨_, h, rfl⟩
    cases c with
    | op => cases hbody
    | block | loop | cond =>
      obtain rfl := List.mem_singleton.1 hbody
      exact hout hn
    | condElse =>
      rcases List.mem_pair.1 hbody with rfl | rfl
      · exact hout (List.mem_append_left _ hn)
      · exact hout (List.mem_append_right _ hn)
  refine ⟨fun k hlo hhi o ho => h.spares k hlo hhi o (List.mem_append_left _ (hflat _ ho)), fun n hn => ?_⟩
  cases n with
  | zero => omega
  | succ n =>
    have := h.escapes n (List.mem_append_left _ (hexits n hn))
    omega

theorem opens_tame (x : Trip img) : Code.Opens (fun d code => x.inner.length < d ∧ x.Tame d code) x.Tame where
  nil _ := ⟨fun _ _ _ _ => nofun, nofun⟩
  block h := ⟨h.2.inside h.1 (.head _), h.2.tail⟩
  loop h := ⟨h.2.inside h.1 (.head _), h.2.tail⟩
  cond h := ⟨h.2.inside h.1 (.head _), h.2.tail⟩
  condElse h := ⟨h.2.inside h.1 (.head _), h.2.inside h.1 (.tail _ (.head _)), h.2.tail⟩

/-- After an instruction of the body, a task is in it, or the round is to be counted. -/
def After (x : Trip img) (vs : List Value) (t : Task) : Prop :=
  (∃ f, t.id = x.call.id ∧ (f :: x.call.outer) <:+ t.frames ∧ x.InBody vs f) ∨
    ∃ y, t = x.call.task x.next x.inner y ∧ x.Phase vs x.next y.locals y.stack

theorem After.stage (h : x.After vs t) : x.Stage vs t := by
  obtain ⟨f, hid, hframes, hbody⟩ | ⟨y, rfl, hphase⟩ := h
  · exact .body hid hframes hbody
  · exact .own y.machine hphase

/-- Behind the body, the round is counted. -/
theorem InBody.next (h : x.InBody vs f) (m : Machine) (s : Stack) :
    x.After vs ⟨x.call.id, { f with pc := x.next, labels := x.inner } :: x.call.outer, s, none⟩ := by
  obtain ⟨k, n, rest, hlength, hk, hfunction, hbase, holds, -⟩ := h
  obtain ⟨place, pc, locals, base, labels⟩ := f
  obtain rfl : place = x.level.place := hfunction
  obtain rfl : base = x.call.base := hbase
  obtain rfl | ⟨vs, v, rfl⟩ := List.eq_nil_or_concat vs
  · cases hlength
  · rw [List.concat_eq_append] at hlength ⊢
    obtain rfl : vs.length = k := Nat.succ.inj (List.length_append.symm.trans hlength)
    exact .inr ⟨⟨locals, s, m⟩, rfl, phase_count holds hk⟩

/-- A jump in the body stays in it, or leads to the next round, or out of the loop. -/
theorem InBody.jump {f' : Frame} {rest : List Code} {n depth : Nat} {s s' : Stack} (m : Machine)
    (h : ∀ pc labels rest, x.Tame labels.length rest →
      StandsIn x.Tame x.level.fn.body.toList x.level.fn.jumps (x.bodyLabels n)
        (x.level.fn.body.toList.drop x.next) pc rest labels → x.InBody vs { f with pc, labels })
    (hstands : StandsIn x.Tame x.level.fn.body.toList x.level.fn.jumps (x.bodyLabels n)
        (x.level.fn.body.toList.drop x.next) f.pc rest f.labels) (htame : x.Tame f.labels.length rest)
    (hdepth : depth + x.inner.length < f.labels.length + 2 ∧ depth + x.inner.length ≠ f.labels.length)
    (jump : f.branch s depth = .ok (f', s')) (inside : x.Inside ⟨x.call.id, f' :: x.call.outer, s', none⟩) :
    x.After vs ⟨x.call.id, f' :: x.call.outer, s', none⟩ := by
  obtain ⟨pre, hpre⟩ := hstands.suffix
  have hlength : f.labels.length = pre.length + (x.inner.length + 1) := by
    rw [← hpre, List.length_append]
    rfl
  obtain hlt | rfl | rfl : depth < pre.length ∨ depth = pre.length ∨ depth = pre.length + 2 := by omega
  · obtain herror | ⟨pc', labels', s'', rest', hok, hstands', htame'⟩ := hstands.branch (by
      rw [hlength]
      exact Nat.add_lt_add_right hlt _) s
    · rw [herror] at jump
      cases jump
    · rw [hok] at jump
      cases jump
      exact .inl ⟨_, rfl, List.suffix_refl _, h _ _ _ htame' hstands'⟩
  · have hdrop : f.labels.drop pre.length = x.bodyLabels n := by rw [← hpre, List.drop_left]
    simp only [Frame.branch, hdrop, bodyLabels] at jump
    cases jump
    exact (h _ _ _ htame hstands).next m _
  · have hdrop : f.labels.drop (pre.length + 2) =
        ⟨.block, x.level.fn.jumps.endOf x.start, x.height, 0⟩ :: x.labels := by
      rw [← hpre, ← List.drop_drop, List.drop_left]
      rfl
    simp only [Frame.branch, hdrop] at jump
    cases jump
    exact absurd inside (not_inside rfl)

/-- **An instruction of the body**: the task stays in it, goes on to the next round, or leaves the loop. -/
theorem InBody.step {m' : Machine} {p : Progress} (h : x.InBody vs f)
    (hstep : Run.step img ⟨x.call.id, f :: x.call.outer, s, none⟩ m = .ok p m')
    (hp : p = .next t ∨ p = .blocked t) (inside : x.Inside t) : x.After vs t := by
  have hwhole := h
  obtain ⟨k, n, rest, hlength, hk, hfunction, hbase, holds, htame, hstands⟩ := h
  have hd : x.inner.length < f.labels.length := hstands.suffix.length_le
  have hin {pc : Nat} {labels : List Label} {locals : Array Value} {rest : List Code} (holds : x.Holds k locals)
      (htame : x.Tame labels.length rest) (hstands : StandsIn x.Tame x.level.fn.body.toList x.level.fn.jumps
        (x.bodyLabels n) (x.level.fn.body.toList.drop x.next) pc rest labels) :
      x.InBody vs { f with pc, labels, locals } :=
    ⟨k, n, rest, hlength, hk, hfunction, hbase, holds, htame, hstands⟩
  obtain ⟨o, xs, rfl, -, hleads, hnext⟩ | ⟨rfl, hlabels, hdrop, hend⟩ |
      ⟨-, pc', labels', s', rest', rfl, -, hstands', htame'⟩ :=
    Run.step_leads x.opens_tame (hfunction ▸ x.level.found) (by simp) hstands ⟨hd, htame⟩
      ((Run.step_obeys _ _ _).of_ok hstep).1
  · have hstay : x.InBody vs { f with pc := f.pc + 1 } := hin holds htame.tail hnext
    have hjump {depth : Nat} {f' : Frame} {s s' : Stack} (hlevel : o.level? = some depth)
        (jump : Frame.branch { f with pc := f.pc + 1 } s depth = .ok (f', s'))
        (hp : Run.proceed x.call.id x.call.outer f' s' = .next t ∨
          Run.proceed x.call.id x.call.outer f' s' = .blocked t) : x.After vs t := by
      obtain rfl : t = ⟨x.call.id, f' :: x.call.outer, s', none⟩ := by
        rcases hp with hp | hp <;> cases hp
        rfl
      refine InBody.jump (f := { f with pc := f.pc + 1 }) m (fun _ _ _ => hin holds) hnext htame.tail ?_ jump inside
      exact htame.escapes depth (List.mem_append_left _ (by simp [Code.exits, hlevel]))
    cases hleads with
    | br jump | brIf top nonzero jump => exact hjump rfl jump hp
    | return_ left =>
      obtain ⟨_, _, _, _, hframes, -, -, ⟨-, rfl⟩ | ⟨-, rfl⟩⟩ := Run.leave_eq_ok left
      · rcases hp with hp | hp <;> cases hp
      · cases hframes
        rcases hp with hp | hp <;> cases hp
        obtain ⟨g, hg, -⟩ := inside
        exact absurd hg.length_le (Nat.not_succ_le_self _)
    | call _ entered | callIndirect _ _ _ _ entered =>
      obtain ⟨_, _, _, _, -, -, -, rfl⟩ := Run.enter_eq_ok entered
      rcases hp with hp | hp <;> cases hp
      exact .inl ⟨_, rfl, List.suffix_cons _ _, hstay⟩
    | import_ _ _ returned =>
      obtain rfl := Run.returnValue_eq_ok returned
      rcases hp with hp | hp <;> cases hp
      exact .inl ⟨_, rfl, List.suffix_refl _, hstay⟩
    | @localSet i v s' | @localTee i v s' =>
      rcases hp with hp | hp <;> cases hp
      refine .inl ⟨_, rfl, List.suffix_refl _, hin (holds.set ?_) htame.tail hnext⟩
      have hspares (hlo : x.loop.first ≤ i.toNat) (hhi : i.toNat < x.loop.first + 3) : False :=
        htame.spares _ hlo hhi _ (.head _) rfl
      by_contra hnot
      exact hspares (by omega) (by omega)
    | _ =>
      rcases hp with hp | hp <;> cases hp
      exact .inl ⟨_, rfl, List.suffix_refl _, hstay⟩
  · have hsize : x.next + 4 < x.level.fn.body.size := (Array.getElem?_eq_some_iff.1 x.placed.again).1
    have hpc : f.pc + 1 = x.next := by
      have hrest := congrArg List.length hdrop
      simp only [List.length_drop, Array.length_toList] at hrest
      omega
    cases hend with
    | end_ labels =>
      cases hlabels.symm.trans labels
      rcases hp with hp | hp <;> cases hp
      rw [hpc]
      exact hwhole.next m s
    | leave labels => cases hlabels.symm.trans labels
  · rcases hp with hp | hp <;> cases hp
    exact .inl ⟨_, rfl, List.suffix_refl _, hin holds htame' hstands'⟩

/-! ### Trails -/

/-- How far a task has come since the first round: the elements that it has found, each in the memory of that
time.  It has been in the loop ever since. -/
inductive Trail (x : Trip img) : List Value → Task → Prop
  | start {locals : Array Value} {s : Stack} (m : Machine) (holds : x.Holds 0 locals) :
      Trail x [] (x.call.task (x.start + 2) x.inner ⟨locals, s, m⟩)
  | pass {vs vs' : List Value} {t t' m} (trail : Trail x vs t) (passes : t.Passes img m t') (inside : x.Inside t')
      (finds : x.Finds m vs t vs') : Trail x vs' t'

theorem InBody.not_at (h : x.InBody vs f) (hframes : (f :: x.call.outer) <:+ t.frames) : ¬x.At pc t := by
  rintro ⟨g, hg, hlabels, -⟩
  rw [hg] at hframes
  obtain ⟨rfl, -⟩ := List.cons.inj (hframes.eq_of_length rfl)
  obtain ⟨k, n, rest, -, -, -, -, -, -, hstands⟩ := h
  have hle := hstands.suffix.length_le
  rw [hlabels] at hle
  exact absurd hle (Nat.not_succ_le_self _)

/-- Where the next instruction is known, it is what a task goes through. -/
theorem eq_of_passes {t' t'' : Task} {m' : Machine} (h : Run.Next img (t, m) (t', m'))
    (passes : t.Passes img m t'') : t'' = t' := by
  obtain ⟨free, -, hstep⟩ := h
  cases passes with
  | next _ step =>
    cases hstep.symm.trans step
    rfl
  | waits _ step => cases hstep.symm.trans step
  | resumes waiting => cases waiting.symm.trans free

/-- What a task goes through in the body. -/
theorem InBody.passes {t' : Task} (h : x.InBody vs f) (hid : t.id = x.call.id)
    (hframes : (f :: x.call.outer) <:+ t.frames) (passes : t.Passes img m t') (inside : x.Inside t') : x.After vs t' := by
  obtain ⟨number, all, s, awaiting⟩ := t
  obtain rfl : number = x.call.id := hid
  obtain ⟨above, hall⟩ := hframes
  obtain rfl : above ++ f :: x.call.outer = all := hall
  have hstep {p : Progress} {m' : Machine} (free : awaiting = none)
      (hstep : Run.step img ⟨x.call.id, above ++ f :: x.call.outer, s, awaiting⟩ m = .ok p m')
      (hp : p = .next t' ∨ p = .blocked t') : x.After vs t' := by
    subst free
    cases above with
    | nil => exact h.step hstep hp inside
    | cons g above =>
      obtain ⟨_, _, heq, hleaves⟩ := Run.step_leaves hstep
      cases heq
      obtain ⟨hid, hframes⟩ : t'.id = x.call.id ∧ above ++ f :: x.call.outer <:+ t'.frames := by
        rcases hp with rfl | rfl <;> exact hleaves.over
      exact .inl ⟨f, hid, (List.suffix_append _ _).trans hframes, h⟩
  cases passes with
  | next free step => exact hstep free step (.inl rfl)
  | waits free step => exact hstep free step (.inr rfl)
  | resumes => exact .inl ⟨f, rfl, List.suffix_append _ _, h⟩

/-- **The locals of the loop count the elements that have been found**, wherever the task is in the loop. -/
theorem Trail.stage (h : x.Trail vs t) : x.Stage vs t := by
  induction h with
  | start m holds => exact .own m (phase_test holds (Nat.zero_le _))
  | @pass vs vs' t t' m trail passes inside finds ih =>
    cases ih with
    | @own pc locals s m₀ phase =>
      obtain ⟨_, hnext, -, hstage⟩ := phase.advances fun hpc _ => (finds.1 (at_task.2 hpc)).imp fun _ => And.left
      obtain rfl := eq_of_passes hnext passes
      exact hstage vs' inside finds
    | body id frames inBody =>
      obtain rfl := finds.2 (inBody.not_at frames)
      exact (inBody.passes id frames passes inside).stage

/-- What holds of a task that has found some elements. -/
structure Law (x : Trip img) (vs : List Value) (t : Task) : Prop where
  /-- There is a round for each element at most. -/
  bound : vs.length ≤ x.length.toNat
  /-- Outside of the body, each instruction brings the task closer to it, or out of the loop after the last round. -/
  goes : ∀ pc m, x.At pc t → x.InMemory m → ∃ t', Run.Next img (t, m) (t', m) ∧ x.Goes m vs pc t'
  /-- When the body starts, the variable of the loop is the last element that was found. -/
  binds : ∀ f, t.frames = f :: x.call.outer → f.labels = x.inner → f.pc = x.start + 13 →
    vs ≠ [] ∧ f.locals[x.loop.first + 3]? = vs.getLast?
  /-- From the body, the task goes on behind it if it stays in the loop. -/
  returns : ∀ pc m t', (∀ pc, ¬x.At pc t) → t.Passes img m t' → x.At pc t' → pc = x.next

theorem Phase.length_le (h : x.Phase vs pc locals s) : vs.length ≤ x.length.toNat := by
  induction h with
  | line _ _ _ _ _ ih => exact ih
  | leave _ le | again _ le => exact le
  | fetch _ lt => exact Nat.le_of_lt lt
  | bind _ lt | enter _ lt =>
    rw [List.length_append]
    exact lt

theorem Phase.binds (m : Machine) (h : x.Phase vs pc locals s) (hpc : pc = x.start + 13) :
    vs ≠ [] ∧ locals[x.loop.first + 3]? = vs.getLast? := by
  have hlater := x.lt_next
  induction h with
  | @line vs pc locals s os locals' s' code dry within leads phase ih =>
    cases os with
    | nil =>
      obtain ⟨rfl, rfl⟩ : locals = locals' ∧ s = s' := by simpa [Data.ops?] using leads m
      exact ih hpc
    | cons o os =>
      rw [List.length_cons] at within
      omega
  | enter _ _ item => exact ⟨by simp, by rw [item, List.getLast?_concat]⟩
  | _ => omega

/-- **Loops over elements are bounded by the array they started on.** -/
theorem Trail.law (h : x.Trail vs t) : x.Law vs t := by
  obtain @⟨pc, locals, s, m₀, phase⟩ | @⟨_, f, id, frames, inBody⟩ := h.stage
  · refine ⟨phase.length_le, fun pc' m hat hm => ?_, ?_, fun pc m t' hnot => absurd (at_task.2 rfl) (hnot _)⟩
    · obtain rfl := at_task.1 hat
      obtain ⟨t', hnext, hgoes, -⟩ := phase.advances fun _ hlt => hm vs.length hlt
      exact ⟨t', hnext, hgoes⟩
    · rintro _ hframes - hpc
      cases hframes
      exact phase.binds m₀ hpc
  · refine ⟨?_, fun pc m hat => absurd hat (inBody.not_at frames), fun f' hframes hlabels hpc => ?_,
      fun pc m t' _ passes hat => ?_⟩
    · obtain ⟨k, -, -, hlength, hk, -⟩ := inBody
      omega
    · exact absurd ⟨f', hframes, hlabels, hpc⟩ (inBody.not_at frames)
    · have hinside : x.Inside t' := by
        obtain ⟨g, hg, hlabels, -⟩ := hat
        exact ⟨g, hg ▸ List.suffix_refl _, hlabels ▸ List.suffix_refl _⟩
      obtain ⟨g, -, hframes, hbody⟩ | ⟨y, rfl, -⟩ := inBody.passes id frames passes hinside
      · exact absurd hat (hbody.not_at hframes)
      · exact (at_task.1 hat).symm

end Trip

/-! ## Emitted loops -/

namespace Emit

variable {s : Site} {st after : State} {locals : Nat}

/-- A loop for a statement: the type of its elements, and its body, with the variable in the last of its locals. -/
structure Provides (s : Site) (v : Variable) (e : Typed.Expr) (b : List Typed.Stmt) (l : Loop) (after : State) : Prop where
  elem : e.ty = .array l.elem
  body : ∃ st, (v.id, l.first + 3) ∈ st.places ∧
    (stmts (((s.inside .loopExit).inside .plain).inside .loopNext) b).run st = .ok (l.body, after)

/-- The state in which the body of a loop is emitted: the locals of the loop are those after the ones that there were. -/
def State.opened (st : State) (s : Site) (v : Variable) (elem : Ty) : State :=
  State.declare { st with locals := st.locals ++ [.i32, .i32, .i32] } s.paramCount v elem.slotType

theorem run_forLoop {ty : Ty} {v : Variable} {iterable body : Emit (List Code)} {code : List Code}
    (h : (forLoop s ty v iterable body).run st = .ok (code, after)) : ∃ ac st₁, ∃ l : Loop, ty = .array l.elem ∧
      iterable.run st = .ok (ac, st₁) ∧ l.first = s.paramCount + st₁.locals.length ∧
      body.run (st₁.opened s v l.elem) = .ok (l.body, after) ∧ code = ac ++ Code.ops l.prepare ++ l.code := by
  unfold forLoop at h
  split at h
  next elem =>
    simp only [run_bind_eq_ok, run_pure_eq_ok] at h
    obtain ⟨ac, st₁, hac, array, _, harray, len, _, hlen, i, _, hi, item, _, hitem, _, _, hbind, bb, _, hbody, rfl,
      rfl⟩ := h
    cases harray
    cases hlen
    cases hi
    cases hitem
    cases hbind
    let l : Loop := ⟨s.paramCount + st₁.locals.length, elem, bb⟩
    refine ⟨ac, st₁, l, rfl, hac, rfl, ?_, ?_⟩
    · simpa [State.opened, State.declare] using hbody
    · rw [← l.forCode_eq]
      simp [forCode, l, Nat.add_assoc]
  · cases h

/-- **The code of a loop over elements**: its body leaves the array, the length and the number of the round alone. -/
theorem provides_for {id : Nat} {v : Variable} {e : Typed.Expr} {b : List Typed.Stmt} {code : List Code}
    (hrun : (stmt s (.for_ id v e b)).run st = .ok (code, after)) (hroom : HasRoom locals s.paramCount st after)
    (hlimit : locals ≤ Layout.addressLimit) (hfits : s.Fits code) :
    ∃ ac, ∃ l : Loop, code = ac ++ Code.ops l.prepare ++ l.code ∧ Provides s v e b l after ∧ l.first + 3 < locals ∧
      ∀ fn start, fn.HasAt start l.code → l.In fn start := by
  obtain ⟨hst, hle⟩ := hroom
  rw [stmt] at hrun
  obtain ⟨ac, st₁, l, hty, hac, hfirst, hbody, rfl⟩ := run_forLoop hrun
  -- the locals before the one of the variable are to be kept
  have habove := ((inside_expr hst hac).above (fun k => l.first ≤ k ∧ k < l.first + 3) [.i32, .i32, .i32]
    fun k hk => hfirst ▸ hk).declare (v := v) (Nat.zero_le _) l.elem.slotType
  obtain ⟨-, hpath, hsound⟩ := Yields.of_ok (shows_stmts (s := ((s.inside .loopExit).inside .plain).inside .loopNext) b
    (fun _ _ => Nat.zero_le _) _ habove) hbody
  have hgrown := hpath.locals_le
  simp only [State.declare, List.length_append, List.length_cons, List.length_nil] at hgrown
  have hplace : (v.id, l.first + 3) ∈ (st₁.opened s v l.elem).places := by
    simp [State.opened, State.declare, hfirst, Nat.add_assoc]
  refine ⟨ac, l, rfl, ⟨hty, _, hplace, hbody⟩, by omega,
    fun fn start hat => ⟨hat, fun k hlo hhi => ?_, fun n hn => ?_, by omega⟩⟩
  · exact ((hsound _ .refl).careful (Nat.le_trans hle hlimit)).spares ⟨hlo, hhi⟩
  · have hescapes := ((hsound _ .refl).follows (.inr trivial)).escapes.eq (depth?_for s) (fits_for (l.forCode_eq ac ▸ hfits))
    rw [hescapes] at hn
    obtain ⟨isBreak, -, rfl⟩ := List.mem_map.1 hn
    cases isBreak
    · exact .inl rfl
    · exact .inr rfl

end Emit

/-! ## Programs -/

/-- The loop is bounded by an array of a length at an address, if it is started at a position with the data `x`: it
gets to its first round, and all that comes of it follows the law. -/
def Loop.Starts (l : Loop) {img : Image} {g : Level img} (a : g.Call) (pc start : Nat) (ls : List Label) (x : Data)
    (array n : BitVec 32) : Prop :=
  ∃ (found : l.In g.fn start) (height : Nat) (t : Task),
    let trip : Trip img := ⟨g, a, l, start, found, ls, height, array, n⟩
    Run.Steps img (a.at_ pc ls x) (t, x.machine) ∧ trip.Trail [] t ∧ ∀ vs t, trip.Trail vs t → trip.Law vs t

/-- The code of a loop over elements stands in a function, and whenever there is the address of an array behind the
code of what it goes through, the loop is bounded by the array. -/
def LoadedFunction.BoundsFor (fn : LoadedFunction) (locals id : Nat) (v : Variable) (e : Typed.Expr)
    (b : List Typed.Stmt) : Prop :=
  ∃ s st st' ac, ∃ (l : Loop) (pc : Nat),
    (Emit.stmt s (.for_ id v e b)).run st = .ok (ac ++ Code.ops l.prepare ++ l.code, st') ∧
    Emit.Provides s v e b l st' ∧ fn.HasAt pc (ac ++ Code.ops l.prepare ++ l.code) ∧
    ∀ {img : Image} (g : Level img) (a : g.Call) (ls : List Label) (x : Data) (array n : BitVec 32) (rest : Stack),
      g.fn = fn → x.locals.size = locals → x.stack = .i32 array :: rest →
      Memory.load .i32 array 0 x.machine.memory = .ok (.i32 n) x.machine.memory →
        l.Starts a (pc + size ac) (pc + size ac + l.prepare.length) ls x array n

/-- All loops over elements in a body are bounded. -/
def Function.BoundsLoops (g : Function) (fl : List Flow) : Prop :=
  ∃ fn, Image.load g = .ok fn ∧ ∀ id v e b, .for_ id v e b ∈ Flow.stmts fl →
    fn.BoundsFor (g.ty.params.length + g.locals.length) id v e b

theorem Loop.starts {l : Loop} {img : Image} {g : Level img} (a : g.Call) {pc : Nat} {ls : List Label} {x : Data}
    {array n : BitVec 32} {rest : Stack} (hat : g.fn.HasAt pc (Code.ops l.prepare ++ l.code))
    (hin : l.In g.fn (pc + l.prepare.length)) (hsize : l.first + 3 < x.locals.size) (hstack : x.stack = .i32 array :: rest)
    (hlength : Memory.load .i32 array 0 x.machine.memory = .ok (.i32 n) x.machine.memory) :
    l.Starts a pc (pc + l.prepare.length) ls x array n := by
  obtain ⟨locals, stack, m⟩ := x
  obtain rfl : stack = _ := hstack
  have hroom (k : Nat) (hk : k ≤ 3) : l.first + k < locals.size := Nat.lt_of_le_of_lt (Nat.add_le_add_left hk _) hsize
  have hfirst : l.first < locals.size := hroom 0 (by decide)
  let ys := ((locals.setIfInBounds l.first (.i32 array)).setIfInBounds (l.first + 1) (.i32 n)).setIfInBounds
    (l.first + 2) (.i32 0)
  have hops : Data.ops? g.fn.name ⟨locals, .i32 array :: rest, m⟩ l.prepare = some ⟨ys, rest, m⟩ := by
    have hnat (k : Nat) (hk : k ≤ 3) : (l.first + k) % 4294967296 = l.first + k :=
      Nat.mod_eq_of_lt (Nat.lt_of_le_of_lt (Nat.add_le_add_left hk _) hin.small)
    have hnat₀ : l.first % 4294967296 = l.first := hnat 0 (by decide)
    have hload : Memory.load .i32 array 0 m.memory = .ok (.i32 n) m.memory := hlength
    simp [prepare, Data.ops?, Data.op?, Op.set, Op.get, Op.head, Op.const, Op.read, hnat₀, hnat, hfirst, hroom, hload, ys]
  obtain ⟨hprepare, hloop⟩ := hat.append
  have hsteps : Run.Steps img _ (a.at_ (pc + l.prepare.length) ls ⟨ys, rest, m⟩) := (Run.Does.ops hops) a pc ls hprepare
  refine ⟨hin, rest.length, _, hsteps.trans (hloop.opens_loop img g a ls _ rfl), .start m ⟨?_, ?_, ?_, ?_⟩,
    fun _ _ h => h.law⟩
  · simp [ys, hfirst]
  · simp [ys, hroom]
  · simp [ys, hroom]
  · simpa [ys] using hsize

namespace Function.Renders

variable {g : Function} {fl : List Flow} {s : Emit.Site} {code : List Code}

/-- A function with code that follows the flow of a body has all its loops over elements bounded. -/
theorem boundsLoops (h : g.Renders fl s code) : g.BoundsLoops fl := by
  obtain ⟨fn, hload, hat⟩ := h.load
  refine ⟨fn, hload, fun id v e b hloop => ?_⟩
  obtain ⟨s', c, hin, -, st, st', hroom, hrun⟩ := h.follows.stmts _ hloop
  obtain ⟨ac, l, rfl, hprovides, hfirst, hfound⟩ := Emit.provides_for hrun hroom h.locals (hin.fits h.fits)
  obtain ⟨pc, hpc⟩ := hat.within hin
  refine ⟨s', st, st', ac, l, pc, hrun, hprovides, hpc, ?_⟩
  rintro img g a ls x array n rest rfl hsize hstack hlength
  rw [List.append_assoc] at hpc
  have hrest := hpc.append.2
  exact l.starts a hrest (hfound _ _ hrest.append.2) (hsize ▸ hfirst) hstack hlength

end Function.Renders

/-- **Loops over elements are bounded by the array they started on.**  In every function, method, function literal and
the top level of a program, a loop over elements that starts on an array with `n` elements has a round for each of
them, with the element that is then in the array at the place for the round, and no more rounds than that, whatever
its body does to the array, to the variable that holds it or to memory: outside of the body each instruction leads on
to the next round, or out of the loop when there have been `n` rounds, and the body leads on to the next round if it
does not leave the loop. -/
theorem rounds_of_compile {source : String} {config : CompileConfig} {p : Typed.Program} {m : Module}
    (hp : checkSource source config.strictMatch = .ok p) (hm : compile source config = .ok m) :
    (∀ r ∈ p.routines, ∃ g ∈ m.functions, g.name = (if r.sig.isAsync then r.fullName ++ "$entry" else r.fullName) ∧
      g.BoundsLoops (stmtFlow r.body)) ∧
    (p.script ≠ [] → ∃ g ∈ m.functions, g.name = "_start" ∧ g.BoundsLoops (stmtFlow p.script)) ∧
    ∀ id ty params captures body, (⟨id, ty, .lambda params captures body⟩ : Typed.Expr) ∈ p.nodes →
      ∃ slot g, m.HasInSlot slot g ∧ g.name = "lambda$" ++ toString id ∧ g.BoundsLoops body.flow := by
  obtain ⟨st, all, h⟩ := unfolding_of_compile hp hm
  refine ⟨fun r hr => ?_, fun hscript => ?_, fun id ty params captures body hnode => ?_⟩
  · obtain ⟨g, hg, hname, s, code, hrenders⟩ := h.routine_renders hr
    exact ⟨g, hg, hname, hrenders.boundsLoops⟩
  · obtain ⟨g, hg, hname, s, code, hrenders⟩ := h.script_renders hscript
    exact ⟨g, hg, hname, hrenders.boundsLoops⟩
  · obtain ⟨slot, g, hg, hname, s, code, hrenders⟩ := h.literal_renders hnode
    exact ⟨slot, g, hg, hname, hrenders.boundsLoops⟩

/-- A program with a loop that adds to the array it goes through. -/
def growingSource : String :=
  "fn main() -> i32 \x7b let a = [1, 2]; let n = 0; for x in a \x7b a.push(x); n = n + x; \x7d return n; \x7d"

/-- Whether a statement is a loop over elements. -/
def Typed.Stmt.isFor : Typed.Stmt → Bool
  | .for_ .. => true
  | _ => false

theorem rounds_of_compile_growing : ∃ p m, checkSource growingSource true = .ok p ∧
    compile growingSource {} = .ok m ∧ ∃ g ∈ m.functions, ∃ fn, Image.load g = .ok fn ∧
      ∃ id v e b, fn.BoundsFor (g.ty.params.length + g.locals.length) id v e b := by
  obtain ⟨p, m, hp, hm, hfound⟩ := @exists_compile growingSource {} (fun p _ =>
    p.routines.any fun r => (Flow.stmts (stmtFlow r.body)).any (·.isFor)) (by decide +kernel)
  obtain ⟨r, hr, hany⟩ := List.any_eq_true.1 hfound
  obtain ⟨t, ht, hfor⟩ := List.any_eq_true.1 hany
  obtain ⟨g, hg, -, fn, hload, hbounds⟩ := (@rounds_of_compile growingSource {} p m hp hm).1 r hr
  cases t with
  | for_ id v e b => exact ⟨p, m, hp, hm, g, hg, fn, hload, id, v, e, b, hbounds id v e b ht⟩
  | _ => cases hfor

end StackScript
