import Mathlib.Data.List.Basic
import StackScript.Emit.Program
import StackScript.Proofs.Emit.Valid
import StackScript.Proofs.Typing.Flow

/-!
# Where branches lead

The emitter counts labels to find the loop that a jump means.
-/

namespace StackScript

open Typed

/-! ## Branches that leave code -/

/-- How many labels a branch goes out. -/
def Op.level? : Op → Option Nat
  | .br depth | .brIf depth => some depth.toNat
  | _ => none

namespace Code

/-- Branches that leave a construct, seen from around it. -/
def outward (levels : List Nat) : List Nat :=
  levels.filterMap fun
    | 0 => none
    | n + 1 => some n

mutual

/-- The branches that leave a part of code. -/
def exits : Code → List Nat
  | op o => o.level?.toList
  | block _ body | loop body | cond _ body => outward (escapes body)
  | condElse _ body other => outward (escapes body ++ escapes other)

/-- The branches that leave code, in order, by how many labels of those around they go out. -/
def escapes : List Code → List Nat
  | [] => []
  | c :: cs => c.exits ++ escapes cs

end

@[simp] theorem escapes_append (a b : List Code) : escapes (a ++ b) = escapes a ++ escapes b := by
  induction a with
  | nil => rfl
  | cons c cs ih => simp only [List.cons_append, escapes, ih, List.append_assoc]

@[simp] theorem escapes_ops (os : List Op) : escapes (ops os) = os.filterMap Op.level? := by
  induction os with
  | nil => rfl
  | cons o os ih =>
    have hcons : escapes (ops (o :: os)) = o.level?.toList ++ escapes (ops os) := rfl
    rw [hcons, ih, List.filterMap_cons]
    cases o.level? <;> rfl

theorem outward_append (a b : List Nat) : outward (a ++ b) = outward a ++ outward b :=
  List.filterMap_append

/-- The bodies of a construct. -/
def bodies : Code → List (List Code)
  | op _ => []
  | block _ body | loop body | cond _ body => [body]
  | condElse _ body other => [body, other]

end Code

namespace Code

theorem lt_of_outward {levels : List Nat} {depth : Nat} (h : ∀ k ∈ outward levels, k < depth) :
    ∀ k ∈ levels, k < depth + 1
  | 0, _ => Nat.succ_pos _
  | k + 1, hk => Nat.succ_lt_succ (h k (List.mem_filterMap.2 ⟨k + 1, hk, rfl⟩))

variable {b : Bounds}

theorem valid_op {o : Op} (hlevel : ∀ k ∈ o.level?, k < b.depth) (h : o.level? = none → o.Valid b) : o.Valid b := by
  cases o with
  | br | brIf => exact hlevel _ rfl
  | _ => exact h rfl

mutual

theorem valid_of_exits : ∀ {x : Code} {b : Bounds}, (∀ k ∈ x.exits, k < b.depth) →
    (∀ o, .op o ∈ x.flat → o.level? = none → o.Valid b) → x.Valid b
  | .op o, b, hexits, h => valid_op (fun k hk => hexits k (by simpa [exits] using hk)) (h o (by simp [flat]))
  | .block _ body, b, hexits, h | .loop body, b, hexits, h | .cond _ body, b, hexits, h =>
    allValid_of_escapes (b := b.deeper) (lt_of_outward (by simpa [exits] using hexits)) fun o ho hnone =>
      (h o (by simp [flat, ho]) hnone).deeper
  | .condElse _ body other, b, hexits, h => by
    rw [exits] at hexits
    have hboth := List.forall_mem_append.1 (lt_of_outward hexits)
    refine ⟨allValid_of_escapes hboth.1 fun o ho hnone => ?_, allValid_of_escapes hboth.2 fun o ho hnone => ?_⟩
    · exact (h o (by simp [flat, ho]) hnone).deeper
    · exact (h o (by simp [flat, ho]) hnone).deeper

/-- **Code is valid** if its branches do not go out too far, and all other instructions refer only to what exists. -/
theorem allValid_of_escapes : ∀ {xs : List Code} {b : Bounds}, (∀ k ∈ escapes xs, k < b.depth) →
    (∀ o, .op o ∈ flatList xs → o.level? = none → o.Valid b) → AllValid b xs
  | [], _, _, _ => trivial
  | x :: xs, b, hescapes, h => by
    rw [escapes] at hescapes
    obtain ⟨hfirst, hrest⟩ := List.forall_mem_append.1 hescapes
    exact ⟨valid_of_exits hfirst fun o ho => h o (by simp [flatList, ho]),
      allValid_of_escapes hrest fun o ho => h o (by simp [flatList, ho])⟩

end

end Code

/-- Instructions without branches. -/
def Op.Straight (os : List Op) : Prop :=
  os.filterMap Op.level? = []

namespace Op

variable {os os' : List Op}

@[simp] theorem straight_cons {o : Op} : Straight (o :: os) ↔ o.level? = none ∧ Straight os := by
  rw [Straight, List.filterMap_cons]
  cases o.level? <;> simp [Straight]

/-- What refers to nothing does not branch. -/
theorem level?_of_idle {o : Op} (h : o.Idle) : o.level? = none := by
  cases o with
  | br | brIf => exact h.elim
  | _ => rfl

end Op

namespace Emit

/-! ## Code that follows a flow -/

/-- The depth of the label that a jump goes to. -/
def Site.depth? (s : Site) (isBreak : Bool) : Option Nat :=
  labelDepth s (if isBreak then .loopExit else .loopNext)

/-- Code in which labels have numbers of 32 bits. -/
def Site.Fits (s : Site) (code : List Code) : Prop :=
  s.labels.length + (Code.flatList code).length ≤ Layout.addressLimit

/-- Code in other code, with the sites of both. -/
inductive Within : Site → List Code → Site → List Code → Prop
  | refl {s code} : Within s code s code
  | left {s a b s' c} (h : Within s a s' c) : Within s (a ++ b) s' c
  | right {s a b s' c} (h : Within s b s' c) : Within s (a ++ b) s' c
  | inside {s l x body s' c} (part : body ∈ x.bodies) (h : Within (s.inside l) body s' c) : Within s [x] s' c

/-- Code leaves exactly where a flow does. -/
def Site.Escapes (s : Site) (fl : List Flow) (code : List Code) : Prop :=
  s.Fits code → (Code.escapes code).map some = (Flow.jumps fl).map s.depth?

/-- A loop over the elements of an array: its body is a block, behind which the next round starts. -/
def forCode (arrayCode bodyCode : List Code) (elem : Ty) (array len i item : Nat) : List Code :=
  arrayCode ++ Code.ops [.set array, .get array, .head, .set len, .const 0, .set i]
    ++ [Code.block none [.loop (Code.ops ([Op.get i, .get len, .notBelow, .brIf 1]
        ++ ([Op.get array, .get i] ++ Op.offsetWords ++ [Op.read elem.slotKind Layout.arrayHeader, .set item]))
      ++ [Code.block none bodyCode] ++ Code.ops [.get i, .const 1, .add, .set i, .br 0])]]

/-- The code of a statement; if it is a loop, its parts leave where their flows do. -/
def Site.Keeps (s : Site) (code : List Code) : Typed.Stmt → Prop
  | .while_ c b => ∃ cc bb, code = whileCode cc bb ∧ ((s.inside .loopExit).inside .loopNext).Escapes c.flow cc ∧
    ((s.inside .loopExit).inside .loopNext).Escapes (stmtFlow b) bb
  | .for_ _ _ _ b => ∃ ac bb elem array len i item, code = forCode ac bb elem array len i item ∧
    (((s.inside .loopExit).inside .plain).inside .loopNext).Escapes (stmtFlow b) bb
  | _ => True

/-- The code of a statement is in code; the number of parameters, and the states before and after, have a
property. -/
def Site.Holds (s : Site) (R : Nat → State → State → Prop) (code : List Code) (t : Typed.Stmt) : Prop :=
  ∃ s' c, Within s code s' c ∧ s'.Keeps c t ∧ ∃ st st', R s'.paramCount st st' ∧ (stmt s' t).run st = .ok (c, st')

/-- Code that leaves exactly where the flow of a tree does, and has the code of all statements in it. -/
structure Follows (s : Site) (R : Nat → State → State → Prop) (fl : List Flow) (code : List Code) : Prop where
  escapes : s.Escapes fl code
  stmts : ∀ t ∈ Flow.stmts fl, s.Holds R code t

theorem length_bodies {x : Code} {body : List Code} (h : body ∈ x.bodies) :
    (Code.flatList body).length + 2 ≤ (Code.flatList [x]).length := by
  cases x with
  | op o => cases h
  | block | loop | cond =>
    obtain rfl := List.mem_singleton.1 h
    simp [Code.flatList, Code.flat]
  | condElse ty a b =>
    simp only [Code.flatList, Code.flat, List.length_append, List.length_cons, List.length_nil]
    rcases List.mem_pair.1 h with rfl | rfl <;> omega

section

variable {s s' : Site} {R : Nat → State → State → Prop} {fl fl' : List Flow} {a b c code : List Code} {os : List Op}

theorem Site.Fits.append (h : s.Fits (a ++ b)) : s.Fits a ∧ s.Fits b := by
  simp only [Site.Fits, Code.flatList_append, List.length_append] at h ⊢
  omega

theorem Site.Fits.inside {x : Code} (h : s.Fits [x]) (hbody : code ∈ x.bodies) (l : Label) :
    (s.inside l).Fits code := by
  have hlength := length_bodies hbody
  simp only [Site.Fits, Site.inside, List.length_cons] at h ⊢
  omega

/-- Code in code that fits does so too. -/
theorem Within.fits (h : Within s code s' c) (hfits : s.Fits code) : s'.Fits c := by
  induction h with
  | refl => exact hfits
  | left _ ih => exact ih hfits.append.1
  | right _ ih => exact ih hfits.append.2
  | inside part _ ih => exact ih (hfits.inside part _)

theorem depth?_plain (s : Site) (isBreak : Bool) :
    (s.inside .plain).depth? isBreak = (s.depth? isBreak).map (· + 1) := by
  cases isBreak <;> simp [Site.depth?, labelDepth, Site.inside, List.findIdx?_cons]

/-- A jump out of a block that is no loop goes on to the labels around it. -/
theorem outward_plain {levels : List Nat} {js : List Bool} (h : levels.map some = js.map (s.inside .plain).depth?) :
    (Code.outward levels).map some = js.map s.depth? := by
  induction js generalizing levels with
  | nil =>
    obtain rfl := List.map_eq_nil_iff.1 h
    rfl
  | cons j js ih =>
    obtain ⟨n, levels, rfl, hn, hrest⟩ := List.map_eq_cons_iff.1 h
    rw [depth?_plain] at hn
    obtain ⟨d, hd, rfl⟩ := Option.map_eq_some_iff.1 hn.symm
    exact congrArg₂ List.cons hd.symm (ih hrest)

namespace Follows

theorem idle (h : Code.escapes code = []) : Follows s R [] code :=
  ⟨fun _ => by rw [h]; rfl, nofun⟩

theorem append (ha : Follows s R fl a) (hb : Follows s R fl' b) : Follows s R (fl ++ fl') (a ++ b) := by
  refine ⟨fun hfits => ?_, fun t ht => ?_⟩
  · rw [Code.escapes_append, Flow.jumps_append, List.map_append, List.map_append, ha.escapes hfits.append.1,
      hb.escapes hfits.append.2]
  · rw [Flow.stmts_append] at ht
    rcases List.mem_append.1 ht with ht | ht
    · obtain ⟨s', c, hin, hrun⟩ := ha.stmts t ht
      exact ⟨s', c, hin.left, hrun⟩
    · obtain ⟨s', c, hin, hrun⟩ := hb.stmts t ht
      exact ⟨s', c, hin.right, hrun⟩

theorem appendIdle (ha : Follows s R fl a) (hb : Code.escapes b = []) : Follows s R fl (a ++ b) :=
  List.append_nil fl ▸ ha.append (.idle hb)

/-- The code of a statement is that of its flow. -/
theorem stmt {t : Typed.Stmt} {st st' : State} (h : Follows s R t.flow code) (hst : R s.paramCount st st')
    (hrun : (Emit.stmt s t).run st = .ok (code, st')) (hkeeps : s.Keeps code t) : Follows s R [.stmt t t.flow] code := by
  have hjumps : Flow.jumps [.stmt t t.flow] = Flow.jumps t.flow := by simp [Flow.jumps, Flow.ownJumps]
  have hstmts : Flow.stmts [.stmt t t.flow] = t :: Flow.stmts t.flow := by simp [Flow.stmts, Flow.ownStmts]
  refine ⟨fun hfits => hjumps ▸ h.escapes hfits, ?_⟩
  rw [hstmts]
  exact List.forall_mem_cons.2 ⟨⟨s, code, .refl, hkeeps, st, st', hst, hrun⟩, h.stmts⟩

theorem holds_inside {x : Code} {l : Label} {t : Typed.Stmt} (h : Follows (s.inside l) R fl code) (hbody : code ∈ x.bodies)
    (ht : t ∈ Flow.stmts fl) : s.Holds R [x] t := by
  obtain ⟨s', c, hin, hrun⟩ := h.stmts t ht
  exact ⟨s', c, .inside hbody hin, hrun⟩

/-- Code that may be skipped. -/
theorem maybe {x : Code} (h : Follows (s.inside .plain) R fl code) (hbody : code ∈ x.bodies)
    (hexits : x.exits = Code.outward (Code.escapes code)) : Follows s R [.maybe fl] [x] := by
  have hjumps : Flow.jumps [.maybe fl] = Flow.jumps fl := by simp [Flow.jumps, Flow.ownJumps]
  have hstmts : Flow.stmts [.maybe fl] = Flow.stmts fl := by simp [Flow.stmts, Flow.ownStmts]
  refine ⟨fun hfits => ?_, fun t ht => h.holds_inside hbody (hstmts ▸ ht)⟩
  rw [hjumps, Code.escapes, Code.escapes, List.append_nil, hexits]
  exact outward_plain (h.escapes (hfits.inside hbody _))

theorem jumps_either : Flow.jumps [.either fl fl'] = Flow.jumps fl ++ Flow.jumps fl' := by
  simp [Flow.jumps, Flow.ownJumps]

theorem stmts_either : Flow.stmts [.either fl fl'] = Flow.stmts fl ++ Flow.stmts fl' := by
  simp [Flow.stmts, Flow.ownStmts]

theorem either {ty : Option ValType} (ha : Follows (s.inside .plain) R fl a) (hb : Follows (s.inside .plain) R fl' b) :
    Follows s R [.either fl fl'] [.condElse ty a b] := by
  have hfirst : a ∈ (Code.condElse ty a b).bodies := .head _
  have hsecond : b ∈ (Code.condElse ty a b).bodies := .tail _ (.head _)
  refine ⟨fun hfits => ?_, fun t ht => ?_⟩
  · rw [jumps_either, Code.escapes, Code.escapes, List.append_nil, Code.exits, Code.outward_append, List.map_append,
      List.map_append, outward_plain (ha.escapes (hfits.inside hfirst _)),
      outward_plain (hb.escapes (hfits.inside hsecond _))]
  · rcases List.mem_append.1 (stmts_either ▸ ht) with ht | ht
    · exact ha.holds_inside hfirst ht
    · exact hb.holds_inside hsecond ht

theorem leave (h : Code.escapes code = []) : Follows s R [.leave] code :=
  ⟨fun _ => by rw [h]; rfl, nofun⟩

theorem loop (hescapes : s.Fits code → Code.escapes code = []) (hstmts : ∀ t ∈ Flow.stmts fl, s.Holds R code t) :
    Follows s R [.loop fl] code := by
  have hparts : Flow.stmts [.loop fl] = Flow.stmts fl := by simp [Flow.stmts, Flow.ownStmts]
  exact ⟨fun hfits => by rw [hescapes hfits]; rfl, hparts ▸ hstmts⟩

end Follows

end

/-! ## Arms -/

/-- Code of arms, which leaves their match as well, but nothing else around it than their flow does. -/
structure FollowArms (s : Site) (R : Nat → State → State → Prop) (fl : List Flow) (code : List Code) : Prop where
  escapes : (s.inside .plain).Fits code →
    (Code.outward (Code.escapes code)).map some = (Flow.jumps fl).map s.depth?
  stmts : ∀ t ∈ Flow.stmts fl, (s.inside .plain).Holds R code t

namespace FollowArms

variable {s : Site} {R : Nat → State → State → Prop} {fl fl' : List Flow} {body code : List Code} {test leave : List Op}

theorem nil : FollowArms s R [.leave] [] :=
  ⟨fun _ => rfl, nofun⟩

theorem cons (h : Follows ((s.inside .plain).inside .plain) R fl body)
    (htest : Code.outward (test.filterMap Op.level?) = [])
    (hleave : Code.outward (Code.outward (leave.filterMap Op.level?)) = []) (hrest : FollowArms s R fl' code) :
    FollowArms s R [.either fl fl'] (.block none (Code.ops test ++ body ++ Code.ops leave) :: code) := by
  have hmem : Code.ops test ++ body ++ Code.ops leave ∈
    (Code.block none (Code.ops test ++ body ++ Code.ops leave)).bodies := .head _
  refine ⟨fun hfits => ?_, fun t ht => ?_⟩
  · obtain ⟨hfirst, hlast⟩ := Site.Fits.append (a := [.block none (Code.ops test ++ body ++ Code.ops leave)]) hfits
    have hbody := h.escapes (hfirst.inside hmem .plain).append.1.append.2
    rw [Follows.jumps_either, List.map_append, ← hrest.escapes hlast, ← outward_plain (outward_plain hbody)]
    simp only [Code.escapes, Code.exits, Code.escapes_append, Code.escapes_ops, Code.outward_append,
      htest, hleave, List.nil_append, List.append_nil, List.map_append]
  · rcases List.mem_append.1 (Follows.stmts_either ▸ ht) with ht | ht
    · obtain ⟨s', c, hin, hrun⟩ := h.stmts t ht
      exact ⟨s', c, .left (a := [_]) (.inside hmem hin.right.left), hrun⟩
    · obtain ⟨s', c, hin, hrun⟩ := hrest.stmts t ht
      exact ⟨s', c, .right (a := [_]) hin, hrun⟩

theorem block (ty : Option ValType) (h : FollowArms s R fl code) :
    Follows s R fl [.block ty (code ++ [.op .unreachable])] := by
  have hmem : code ++ [.op .unreachable] ∈ (Code.block ty (code ++ [.op .unreachable])).bodies := .head _
  refine ⟨fun hfits => ?_, fun t ht => ?_⟩
  · rw [← h.escapes (hfits.inside hmem .plain).append.1]
    simp [Code.escapes, Code.exits, Op.level?]
  · obtain ⟨s', c, hin, hrun⟩ := h.stmts t ht
    exact ⟨s', c, .inside hmem hin.left, hrun⟩

end FollowArms

/-! ## Loops -/

/-- The levels of jumps in the condition and the body of a loop that tests its condition. -/
def whileLevel (isBreak : Bool) : Nat :=
  if isBreak then 1 else 0

/-- The levels of jumps in the body of a loop over elements. -/
def forLevel (isBreak : Bool) : Nat :=
  if isBreak then 2 else 0

theorem Site.Escapes.eq {s : Site} {fl : List Flow} {code : List Code} {level : Bool → Nat} (h : s.Escapes fl code)
    (hlevel : ∀ isBreak, s.depth? isBreak = some (level isBreak)) (hfits : s.Fits code) :
    Code.escapes code = (Flow.jumps fl).map level := by
  have hescapes := h hfits
  rw [funext hlevel, ← Function.comp_def some level, ← List.map_map] at hescapes
  exact List.map_injective_iff.2 (fun _ _ => Option.some.inj) hescapes

theorem depth?_while (s : Site) (isBreak : Bool) :
    ((s.inside .loopExit).inside .loopNext).depth? isBreak = some (whileLevel isBreak) := by
  cases isBreak <;> simp [Site.depth?, labelDepth, Site.inside, List.findIdx?_cons, whileLevel]

theorem depth?_for (s : Site) (isBreak : Bool) :
    (((s.inside .loopExit).inside .plain).inside .loopNext).depth? isBreak = some (forLevel isBreak) := by
  cases isBreak <;> simp [Site.depth?, labelDepth, Site.inside, List.findIdx?_cons, forLevel]

theorem outward_while (js : List Bool) : Code.outward (Code.outward (js.map whileLevel)) = [] := by
  induction js with
  | nil => rfl
  | cons j js ih => cases j <;> exact ih

theorem outward_for (js : List Bool) : Code.outward (Code.outward (Code.outward (js.map forLevel))) = [] := by
  induction js with
  | nil => rfl
  | cons j js ih => cases j <;> exact ih

theorem follows_jump {s : Site} {R : Nat → State → State → Prop} {isBreak : Bool} {depth : Nat} (h : s.depth? isBreak = some depth) :
    Follows s R [.jump isBreak] [.op (.br depth.toUInt32)] := by
  refine ⟨fun hfits => ?_, nofun⟩
  have hlt : depth < Layout.addressLimit :=
    Nat.lt_of_lt_of_le (List.findIdx?_eq_some_iff_getElem.1 h).1 (Nat.le_of_add_right_le hfits)
  have hlevel : depth.toUInt32.toNat = depth := Nat.mod_eq_of_lt hlt
  simp only [Code.escapes, Code.exits, Op.level?, hlevel, Flow.jumps, Flow.ownJumps, h, List.map_append,
    List.map_cons, List.map_nil, Option.toList_some]

section

variable {s : Site} {R : Nat → State → State → Prop} {cc bb ac : List Code} {elem : Ty} {array len i item : Nat}

theorem fits_while (h : s.Fits (whileCode cc bb)) : ((s.inside .loopExit).inside .loopNext).Fits cc ∧
    ((s.inside .loopExit).inside .loopNext).Fits bb := by
  obtain ⟨hfirst, -⟩ := ((h.inside (.head _) .loopExit).inside (.head _) .loopNext).append
  exact ⟨hfirst.append.1.append.1, hfirst.append.2⟩

theorem fits_for (h : s.Fits (forCode ac bb elem array len i item)) :
    (((s.inside .loopExit).inside .plain).inside .loopNext).Fits bb := by
  have hloop := (h.append.2.inside (.head _) .loopExit).inside (.head _) .plain
  exact hloop.append.1.append.2.inside (.head _) .loopNext

/-- All jumps in a loop that tests its condition mean this loop. -/
theorem follows_while {fc fb : List Flow} (hc : Follows ((s.inside .loopExit).inside .loopNext) R fc cc)
    (hb : Follows ((s.inside .loopExit).inside .loopNext) R fb bb) :
    Follows s R [.loop (fc ++ fb)] (whileCode cc bb) := by
  refine .loop (fun hfits => ?_) fun t ht => ?_
  · obtain ⟨hfc, hfb⟩ := fits_while hfits
    have hbranches : Code.escapes (Code.ops [.isZero, .brIf 1]) = [1] := rfl
    simp only [whileCode, Code.escapes, Code.exits, Code.escapes_append, hc.escapes.eq (depth?_while s) hfc,
      hb.escapes.eq (depth?_while s) hfb, Code.outward_append, outward_while, hbranches]
    rfl
  · rw [Flow.stmts_append] at ht
    rcases List.mem_append.1 ht with ht | ht
    · obtain ⟨s', c, hin, hrun⟩ := hc.stmts t ht
      exact ⟨s', c, .inside (.head _) (.inside (.head _) hin.left.left.left), hrun⟩
    · obtain ⟨s', c, hin, hrun⟩ := hb.stmts t ht
      exact ⟨s', c, .inside (.head _) (.inside (.head _) hin.right.left), hrun⟩

/-- All jumps in the body of a loop over elements mean this loop. -/
theorem follows_for {fa fb : List Flow} (ha : Follows s R fa ac)
    (hb : Follows (((s.inside .loopExit).inside .plain).inside .loopNext) R fb bb) :
    Follows s R (fa ++ [.loop fb]) (forCode ac bb elem array len i item) := by
  refine (ha.appendIdle rfl).append (.loop (fun hfits => ?_) fun t ht => ?_)
  · have hfb := ((hfits.inside (.head _) .loopExit).inside (.head _) .plain).append.1.append.2.inside (.head _) .loopNext
    simp only [Code.escapes, Code.exits, Code.escapes_append, hb.escapes.eq (depth?_for s) hfb, Code.outward_append,
      outward_for, Code.escapes_ops]
    rfl
  · obtain ⟨s', c, hin, hrun⟩ := hb.stmts t ht
    refine ⟨s', c, .inside (.head _) (.inside (.head _) (.left (.right (.inside (.head _) hin)))), hrun⟩

end

end Emit

end StackScript
