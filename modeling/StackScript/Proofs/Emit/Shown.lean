import StackScript.Proofs.Emit.Control
import StackScript.Proofs.Emit.Paths
import StackScript.Proofs.Emit.Settlement
import StackScript.Proofs.Typing.Subtrees

/-!
# What code shows of the tree that it comes from

Where a function literal is evaluated, its variables are copied to an environment, and the lifted function
loads them from there.  This module says which code comes of the expressions of a function, which loads from the
environment it contains, that it starts no tasks and settles no promises on its own, that it refers only to what
there is, and where it leaves.

## Design Notes

The expressions in a function literal are not emitted with the literal but with the job that it leaves.  Nothing here
needs a checked program: a step that fails emits no code.
-/

namespace StackScript

open Typed

/-! ## Loads from the environment -/

/-- Instructions that neither read nor write the first local. -/
def Op.Quiet : Op → Prop
  | .localGet i | .localSet i | .localTee i => i ≠ 0
  | _ => True

/-- Instructions of a flat body that neither read nor write the first local. -/
def Instr.Quiet : Instr → Prop
  | .op o => o.Quiet
  | _ => True

theorem Instr.quiet_of_mark {i : Instr} (h : ∀ o, i ≠ .op o) : i.Quiet := by
  cases i with
  | op o => exact absurd rfl (h o)
  | _ => exact trivial

/-- The loads from the object in the first local that code makes, in order.  It does nothing else with
this local. -/
inductive EnvLoads : List Instr → List (MemKind × UInt32) → Prop
  | nil : EnvLoads [] []
  | load {kind offset is xs} (rest : EnvLoads is xs) :
      EnvLoads (.op (.localGet 0) :: .op (.load kind offset) :: is) ((kind, offset) :: xs)
  | quiet {i is xs} (quiet : i.Quiet) (rest : EnvLoads is xs) : EnvLoads (i :: is) xs

namespace EnvLoads

variable {is js : List Instr} {xs ys : List (MemKind × UInt32)}

theorem append (h : EnvLoads is xs) (h' : EnvLoads js ys) : EnvLoads (is ++ js) (xs ++ ys) := by
  induction h with
  | nil => exact h'
  | load _ ih => exact ih.load
  | quiet hquiet _ ih => exact ih.quiet hquiet

/-- Code between two marks. -/
theorem between (h : EnvLoads is xs) {i j : Instr} (hi : i.Quiet) (hj : j.Quiet) : EnvLoads (i :: (is ++ [j])) xs := by
  have hlast : EnvLoads (is ++ [j]) (xs ++ []) := h.append (.quiet hj .nil)
  rw [List.append_nil] at hlast
  exact .quiet hi hlast

end EnvLoads

namespace Op

variable {n : Nat}

theorem quiet_get (hpos : 0 < n) (hlt : n < Layout.addressLimit) : (get n).Quiet := by
  intro hzero
  have hnat : n.toUInt32.toNat = n := Nat.mod_eq_of_lt hlt
  rw [hzero] at hnat
  exact Nat.ne_of_gt hpos hnat.symm

/-- What refers to nothing does not refer to a local. -/
theorem quiet_of_idle {o : Op} (h : o.Idle) : o.Quiet := by
  cases o with
  | localGet | localSet | localTee => exact h.elim
  | _ => exact trivial

end Op

theorem EnvLoads.ops {os : List Op} (h : ∀ o ∈ os, o.Quiet) : EnvLoads (Code.flatList (Code.ops os)) [] := by
  rw [Code.flatList_ops]
  induction os with
  | nil => exact .nil
  | cons o os ih =>
    obtain ⟨ho, hos⟩ := List.forall_mem_cons.1 h
    exact .quiet ho (ih hos)

/-! ## Texts -/

namespace Typed

/-- The strings in a pattern. -/
def Pattern.texts : Pattern → List (List UInt8)
  | .str t => [Utf8.encode t]
  | .variant _ (some (_, p)) => p.texts
  | _ => []

/-- The texts among the pieces of a string. -/
def partTexts : List Part → List (List UInt8)
  | [] => []
  | .text t :: ps => if t.isEmpty then partTexts ps else Utf8.encode t :: partTexts ps
  | .expr _ :: ps => partTexts ps

/-- The strings in the patterns of arms. -/
def armTexts : List Arm → List (List UInt8)
  | [] => []
  | ⟨p, _⟩ :: as => p.texts ++ armTexts as

/-- The strings and bytes that stand in an expression itself: a literal, the texts between the pieces of
a string, and the strings in the patterns of a match. -/
def Expr.texts (e : Expr) : List (List UInt8) :=
  match e.form with
  | .str v => [Utf8.encode v]
  | .bytes v => [v]
  | .interp ps => partTexts ps
  | .match_ _ as => armTexts as
  | _ => []

end Typed

namespace Emit

/-! ## Nodes -/

/-- Code that reads a variable: from a local that keeps it, or from the environment if it is captured. -/
def IsRead (captures : List Variable) (places : List (Nat × Nat)) (v : Variable) (ops : List Op) : Prop :=
  (∃ i, (v.id, i) ∈ places ∧ ops = [.get i]) ∨ ∃ slot, captures.findIdx? (·.id = v.id) = some slot ∧
    ops = [.get 0, .read v.ty.slotKind (Layout.word * slot)]

/-- Code that copies values of variables into an environment in a local, from a slot on. -/
def copyOps (env : Nat) : Nat → List (Variable × List Op) → List Op
  | _, [] => []
  | slot, (v, value) :: rest =>
    [.get env] ++ value ++ [.write v.ty.slotKind (Layout.word * slot)] ++ copyOps env (slot + 1) rest

/-- Code that makes an environment of the values of variables, if there are any, and a function value with
this environment and the function in a table slot. -/
def closureOps (env value slot : Nat) (captured : List (Variable × List Op)) : List Op :=
  (if captured.isEmpty then []
    else [Op.const (Layout.word * captured.length), .host .alloc, .set env] ++ copyOps env 0 captured)
  ++ [Op.const (2 * Layout.word), .host .alloc, .set value]
  ++ [Op.get value, .const slot, .write .i32 0]
  ++ [Op.get value, if captured.isEmpty then .const 0 else .get env, .write .i32 Layout.word, .get value]

/-- Code that pushes an address, or copies an object with it from the constant data `Has`. -/
inductive Pushes (Has : Nat → List UInt8 → Prop) (a : Nat) (code : List Instr) : Prop
  | const (push : [.op (.const a)] <:+: code)
  | element {addr elements cap} (member : .i32 (BitVec.ofNat 32 a) ∈ elements)
      (data : Has addr ((Layout.arrayWords elements cap).flatMap (·.bytes)))
      (push : [.op (.const addr)] <:+: code)
  | field {addr size place fields} (member : (place, .i32 (BitVec.ofNat 32 a)) ∈ fields)
      (data : Has addr ((structWords size fields).flatMap (·.bytes)))
      (push : [.op (.const addr)] <:+: code)

/-- A string or bytes have an address, which the code uses. -/
def HasText (hi : State) (code : List Instr) (bs : List UInt8) : Prop :=
  ∃ a, hi.strings.lookup bs = some a ∧ Pushes (fun addr bytes => (addr, bytes) ∈ hi.data.segments) a code

/-- Somewhere in a function with `count` parameters, the address of an element was emitted. -/
def State.Reaches (hi : State) (count : Nat) (object position : Typed.Expr) (access : MemKind × Nat × List Code) :
    Prop :=
  ∃ s st after, s.paramCount = count ∧ HasRoom (count + hi.locals.length) count st after ∧
    (elementAddress s object.ty position.ty (expr s object) (expr s position)).run st = .ok (access, after)

/-- Somewhere in a function with `count` parameters, an expression was emitted, and its code is there. -/
def State.Emits (hi : State) (plan : Plan) (count : Nat) (x : Typed.Expr) (code : List Instr) : Prop :=
  ∃ s st after cs, s.plan = plan ∧ s.paramCount = count ∧ HasRoom (count + hi.locals.length) count st after ∧
    (expr s x).run st = .ok (cs, after) ∧ after.Later hi ∧ Code.flatList cs <:+: code

/-- What the code of a function, which has `count` parameters and captures some variables, shows of an
expression in it. -/
def Node (plan : Plan) (count : Nat) (captures : List Variable) (hi : State) (x : Typed.Expr) (code : List Instr) : Prop :=
  match x.form with
  | .lambda params vs body => ∃ env value slot captured,
    captured.map Prod.fst = vs ∧ (∀ c ∈ captured, IsRead captures hi.places c.1 c.2) ∧
      (closureOps env value slot captured).map .op <:+: code ∧
      hi.Schedules slot (.lambda x.id x.ty params vs body)
  | .function name => ∃ a, hi.thunks.lookup name = some a ∧ [.op (.const a)] <:+: code
  | .indirect f _ => ∀ params ret, f.ty = .fn params ret → ∃ i : Nat,
    hi.types[i]? = some (closureType params ret) ∧ [.op (.callIndirect i.toUInt32)] <:+: code
  | .index object position => ∃ access use, hi.Reaches count object position access ∧
    Code.flatList (access.2.2 ++ [.op use]) <:+: code ∧ (use = .read access.1 access.2.1 ∨ ∃ place, use = .set place)
  | .array _ | .structLit _ _ => hi.Emits plan count x code
  | _ => ∀ bs ∈ x.texts, HasText hi code bs

/-- An expression in one of some function literals that is still to be emitted. -/
def State.Defers (st : State) (xs : List Typed.Expr) (x : Typed.Expr) : Prop :=
  ∃ slot id ty params captures body, ⟨id, ty, .lambda params captures body⟩ ∈ xs ∧
    st.Schedules slot (.lambda id ty params captures body) ∧ x ∈ body.nodes

variable {plan : Plan} {count : Nat} {captures : List Variable} {hi : State} {x : Typed.Expr} {code code' : List Instr}

theorem Pushes.mono {Has Has' : Nat → List UInt8 → Prop} {a : Nat} (h : Pushes Has a code)
    (hHas : ∀ addr bytes, Has addr bytes → Has' addr bytes) (hcode : code <:+: code') : Pushes Has' a code' := by
  cases h with
  | const push => exact .const (push.trans hcode)
  | element member data push => exact .element member (hHas _ _ data) (push.trans hcode)
  | field member data push => exact .field member (hHas _ _ data) (push.trans hcode)

theorem HasText.mono {bs : List UInt8} (h : HasText hi code bs) (hcode : code <:+: code') : HasText hi code' bs := by
  obtain ⟨a, ha, hpush⟩ := h
  exact ⟨a, ha, hpush.mono (fun _ _ => id) hcode⟩

theorem State.Emits.mono (h : hi.Emits plan count x code) (hcode : code <:+: code') : hi.Emits plan count x code' := by
  obtain ⟨s, st, after, cs, hplan, hcount, hroom, hrun, hlater, hcs⟩ := h
  exact ⟨s, st, after, cs, hplan, hcount, hroom, hrun, hlater, hcs.trans hcode⟩

theorem Node.mono (h : Node plan count captures hi x code) (hcode : code <:+: code') : Node plan count captures hi x code' := by
  unfold Node at h ⊢
  split at h
  · obtain ⟨env, value, slot, captured, hfst, hread, hops, hslot⟩ := h
    exact ⟨env, value, slot, captured, hfst, hread, hops.trans hcode, hslot⟩
  · obtain ⟨a, ha, hpush⟩ := h
    exact ⟨a, ha, hpush.trans hcode⟩
  · intro params ret hty
    obtain ⟨i, hi, hcall⟩ := h params ret hty
    exact ⟨i, hi, hcall.trans hcode⟩
  · obtain ⟨access, use, haccess, hinfix, huse⟩ := h
    exact ⟨access, use, haccess, hinfix.trans hcode, huse⟩
  · exact h.mono hcode
  · exact h.mono hcode
  · exact fun bs hbs => (h bs hbs).mono hcode

theorem State.Defers.mono {xs ys : List Typed.Expr} (h : hi.Defers xs x) (hsub : xs ⊆ ys) : hi.Defers ys x := by
  obtain ⟨slot, id, ty, params, vs, body, hmem, hslot, hx⟩ := h
  exact ⟨slot, id, ty, params, vs, body, hsub hmem, hslot, hx⟩

/-! ## Trees -/

/-- The loads from the environment for variables that are read, in order. -/
def envLoads (captures vs : List Variable) : List (MemKind × UInt32) :=
  vs.filterMap fun v => (captures.findIdx? (·.id = v.id)).map fun slot =>
    (v.ty.slotKind, (Layout.word * slot).toUInt32)

theorem envLoads_append (captures vs ws : List Variable) :
    envLoads captures (vs ++ ws) = envLoads captures vs ++ envLoads captures ws :=
  List.filterMap_append

/-! ## Sites -/

/-- The locals of a function have 32 bits. -/
def Site.Small (s : Site) (hi : State) : Prop :=
  s.paramCount + hi.locals.length ≤ Layout.addressLimit

/-- The site is in a function lifted from a literal: its environment is the first parameter, which is kept, and the
captured variables have numbers below its own. -/
def Site.Lifted (s : Site) (c : Scope) (hi : State) : Prop :=
  c.kept 0 ∧ s.ret = .direct ∧ (∀ v ∈ s.captures, v.id < c.first) ∧ s.Small hi

/-- The role of the function being emitted. -/
def Site.role (s : Site) : Role :=
  match s.ret with
  | .direct => .ordinary
  | .resolve _ => .task

theorem Site.role_ne (s : Site) (slot : Nat) : s.role ≠ .starter slot := by
  unfold Site.role
  split <;> exact Role.noConfusion

/-- Bounds that leave room for the locals and types of a state, for the functions of the plan, and for the environment
or the promise in the first parameter. -/
structure Site.Bounded (s : Site) (hi : State) (b : Bounds) : Prop where
  locals : s.paramCount + hi.locals.length ≤ b.locals
  types : hi.types.length ≤ b.types
  calls : ∀ i, s.plan.Calls i → i < b.functions
  host : HostImport.all.length ≤ b.functions
  first : s.captures ≠ [] ∨ s.ret ≠ .direct → 0 < b.locals

/-- An instruction that stays within all such bounds, unless it is a branch. -/
def Refers (s : Site) (c : Scope) (hi : State) (o : Op) : Prop :=
  c.Knows → ∀ b, s.Bounded hi b → o.level? = none → o.Valid b

/-- An instruction that may stand anywhere: it leaves the environment alone, the role of the function allows it, it
goes out fewer than `n` labels, and refers only to what there is. -/
structure Steady (s : Site) (c : Scope) (hi : State) (n : Nat) (o : Op) : Prop where
  quiet : s.Lifted c hi → o.Quiet
  allows : s.Small hi → s.role.Allows s.plan c.kept o
  level : ∀ k ∈ o.level?, k < n
  refers : Refers s c hi o

/-- Instructions that may stand anywhere. -/
abbrev AllSteady (s : Site) (c : Scope) (hi : State) (n : Nat) : List Op → Prop :=
  Op.All (Steady s c hi n)

section

variable {s : Site} {c : Scope} {n i : Nat} {o : Op} {os os' : List Op}

@[simp] theorem steady_of_idle (h : o.Idle) : Steady s c hi n o :=
  ⟨fun _ => Op.quiet_of_idle h, fun _ => Role.allows_of_idle h, by simp [Op.level?_of_idle h],
    fun _ _ _ _ => Op.valid_of_idle h⟩

@[simp] theorem steady_callFn (h : s.plan.Calls i) : Steady s c hi n (.callFn i) :=
  ⟨fun _ => trivial, fun _ => Role.allows_callFn h, nofun, fun _ _ hb _ => Op.valid_callFn (hb.calls i h)⟩

@[simp] theorem steady_host {h : HostImport} (spawn : h ≠ .taskSpawn) (resolve : h ≠ .promiseResolve)
    (reject : h ≠ .promiseReject) : Steady s c hi n (.host h) :=
  steady_callFn (.host spawn resolve reject)

@[simp] theorem steady_callIndirect (h : i < hi.types.length) : Steady s c hi n (.callIndirect i.toUInt32) :=
  ⟨fun _ => trivial, fun _ => trivial, nofun,
    fun _ _ hb _ => Op.valid_callIndirect (Nat.lt_of_lt_of_le h hb.types)⟩

variable {depth : UInt32} {v : Variable} {object : Nat} {p : Place} {e : Typed.Expr} {l : Literal}

@[simp] theorem steady_br (h : depth.toNat < n) : Steady s c hi n (.br depth) :=
  ⟨fun _ => trivial, fun _ => trivial, fun _ hk => Option.some.inj hk ▸ h, fun _ _ _ => nofun⟩

@[simp] theorem steady_brIf (h : depth.toNat < n) : Steady s c hi n (.brIf depth) :=
  ⟨fun _ => trivial, fun _ => trivial, fun _ hk => Option.some.inj hk ▸ h, fun _ _ _ => nofun⟩

theorem IsLocal.quiet (h : IsLocal s c hi i) (hs : s.Lifted c hi) : (Op.get i).Quiet := by
  have hlt := h.2 (.inl ⟨0, hs.1⟩)
  have hpos : i ≠ 0 := fun hzero => h.1 (hzero ▸ hs.1)
  exact Op.quiet_get (Nat.pos_of_ne_zero hpos) (Nat.lt_of_lt_of_le hlt hs.2.2.2)

theorem IsLocal.lt (h : IsLocal s c hi i) (hk : c.Knows) {b : Bounds} (hb : s.Bounded hi b) : i < b.locals :=
  Nat.lt_of_lt_of_le (h.2 hk) hb.locals

@[simp] theorem steady_get (h : IsLocal s c hi i) : Steady s c hi n (.get i) :=
  ⟨h.quiet, fun _ => trivial, nofun, fun hk _ hb _ => Op.valid_get (h.lt hk hb)⟩

/-- Numbers of locals have 32 bits, so what is written is the local that is meant. -/
@[simp] theorem steady_set (h : IsLocal s c hi i) : Steady s c hi n (.set i) := by
  refine ⟨h.quiet, fun hsmall hkept => ?_, nofun, fun hk _ hb _ => Op.valid_set (h.lt hk hb)⟩
  have hnat : i.toUInt32.toNat = i := Nat.mod_eq_of_lt (Nat.lt_of_lt_of_le (h.2 (.inl ⟨_, hkept⟩)) hsmall)
  exact h.1 (hnat ▸ hkept)

@[simp] theorem allSteady_of_allIdle (h : Op.AllIdle os) : AllSteady s c hi n os := fun o ho => steady_of_idle (h o ho)

/-- Instructions that go out no label do not branch. -/
theorem AllSteady.straight (h : AllSteady s c hi 0 os) : Op.Straight os :=
  List.filterMap_eq_nil_iff.2 fun o ho => Option.eq_none_iff_forall_ne_some.2 fun k hk =>
    absurd ((h o ho).level k hk) (Nat.not_lt_zero k)

/-- Instructions that go out one label leave nothing around it. -/
theorem AllSteady.outward (h : AllSteady s c hi 1 os) : Code.outward (os.filterMap Op.level?) = [] := by
  refine List.filterMap_eq_nil_iff.2 fun k hk => ?_
  obtain ⟨o, ho, hlevel⟩ := List.mem_filterMap.1 hk
  rw [Nat.lt_one_iff.1 ((h o ho).level k hlevel)]

/-! ## Trees -/

/-- What code shows of the expressions and reads of a tree. -/
structure Shown (s : Site) (c : Scope) (xs : List Typed.Expr) (vs : List Variable) (hi : State) (code : List Code) :
    Prop where
  nodes : c.Knows → ∀ x ∈ xs, Node s.plan s.paramCount s.captures hi x (Code.flatList code) ∨ hi.Defers xs x
  loads : s.Lifted c hi → EnvLoads (Code.flatList code) (envLoads s.captures vs)
  careful : s.Small hi → Code.Careful s.plan s.role c.kept .idle code
  refers : ∀ o, .op o ∈ Code.flatList code → Refers s c hi o

/-- What code shows of a tree that has a flow. -/
structure Sound (s : Site) (c : Scope) (xs : List Typed.Expr) (vs : List Variable) (fl : List Flow) (hi : State)
    (code : List Code) : Prop extends Shown s c xs vs hi code where
  follows : c.Knows → Follows s (HasRoom (s.paramCount + hi.locals.length)) fl code

variable {xs ys : List Typed.Expr} {vs ws : List Variable} {fl fl' : List Flow} {a b : List Code}

/-- Instructions that stay within all bounds refer only to what there is. -/
theorem refers_ops (h : c.Knows → ∀ b, s.Bounded hi b → Op.AllValid b os) (o : Op)
    (ho : .op o ∈ Code.flatList (Code.ops os)) : Refers s c hi o := fun hk b hb _ =>
  h hk b hb o (by simpa [Code.flatList_ops] using ho)

namespace Shown

theorem append (ha : Shown s c xs vs hi a) (hb : Shown s c ys ws hi b) :
    Shown s c (xs ++ ys) (vs ++ ws) hi (a ++ b) where
  nodes hk x hx := by
    rw [Code.flatList_append]
    rcases List.mem_append.1 hx with hx | hx
    · exact (ha.nodes hk x hx).imp (fun h => h.mono (List.prefix_append _ _).isInfix)
        fun h => h.mono (List.subset_append_left _ _)
    · exact (hb.nodes hk x hx).imp (fun h => h.mono (List.suffix_append _ _).isInfix)
        fun h => h.mono (List.subset_append_right _ _)
  loads hs := by
    rw [Code.flatList_append, envLoads_append]
    exact (ha.loads hs).append (hb.loads hs)
  careful hsmall := (ha.careful hsmall).append s.role_ne (hb.careful hsmall)
  refers o ho := (List.mem_append.1 (Code.flatList_append a b ▸ ho)).elim (ha.refers o) (hb.refers o)

theorem ops (h : AllSteady s c hi n os) : Shown s c [] [] hi (Code.ops os) :=
  ⟨fun _ => nofun, fun hs => .ops fun o ho => (h o ho).quiet hs,
    fun hsmall => Code.careful_ops fun o ho => (h o ho).allows hsmall,
    fun o ho => (h o (by simpa [Code.flatList_ops] using ho)).refers⟩

theorem appendOps (ha : Shown s c xs vs hi a) (h : AllSteady s c hi n os) : Shown s c xs vs hi (a ++ Code.ops os) := by
  simpa only [List.append_nil] using ha.append (ops h)

theorem opsAppend (h : AllSteady s c hi n os) (ha : Shown s c xs vs hi a) : Shown s c xs vs hi (Code.ops os ++ a) :=
  (ops h).append ha

/-- Code between two marks. -/
theorem between (ha : Shown s c xs vs hi a) {x : Code} {i j : Instr} (hi' : ∀ o, i ≠ .op o) (hj : ∀ o, j ≠ .op o)
    (hx : x.flat = i :: (Code.flatList a ++ [j]))
    (hcareful : Code.Careful s.plan s.role c.kept .idle a → Code.Careful s.plan s.role c.kept .idle [x]) :
    Shown s c xs vs hi [x] where
  nodes hk x hmem := by
    rw [Code.flatList_singleton, hx]
    exact (ha.nodes hk x hmem).imp_left fun h => h.mono ⟨[i], [j], by simp⟩
  loads hs := by
    rw [Code.flatList_singleton, hx]
    exact (ha.loads hs).between (Instr.quiet_of_mark hi') (Instr.quiet_of_mark hj)
  careful hsmall := hcareful (ha.careful hsmall)
  refers o ho := by
    rw [Code.flatList_singleton, hx, List.mem_cons, List.mem_append, List.mem_singleton] at ho
    exact ha.refers o ((ho.resolve_left fun h => hi' o h.symm).resolve_right fun h => hj o h.symm)

theorem block (ha : Shown s c xs vs hi a) (ty : Option ValType) : Shown s c xs vs hi [.block ty a] :=
  ha.between (i := .block ty) (j := .end_) nofun nofun (by rw [Code.flat]) (.block · .nil)

theorem loop (ha : Shown s c xs vs hi a) : Shown s c xs vs hi [.loop a] :=
  ha.between (i := .loop none) (j := .end_) nofun nofun (by rw [Code.flat]) (.loop · .nil)

theorem cond (ha : Shown s c xs vs hi a) (ty : Option ValType) : Shown s c xs vs hi [.cond ty a] :=
  ha.between (i := .if_ ty) (j := .end_) nofun nofun (by rw [Code.flat]) (.cond · .nil)

theorem condElse (ha : Shown s c xs vs hi a) (hb : Shown s c ys ws hi b) (ty : Option ValType) :
    Shown s c (xs ++ ys) (vs ++ ws) hi [.condElse ty a b] where
  nodes hk x hx := by
    rw [Code.flatList_singleton, Code.flat]
    rcases List.mem_append.1 hx with hx | hx
    · exact (ha.nodes hk x hx).imp (fun h => h.mono ⟨[.if_ ty], .else_ :: (Code.flatList b ++ [.end_]), by simp⟩)
        fun h => h.mono (List.subset_append_left _ _)
    · exact (hb.nodes hk x hx).imp (fun h => h.mono ⟨.if_ ty :: (Code.flatList a ++ [.else_]), [.end_], by simp⟩)
        fun h => h.mono (List.subset_append_right _ _)
  loads hs := by
    rw [Code.flatList_singleton, Code.flat, envLoads_append]
    have hother := (hb.loads hs).between (i := .else_) (j := .end_) trivial trivial
    exact .quiet trivial ((ha.loads hs).append hother)
  careful hsmall := .condElse (ha.careful hsmall) (hb.careful hsmall) .nil
  refers o ho := by
    have ho : .op o ∈ Code.flatList a ∨ .op o ∈ Code.flatList b := by
      simpa [Code.flatList_singleton, Code.flat] using ho
    exact ho.elim (ha.refers o) (hb.refers o)

theorem ofInside {l : Label} (h : Shown (s.inside l) c xs vs hi a) : Shown s c xs vs hi a :=
  ⟨h.nodes, h.loads, h.careful, fun o ho hk b hb => h.refers o ho hk b ⟨hb.locals, hb.types, hb.calls, hb.host, hb.first⟩⟩

end Shown

namespace Sound

theorem append (ha : Sound s c xs vs fl hi a) (hb : Sound s c ys ws fl' hi b) :
    Sound s c (xs ++ ys) (vs ++ ws) (fl ++ fl') hi (a ++ b) :=
  ⟨ha.toShown.append hb.toShown, fun hk => (ha.follows hk).append (hb.follows hk)⟩

/-- Code that leaves nowhere. -/
theorem idle (h : Shown s c xs vs hi a) (hescapes : Code.escapes a = []) : Sound s c xs vs [] hi a :=
  ⟨h, fun _ => .idle hescapes⟩

theorem ops (h : AllSteady s c hi 0 os) : Sound s c [] [] [] hi (Code.ops os) :=
  .idle (.ops h) ((Code.escapes_ops os).trans h.straight)

theorem op (h : Steady s c hi 0 o) : Sound s c [] [] [] hi [.op o] :=
  ops (show AllSteady s c hi 0 [o] from by simpa using h)

theorem nil : Sound s c [] [] [] hi [] := ops Op.all_nil

theorem appendIdle (ha : Sound s c xs vs fl hi a) (hb : Sound s c [] [] [] hi b) : Sound s c xs vs fl hi (a ++ b) := by
  simpa only [List.append_nil] using ha.append hb

theorem appendOps (ha : Sound s c xs vs fl hi a) (h : AllSteady s c hi 0 os) : Sound s c xs vs fl hi (a ++ Code.ops os) :=
  ha.appendIdle (ops h)

theorem appendOp (ha : Sound s c xs vs fl hi a) (h : Steady s c hi 0 o) : Sound s c xs vs fl hi (a ++ [.op o]) :=
  ha.appendIdle (op h)

theorem opsAppend (ha : Sound s c xs vs fl hi a) (h : AllSteady s c hi 0 os) : Sound s c xs vs fl hi (Code.ops os ++ a) :=
  (ops h).append ha

theorem opAppend (ha : Sound s c xs vs fl hi a) (h : Steady s c hi 0 o) : Sound s c xs vs fl hi ([.op o] ++ a) :=
  (op h).append ha

/-- A test that stops the program. -/
theorem stops : Sound s c [] [] [] hi [.cond none [.op .unreachable]] :=
  .idle ((op (by simp)).toShown.cond none) rfl

/-- The same for an expression around. -/
theorem cons (ha : Sound s c xs vs fl hi a) (hx : c.Knows → Node s.plan s.paramCount s.captures hi x (Code.flatList a)) :
    Sound s c (x :: xs) vs fl hi a :=
  ⟨⟨fun hk => List.forall_mem_cons.2 ⟨.inl (hx hk), fun y hy => (ha.nodes hk y hy).imp_right
    fun h => h.mono (List.subset_cons_self _ _)⟩, ha.loads, ha.careful, ha.refers⟩, ha.follows⟩

/-- The same for an expression around that has no code of its own to be shown. -/
theorem plain (ha : Sound s c xs vs fl hi a)
    (hx : Node s.plan s.paramCount s.captures hi x (Code.flatList a) = ∀ bs ∈ [], HasText hi (Code.flatList a) bs := by rfl) :
    Sound s c (x :: xs) vs fl hi a :=
  ha.cons fun _ => hx ▸ nofun

/-- Constants in an object: their code shows them, and there is nothing else in them. -/
theorem constant (ha : Sound s c [] [] [] hi a) (hnodes : ∀ x ∈ xs, Node s.plan s.paramCount s.captures hi x (Code.flatList a))
    (hreads : vs = []) (hflow : fl = []) : Sound s c xs vs fl hi a := by
  subst hreads hflow
  exact ⟨⟨fun _ x hx => .inl (hnodes x hx), ha.loads, ha.careful, ha.refers⟩, ha.follows⟩

/-- Code that may be skipped. -/
theorem maybe (ha : Sound (s.inside .plain) c xs vs fl hi a) {x : Code} (hx : Shown s c xs vs hi [x])
    (hbody : a ∈ x.bodies) (hexits : x.exits = Code.outward (Code.escapes a)) : Sound s c xs vs [.maybe fl] hi [x] :=
  ⟨hx, fun hk => (ha.follows hk).maybe hbody hexits⟩

theorem either (ha : Sound (s.inside .plain) c xs vs fl hi a) (hb : Sound (s.inside .plain) c ys ws fl' hi b)
    (ty : Option ValType) : Sound s c (xs ++ ys) (vs ++ ws) [.either fl fl'] hi [.condElse ty a b] :=
  ⟨ha.toShown.ofInside.condElse hb.toShown.ofInside ty, fun hk => (ha.follows hk).either (hb.follows hk)⟩

/-- **Sound code is valid** where there are no labels, if its positions have 32 bits. -/
theorem valid (ha : Sound s c xs vs fl hi a) (hk : c.Knows) (hlabels : s.labels = []) (hfits : s.Fits a)
    {b : Bounds} (hb : s.Bounded hi b) : Code.AllValid b a := by
  have hescapes : Code.escapes a = [] := by
    have hdepth : s.depth? = fun _ => none := by
      funext isBreak
      rw [Site.depth?, labelDepth, hlabels]
      rfl
    have heq := (ha.follows hk).escapes hfits
    rw [hdepth] at heq
    refine List.eq_nil_iff_forall_not_mem.2 fun k hmem => ?_
    have hnone : some k ∈ (Flow.jumps fl).map fun _ => (none : Option Nat) := heq ▸ List.mem_map_of_mem hmem
    simp at hnone
  exact Code.allValid_of_escapes (by simp [hescapes]) fun o ho => ha.refers o ho hk b hb

end Sound

/-! ### Variables -/

/-- A variable of the function itself is no load from the environment. -/
theorem envLoads_of_first_le (hs : s.Lifted c hi) (hv : c.first ≤ v.id) : envLoads s.captures [v] = [] := by
  have houter : s.captures.findIdx? (·.id = v.id) = none := by
    refine List.findIdx?_eq_none_iff.2 fun u hu => decide_eq_false fun hid => ?_
    have hbelow := hs.2.2.1 u hu
    omega
  simp only [envLoads, List.filterMap_cons, houter, Option.map_none, List.filterMap_nil]

/-- The place of a variable may be written to, and is no load from the environment. -/
theorem State.Above.place {st : State} (hst : st.Above s.paramCount c)
    (hi' : st.places.lookup v.id = some i) (hhi : Path s.plan st hi) :
    IsLocal s c hi i ∧ (s.Lifted c hi → envLoads s.captures [v] = []) := by
  have hmem := mem_of_lookup hi'
  refine ⟨⟨hst.apart _ _ hmem, fun hk => ?_⟩, fun hs => ?_⟩
  · exact Nat.lt_of_lt_of_le ((hst.inside hk).bounds _ _ hmem).2.2 (Nat.add_le_add_left hhi.locals_le _)
  · exact envLoads_of_first_le hs ((hst.inside (.inl ⟨0, hs.1⟩)).bounds _ _ hmem).1

/-- Reading a variable makes a load from the environment exactly if it is captured. -/
theorem shows_readVariable (s : Site) (v : Variable) :
    Shows s c (readVariable s v) fun hi os => IsRead s.captures hi.places v os ∧ Sound s c [] [v] [] hi (Code.ops os) := by
  intro st hst
  refine yields_bind (yields_get ?_)
  split
  next i hplace =>
    refine yields_pure ⟨hst, .refl, fun hi hhi => ?_⟩
    obtain ⟨hlocal, hloads⟩ := hst.place hplace hhi
    have hget : Sound s c [] [] [] hi (Code.ops [.get i]) := .ops (by simp [hlocal])
    refine ⟨.inl ⟨i, hhi.places.subset (mem_of_lookup hplace), rfl⟩, ⟨hget.nodes, fun hs => ?_, hget.careful, hget.refers⟩, hget.follows⟩
    exact hloads hs ▸ hget.loads hs
  · split
    next slot hslot =>
      have hfound : s.captures.findIdx? (·.id = v.id) = some slot := hslot
      refine yields_pure ⟨hst, .refl, fun hi _ =>
        ⟨.inr ⟨slot, hslot, rfl⟩, .idle ⟨fun _ => nofun, fun _ => ?_, fun _ => ?_, refers_ops fun _ b hb => ?_⟩ rfl⟩⟩
      · simp only [envLoads, List.filterMap_cons, hfound, Option.map_some, List.filterMap_nil]
        exact .load .nil
      · exact Code.careful_ops (by simp)
      · have hcaptures : s.captures ≠ [] := by
          rintro hnil
          rw [hnil] at hfound
          cases hfound
        simp [hb.first (.inl hcaptures)]
    · exact True.intro

/-- New memory has its address in a local. -/
theorem shows_alloc (s : Site) (size : Nat) {α : Type} {k : Nat × List Op → Emit α} {V : State → α → Prop}
    (hk : ∀ i, Shows s c (k (i, [.const size, .host .alloc, .set i])) fun hi a => IsLocal s c hi i → V hi a) :
    Shows s c (alloc s size >>= k) V := by
  unfold alloc
  rw [bind_assoc]
  exact (shows_newLocal s .i32).bind hk

/-! ### Operators -/

/-- What leaves a function is careful; in a task it is the sequence that settles its promise. -/
theorem shows_returnOps (s : Site) :
    Shows s c (returnOps s) fun hi os => Sound s c [] [] [.leave] hi (Code.ops os) ∧ Op.Straight os := by
  have hnone {hi : State} (hret : s.ret ≠ .direct) {code : List Code} (hstraight : Code.escapes code = [])
      (hcareful : s.Small hi → Code.Careful s.plan .task c.kept .idle code)
      (hrefers : ∀ o, .op o ∈ Code.flatList code → Refers s c hi o) : Sound s c [] [] [.leave] hi code := by
    have htask : s.role = .task := by
      unfold Site.role
      split
      · contradiction
      · rfl
    exact ⟨⟨fun _ => nofun, fun hs => absurd hs.2.1 hret, htask.symm ▸ hcareful, hrefers⟩, fun _ => .leave hstraight⟩
  unfold returnOps
  split
  next hret =>
    have hallows : s.role.Allows s.plan c.kept .return_ := by
      rw [Site.role, hret]
      exact Role.noConfusion
    have hshown (hi : State) : Shown s c [] [] hi (Code.ops [.return_]) :=
      ⟨fun _ => nofun, fun _ => .quiet trivial .nil, fun _ => Code.careful_op hallows,
        refers_ops fun _ b _ => by simp⟩
    exact Shows.pure fun hi => ⟨⟨hshown hi, fun _ => .leave rfl⟩, rfl⟩
  next ty hret =>
    have hstraight (tmp : Nat) :
        Op.Straight ([.set tmp, .get 0, .get tmp] ++ widen ty ++ [.host .promiseResolve, .return_]) := by
      cases ty <;> rfl
    refine (shows_newLocal s ty).bind fun tmp => .pure fun hi htmp =>
      ⟨hnone (by simp [hret]) ((Code.escapes_ops _).trans (hstraight tmp)) (fun hsmall => ?_)
        (refers_ops fun hk b hb => ?_), hstraight tmp⟩
    · refine .op ((steady_set (n := 0) htmp).allows hsmall) (.name rfl (.give trivial ?_))
      have hlast : Code.Careful s.plan .task c.kept .given (Code.ops [.host .promiseResolve, .return_]) :=
        .make rfl (.leave rfl .nil)
      cases ty with
      | i32 | f64 => exact .convert hlast
      | i64 => exact hlast
    · simp [htmp.lt hk hb, hb.first (.inr (by simp [hret])), hb.host]
  next hret =>
    refine .pure fun hi => ⟨hnone (by simp [hret]) rfl (fun _ => ?_) (refers_ops fun _ b hb => ?_), rfl⟩
    · exact .name rfl (.give trivial (.make rfl (.leave rfl .nil)))
    · simp [hb.first (.inr (by simp [hret])), hb.host]

theorem shows_binaryOps (s : Site) (op : BinaryOp) (ty : Ty) :
    Shows s c (binaryOps s op ty) fun hi os => AllSteady s c hi 0 os := by
  unfold binaryOps
  split
  · exact .pure fun _ => by simp [Plan.Calls.strConcat]
  · exact .pure fun _ => by simp [Plan.Calls.strEq]
  · exact .pure fun _ => by simp [Plan.Calls.strEq]
  · exact .throw
  · refine (Shows.orDefect (V := fun _ _ => True) fun _ _ _ => trivial).bind fun num => ?_
    split
    · exact .pure fun _ _ => by split <;> simp
    · exact .pure fun _ _ => by simp

theorem shows_negate (ty : Ty) (operand : List Code) :
    Shows s c (negate ty operand) fun hi code => Sound s c xs vs fl hi operand → Sound s c xs vs fl hi code := by
  unfold negate
  split
  · exact .pure fun _ h => h.appendOp (by simp)
  · split
    · exact .pure fun _ h => (h.opAppend (by simp)).appendOp (by simp)
    · exact .pure fun _ h => (h.opAppend (by simp)).appendOps (by simp)
  · exact .throw

theorem shows_stringify (ty : Ty) : Shows s c (stringify ty) (Sound s c [] [] []) := by
  unfold stringify
  split
  · exact .pure fun _ => .nil
  · refine (shows_strConst _).bind fun yes => (shows_strConst _).bind fun no => .pure fun _ _ _ => ?_
    exact .idle ((Sound.op (by simp)).toShown.condElse (Sound.op (by simp)).toShown _) rfl
  · exact .pure fun _ => .op (by simp)
  · refine .pure fun _ => .ops (Op.all_append.2 ⟨?_, ?_⟩)
    · split <;> simp
    · split <;> simp
  · exact .throw

/-- Pieces of a string in order. -/
inductive SoundPieces (s : Site) (c : Scope) (hi : State) :
    List Typed.Expr → List Variable → List Flow → List (List Code) → Prop
  | nil : SoundPieces s c hi [] [] [] []
  | cons {xs ys vs ws fl fl' c₀ cs} (head : Sound s c xs vs fl hi c₀) (tail : SoundPieces s c hi ys ws fl' cs) :
      SoundPieces s c hi (xs ++ ys) (vs ++ ws) (fl ++ fl') (c₀ :: cs)

theorem SoundPieces.joined {pieces : List (List Code)} (h : SoundPieces s c hi xs vs fl pieces) :
    Sound s c xs vs fl hi (pieces.flatMap (· ++ [.op (.callFn s.plan.strConcat)])) := by
  induction h with
  | nil => exact .nil
  | cons head _ ih =>
    rw [List.flatMap_cons]
    exact (head.appendOp (by simp [Plan.Calls.strConcat])).append ih

theorem shows_joinPieces (s : Site) (pieces : List (List Code)) : Shows s c (joinPieces s pieces) fun hi code =>
      (∀ xs vs fl, SoundPieces s c hi xs vs fl pieces → Sound s c xs vs fl hi code) ∧
        ∀ c ∈ pieces, Code.flatList c <:+: Code.flatList code := by
  cases pieces with
  | nil =>
    refine (shows_strConst []).bind fun a => .pure fun hi _ => ⟨fun xs vs fl h => ?_, nofun⟩
    cases h
    exact .op (by simp)
  | cons p rest =>
    refine .pure fun hi => ⟨fun xs vs fl h => ?_, fun d hd => ?_⟩
    · cases h with
      | cons head tail => exact head.append tail.joined
    · rw [Code.flatList_append]
      rcases List.mem_cons.1 hd with rfl | hd
      · exact (List.prefix_append _ _).isInfix
      · refine .trans ?_ (List.suffix_append _ _).isInfix
        obtain ⟨front, back, rfl⟩ := List.append_of_mem hd
        rw [List.flatMap_append, List.flatMap_cons, Code.flatList_append, Code.flatList_append, Code.flatList_append]
        exact .trans (List.prefix_append _ _).isInfix
          (.trans (List.prefix_append _ _).isInfix (List.suffix_append _ _).isInfix)

theorem shows_stringParts (s : Site) : Shows s c (stringParts s) fun hi os => AllSteady s c hi 0 os :=
  (shows_newLocal s .i32).bind fun i => .pure fun hi hstr => by simp [hstr]

theorem shows_targetIndex (s : Site) (target : CallTarget) :
    Shows s c (targetIndex s target) fun _ i => s.plan.Calls i := by
  cases target with
  | function name => exact .orDefect fun i _ h => .direct h
  | external name => exact .orDefect fun i _ h => .external h
  | builtin b => exact .pure fun _ => by cases b <;> exact .host (by decide) (by decide) (by decide)
  | static struct slot => exact .orDefect fun i _ h => .method h

/-! ### Patterns -/

/-- Tests of a pattern leave only the arm. -/
theorem shows_pattern : ∀ (p : Typed.Pattern) (value : Nat), Variable.From c.first p.binder?.toList →
    Shows s c (pattern s value p) fun hi os => (IsLocal s c hi value → AllSteady s c hi 1 os) ∧
      ∀ bs ∈ p.texts, ∃ a, hi.strings.lookup bs = some a ∧ [.const a] <:+: os
  | .wildcard, _, _ => .pure fun _ => ⟨fun _ => by simp, List.forall_mem_nil _⟩
  | .bind v, _, hv => by
    refine shows_declareLocal _ (hv v (by simp [Pattern.binder?])) fun i => .pure fun hi hlocal => ?_
    exact ⟨fun hvalue => by simp [hvalue, hlocal], List.forall_mem_nil _⟩
  | .int _ _, _, _ => by
    refine (Shows.orDefect (V := fun _ _ => True) fun _ _ _ => trivial).bind fun ne => .pure fun hi _ => ?_
    exact ⟨fun hvalue => by simp [hvalue], List.forall_mem_nil _⟩
  | .float x, value, _ | .bool b, value, _ =>
    .pure fun hi => ⟨fun hvalue => by simp [hvalue], List.forall_mem_nil _⟩
  | .str _, _, _ => by
    refine (shows_strConst _).bind fun a => .pure fun hi ha => ⟨fun hvalue => ?_, fun bs hbs => ?_⟩
    · simp [hvalue, Plan.Calls.strEq]
    · obtain rfl := List.mem_singleton.1 hbs
      exact ⟨a, ha, [_], _, rfl⟩
  | .variant tag none, value, _ =>
    .pure fun hi => ⟨fun hvalue => by simp [tagTest, hvalue], List.forall_mem_nil _⟩
  | .variant _ (some (_, p)), _, hv => by
    refine (shows_newLocal s _).bind fun payload => ?_
    refine (shows_pattern p payload (by simpa [Pattern.binder?] using hv)).bind fun inner => ?_
    refine .pure fun hi hp hpayload => ⟨fun hvalue => ?_, fun bs hbs => ?_⟩
    · simp [tagTest, hvalue, hpayload, hp.1 hpayload]
    · obtain ⟨a, ha, hpush⟩ := hp.2 bs (by simpa [Pattern.texts] using hbs)
      exact ⟨a, ha, hpush.trans (List.suffix_append _ _).isInfix⟩

/-! ### Objects -/

theorem shows_template (s : Site) (words : List Layout.Word) (size : Nat) :
    Shows s c (template s words size) fun hi code => Sound s c [] [] [] hi code ∧
      ∃ addr, (addr, words.flatMap (·.bytes)) ∈ hi.data.segments ∧ [.op (.const addr)] <:+: Code.flatList code := by
  refine (shows_wordsConst words).bind fun addr => shows_alloc s size fun object => ?_
  refine .pure fun hi hobject haddr => ⟨.ops (by simp [hobject]), addr, haddr, ?_⟩
  rw [Code.flatList_ops]
  exact ⟨[.const size, .host .alloc, .set object, .get object].map .op,
    [.const size, .memoryCopy, .get object].map .op, rfl⟩

theorem Sound.storeSlot (ha : Sound s c xs vs fl hi a) (h : IsLocal s c hi object)
    (offset : Nat) (ty : Ty) : Sound s c xs vs fl hi (storeSlot object offset ty a) := by
  unfold Emit.storeSlot
  split
  · exact (ha.opAppend (by simp [h])).appendOp (by simp)
  · exact ha

theorem Sound.tagged (ha : Sound s c xs vs fl hi a) (h : IsLocal s c hi object) (size tag : Nat) :
    Sound s c xs vs fl hi (Code.ops ([Op.const size, .host .alloc, .set object]
      ++ [Op.get object, .const tag, .write .i32 0]) ++ a ++ [Code.op (.get object)]) :=
  (ha.opsAppend (by simp [h])).appendOp (by simp [h])

theorem shows_taggedOnly (s : Site) (tag : Nat) : Shows s c (tagged s tag none) (Sound s c [] [] []) := by
  refine shows_alloc s _ fun object => ?_
  refine (Shows.pure (V := fun _ code => code = []) fun _ => rfl).bind fun body => ?_
  refine .pure fun hi hbody hobject => ?_
  subst hbody
  exact Sound.nil.tagged hobject _ tag

theorem shows_tagged (s : Site) (tag : Nat) (ty : Ty) {x : Emit (List Code)} (hx : Shows s c x (Sound s c xs vs fl)) :
    Shows s c (tagged s tag (some (ty, x))) (Sound s c xs vs fl) := by
  refine shows_alloc s _ fun object => ?_
  have hbody : Shows s c (storeSlot object Layout.payload ty <$> x) fun hi code =>
      IsLocal s c hi object → Sound s c xs vs fl hi code :=
    hx.map fun hi code hcode hobject => hcode.storeSlot hobject _ _
  exact hbody.bind fun body => .pure fun hi hbody hobject => (hbody hobject).tagged hobject _ tag

/-! ### Environments -/

theorem shows_captureAll (s : Site) (env : Nat) : ∀ (us : List Variable) (slot : Nat),
    Shows s c (captureAll s env slot us) fun hi os =>
      (∃ captured, captured.map Prod.fst = us ∧ (∀ v ∈ captured, IsRead s.captures hi.places v.1 v.2) ∧
        os = copyOps env slot captured) ∧ (IsLocal s c hi env → Sound s c [] us [] hi (Code.ops os))
  | [], _ => .pure fun _ => ⟨⟨[], rfl, nofun, rfl⟩, fun _ => .nil⟩
  | v :: us, slot => by
    refine (shows_readVariable s v).bind fun value => (shows_captureAll s env us (slot + 1)).bind fun rest => ?_
    refine .pure fun hi ⟨⟨captured, hfst, hreads, hrest⟩, hcopies⟩ ⟨hread, hvalue⟩ =>
      ⟨⟨(v, value) :: captured, by simp [hfst], ?_, by simp [copyOps, hrest]⟩, fun henv => ?_⟩
    · exact List.forall_mem_cons.2 ⟨hread, hreads⟩
    · simp only [Code.ops, List.map_append]
      exact ((hvalue.opAppend (by simp [henv])).appendOp (by simp)).append (hcopies henv)

/-- The code of a function literal copies what it captures. -/
theorem shows_closure (s : Site) (slot : Nat) (us : List Variable) : Shows s c (closure s slot us) fun hi code =>
      (∃ env value captured, captured.map Prod.fst = us ∧ (∀ v ∈ captured, IsRead s.captures hi.places v.1 v.2) ∧
        Code.flatList code = (closureOps env value slot captured).map .op) ∧ Sound s c [] us [] hi code := by
  simp only [closure, pure_bind]
  split
  next hempty =>
    obtain rfl := List.isEmpty_iff.1 hempty
    refine shows_alloc s _ fun value => .pure fun hi hvalue => ⟨⟨0, value, [], rfl, nofun, ?_⟩, .ops (by simp [hvalue])⟩
    rw [Code.flatList_ops]
    rfl
  next hfull =>
    refine shows_alloc s _ fun env => ?_
    refine (shows_captureAll s env us 0).bind fun copies => shows_alloc s _ fun value => ?_
    refine .pure fun hi hvalue ⟨⟨captured, hfst, hreads, hcopies⟩, hsound⟩ henv =>
      ⟨⟨env, value, captured, hfst, hreads, ?_⟩, ?_⟩
    · have hcaptured : captured.isEmpty = false := by
        cases captured with
        | nil => exact absurd (hfst ▸ rfl) hfull
        | cons => rfl
      have hlength : us.length = captured.length := by rw [← hfst, List.length_map]
      simp [Code.flatList_ops, closureOps, hcopies, hcaptured, hlength]
    · simp only [Code.ops, List.map_append]
      refine Sound.appendOps (Sound.appendOps (Sound.appendOps ((hsound henv).opsAppend ?_) ?_) ?_) ?_
      all_goals simp [hvalue, henv]

/-! ### Places -/

/-- A place in a local, or behind the address in one. -/
def Place.Known (s : Site) (c : Scope) (hi : State) : Place → Prop
  | local_ i => IsLocal s c hi i
  | memory base _ _ => IsLocal s c hi base

theorem Place.steady_load (h : p.Known s c hi) : AllSteady s c hi n p.load := by
  cases p with
  | local_ i | memory i => simp [Place.load, show IsLocal s c hi i from h]

theorem Place.steady_store (h : p.Known s c hi) {value : Nat} (hvalue : IsLocal s c hi value) :
    AllSteady s c hi n (p.store value) := by
  cases p with
  | local_ i | memory i => simp [Place.store, hvalue, show IsLocal s c hi i from h]

theorem shows_storeAssigned (s : Site) (ty : Ty) (p : Place) :
    Shows s c (storeAssigned s ty p) fun hi os => p.Known s c hi → AllSteady s c hi 0 os := by
  unfold storeAssigned
  split
  · refine (shows_newLocal s _).bind fun tmp => .pure fun hi htmp hp => ?_
    simp [htmp, Place.steady_store hp htmp]
  · exact .pure fun _ _ => by simp

theorem shows_pushOps (s : Site) (p : Place) (item : Nat) (kind : MemKind) :
    Shows s c (pushOps s p item kind) fun hi os => p.Known s c hi → IsLocal s c hi item → AllSteady s c hi 0 os := by
  refine (shows_newLocal s .i32).bind fun array => .pure fun hi harray hp hitem => ?_
  simp [Place.steady_load hp, Place.steady_store hp harray, harray, hitem, Plan.Calls.arrayGrow]

theorem sound_popCode {array : Nat} (h : IsLocal s c hi array) (kind : MemKind) :
    Sound s c [] [] [] hi (popCode array kind) :=
  ((Sound.ops (by simp [h])).append .stops).appendOps (by simp [h])

theorem shows_elementAddress (s : Site) (objectTy positionTy : Ty) {object position : Emit (List Code)}
    (hobject : Shows s c object (Sound s c xs vs fl)) (hposition : Shows s c position (Sound s c ys ws fl')) :
    Shows s c (elementAddress s objectTy positionTy object position) fun hi a =>
      Sound s c (xs ++ ys) (vs ++ ws) (fl ++ fl') hi a.2.2 := by
  refine hobject.bind fun objectCode => (shows_newLocal s .i32).bind fun base => ?_
  refine hposition.bind fun positionCode => (shows_newLocal s .i32).bind fun i => ?_
  have checked {hi : State} (hi' : IsLocal s c hi i) (hposition : Sound s c ys ws fl' hi positionCode)
      (hbase : IsLocal s c hi base) (hobject : Sound s c xs vs fl hi objectCode) :
      Sound s c (xs ++ ys) (vs ++ ws) (fl ++ fl') hi (objectCode ++ [.op (.set base)] ++ positionCode
        ++ Code.ops ((if positionTy.isWide then [.num (.convert .wrap)] else []) ++ [.set i])
        ++ Code.ops [.get i, .get base, .head, .notBelow] ++ [.cond none [.op .unreachable]]) := by
    have hboth := (hobject.appendOp (o := .set base) (by simp [hbase])).append hposition
    refine ((hboth.appendOps (Op.all_append.2 ⟨?_, ?_⟩)).appendOps ?_).appendIdle .stops
    · split <;> simp
    · simp [hi']
    · simp [hi', hbase]
  cases objectTy with
  | array | bytes =>
    refine .pure fun hi hi' hposition hbase hobject => ?_
    exact (checked hi' hposition hbase hobject).appendOps (by simp [hi', hbase])
  | _ => exact .throw

/-! ### Control -/

theorem shows_tryCode (s : Site) (ty : Ty) (operand : List Code) :
    Shows s c (tryCode s ty operand) fun hi code => Sound s c xs vs fl hi operand → Sound s c xs vs fl hi code := by
  refine (shows_newLocal s .i32).bind fun result => (shows_returnOps s).bind fun leave => ?_
  refine .pure fun hi ⟨hleave, hstraight⟩ hresult hoperand => ?_
  have hops : Code.escapes (Code.ops (.get result :: leave)) = [] :=
    (Code.escapes_ops _).trans (Op.straight_cons.2 ⟨rfl, hstraight⟩)
  have htest : Sound s c [] [] [] hi [.cond none (Code.ops (.get result :: leave))] := by
    refine .idle (((Sound.op (by simp [hresult])).toShown.append hleave.toShown).cond none) ?_
    simp only [Code.escapes, Code.exits, hops, Code.outward, List.filterMap_nil, List.append_nil]
  refine ((hoperand.appendOps (by simp [hresult])).appendIdle htest).appendOps ?_
  split <;> simp [hresult]

theorem shows_forLoop (s : Site) (ty : Ty) (hv : c.first ≤ v.id) {iterable body : Emit (List Code)}
    (hiterable : Shows s c iterable (Sound s c xs vs fl))
    (hbody : Shows s c body (Sound (((s.inside .loopExit).inside .plain).inside .loopNext) c ys ws fl')) :
    Shows s c (forLoop s ty v iterable body) fun hi code =>
      Sound s c (xs ++ ys) (vs ++ ws) (fl ++ [.loop fl']) hi code ∧ (c.Knows → ∃ ac bb elem array len i item,
        code = forCode ac bb elem array len i item ∧
          (((s.inside .loopExit).inside .plain).inside .loopNext).Escapes fl' bb) := by
  unfold forLoop
  split
  · refine hiterable.bind fun arrayCode => (shows_newLocal s .i32).bind fun array => ?_
    refine (shows_newLocal s .i32).bind fun len => (shows_newLocal s .i32).bind fun i => ?_
    refine shows_declareLocal _ hv fun item => hbody.bind fun bodyCode => ?_
    refine .pure fun hi hbody hitem hi' hlen harray hiterable =>
      ⟨⟨?_, fun hk => follows_for (hiterable.follows hk) (hbody.follows hk)⟩,
        fun hk => ⟨_, _, _, _, _, _, _, rfl, (hbody.follows hk).escapes⟩⟩
    have hstart := hiterable.toShown.appendOps
      (show AllSteady s c hi 0 [.set array, .get array, .head, .set len, .const 0, .set i] by simp [harray, hlen, hi'])
    refine hstart.append (Shown.block (Shown.loop ?_) none)
    refine (Shown.opsAppend (n := 2) ?_ (hbody.toShown.ofInside.ofInside.ofInside.block none)).appendOps (n := 1) ?_
    · simp [hitem, harray, hlen, hi']
    · simp [hi']
  · exact .throw

theorem shows_jump (s : Site) (isBreak : Bool) : Shows s c (jump s isBreak) (Sound s c [] [] [.jump isBreak]) := by
  refine (Shows.orDefect (V := fun _ depth => s.depth? isBreak = some depth) fun _ _ h => h).bind fun depth => ?_
  refine .pure fun hi h => ⟨?_, fun _ => follows_jump h⟩
  exact Shown.ops (show AllSteady s c hi (depth.toUInt32.toNat + 1) [.br depth.toUInt32] by simp)

theorem shows_literalCapacity (s : Site) (length : Nat) : Shows s c (literalCapacity s length) fun _ _ => True := by
  simp only [literalCapacity]
  split
  · exact .pure fun _ => trivial
  · exact .throw

/-! ### Constants in objects -/

/-- A constant is shown where its bytes are, if it is a string or bytes. -/
theorem node_of_constant (h : e.Constant l) (htext : ∀ bs, l = .bytes bs → HasText hi code bs) :
    ∀ x ∈ e.nodes, Node plan count captures hi x code := by
  cases h with
  | str | bytes => simpa [Expr.nodes, Form.nodes, Node, Expr.texts] using htext
  | int | float | bool | negInt | negFloat => simp [Expr.nodes, Form.nodes, Node, Expr.texts]

theorem nodes_of_literals {es : List Typed.Expr} {ls : List Literal} (h : es.mapM (·.literal?) = some ls)
    (htext : ∀ bs, .bytes bs ∈ ls → HasText hi code bs) : ∀ x ∈ exprNodes es, Node plan count captures hi x code := by
  intro x hx
  obtain ⟨e, l, hl, hconst, hx⟩ := (constants_of_literals h).2.2 x hx
  exact node_of_constant hconst (fun bs hbs => htext bs (hbs ▸ hl)) x hx

/-! ### Trees -/

/-- The same for an expression around that is shown by its run. -/
theorem shows_emitted {xs : List Typed.Expr} {vs : List Variable} {fl : List Flow}
    (hx : ∀ (hi : State) (code : List Instr), hi.Emits s.plan s.paramCount x code → Node s.plan s.paramCount s.captures hi x code)
    (h : Shows s c (expr s x) (Sound s c xs vs fl)) : Shows s c (expr s x) (Sound s c (x :: xs) vs fl) := by
  refine h.withRun.mono fun hi code ⟨hcode, st, after, hroom, hrun, hlater⟩ => hcode.cons fun hk => ?_
  exact hx _ _ ⟨s, st, after, code, rfl, rfl, hroom hk, hrun, hlater, List.infix_rfl⟩

mutual

/-- Code of an expression shows what is in it. -/
theorem shows_expr : ∀ (e : Typed.Expr) {s : Site}, Variable.From c.first e.decls →
    Shows s c (expr s e) (Sound s c e.nodes e.reads e.flow)
  | ⟨_, _, .int _⟩, _, _ | ⟨_, _, .float _⟩, _, _ | ⟨_, _, .bool _⟩, _, _ => by
    rw [expr]
    exact .pure fun _ => (Sound.op (by simp)).plain
  | ⟨_, _, .str _⟩, _, _ | ⟨_, _, .bytes _⟩, _, _ => by
    rw [expr]
    refine (shows_strConst _).bind fun a => .pure fun hi ha => ?_
    refine (Sound.op (o := .const a) (by simp)).cons fun _ bs hbs => ?_
    obtain rfl := List.mem_singleton.1 hbs
    exact ⟨a, ha, .const List.infix_rfl⟩
  | ⟨_, _, .interp ps⟩, s, hd => by
    rw [expr]
    refine (shows_parts ps hd).bind fun pieces => ?_
    refine (shows_joinPieces s pieces).mono fun hi code ⟨hjoined, hpart⟩ ⟨hpieces, htexts⟩ => ?_
    refine (hjoined _ _ _ hpieces).cons fun _ bs hbs => ?_
    obtain ⟨p, hp, htext⟩ := htexts bs hbs
    exact htext.mono (hpart p hp)
  | ⟨_, _, .local_ v⟩, s, _ | ⟨_, _, .captured v⟩, s, _ => by
    rw [expr]
    exact (shows_readVariable s v).bind fun os => .pure fun hi ⟨_, hread⟩ => hread.plain
  | ⟨_, _, .function name⟩, s, _ => by
    rw [expr]
    refine (shows_functionConst s name).bind fun a => .pure fun hi ha => ?_
    exact (Sound.op (o := .const a) (by simp)).cons fun _ => ⟨a, ha, List.infix_rfl⟩
  | ⟨_, _, .unit enum tag⟩, _, _ => by
    rw [expr]
    exact (shows_unitConst enum tag).bind fun a => .pure fun hi _ => (Sound.op (by simp)).plain
  | ⟨_, _, .binary op lhs rhs⟩, s, hd => by
    obtain ⟨hl, hr⟩ := Variable.from_append.1 hd
    rw [Expr.flow, Form.flow]
    cases hop : op.isLogical with
    | false =>
      rw [expr_binary s hop]
      refine (shows_expr lhs hl).bind fun a => (shows_expr rhs hr).bind fun b => ?_
      refine (shows_binaryOps s op lhs.ty).bind fun os => .pure fun hi hos hb ha => ?_
      exact ((ha.append hb).appendOps hos).plain
    | true =>
      have hright := shows_expr (s := s.inside .plain) rhs hr
      cases op with
      | and =>
        rw [expr]
        refine (shows_expr lhs hl).bind fun a => Shows.bind hright fun b => .pure fun hi hb ha => ?_
        have hcond := hb.toShown.ofInside.condElse (Sound.op (o := .const 0) (by simp)).toShown (some .i32)
        rw [List.append_nil, List.append_nil] at hcond
        exact (ha.append (hb.maybe hcond (.head _) (by simp [Code.exits, Code.escapes, Op.level?, Op.const]))).plain
      | or =>
        rw [expr]
        refine (shows_expr lhs hl).bind fun a => Shows.bind hright fun b => .pure fun hi hb ha => ?_
        have hcond := (Sound.op (o := .const 1) (by simp)).toShown.condElse hb.toShown.ofInside (some .i32)
        exact (ha.append (hb.maybe hcond (.tail _ (.head _))
          (by simp [Code.exits, Code.escapes, Op.level?, Op.const]))).plain
      | _ => cases hop
  | ⟨_, _, .unary .not operand⟩, _, hd => by
    rw [expr]
    exact (shows_expr operand hd).bind fun a => .pure fun hi ha => (ha.appendOp (by simp)).plain
  | ⟨_, ty, .unary .neg operand⟩, s, hd => by
    rw [expr]
    split
    next v hv =>
      have hlit : operand.literal? = some (.word (intWord v operand.ty)) := by
        obtain ⟨id', ty', form'⟩ := operand
        cases form' with
        | int w =>
          cases hv
          rfl
        | _ => cases hv
      have hconst := constant_of_literal? hlit
      refine .pure fun hi => Sound.plain ((Sound.op (by simp)).constant ?_ hconst.reads hconst.flow)
      exact node_of_constant hconst (by simp)
    · refine (shows_expr operand hd).bind fun a => ?_
      exact (shows_negate ty a).mono fun hi code hcode ha => (hcode ha).plain
  | ⟨_, _, .cast operand⟩, s, hd => by
    rw [expr]
    refine (shows_expr operand hd).bind fun a => ?_
    refine (Shows.orDefect (V := fun hi os => AllSteady s c hi 0 os) fun os _ h =>
      allSteady_of_allIdle (Op.allIdle_cast h)).bind fun os => ?_
    exact .pure fun hi hos ha => (ha.appendOps hos).plain
  | ⟨_, _, .call target args⟩, s, hd => by
    cases target with
    | builtin b =>
      rw [expr]
      refine (shows_partArgs args hd).bind fun a => .pure fun hi ha => (ha.appendOp ?_).plain
      cases b <;> simp [builtinImport]
    | function name | external name | static struct slot =>
      rw [expr]
      · refine (shows_exprs args hd).bind fun a => (shows_targetIndex s _).bind fun i => ?_
        exact .pure fun hi hcalls ha => (ha.appendOp (by simp [hcalls])).plain
      · intro b h
        cases h
  | ⟨_, _, .method _ _ receiver args⟩, s, hd => by
    obtain ⟨hreceiver, hargs⟩ := Variable.from_append.1 hd
    rw [expr]
    refine (shows_expr receiver hreceiver).bind fun a => (shows_exprs args hargs).bind fun b => ?_
    refine (shows_targetIndex s _).bind fun i => .pure fun hi hcalls hb ha => ?_
    exact ((ha.append hb).appendOp (by simp [hcalls])).plain
  | ⟨_, _, .indirect callee args⟩, s, hd => by
    obtain ⟨hcallee, hargs⟩ := Variable.from_append.1 hd
    rw [expr]
    split
    next params ret hty =>
      refine (shows_expr callee hcallee).bind fun f => (shows_newLocal s .i32).bind fun value => ?_
      refine (shows_exprs args hargs).bind fun a => (shows_typeIndex _).bind fun type => ?_
      refine .pure fun hi htype ha hvalue hf => ?_
      have hcallee := hf.appendOps
        (show AllSteady s c hi 0 [.set value, .get value, .read .i32 Layout.word] by simp [hvalue])
      have hcall := (hcallee.append ha).appendOps
        (show AllSteady s c hi 0 [.get value, .head, .callIndirect type.toUInt32] by
          simp [hvalue, (List.getElem?_eq_some_iff.1 htype).1])
      refine hcall.cons fun _ params' ret' hty' => ?_
      cases hty.symm.trans hty'
      refine ⟨type, htype, .trans ?_ (Code.flatList_append _ _ ▸ (List.suffix_append _ _).isInfix)⟩
      exact ⟨[.op (.get value), .op .head], [], rfl⟩
    · exact .throw
  | ⟨_, _, .variant _ tag none⟩, s, _ => by
    rw [expr]
    exact (shows_taggedOnly s tag).mono fun _ _ h => h.plain
  | ⟨_, _, .variant _ tag (some payload)⟩, s, hd => by
    rw [expr]
    exact (shows_tagged s tag _ (shows_expr payload hd)).mono fun _ _ h => h.plain
  | ⟨_, _, .push receiver value⟩, s, hd => by
    obtain ⟨hreceiver, hvalue⟩ := Variable.from_append.1 hd
    rw [expr]
    refine (shows_place receiver hreceiver).bind fun target => (shows_expr value hvalue).bind fun v => ?_
    refine (shows_newLocal s _).bind fun item => (shows_pushOps s target.1 item _).bind fun push => ?_
    refine .pure fun hi hpush hitem hv ⟨hp, htarget⟩ => ?_
    exact ((htarget.append hv).appendOps (by simp [hitem, hpush hp hitem])).plain
  | ⟨_, _, .pop receiver⟩, s, hd => by
    rw [expr]
    split
    · refine (shows_expr receiver hd).bind fun a => (shows_newLocal s .i32).bind fun array => ?_
      refine .pure fun hi harray ha => ?_
      exact ((ha.appendOp (by simp [harray])).appendIdle (sound_popCode harray _)).plain
    · exact .throw
  | ⟨_, _, .arrayLength receiver⟩, _, hd | ⟨_, _, .byteLength receiver⟩, _, hd => by
    rw [expr]
    exact (shows_expr receiver hd).bind fun a => .pure fun hi ha => (ha.appendOp (by simp)).plain
  | ⟨_, _, .field object _⟩, _, hd => by
    rw [expr]
    refine (shows_expr object hd).bind fun a => ?_
    split
    · exact .pure fun hi ha => (ha.appendOp (by simp)).plain
    · exact .pure fun hi ha => (ha.appendOp (by simp)).plain
  | ⟨_, _, .index object position⟩, s, hd => by
    obtain ⟨hobject, hposition⟩ := Variable.from_append.1 hd
    rw [expr]
    refine (shows_elementAddress s _ _ (shows_expr object hobject) (shows_expr position hposition)).withRun.bind ?_
    intro access
    refine .pure fun hi ⟨h, st, after, hroom, hrun, _⟩ => (h.appendOp (by simp)).cons fun hk => ?_
    exact ⟨access, _, ⟨s, st, after, rfl, hroom hk, hrun⟩, List.infix_rfl, .inl rfl⟩
  | ⟨_, _, .await operand⟩, _, hd => by
    rw [expr]
    exact (shows_expr operand hd).bind fun a => .pure fun hi ha => (ha.appendOps (by simp)).plain
  | ⟨_, ty, .try_ operand⟩, s, hd => by
    rw [expr]
    refine (shows_expr operand hd).bind fun a => ?_
    exact (shows_tryCode s ty a).mono fun hi code hcode ha => (hcode ha).plain
  | ⟨_, _, .outcome _ value⟩, s, hd => by
    rw [expr]
    exact (shows_tagged s _ _ (shows_expr value hd)).mono fun _ _ h => h.plain
  | ⟨id, ty, .array elements⟩, s, hd => by
    refine shows_emitted (x := ⟨id, ty, .array elements⟩) (fun _ _ h => h) ?_
    cases ty with
    | array elem =>
      rw [expr]
      refine (shows_literalCapacity s _).bind fun cap => ?_
      dsimp only
      split
      next literals hliterals =>
        refine (Shows.mapM shows_literalWord literals).bind fun words => ?_
        refine (shows_template s _ _).mono fun hi code ⟨hcode, addr, haddr, hpush⟩ hwords _ => ?_
        have htext (bs : List UInt8) (hbs : Literal.bytes bs ∈ literals) : HasText hi (Code.flatList code) bs := by
          obtain ⟨w, hw, hword⟩ := hwords _ hbs
          obtain ⟨a, ha, rfl⟩ := hword bs rfl
          exact ⟨a, ha, .element hw haddr hpush⟩
        obtain ⟨hreads, hflow, -⟩ := constants_of_literals hliterals
        exact hcode.constant (nodes_of_literals hliterals htext) hreads hflow
      · refine shows_alloc s _ fun array => (shows_elementStores array _ elements 0 hd).bind fun stores => ?_
        refine .pure fun hi hstores harray _ => ?_
        exact ((hstores harray).opsAppend (by simp [harray])).appendOp (by simp [harray])
    | _ =>
      simp only [expr]
      exact .throw
  | ⟨id, ty, .structLit size fields⟩, s, hd => by
    refine shows_emitted (x := ⟨id, ty, .structLit size fields⟩) (fun _ _ h => h) ?_
    rw [expr]
    dsimp only
    split
    next literals hliterals =>
      have hfield (f : Nat × Literal) : Shows s c (do return (f.1, ← literalWord f.2)) fun hi w =>
          ∀ bs, f.2 = .bytes bs → ∃ a, hi.strings.lookup bs = some a ∧ w = (f.1, .i32 (BitVec.ofNat 32 a)) := by
        refine (shows_literalWord f.2).bind fun w => .pure fun hi hw bs hbs => ?_
        obtain ⟨a, ha, rfl⟩ := hw bs hbs
        exact ⟨a, ha, rfl⟩
      refine (Shows.mapM hfield literals).bind fun words => ?_
      refine (shows_template s _ _).mono fun hi code ⟨hcode, addr, haddr, hpush⟩ hwords => ?_
      have htext (bs : List UInt8) (hbs : .bytes bs ∈ literals.map Prod.snd) : HasText hi (Code.flatList code) bs := by
        obtain ⟨f, hf, hbytes⟩ := List.mem_map.1 hbs
        obtain ⟨w, hw, hword⟩ := hwords f hf
        obtain ⟨a, ha, rfl⟩ := hword bs hbytes
        exact ⟨a, ha, .field hw haddr hpush⟩
      obtain ⟨hls, hreads, hflow, hnodes⟩ := literals_of_fields hliterals
      obtain ⟨hnone, hstill, -⟩ := constants_of_literals hls
      rw [Form.nodes, hnodes]
      exact hcode.constant (nodes_of_literals hls htext) (hreads.trans hnone) (hflow.trans hstill)
    · refine shows_alloc s _ fun object => (shows_fieldStores object fields hd).bind fun stores => ?_
      refine .pure fun hi hstores hobject => ?_
      exact ((hstores hobject).opsAppend (by simp [hobject])).appendOp (by simp [hobject])
  | ⟨_, ty, .match_ scrutinee as⟩, s, hd => by
    obtain ⟨hscrutinee, harms⟩ := Variable.from_append.1 hd
    rw [expr]
    refine (shows_expr scrutinee hscrutinee).bind fun v => (shows_newLocal s _).bind fun value => ?_
    refine Shows.bind (shows_arms as value harms) fun body => .pure fun hi harms hvalue hv => ?_
    obtain ⟨hbody, hfollows, htexts⟩ := harms hvalue
    have hblock := (hbody.appendOps (show AllSteady _ c hi 0 [.unreachable] by simp)).block ty.valType?
    have hall := (hv.appendOp (o := .set value) (by simp [hvalue])).append ⟨hblock, fun hk => (hfollows hk).block _⟩
    rw [List.append_assoc] at hall
    refine hall.cons fun _ bs hbs => (htexts bs hbs).mono ?_
    rw [Code.flatList_append]
    refine .trans ?_ (List.suffix_append _ _).isInfix
    rw [Code.flatList_append, Code.flatList_singleton (.block _ _), Code.flat, Code.flatList_append]
    refine .trans ?_ (List.suffix_append _ _).isInfix
    exact ⟨[.block ty.valType?], Code.flatList (Code.ops [.unreachable]) ++ [.end_], by simp⟩
  | ⟨id, ty, .lambda params captures body⟩, s, _ => by
    rw [expr, Expr.nodes, Form.nodes_lambda]
    refine (shows_addJob _).bind fun slot => (shows_closure s slot captures).mono ?_
    rintro hi code ⟨⟨env, value, captured, hfst, hreads, hcode⟩, hsound⟩ hslot
    refine ⟨⟨fun _ => List.forall_mem_cons.2 ⟨.inl ?_, fun x hx => .inr ?_⟩, hsound.loads, hsound.careful, hsound.refers⟩, hsound.follows⟩
    · exact ⟨env, value, slot, captured, hfst, hreads, hcode ▸ List.infix_rfl, hslot⟩
    · exact ⟨slot, id, ty, params, captures, body, List.mem_cons_self, hslot, hx⟩
  | ⟨_, _, .block ss⟩, _, hd => by
    rw [expr]
    exact (shows_stmts ss hd).mono fun _ _ h => h.plain

theorem shows_exprs : ∀ (es : List Typed.Expr) {s : Site}, Variable.From c.first (exprDecls es) →
    Shows s c (exprs s es) (Sound s c (exprNodes es) (exprReads es) (exprFlow es))
  | [], _, _ => by
    rw [exprs]
    exact .pure fun _ => .nil
  | e :: es, _, hd => by
    obtain ⟨he, hes⟩ := Variable.from_append.1 hd
    rw [exprs]
    refine (shows_expr e he).bind fun a => (shows_exprs es hes).bind fun b => ?_
    exact .pure fun hi hb ha => ha.append hb

theorem shows_partArgs : ∀ (es : List Typed.Expr) {s : Site}, Variable.From c.first (exprDecls es) →
    Shows s c (partArgs s es) (Sound s c (exprNodes es) (exprReads es) (exprFlow es))
  | [], _, _ => by
    rw [partArgs]
    exact .pure fun _ => .nil
  | e :: es, s, hd => by
    obtain ⟨he, hes⟩ := Variable.from_append.1 hd
    rw [partArgs]
    refine (shows_expr e he).bind fun a => ?_
    have hrest (os : List Op) : Shows s c (do
        let b ← partArgs s es
        pure (a ++ Code.ops os ++ b)) fun hi code => AllSteady s c hi 0 os → Sound s c e.nodes e.reads e.flow hi a →
          Sound s c (exprNodes (e :: es)) (exprReads (e :: es)) (exprFlow (e :: es)) hi code :=
      (shows_partArgs es hes).bind fun b => .pure fun hi hb hos ha => (ha.appendOps hos).append hb
    dsimp only
    split
    · exact (shows_stringParts s).bind hrest
    · rw [pure_bind]
      exact (hrest []).mono fun _ _ h => h (by simp)

/-- Code of the pieces of a string, with the texts among them. -/
theorem shows_parts : ∀ (ps : List Typed.Part) {s : Site}, Variable.From c.first (partDecls ps) →
    Shows s c (parts s ps) fun hi pieces => SoundPieces s c hi (partNodes ps) (partReads ps) (partFlow ps) pieces ∧
      ∀ bs ∈ partTexts ps, ∃ p ∈ pieces, HasText hi (Code.flatList p) bs
  | [], _, _ => by
    rw [parts]
    exact .pure fun _ => ⟨.nil, nofun⟩
  | .text t :: ps, _, hd => by
    rw [parts, partTexts]
    split
    · exact shows_parts ps hd
    · refine (shows_strConst _).bind fun a => (shows_parts ps hd).bind fun rest => ?_
      refine .pure fun hi ⟨hrest, htexts⟩ ha => ⟨?_, List.forall_mem_cons.2 ⟨?_, fun bs hbs => ?_⟩⟩
      · exact .cons (Sound.op (o := .const a) (by simp)) hrest
      · exact ⟨_, List.mem_cons_self, a, ha, .const List.infix_rfl⟩
      · obtain ⟨p, hp, htext⟩ := htexts bs hbs
        exact ⟨p, List.mem_cons_of_mem _ hp, htext⟩
  | .expr e :: ps, s, hd => by
    obtain ⟨he, hps⟩ := Variable.from_append.1 hd
    rw [parts, partTexts]
    refine (shows_expr e he).bind fun a => (shows_stringify e.ty).bind fun b => ?_
    refine (shows_parts ps hps).bind fun rest => .pure fun hi ⟨hrest, htexts⟩ hb ha => ⟨?_, fun bs hbs => ?_⟩
    · exact .cons (ha.appendIdle hb) hrest
    · obtain ⟨p, hp, htext⟩ := htexts bs hbs
      exact ⟨p, List.mem_cons_of_mem _ hp, htext⟩

theorem shows_elementStores (array : Nat) (kind : MemKind) : ∀ (es : List Typed.Expr) (i : Nat) {s : Site},
    Variable.From c.first (exprDecls es) → Shows s c (elementStores s array kind i es) fun hi code =>
      IsLocal s c hi array → Sound s c (exprNodes es) (exprReads es) (exprFlow es) hi code
  | [], _, _, _ => by
    rw [elementStores]
    exact .pure fun _ _ => .nil
  | e :: es, i, _, hd => by
    obtain ⟨he, hes⟩ := Variable.from_append.1 hd
    rw [elementStores]
    refine (shows_expr e he).bind fun a => (shows_elementStores array kind es (i + 1) hes).bind fun b => ?_
    refine .pure fun hi hb ha harray => Sound.append ?_ (hb harray)
    exact (ha.opAppend (by simp [harray])).appendOp (by simp)

theorem shows_fieldStores (object : Nat) : ∀ (fs : List Typed.Init) {s : Site},
    Variable.From c.first (initDecls fs) → Shows s c (fieldStores s object fs) fun hi code =>
      IsLocal s c hi object → Sound s c (initNodes fs) (initReads fs) (initFlow fs) hi code
  | [], _, _ => by
    rw [fieldStores]
    exact .pure fun _ _ => .nil
  | ⟨_, ty, e⟩ :: fs, _, hd => by
    obtain ⟨he, hfs⟩ := Variable.from_append.1 hd
    rw [fieldStores]
    refine (shows_expr e he).bind fun a => (shows_fieldStores object fs hfs).bind fun b => ?_
    exact .pure fun hi hb ha hobject => (ha.storeSlot hobject _ ty).append (hb hobject)

/-- Code of the arms of a match, with the strings in their patterns. -/
theorem shows_arms : ∀ (as : List Typed.Arm) (value : Nat) {s : Site}, Variable.From c.first (armDecls as) →
    Shows s c (arms ((s.inside .plain).inside .plain) value as) fun hi code => IsLocal s c hi value →
      Shown s c (armNodes as) (armReads as) hi code ∧
        (c.Knows → FollowArms s (HasRoom (s.paramCount + hi.locals.length)) (armFlow as) code) ∧
          ∀ bs ∈ armTexts as, HasText hi (Code.flatList code) bs
  | [], _, _, _ => by
    rw [arms]
    exact .pure fun _ _ => ⟨Sound.nil.toShown, fun _ => .nil, nofun⟩
  | ⟨p, e⟩ :: as, value, s, hd => by
    obtain ⟨hfirst, has⟩ := Variable.from_append.1 hd
    obtain ⟨hp, he⟩ := Variable.from_append.1 hfirst
    rw [arms, armTexts]
    refine Shows.bind (shows_pattern (s := (s.inside .plain).inside .plain) p value hp) fun test =>
      Shows.bind (shows_expr (s := (s.inside .plain).inside .plain) e he) fun body => ?_
    refine (shows_arms as value has).bind fun rest => .pure fun hi hrest hbody ⟨htest, hp⟩ hvalue => ?_
    obtain ⟨hrest, hfollows, hmore⟩ := hrest hvalue
    have harm := ((hbody.toShown.opsAppend (htest hvalue)).appendOps
      (show AllSteady _ c hi 2 (if e.ty = .never then [] else [.br 1]) by split <;> simp)).ofInside.ofInside.block none
    refine ⟨harm.append hrest, fun hk => .cons (hbody.follows hk) (htest hvalue).outward (by split <;> rfl) (hfollows hk),
      fun bs hbs => ?_⟩
    rw [Code.flatList]
    rcases List.mem_append.1 hbs with hbs | hbs
    · obtain ⟨a, ha, hpush⟩ := hp bs hbs
      refine ⟨a, ha, .const ?_⟩
      refine .trans (hpush.map Instr.op) (.trans ?_ (List.prefix_append _ _).isInfix)
      rw [Code.flat, List.append_assoc, Code.flatList_append, Code.flatList_ops]
      exact ⟨[.block none], Code.flatList (body ++ Code.ops (if e.ty = .never then [] else [.br 1])) ++ [.end_],
        by simp⟩
    · exact (hmore bs hbs).mono (List.suffix_append _ _).isInfix

/-- A place to write to is no captured variable, and no environment. -/
theorem shows_place : ∀ (e : Typed.Expr) {s : Site}, Variable.From c.first e.decls →
    Shows s c (place s e) fun hi p => p.1.Known s c hi ∧ Sound s c e.nodes e.reads e.flow hi p.2
  | ⟨_, _, form⟩, s, hd => by
    cases form with
    | field object slot =>
      rw [place]
      refine (shows_expr object hd).bind fun a => (shows_newLocal s .i32).bind fun base => ?_
      exact .pure fun hi hbase ha => ⟨hbase, (ha.appendOp (by simp [hbase])).plain⟩
    | index object position =>
      obtain ⟨hobject, hposition⟩ := Variable.from_append.1 hd
      rw [place]
      refine (shows_elementAddress s _ _ (shows_expr object hobject) (shows_expr position hposition)).withRun.bind ?_
      intro access
      refine (shows_newLocal s .i32).bind fun base => .pure fun hi hbase ⟨ha, st, after, hroom, hrun, _⟩ => ⟨hbase, ?_⟩
      refine (ha.appendOp (by simp [hbase])).cons fun hk => ?_
      exact ⟨access, _, ⟨s, st, after, rfl, hroom hk, hrun⟩, List.infix_rfl, .inr ⟨base, rfl⟩⟩
    | local_ v =>
      rw [place_local]
      intro st hst
      refine yields_bind (yields_get ?_)
      cases hi : st.places.lookup v.id with
      | none => exact True.intro
      | some i =>
        refine yields_pure ⟨hst, .refl, fun hi' hhi => ?_⟩
        obtain ⟨hlocal, hloads⟩ := hst.place hi hhi
        exact ⟨hlocal, Sound.plain (.idle ⟨fun _ => nofun, fun hs => hloads hs ▸ .nil, fun _ => .nil, nofun⟩ rfl)⟩
    | _ =>
      simp only [place]
      exact .throw

/-- **Code of statements shows what is in them.** -/
theorem shows_stmts : ∀ (ss : List Typed.Stmt) {s : Site}, Variable.From c.first (stmtDecls ss) →
    Shows s c (stmts s ss) (Sound s c (stmtNodes ss) (stmtReads ss) (stmtFlow ss))
  | [], _, _ => by
    rw [stmts]
    exact .pure fun _ => .nil
  | t :: ts, _, hd => by
    obtain ⟨ht, hts⟩ := Variable.from_append.1 hd
    rw [stmts]
    refine (shows_stmt t ht).withRun.bind fun a => (shows_stmts ts hts).bind fun b => ?_
    refine .pure fun hi hb ⟨⟨ha, hkeeps⟩, st, st', hroom, hrun, _⟩ =>
      (show Sound _ c t.nodes t.reads [.stmt t t.flow] hi a from ⟨ha.toShown, fun hk => ?_⟩).append hb
    exact (ha.follows hk).stmt (hroom hk) hrun (hkeeps hk)

theorem shows_stmt : ∀ (t : Typed.Stmt) {s : Site}, Variable.From c.first t.decls →
    Shows s c (stmt s t) fun hi code => Sound s c t.nodes t.reads t.flow hi code ∧ (c.Knows → s.Keeps code t)
  | .let_ _ v init, s, hd => by
    obtain ⟨hinit, hv⟩ := Variable.from_append.1 hd
    rw [stmt]
    refine (shows_expr init hinit).bind fun a => ?_
    refine shows_declareLocal _ (hv v List.mem_cons_self) fun i => .pure fun hi hlocal ha => ?_
    exact ⟨ha.appendOp (by simp [hlocal]), fun _ => trivial⟩
  | .assign target op value, s, hd => by
    obtain ⟨htarget, hvalue⟩ := Variable.from_append.1 hd
    rw [stmt]
    refine (shows_place target htarget).bind fun p => (shows_expr value hvalue).bind fun v => ?_
    have hstore (code : List Code) : Shows s c (do
        let os ← storeAssigned s target.ty p.1
        pure (p.2 ++ code ++ Code.ops os)) fun hi whole => Sound s c value.nodes value.reads value.flow hi code →
          p.1.Known s c hi ∧ Sound s c target.nodes target.reads target.flow hi p.2 →
            Sound s c (target.nodes ++ value.nodes) (target.reads ++ value.reads) (target.flow ++ value.flow) hi whole ∧
              (c.Knows → True) := by
      refine (shows_storeAssigned s _ p.1).bind fun os => .pure fun hi hos hcode ⟨hp, hbefore⟩ => ?_
      exact ⟨(hbefore.append hcode).appendOps (hos hp), fun _ => trivial⟩
    cases op with
    | none =>
      dsimp only
      rw [pure_bind]
      exact hstore v
    | some op =>
      dsimp only
      refine (shows_binaryOps s op target.ty).bind fun os => ?_
      rw [pure_bind]
      refine (hstore _).mono fun hi code h hos hv hp => h ?_ hp
      exact (hv.opsAppend (Place.steady_load hp.1)).appendOps hos
  | .if_ cond thenBlock none, s, hd => by
    obtain ⟨hcond, hthen⟩ := Variable.from_append.1 hd
    rw [stmt]
    refine (shows_expr cond hcond).bind fun a => ?_
    refine Shows.bind (shows_stmts (s := s.inside .plain) thenBlock hthen) fun t => .pure fun hi ht ha => ?_
    exact ⟨ha.append (ht.maybe (ht.toShown.ofInside.cond none) (.head _) (by rw [Code.exits])), fun _ => trivial⟩
  | .if_ cond thenBlock (some elseBlock), s, hd => by
    obtain ⟨hfirst, helse⟩ := Variable.from_append.1 hd
    obtain ⟨hcond, hthen⟩ := Variable.from_append.1 hfirst
    rw [stmt, Stmt.nodes, Stmt.reads, List.append_assoc, List.append_assoc]
    refine (shows_expr cond hcond).bind fun a => ?_
    refine Shows.bind (shows_stmts (s := s.inside .plain) thenBlock hthen) fun t => ?_
    refine Shows.bind (shows_stmts (s := s.inside .plain) elseBlock helse) fun e => .pure fun hi he ht ha => ?_
    exact ⟨ha.append (ht.either he none), fun _ => trivial⟩
  | .while_ cond body, s, hd => by
    obtain ⟨hcond, hbody⟩ := Variable.from_append.1 hd
    rw [stmt]
    refine Shows.bind (shows_expr (s := (s.inside .loopExit).inside .loopNext) cond hcond) fun a => ?_
    refine Shows.bind (shows_stmts (s := (s.inside .loopExit).inside .loopNext) body hbody) fun b => ?_
    refine .pure fun hi hb ha => ⟨⟨?_, fun hk => follows_while (ha.follows hk) (hb.follows hk)⟩,
      fun hk => ⟨a, b, rfl, (ha.follows hk).escapes, (hb.follows hk).escapes⟩⟩
    have htest := ha.toShown.ofInside.ofInside.appendOps (show AllSteady s c hi 2 [.isZero, .brIf 1] by simp)
    have hround := (htest.append hb.toShown.ofInside.ofInside).appendOps (show AllSteady s c hi 1 [.br 0] by simp)
    exact hround.loop.block none
  | .for_ _ v iterable body, s, hd => by
    obtain ⟨hiterable, hrest⟩ := Variable.from_append.1 hd
    obtain ⟨hv, hbody⟩ := List.forall_mem_cons.1 hrest
    rw [stmt]
    exact shows_forLoop s _ hv (shows_expr iterable hiterable)
      (shows_stmts (s := ((s.inside .loopExit).inside .plain).inside .loopNext) body hbody)
  | .break_, s, _ => by
    rw [stmt]
    exact (shows_jump s true).mono fun _ _ h => ⟨h, fun _ => trivial⟩
  | .continue_, s, _ => by
    rw [stmt]
    exact (shows_jump s false).mono fun _ _ h => ⟨h, fun _ => trivial⟩
  | .return_ none, s, _ => by
    rw [stmt]
    exact (shows_returnOps s).bind fun os => .pure fun hi hos => ⟨hos.1, fun _ => trivial⟩
  | .return_ (some value), s, hd => by
    rw [stmt]
    refine (shows_expr value hd).bind fun v => (shows_returnOps s).bind fun os => .pure fun hi hos hv => ?_
    have hall := hv.append hos.1
    rw [List.append_nil, List.append_nil] at hall
    exact ⟨hall, fun _ => trivial⟩
  | .expr value, s, hd => by
    rw [stmt]
    refine (shows_expr value hd).bind fun v => .pure fun hi hv => ⟨hv.appendOps ?_, fun _ => trivial⟩
    split <;> simp
  | .block ss, _, hd => by
    rw [stmt]
    exact (shows_stmts ss hd).mono fun _ _ h => ⟨h, fun _ => trivial⟩

end

end

end Emit

end StackScript
