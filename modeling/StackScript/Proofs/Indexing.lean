import StackScript.Proofs.Emit.Settlement
import StackScript.Proofs.Exec.Arithmetic
import StackScript.Proofs.Structure

/-!
# Elements in bounds

The address of an element is found in two locals: one keeps the object while the position is evaluated, the other
one the low 32 bits of the position, which are compared with the length in the first word of the object before the
address is computed.  This module shows that the code of the position leaves the object alone, and what the
comparison does for positions of all types.
-/

namespace StackScript

open Code (flatList)
open Run (Data Does Level)

/-! ## Locals that code leaves alone -/

/-- An instruction that writes a local. -/
def Op.Writes (i : Nat) : Op → Prop
  | .localSet j | .localTee j => j.toNat = i
  | _ => False

namespace Code

variable {plan : Plan} {r : Role} {K : Nat → Prop} {i : Nat} {cs ds : List Code}

/-- Code that does not write a local. -/
def Spares (i : Nat) (cs : List Code) : Prop :=
  ∀ o, Instr.op o ∈ flatList cs → ¬o.Writes i

theorem Spares.append (h : Spares i cs) (h' : Spares i ds) : Spares i (cs ++ ds) := by
  intro o ho
  rw [flatList_append, List.mem_append] at ho
  exact ho.elim (h o) (h' o)

theorem Spares.cons {o : Op} (ho : ¬o.Writes i) (h : Spares i cs) : Spares i (.op o :: cs) := by
  intro o' ho'
  rcases List.mem_cons.1 (show Instr.op o' ∈ .op o :: flatList cs from ho') with heq | hmem
  · exact Instr.op.inj heq ▸ ho
  · exact h o' hmem

/-- **Careful code does not write what is to be kept.** -/
theorem Careful.spares {stage : Stage} (h : Careful plan r K stage cs) (hi : K i) : Spares i cs := by
  have inner {body rest : List Code} {c : Code} (hbody : Spares i body) (hrest : Spares i rest)
      (hc : ∀ o, Instr.op o ∈ c.flat → Instr.op o ∈ flatList body) : Spares i (c :: rest) := by
    intro o ho
    rw [flatList, List.mem_append] at ho
    exact ho.elim (fun ho => hbody o (hc o ho)) (hrest o)
  induction h with
  | nil | stop => exact nofun
  | @op o _ allowed _ ih =>
    refine ih.cons ?_
    cases o with
    | localSet j | localTee j => exact fun heq => allowed (show K j.toNat from heq ▸ hi)
    | _ => exact id
  | block _ _ ih ih' | loop _ _ ih ih' | cond _ _ ih ih' => exact inner ih ih' (by simp [flat])
  | @condElse _ body other _ _ _ _ ih ih' ih'' =>
    refine inner (ih.append ih') ih'' fun o ho => ?_
    simpa [flat, flatList_append] using ho
  | name names _ ih =>
    refine ih.cons ?_
    cases r with
    | ordinary => exact names.elim
    | starter | task => exact names ▸ id
  | @give o _ gives _ ih =>
    refine ih.cons ?_
    cases o with
    | localSet j | localTee j => exact gives.elim
    | _ => exact id
  | convert _ ih => exact ih.cons id
  | make makes _ ih =>
    refine ih.cons ?_
    cases r with
    | ordinary => exact makes.elim
    | starter | task => exact makes ▸ id
  | leave _ _ ih => exact ih.cons id

end Code

/-! ## The address of an element -/

/-- The code of an element's address, in its parts. -/
structure Element where
  object : List Code
  base : Nat
  position : List Code
  index : Nat
  /-- The position has 64 bits. -/
  wide : Bool
  /-- The elements are words, and not bytes. -/
  words : Bool

namespace Element

/-- What comes after the position: the comparison with the length, and the address. -/
def check (e : Element) : List Code :=
  Code.ops ((if e.wide then [Op.num (.convert .wrap)] else []) ++ [Op.set e.index])
    ++ Code.ops [.get e.index, .get e.base, .head, .notBelow] ++ [Code.cond none [.op .unreachable]]
    ++ Code.ops ([Op.get e.base, .get e.index] ++ if e.words then Op.offsetWords else [Op.add])

/-- The parts in order. -/
def code (e : Element) : List Code :=
  e.object ++ [.op (.set e.base)] ++ e.position ++ e.check

/-- The bytes of an element. -/
def size (e : Element) : Nat :=
  if e.words then Layout.word else 1

/-- The access to elements of a type: how, where in the object, and the code of the address. -/
inductive Serves (e : Element) : Ty → MemKind × Nat × List Code → Prop
  | array (elem : Ty) (words : e.words = true) : Serves e (.array elem) (elem.slotKind, Layout.arrayHeader, e.code)
  | bytes (words : e.words = false) : Serves e .bytes (.u8, Layout.strHeader, e.code)

/-- The locals are among those of a function, and the position leaves the object alone. -/
structure Sound (e : Element) (locals : Nat) : Prop where
  apart : e.base < e.index
  room : e.index < locals
  spares : Code.Spares e.base e.position

/-- What the code after that of a position does with an object of length `n` at an address, wherever it stands: if
the low 32 bits of the position are below the length, it leaves the address of that element; otherwise it traps
and leaves the machine as it is. -/
def Guards (e : Element) {img : Image} (g : Level img) (x : Data) (a n w : BitVec 32) (s : Stack) : Prop :=
  (w < n → Does g e.check x (.next { x with
    locals := x.locals.setIfInBounds e.index (.i32 w)
    stack := .i32 (a + w * BitVec.ofNat 32 e.size) :: s })) ∧
  (¬w < n → Does g e.check x (.fault (.trap g.fn.name .unreachable) x.machine))

variable {e : Element} {locals : Nat}

/-- **Positions are taken modulo two to the 32, and compared with the length.** -/
theorem guards (h : e.Sound locals) (hlocals : locals ≤ Layout.addressLimit) {img : Image} (g : Level img)
    {x : Data} {k : IntKind} (hwide : e.wide = k.isWide) {v : Int} (hv : k.contains v = true) {a n : BitVec 32}
    {s : Stack} (hsize : x.locals.size = locals) (hbase : x.locals[e.base]? = some (.i32 a))
    (hstack : x.stack = k.encode v :: s)
    (hlength : Memory.load .i32 a 0 x.machine.memory = .ok (.i32 n) x.machine.memory) :
    e.Guards g x a n (BitVec.ofInt 32 v) s := by
  obtain ⟨hapart, hroom, -⟩ := h
  have hindexNat : e.index.toUInt32.toNat = e.index := toNat_toUInt32 (by omega)
  have hbaseNat : e.base.toUInt32.toNat = e.base := toNat_toUInt32 (by omega)
  have hindex : e.index < x.locals.size := by omega
  let w := BitVec.ofInt 32 v
  let y : Data := { x with locals := x.locals.setIfInBounds e.index (.i32 w), stack := s }
  have hyIndex : y.locals[e.index]? = some (.i32 w) := by simp [y, hindex]
  have hyBase : y.locals[e.base]? = some (.i32 a) := by
    simp only [y]
    rw [Array.getElem?_setIfInBounds_ne (by omega), hbase]
  have hwrap : x.ops? g.fn.name (if e.wide then [.num (.convert .wrap)] else []) =
      some { x with stack := .i32 w :: s } := by
    have hresize : x.ops? g.fn.name _ = some { x with stack := IntKind.encode ⟨true, .w32⟩ v :: s } :=
      Emit.resize_ops hv hstack
    simpa [hwide, IntKind.isWide, IntKind.encode, w] using hresize
  have hkeep : Does g (Code.ops ((if e.wide then [.num (.convert .wrap)] else []) ++ [.set e.index])) x (.next y) := by
    refine .ops ((Emit.ops?_append hwrap).trans ?_)
    simp [Data.ops?, Data.op?, Op.set, hindexNat, hindex, y]
  have htest : Does g (Code.ops [.get e.index, .get e.base, .head, .notBelow]) y
      (.next { y with stack := .ofBool (decide (n ≤ w)) :: s }) := by
    refine .ops ?_
    have hload : Memory.load .i32 a (Nat.toUInt32 0).toNat y.machine.memory = .ok (.i32 n) x.machine.memory := hlength
    simp only [Data.ops?, Data.op?, Op.get, Op.head, Op.read, hindexNat, hbaseNat, hyIndex, hyBase, Option.map_some,
      Option.bind_some, hload]
    rfl
  have haddress : Does g (Code.ops ([.get e.base, .get e.index] ++ if e.words then Op.offsetWords else [.add])) y
      (.next { y with stack := .i32 (a + w * BitVec.ofNat 32 e.size) :: s }) := by
    refine .ops ?_
    cases hwords : e.words with
    | true =>
      simp only [List.cons_append, List.nil_append, if_true, Op.offsetWords, Data.ops?, Data.op?, Op.get, Op.const,
        hindexNat, hbaseNat, hyIndex, hyBase, Option.map_some, Option.bind_some, size, hwords]
      rfl
    | false =>
      simp only [List.cons_append, List.nil_append, if_false, Bool.false_eq_true, Data.ops?, Data.op?, Op.get,
        hindexNat, hbaseNat, hyIndex, hyBase, Option.map_some, Option.bind_some, size, hwords, BitVec.mul_one]
      rfl
  refine ⟨fun hlt => ?_, fun hge => ?_⟩
  · have hzero : decide (n ≤ w) = false := decide_eq_false (BitVec.not_le.2 hlt)
    rw [hzero] at htest
    exact ((hkeep.append htest).append (.cond_false rfl)).append haddress
  · have hone : decide (n ≤ w) = true := decide_eq_true (BitVec.not_lt.1 hge)
    rw [hone] at htest
    have hfault : Does g [.cond none [.op .unreachable]] { y with stack := .ofBool true :: s }
        (.fault (.trap g.fn.name .unreachable) x.machine) :=
      .cond_true (c := 1) (by decide) rfl .unreachable trivial
    exact ((hkeep.append htest).append hfault).early trivial

/-- Positions of 32 bits or less, and those that have a place in 32 bits, are compared as they are. -/
theorem below_iff {k : IntKind} {v : Int} (hv : k.contains v = true)
    (hsmall : k.isWide = false ∨ 0 ≤ v ∧ v < Layout.addressLimit) {n : BitVec 32} (hn : n.toNat ≤ 2 ^ 31) :
    BitVec.ofInt 32 v < n ↔ 0 ≤ v ∧ v < n.toNat := by
  have hrange : -2 ^ 31 ≤ v ∧ v < 2 ^ 32 := by
    obtain ⟨signed, width⟩ := k
    rcases hsmall with hwide | hsmall
    · rw [IntKind.contains_iff] at hv
      cases signed <;> cases width <;>
        simp_all [IntKind.isWide, IntKind.lo, IntKind.hi, IntKind.bits, IntWidth.bits, twoPow] <;> omega
    · have hlimit : Layout.addressLimit = 2 ^ 32 := rfl
      omega
  rw [BitVec.lt_def, BitVec.toNat_ofInt]
  omega

/-- The parts of the code are those of an object and a position. -/
def Evaluates (e : Element) (object position : Typed.Expr) : Prop :=
  (∃ s st st', (Emit.expr s object).run st = .ok (e.object, st')) ∧
    ∃ s st st', (Emit.expr s position).run st = .ok (e.position, st')

end Element

/-! ## Emitted elements -/

namespace Emit

variable {s : Site} {st after : State} {locals b : Nat}

/-- Locals that have just been made can be kept. -/
theorem State.Inside.above (hst : st.Inside s.paramCount 0 0) (kept : Nat → Prop) (tys : List ValType)
    (hkept : ∀ k, kept k → s.paramCount + st.locals.length ≤ k ∧ k < s.paramCount + st.locals.length + tys.length) :
    State.Above s.paramCount ⟨0, kept, True⟩ { st with locals := st.locals ++ tys } where
  inside _ := hst.grow (show Path s.plan st _ from .frame .refl (List.prefix_append _ _) List.suffix_rfl) rfl
  kept k hk := by
    rw [List.length_append, ← Nat.add_assoc]
    exact (hkept k hk).2
  apart id i hi hk := Nat.not_lt.2 (hkept i hk).1 (hst.bounds id i hi).2.2

/-- Only the local that was made last is to be kept. -/
theorem above_newLocal (hst : st.Inside s.paramCount 0 0) (ty : ValType) :
    State.Above s.paramCount ⟨0, (· = s.paramCount + st.locals.length), True⟩ { st with locals := st.locals ++ [ty] } :=
  hst.above _ [ty] (by rintro _ rfl; simp)

/-- Nothing is kept. -/
theorem State.Inside.free (hst : st.Inside s.paramCount 0 0) : st.Above s.paramCount (.free True) :=
  ⟨fun _ => hst, nofun, fun _ _ _ => id⟩

variable {e object position : Typed.Expr} {code : List Code}

/-- Variables still stand in locals after an expression. -/
theorem inside_expr (hst : st.Inside s.paramCount 0 0)
    (hrun : (expr s e).run st = .ok (code, after)) : after.Inside s.paramCount 0 0 :=
  (Yields.of_ok (shows_expr e (fun _ _ => Nat.zero_le _) st hst.free) hrun).1.inside (.inr trivial)

/-- An expression after the one that was kept in a new local leaves this local alone. -/
theorem spares_expr {ty : ValType} (hst : st.Inside s.paramCount 0 0)
    (hrun : (expr s e).run { st with locals := st.locals ++ [ty] } = .ok (code, after)) :
    st.locals.length < after.locals.length ∧ (s.Small after → Code.Spares (s.paramCount + st.locals.length) code) := by
  obtain ⟨-, hpath, hsound⟩ := Yields.of_ok (shows_expr e (fun _ _ => Nat.zero_le _) _ (above_newLocal hst ty)) hrun
  have hle := hpath.locals_le
  rw [List.length_append] at hle
  exact ⟨hle, fun hsmall => ((hsound _ .refl).careful hsmall).spares rfl⟩

/-- **The address of an element is emitted in its parts.** -/
theorem sound_elementAddress {access : MemKind × Nat × List Code} (hst : st.Inside s.paramCount 0 0)
    (hrun : (elementAddress s object.ty position.ty (expr s object) (expr s position)).run st = .ok (access, after))
    (hle : s.paramCount + after.locals.length ≤ locals) (hlimit : locals ≤ Layout.addressLimit) :
    ∃ e : Element, e.Serves object.ty access ∧ e.wide = position.ty.isWide ∧ e.Sound locals ∧
      e.Evaluates object position := by
  simp only [elementAddress, run_bind_eq_ok] at hrun
  obtain ⟨objectCode, st₁, hobject, base, _, hbase, positionCode, st₂, hposition, i, _, hi, hrest⟩ := hrun
  obtain ⟨rfl, rfl⟩ := Prod.mk.inj (Except.ok.inj hbase)
  obtain ⟨rfl, rfl⟩ := Prod.mk.inj (Except.ok.inj hi)
  obtain ⟨hgrown, hspares⟩ := spares_expr (inside_expr hst hobject) hposition
  let e (words : Bool) : Element := ⟨objectCode, s.paramCount + st₁.locals.length, positionCode,
    s.paramCount + st₂.locals.length, position.ty.isWide, words⟩
  have hevaluates (words : Bool) : (e words).Evaluates object position :=
    ⟨⟨s, st, st₁, hobject⟩, ⟨s, _, st₂, hposition⟩⟩
  have hsoundElement (words : Bool) (hafter : { st₂ with locals := st₂.locals ++ [.i32] } = after) :
      (e words).Sound locals := by
    subst hafter
    simp only [List.length_append, List.length_singleton] at hle
    exact ⟨by simp only [e]; omega, by simp only [e]; omega, hspares (by unfold Site.Small; omega)⟩
  split at hrest
  next elem hty =>
    obtain ⟨rfl, hafter⟩ := run_pure_eq_ok.1 hrest
    refine ⟨e true, ?_, rfl, hsoundElement true hafter, hevaluates true⟩
    simpa [hty, e, Element.code, Element.check] using Element.Serves.array (e := e true) elem rfl
  next hty =>
    obtain ⟨rfl, hafter⟩ := run_pure_eq_ok.1 hrest
    refine ⟨e false, ?_, rfl, hsoundElement false hafter, hevaluates false⟩
    simpa [hty, e, Element.code, Element.check] using Element.Serves.bytes (e := e false) rfl
  · cases hrest

/-- Code of an assignment to an element: the address is kept in a local while the value is evaluated, from the old one
if there is an operator, and is then written to. -/
def Stores (access : MemKind × Nat × List Code) (op : Option BinaryOp) (code : List Code) : Prop :=
  ∃ b tmp value, Code.Spares b value ∧ code = access.2.2 ++ [.op (.set b)]
      ++ (if op.isSome then Code.ops [.get b, .read access.1 access.2.1] else []) ++ value
      ++ Code.ops [.set tmp, .get b, .get tmp, .write access.1 access.2.1]

/-- **An assignment to an element writes to the address that was checked.** -/
theorem stores_assign {value : Typed.Expr} {id : Nat} {ty : Ty} {vt : ValType} {op : Option BinaryOp}
    (hst : st.Inside s.paramCount 0 0) (hty : ty.valType? = some vt)
    (hrun : (stmt s (.assign ⟨id, ty, .index object position⟩ op value)).run st = .ok (code, after))
    (hlimit : s.paramCount + after.locals.length ≤ Layout.addressLimit) :
    ∃ access st', (elementAddress s object.ty position.ty (expr s object) (expr s position)).run st =
      .ok (access, st') ∧ Stores access op code := by
  simp only [stmt, place, run_bind_eq_ok, run_pure_eq_ok] at hrun
  obtain ⟨_, _, ⟨access, st₁, haddress, b, _, hb, rfl, rfl⟩, v, st₂, hvalue, hrest⟩ := hrun
  obtain ⟨rfl, rfl⟩ := Prod.mk.inj (Except.ok.inj hb)
  have hinside : st₁.Inside s.paramCount 0 0 :=
    (Yields.of_ok (shows_elementAddress s _ _ (shows_expr object fun _ _ => Nat.zero_le _)
      (shows_expr position fun _ _ => Nat.zero_le _) st hst.free) haddress).1.inside (.inr trivial)
  have habove := above_newLocal hinside .i32
  obtain ⟨habove, -, hsound⟩ := Yields.of_ok (shows_expr value (fun _ _ => Nat.zero_le _) _ habove) hvalue
  have hstore {p : Place} {st₃ after : State} {os : List Op} (h : (storeAssigned s ty p).run st₃ = .ok (os, after)) :
      os = .set (s.paramCount + st₃.locals.length) :: p.store (s.paramCount + st₃.locals.length) ∧
        st₃.locals.length ≤ after.locals.length := by
    simp only [storeAssigned, hty, run_bind_eq_ok, run_pure_eq_ok] at h
    obtain ⟨tmp, _, htmp, rfl, rfl⟩ := h
    obtain ⟨rfl, rfl⟩ := Prod.mk.inj (Except.ok.inj htmp)
    exact ⟨rfl, by simp⟩
  refine ⟨access, st₁, haddress, s.paramCount + st₁.locals.length, ?_⟩
  cases op with
  | none =>
    simp only [pure_bind, run_bind_eq_ok, run_pure_eq_ok] at hrest
    obtain ⟨os, _, hos, rfl, rfl⟩ := hrest
    obtain ⟨rfl, hgrown⟩ := hstore hos
    refine ⟨s.paramCount + st₂.locals.length, v, ((hsound _ .refl).careful (by unfold Site.Small; omega)).spares rfl, ?_⟩
    simp [Place.store]
  | some op =>
    simp only [pure_bind, run_bind_eq_ok, run_pure_eq_ok] at hrest
    obtain ⟨combine, st₃, hcombine, os, _, hos, rfl, rfl⟩ := hrest
    obtain ⟨rfl, hgrown⟩ := hstore hos
    obtain ⟨-, hpath, hsteady⟩ := Yields.of_ok (shows_binaryOps s op ty _ habove) hcombine
    have hsmall : s.Small st₃ := by unfold Site.Small; omega
    have hcareful := (hsound _ hpath).careful hsmall
    have hops : Code.Careful s.plan s.role _ .idle (Code.ops combine) :=
      Code.careful_ops fun o ho => (hsteady _ .refl o ho).allows hsmall
    refine ⟨s.paramCount + st₃.locals.length, v ++ Code.ops combine, (hcareful.append s.role_ne hops).spares rfl, ?_⟩
    simp [Place.store, Place.load]

end Emit

/-! ## Programs -/

theorem Image.exists_load_of_valid {f : Function} {count types : Nat} (h : f.Valid count types) :
    ∃ fn, Image.load f = .ok fn := by
  obtain ⟨code, hbody, -⟩ := h
  obtain ⟨targets, htargets, -⟩ := Jumps.ofBody_flatList code
  exact ⟨_, by rw [Image.load, hbody, htargets]⟩

/-- The code of an element stands in a function, and is used to read the element at once, or kept to write it.  Where the
position has a type, it guards the element for all numbers of the type. -/
def Function.Reaches (f : Function) (object position : Typed.Expr) (k : IntKind) : Prop :=
  ∃ fn, Image.load f = .ok fn ∧ ∃ (e : Element) (access : MemKind × Nat × List Code) (use : Op) (pc : Nat),
    e.Serves object.ty access ∧ e.Evaluates object position ∧ Code.Spares e.base e.position ∧
    fn.HasAt pc (e.code ++ [.op use]) ∧ (use = .read access.1 access.2.1 ∨ ∃ b, use = .set b) ∧
    ∀ {img : Image} (g : Level img), g.fn = fn → ∀ (x : Data) (a n : BitVec 32) (v : Int) (s : Stack),
      x.locals.size = f.ty.params.length + f.locals.length → x.locals[e.base]? = some (.i32 a) →
      k.contains v = true → x.stack = k.encode v :: s →
      Memory.load .i32 a 0 x.machine.memory = .ok (.i32 n) x.machine.memory → e.Guards g x a n (BitVec.ofInt 32 v) s

theorem Element.Serves.code_eq {e : Element} {ty : Ty} {access : MemKind × Nat × List Code} (h : e.Serves ty access) :
    access.2.2 = e.code := by
  cases h <;> rfl

/-- **Elements are read and written in bounds.**  Every element in a program, whether it is read or written, has the code
of its address in a function of the module: the position does not change the object, its low 32 bits are compared with
the length, and the address is that of the element with this number; otherwise the program traps before it touches
memory.  An assignment, with an operator or without one, writes to the address that was checked before its value was
evaluated.  Positions that are no more than 32 bits wide, or that have a place in 32 bits, are in bounds as numbers. -/
theorem elements_of_compile {source : String} {config : CompileConfig} {p : Typed.Program} {m : Module}
    (hp : checkSource source config.strictMatch = .ok p) (hm : compile source config = .ok m) :
    (∀ id ty object position k, (⟨id, ty, .index object position⟩ : Typed.Expr) ∈ p.nodes →
      position.ty = .int k → ∃ f ∈ m.functions, f.Reaches object position k) ∧
    (∀ (s : Emit.Site) (st after : Emit.State) id ty vt object position op value code, st.Inside s.paramCount 0 0 →
      ty.valType? = some vt →
      (Emit.stmt s (.assign ⟨id, ty, .index object position⟩ op value)).run st = .ok (code, after) →
      s.paramCount + after.locals.length ≤ Layout.addressLimit →
        ∃ access st', (Emit.elementAddress s object.ty position.ty (Emit.expr s object) (Emit.expr s position)).run st =
          .ok (access, st') ∧ Emit.Stores access op code) ∧
    ∀ (k : IntKind) (v : Int) (n : BitVec 32), k.contains v = true →
      (k.isWide = false ∨ 0 ≤ v ∧ v < Layout.addressLimit) → n.toNat ≤ 2 ^ 31 →
        (BitVec.ofInt 32 v < n ↔ 0 ≤ v ∧ v < n.toNat) := by
  refine ⟨fun id ty object position k hnode hk => ?_, fun _ _ _ _ _ _ _ _ _ _ _ => Emit.stores_assign,
    fun _ _ _ hv hsmall => Element.below_iff hv hsmall⟩
  obtain ⟨st, all, h⟩ := unfolding_of_compile hp hm
  obtain ⟨f, hf, step, captures, after, hvisit⟩ := h.unfolded.visited h.compiled.typed _ hnode
  obtain ⟨access, use, ⟨s, st₁, st₂, hcount, ⟨hinside, hle⟩, hrun⟩, hinfix, huse⟩ := hvisit.node
  have hsmall := (h.small hf).1
  rw [hvisit.locals] at hsmall
  obtain ⟨e, hserves, hwide, hsound, hevaluates⟩ := Emit.sound_elementAddress (hcount ▸ hinside) hrun
    (hcount ▸ hle) hsmall
  obtain ⟨fn, hload⟩ := Image.exists_load_of_valid (h.compiled.valid_functions f hf)
  obtain ⟨pc, hat⟩ := LoadedFunction.HasAt.of_infix hload hinfix
  refine ⟨f, hf, fn, hload, e, access, use, pc, hserves, hevaluates, hsound.spares, ?_, huse, ?_⟩
  · rwa [hserves.code_eq] at hat
  · intro img g _ x a n v s hsize hbase hv hstack hlength
    rw [hk] at hwide
    rw [hvisit.locals] at hsize
    exact Element.guards hsound hsmall g hwide hv hsize hbase hstack hlength

/-- A program whose position has 64 bits. -/
def wideIndexSource : String :=
  "fn main() -> i32 \x7b let a = [1, 2]; let i: i64 = 4294967297; return a[i]; \x7d"

/-- Whether an expression is an element by a position of a type. -/
def Typed.Expr.hasIndex (k : IntKind) : Typed.Expr → Bool
  | ⟨_, _, .index _ position⟩ => position.ty = .int k
  | _ => false

/-- The position is beyond the length, but its low 32 bits are not: the second element is reached. -/
theorem elements_of_compile_wide : ∃ p m, checkSource wideIndexSource true = .ok p ∧
    compile wideIndexSource {} = .ok m ∧ ∃ f ∈ m.functions, ∃ fn, Image.load f = .ok fn ∧
    ∃ (e : Element) (use : Op) (pc : Nat), fn.HasAt pc (e.code ++ [.op use]) ∧
      ∀ {img : Image} (g : Level img), g.fn = fn → ∀ (x : Data) (a : BitVec 32) (s : Stack),
        x.locals.size = f.ty.params.length + f.locals.length → x.locals[e.base]? = some (.i32 a) →
        x.stack = .i64 4294967297 :: s →
        Memory.load .i32 a 0 x.machine.memory = .ok (.i32 2) x.machine.memory →
          Does g e.check x (.next { x with
            locals := x.locals.setIfInBounds e.index (.i32 1)
            stack := .i32 (a + 1 * BitVec.ofNat 32 e.size) :: s }) := by
  obtain ⟨p, m, hp, hm, hfound⟩ := @exists_compile wideIndexSource {} (fun p _ =>
    p.nodes.any (·.hasIndex ⟨true, .w64⟩)) (by decide +kernel)
  obtain ⟨⟨id, ty, form⟩, hx, hindex⟩ := List.any_eq_true.1 hfound
  cases form with
  | index object position =>
    obtain ⟨f, hf, fn, hload, e, access, use, pc, -, -, -, hat, -, hguards⟩ :=
      (@elements_of_compile wideIndexSource {} p m hp hm).1 _ _ _ _ _ hx (of_decide_eq_true hindex)
    refine ⟨p, m, hp, hm, f, hf, fn, hload, e, use, pc, hat, fun g hg x a s hsize hbase hstack hlength => ?_⟩
    exact (hguards g hg x a 2 4294967297 s hsize hbase (by decide) hstack hlength).1 (by decide)
  | _ => cases hindex

end StackScript
