import StackScript.Proofs.Exec.Effects

/-!
# Where instructions lead

What an instruction makes of the frame that runs it, of the operands and of promises, tasks and work of the host, and
what it asks for if that is not there.
-/

namespace StackScript

/-- What an instruction makes of a task with a frame, outer frames and operands. -/
inductive Op.Leads (img : Image) (name : String) (id : Nat) (f : Frame) (outer : List Frame)
    (s : Stack) : Op → Progress → Prop
  | br {depth f' s'} (jump : f.branch s depth.toNat = .ok (f', s')) :
      Leads img name id f outer s (.br depth) (Run.proceed id outer f' s')
  | brIfNot {depth s'} (top : s = .i32 0 :: s') :
      Leads img name id f outer s (.brIf depth) (Run.proceed id outer f s')
  | brIf {depth c s' f' s''} (top : s = .i32 c :: s') (nonzero : c ≠ 0)
      (jump : f.branch s' depth.toNat = .ok (f', s'')) :
      Leads img name id f outer s (.brIf depth) (Run.proceed id outer f' s'')
  | return_ {p} (left : Task.leave img ⟨id, f :: outer, s, none⟩ = .ok p) :
      Leads img name id f outer s .return_ p
  | call {index t} (defined : img.imports[index.toNat]? = none)
      (entered : Task.enter img ⟨id, f :: outer, s, none⟩ index.toNat = .ok t) :
      Leads img name id f outer s (.call index) (.next t)
  /-- An import gives a value, or none. -/
  | import_ {index i args rest v p} (imported : img.imports[index.toNat]? = some i)
      (arguments : s.split? i.ty.params.length = some (args, rest))
      (returned : Run.returnValue i ⟨id, f :: outer, rest, none⟩ v = .ok p) :
      Leads img name id f outer s (.call index) p
  | await {index i args rest h} (imported : img.imports[index.toNat]? = some i)
      (arguments : s.split? i.ty.params.length = some (args, rest))
      (awaits : HostImport.ofIndex? index.toNat = some .promiseAwait) :
      Leads img name id f outer s (.call index) (.blocked ⟨id, f :: outer, rest, some h⟩)
  | callIndirect {type slot s' index t} (top : s = .i32 slot :: s')
      (entry : img.tableEntry slot = .ok index) (known : img.types[type.toNat]?.isSome = true)
      (typed : img.funcType? index = img.types[type.toNat]?)
      (entered : Task.enter img ⟨id, f :: outer, s', none⟩ index = .ok t) :
      Leads img name id f outer s (.callIndirect type) (.next t)
  | drop {v s'} (top : s = v :: s') : Leads img name id f outer s .drop (Run.proceed id outer f s')
  | localGet {i v} (read : f.locals[i.toNat]? = some v) :
      Leads img name id f outer s (.localGet i) (Run.proceed id outer f (v :: s))
  | localSet {i v s'} (top : s = v :: s') (bound : i.toNat < f.locals.size) :
      Leads img name id f outer s (.localSet i)
        (Run.proceed id outer { f with locals := f.locals.setIfInBounds i.toNat v } s')
  | localTee {i v s'} (top : s = v :: s') (bound : i.toNat < f.locals.size) :
      Leads img name id f outer s (.localTee i)
        (Run.proceed id outer { f with locals := f.locals.setIfInBounds i.toNat v } s)
  | i32Const {v} : Leads img name id f outer s (.i32Const v) (Run.proceed id outer f (.i32 v :: s))
  | i64Const {v} : Leads img name id f outer s (.i64Const v) (Run.proceed id outer f (.i64 v :: s))
  | f64Const {v} : Leads img name id f outer s (.f64Const v) (Run.proceed id outer f (.f64 v :: s))
  | load {kind offset addr s' v} (top : s = .i32 addr :: s') :
      Leads img name id f outer s (.load kind offset) (Run.proceed id outer f (v :: s'))
  | store {kind offset v addr s'} (top : s = v :: .i32 addr :: s') :
      Leads img name id f outer s (.store kind offset) (Run.proceed id outer f s')
  | memoryCopy {target source len s'} (top : s = .i32 len :: .i32 source :: .i32 target :: s') :
      Leads img name id f outer s .memoryCopy (Run.proceed id outer f s')
  | num {op s'} (eval : op.eval name s = .ok s') :
      Leads img name id f outer s (.num op) (Run.proceed id outer f s')

/-- What an instruction makes of a task whose frame has passed it. -/
inductive Instr.Leads (img : Image) (fn : LoadedFunction) (id : Nat) (f : Frame) (outer : List Frame) (s : Stack)
    (pc : Nat) : Instr → Progress → Prop
  | block {ty} : Leads img fn id f outer s pc (.block ty)
      (Run.proceed id outer (f.openLabel ⟨.block, fn.jumps.endOf pc, s.length, Run.arityOf ty⟩) s)
  | loop {ty} : Leads img fn id f outer s pc (.loop ty)
      (Run.proceed id outer (f.openLabel ⟨.loop, pc, s.length, 0⟩) s)
  | ifNot {ty s'} (top : s = .i32 0 :: s') : Leads img fn id f outer s pc (.if_ ty)
      (Run.proceed id outer { f.openLabel ⟨.cond, fn.jumps.endOf pc, s'.length, Run.arityOf ty⟩ with
        pc := (fn.jumps.elseOf pc).elim (fn.jumps.endOf pc) (· + 1) } s')
  | if_ {ty c s'} (top : s = .i32 c :: s') (nonzero : c ≠ 0) : Leads img fn id f outer s pc (.if_ ty)
      (Run.proceed id outer (f.openLabel ⟨.cond, fn.jumps.endOf pc, s'.length, Run.arityOf ty⟩) s')
  | else_ {l ls} (labels : f.labels = l :: ls) :
      Leads img fn id f outer s pc .else_ (Run.proceed id outer { f with pc := l.target } s)
  | end_ {l ls} (labels : f.labels = l :: ls) :
      Leads img fn id f outer s pc .end_ (Run.proceed id outer { f with labels := ls } s)
  | leave {p} (labels : f.labels = []) (left : Task.leave img ⟨id, f :: outer, s, none⟩ = .ok p) :
      Leads img fn id f outer s pc .end_ p
  | op {o p} (leads : o.Leads img fn.name id f outer s p) : Leads img fn id f outer s pc (.op o) p

/-- A property of the task that goes on, if one does. -/
def Progress.All (P : Task → Prop) : Progress → Prop
  | .next t | .blocked t => P t
  | .finished _ => True

/-- The faults of an instruction that asks for what is not there. -/
inductive Op.Lacks (img : Image) (f : Frame) : Op → Fault → Prop
  | br {depth} (deep : f.labels.length ≤ depth.toNat) :
      Lacks img f (.br depth) (.malformed (.branchDepth depth.toNat))
  | brIf {depth} (deep : f.labels.length ≤ depth.toNat) :
      Lacks img f (.brIf depth) (.malformed (.branchDepth depth.toNat))
  | call {index} (imported : img.imports[index.toNat]? = none) (missing : img.defined? index.toNat = none) :
      Lacks img f (.call index) (.unknownFunction index.toNat)
  | type {type} (missing : img.types[type.toNat]? = none) :
      Lacks img f (.callIndirect type) (.malformed (.unknownType type.toNat))
  | entry {type slot index} (entry : img.tableEntry slot = .ok index) (missing : img.defined? index = none) :
      Lacks img f (.callIndirect type) (.unknownFunction index)
  | localGet {i} (bound : f.locals.size ≤ i.toNat) : Lacks img f (.localGet i) (.malformed (.unknownLocal i.toNat))
  | localSet {i} (bound : f.locals.size ≤ i.toNat) : Lacks img f (.localSet i) (.malformed (.unknownLocal i.toNat))
  | localTee {i} (bound : f.locals.size ≤ i.toNat) : Lacks img f (.localTee i) (.malformed (.unknownLocal i.toNat))

/-- The faults of a task whose next instruction asks for what is not there, or is not there itself. -/
inductive Task.Lacks (img : Image) : Task → Fault → Prop
  | frame {id s awaiting} : Lacks img ⟨id, [], s, awaiting⟩ (.malformed .noFrames)
  | function {id f outer s awaiting} (missing : img.functions[f.function]? = none) :
      Lacks img ⟨id, f :: outer, s, awaiting⟩ (.unknownFunction f.function)
  | instr {id f outer s awaiting fn} (found : img.functions[f.function]? = some fn)
      (missing : fn.body[f.pc]? = none) :
      Lacks img ⟨id, f :: outer, s, awaiting⟩ (.malformed (.pastEnd fn.name))
  | else_ {id f outer s awaiting fn} (found : img.functions[f.function]? = some fn)
      (next : fn.body[f.pc]? = some .else_) (labels : f.labels = []) :
      Lacks img ⟨id, f :: outer, s, awaiting⟩ (.malformed .elseOutside)
  | op {id f outer s awaiting fn o e} (found : img.functions[f.function]? = some fn)
      (next : fn.body[f.pc]? = some (.op o)) (lacks : o.Lacks img { f with pc := f.pc + 1 } e) :
      Lacks img ⟨id, f :: outer, s, awaiting⟩ e

theorem Op.Lacks.structural {img : Image} {f : Frame} {o : Op} {e : Fault} (h : o.Lacks img f e) : e.Structural := by
  cases h <;> trivial

theorem Task.Lacks.structural {img : Image} {t : Task} {e : Fault} (h : t.Lacks img e) : e.Structural := by
  cases h with
  | op _ _ lacks => exact lacks.structural
  | _ => trivial

/-! ## Parts of instructions -/

theorem Stack.split?_eq_some {s rest : Stack} {n : Nat} {args : List Value} (h : s.split? n = some (args, rest)) :
    n ≤ s.length ∧ args = (s.take n).reverse ∧ rest = s.drop n := by
  unfold split? at h
  split at h <;> cases h
  exact ⟨‹_›, rfl, rfl⟩

namespace Run

section Parts

variable {img : Image} {f : Frame} {s : Stack}

theorem popI32_eq_ok {r : BitVec 32 × Stack} (h : s.popI32 = .ok r) : s = .i32 r.1 :: r.2 := by
  rcases s with _ | ⟨_ | _ | _, s⟩ <;> cases h
  rfl

theorem pop_eq_ok {r : Value × Stack} (h : s.pop = .ok r) : s = r.1 :: r.2 := by
  cases s with
  | nil => cases h
  | cons v s' =>
    cases h
    rfl

variable {i : Nat} {v : Value} {e : Fault} {t : Task} {p : Progress}

theorem setLocal_eq_ok {f' : Frame} (h : f.setLocal i v = .ok f') :
    i < f.locals.size ∧ f' = { f with locals := f.locals.setIfInBounds i v } := by
  unfold Frame.setLocal at h
  split at h
  · cases h
    exact ⟨‹_›, rfl⟩
  · cases h

theorem setLocal_eq_error (h : f.setLocal i v = .error e) : f.locals.size ≤ i ∧ e = .malformed (.unknownLocal i) := by
  unfold Frame.setLocal at h
  split at h <;> cases h
  exact ⟨Nat.le_of_not_lt ‹_›, rfl⟩

theorem getLocal_eq_ok (h : f.getLocal i = .ok v) : f.locals[i]? = some v := by
  unfold Frame.getLocal at h
  split at h
  next hv =>
    cases h
    exact hv
  next => cases h

theorem getLocal_eq_error (h : f.getLocal i = .error e) : f.locals.size ≤ i ∧ e = .malformed (.unknownLocal i) := by
  unfold Frame.getLocal at h
  split at h <;> cases h
  exact ⟨Array.getElem?_eq_none_iff.1 ‹_›, rfl⟩

theorem branch_eq_error {depth : Nat} (h : f.branch s depth = .error e) :
    e.Ordinary ∨ f.labels.length ≤ depth ∧ e = .malformed (.branchDepth depth) := by
  unfold Frame.branch at h
  split at h
  next hdrop =>
    cases h
    exact .inr ⟨List.drop_eq_nil_iff.1 hdrop, rfl⟩
  next =>
    split at h
    · cases h
    all_goals
      split at h <;> cases h
      exact .inl ⟨trivial, id⟩

theorem leave_eq_error {number : Nat} {outer : List Frame} {awaiting : Option PromiseHandle}
    (h : Task.leave img ⟨number, f :: outer, s, awaiting⟩ = .error e) : e.Ordinary := by
  unfold Task.leave at h
  dsimp only at h
  split at h
  · cases h
    exact ⟨trivial, id⟩
  · split at h
    · cases h
      exact ⟨trivial, id⟩
    · split at h <;> cases h

theorem leave_eq_ok (h : t.leave img = .ok p) : ∃ f outer results rest, t.frames = f :: outer ∧
      t.stack.split? (img.functions[f.function]?.elim 0 (·.ty.results.length)) = some (results, rest) ∧
      f.base ≤ rest.length ∧
      ((outer = [] ∧ p = .finished results.head?) ∨
        (outer ≠ [] ∧ p = .next { t with
          frames := outer, stack := (Stack.truncate rest f.base).pushAll results })) := by
  unfold Task.leave at h
  split at h
  · cases h
  · next f outer hframes =>
    dsimp only at h
    split at h
    · cases h
    · next results rest hsplit =>
      split at h
      · cases h
      · next hbase =>
        refine ⟨f, outer, results, rest, hframes, hsplit, Nat.le_of_not_lt hbase, ?_⟩
        split at h
        · next hempty =>
          cases h
          exact .inl ⟨List.isEmpty_iff.1 hempty, rfl⟩
        · next hempty =>
          cases h
          exact .inr ⟨fun h => hempty (List.isEmpty_iff.2 h), rfl⟩

theorem enter_eq_ok {t' : Task} {index : Nat} (h : t.enter img index = .ok t') :
    ∃ place fn args rest, (img.functions[place]? = some fn ∧ index = img.imports.size + place) ∧
      t.frames.length < img.config.maxCallDepth ∧
      t.stack.split? fn.ty.params.length = some (args, rest) ∧
      t' = { t with
        frames := ⟨place, 0, args.toArray ++ fn.locals, rest.length, []⟩ :: t.frames
        stack := rest } := by
  unfold Task.enter at h
  split at h
  · cases h
  · next place fn hfn =>
    dsimp only at h
    split at h
    · cases h
    · next hdepth =>
      split at h
      · cases h
      · next args rest hsplit =>
        cases h
        refine ⟨place, fn, args, rest, ?_, Nat.lt_of_not_le hdepth, hsplit, rfl⟩
        unfold Image.defined? at hfn
        split at hfn
        · cases hfn
        · obtain ⟨_, hfound, heq⟩ := Option.map_eq_some_iff.1 hfn
          cases heq
          exact ⟨hfound, by omega⟩

theorem returnValue_eq_ok {i : Import} {v : Option Value}
    (h : returnValue i t v = .ok p) : p = .next { t with stack := v.toList ++ t.stack } := by
  cases v with
  | none | some =>
    simp only [returnValue] at h
    split at h <;> cases h
    rfl

theorem fails_returnValue (i : Import) (t : Task) (v : Option Value) : Fails Fault.Ordinary (returnValue i t v) := by
  cases v <;>
  · simp only [returnValue]
    split
    · exact fails_ok _
    · exact fails_error ⟨trivial, id⟩

theorem callIndirect_eq_ok {slot : BitVec 32} {type : Nat} (h : callIndirect img t slot type = .ok p) :
    ∃ index t', img.tableEntry slot = .ok index ∧ img.types[type]?.isSome = true ∧
      img.funcType? index = img.types[type]? ∧ t.enter img index = .ok t' ∧ p = .next t' := by
  obtain ⟨index, hindex, h⟩ := except_bind_eq_ok.1 h
  split at h
  · cases h
  · next expected htype =>
    split at h
    · next hty =>
      obtain ⟨t', ht', h⟩ := except_bind_eq_ok.1 h
      obtain rfl := except_pure_eq_ok.1 h
      exact ⟨index, t', hindex, by rw [htype]; rfl, by rw [hty, htype], ht', rfl⟩
    · cases h

theorem callIndirect_eq_error {slot : BitVec 32} {type : Nat} (h : callIndirect img t slot type = .error e) :
    e.Ordinary ∨ (img.types[type]? = none ∧ e = .malformed (.unknownType type)) ∨
      ∃ index, img.tableEntry slot = .ok index ∧ img.defined? index = none ∧ e = .unknownFunction index := by
  unfold callIndirect at h
  cases hentry : img.tableEntry slot with
  | error e' =>
    rw [hentry] at h
    cases h
    exact .inl (fails_tableEntry img slot e hentry)
  | ok index =>
    simp only [hentry, bind, Except.bind] at h
    split at h
    next missing =>
      cases h
      exact .inr (.inl ⟨missing, rfl⟩)
    next =>
      split at h
      · cases henter : t.enter img index with
        | error e' =>
          rw [henter] at h
          cases h
          obtain he | ⟨missing, rfl⟩ := enter_eq_error henter
          · exact .inl he
          · exact .inr (.inr ⟨index, rfl, missing, rfl⟩)
        | ok t' =>
          rw [henter] at h
          cases h
      · cases h
        exact .inl ⟨trivial, id⟩

end Parts

/-! ## What instructions do -/

/-- What a failed instruction of a task leaves. -/
def FailsAfter (img : Image) (t : Task) (L : Fault → Prop) (m : Machine) (e : Fault) (m' : Machine) : Prop :=
  (HostFault img t m e ∨ L e) ∧ ∃ log, m.Effect img t m' log

/-- What comes of an instruction of a task. -/
def Follows (img : Image) (t : Task) (m : Machine) : Progress → Machine → Prop
  | .next t', m' => t'.id = t.id ∧ t'.awaiting = none ∧ ∃ log, m.Effect img t m' log
  | .finished _, m' => m.SameSchedule m'
  | .blocked t', m' => ∃ h, t'.id = t.id ∧ t'.awaiting = some h ∧ m.Waits t.id h m'

/-- An instruction of a task that lacks and gives no more than it may. -/
def Obeys (img : Image) (t : Task) (L : Fault → Prop) (G : Progress → Prop) (x : Run Progress) : Prop :=
  ∀ m, Ends x m (FailsAfter img t L m) fun p m' => G p ∧ Follows img t m p m'

/-- What comes of an instruction that schedules nothing. -/
def Continues (id : Nat) : Progress → Prop
  | .next t => t.id = id ∧ t.awaiting = none
  | .finished _ => True
  | .blocked _ => False

section Obeys

variable {img : Image} {t : Task} {L : Fault → Prop} {G : Progress → Prop} {m m₁ m' : Machine} {e : Fault}
  {p : Progress}

theorem HostFails.failsAfter (h : HostFails img t m e m') : FailsAfter img t L m e m' :=
  ⟨.inl h.1, h.2⟩

theorem FailsAfter.of_same (h : e.Ordinary ∨ L e) (same : m.SameSchedule m') : FailsAfter img t L m e m' :=
  ⟨h.imp_left .ordinary, [], .quiet same⟩

theorem Follows.after (h : Follows img t m₁ p m') (same : m.SameSchedule m₁) : Follows img t m p m' := by
  cases p with
  | next t' =>
    obtain ⟨hid, hawait, log, heffect⟩ := h
    exact ⟨hid, hawait, log, heffect.after same⟩
  | finished v => exact same.trans h
  | blocked t' =>
    obtain ⟨h, hid, hawait, hwait, hwork, htasks, hready, hnext⟩ := h
    rw [same.promises] at hwait
    exact ⟨h, hid, hawait, hwait, hwork.trans same.work, htasks.trans same.tasks,
      hready.trans same.ready, hnext.trans same.nextTask⟩

variable {α : Type}

theorem Quiet.obeys {x : Run α} {f : α → Run Progress} (hx : Quiet x)
    (hf : ∀ a, Obeys img t L G (f a)) : Obeys img t L G (x >>= f) := by
  intro m
  refine ends_bind ((hx m).mono (fun _ _ h => .of_same (.inl h.1) h.2) fun a m₁ same =>
    (hf a m₁).mono ?_ fun _ _ h => ⟨h.1, h.2.after same⟩)
  rintro e m' ⟨he, log, heffect⟩
  exact ⟨he.imp_left (·.after same), log, heffect.after same⟩

theorem obeys_throw (h : e.Ordinary ∨ L e) : Obeys img t L G (throw e) := fun m =>
  ends_throw (.of_same h (.refl m))

theorem obeys_bind {r : Except Fault α} {f : α → Run Progress}
    (hr : ∀ e, r = .error e → e.Ordinary ∨ L e) (hf : ∀ a, r = .ok a → Obeys img t L G (f a)) :
    Obeys img t L G (ofExcept r >>= f) := fun m =>
  ends_bind (ends_ofExcept (fun a ha => hf a ha m) fun e he => .of_same (hr e he) (.refl m))

theorem obeys_operand {r : Except Fault α} {f : α → Run Progress} (hr : Fails Fault.Local r)
    (hf : ∀ a, r = .ok a → Obeys img t L G (f a)) : Obeys img t L G (ofExcept r >>= f) :=
  obeys_bind (fun e he => .inl (hr e he).ordinary) hf

theorem obeys_pure (hG : G p) (hp : Continues t.id p) : Obeys img t L G (pure p) := by
  intro m
  refine ends_pure ⟨hG, ?_⟩
  cases p with
  | next t' => exact ⟨hp.1, hp.2, [], .quiet (.refl m)⟩
  | finished v => exact .refl m
  | blocked t' => exact hp.elim

theorem obeys_proceed {outer : List Frame} {f : Frame} {s : Stack} (hG : G (proceed t.id outer f s)) :
    Obeys img t L G (pure (proceed t.id outer f s)) :=
  obeys_pure hG ⟨rfl, rfl⟩

theorem obeys_ofExcept {r : Except Fault Progress} (hr : ∀ e, r = .error e → e.Ordinary ∨ L e)
    (hok : ∀ p, r = .ok p → G p ∧ Continues t.id p) : Obeys img t L G (ofExcept r) := fun m =>
  ends_ofExcept (fun p hp => obeys_pure (L := L) (hok p hp).1 (hok p hp).2 m) fun e he => .of_same (hr e he) (.refl m)

/-- A return ends the task or goes on in the calling frame. -/
theorem obeys_leave {f : Frame} {outer : List Frame} {s : Stack}
    (hG : ∀ p, Task.leave img ⟨t.id, f :: outer, s, none⟩ = .ok p → G p) :
    Obeys img t L G (ofExcept (Task.leave img ⟨t.id, f :: outer, s, none⟩)) := by
  refine obeys_ofExcept (fun e he => .inl (leave_eq_error he)) fun p hp => ⟨hG p hp, ?_⟩
  obtain ⟨_, _, results, rest, -, -, -, ⟨-, rfl⟩ | ⟨-, rfl⟩⟩ := leave_eq_ok hp
  · trivial
  · exact ⟨rfl, rfl⟩

theorem continues_enter {t' t'' : Task} {index : Nat} (h : t'.enter img index = .ok t'') (hid : t'.id = t.id)
    (hawait : t'.awaiting = none) : Continues t.id (.next t'') := by
  obtain ⟨place, fn, args, rest, -, -, -, rfl⟩ := enter_eq_ok h
  exact ⟨hid, hawait⟩

variable {fn : LoadedFunction} {f : Frame} {outer : List Frame} {s : Stack} {o : Op}

/-- A call obeys; what it calls is known if it is one of the host. -/
theorem call_obeys {index : UInt32}
    (hcall : ∀ i op args rest, img.imports[index.toNat]? = some i → s.split? i.ty.params.length = some (args, rest) →
      HostImport.ofIndex? index.toNat = some op → t.hostCall? img = some (op, args)) :
    Obeys img t (Op.Lacks img f (.call index)) (Op.Leads img fn.name t.id f outer s (.call index))
      (call img ⟨t.id, f :: outer, s, none⟩ index.toNat) := by
  unfold call
  split
  next i hi =>
    unfold callImport
    split
    · exact obeys_throw (.inl ⟨trivial, id⟩)
    next args rest hsplit =>
      dsimp only
      split
      next op hop =>
        intro m
        refine ends_bind ((hostCall_ends (hcall i op args rest hi hsplit hop)).mono (fun _ _ h => h.failsAfter) ?_)
        intro reply m' hreply
        cases reply with
        | value v =>
          obtain ⟨log, heffect⟩ := hreply
          refine ends_ofExcept (fun p hp => ⟨.import_ hi hsplit hp, ?_⟩) fun e he =>
            ⟨.inl (.ordinary (fails_returnValue _ _ _ e he)), log, heffect⟩
          obtain rfl := returnValue_eq_ok hp
          exact ⟨rfl, rfl, log, heffect⟩
        | suspend h =>
          obtain ⟨⟨args', hawait⟩, waits⟩ := hreply
          obtain ⟨rfl, -⟩ := Prod.mk.inj (Option.some.inj (hawait.symm.trans (hcall i op args rest hi hsplit hop)))
          exact ends_pure ⟨.await hi hsplit hop, h, rfl, rfl, waits⟩
      next =>
        refine (quiet_externalCall i.name args).obeys fun v =>
          obeys_ofExcept (fun e he => .inl (fails_returnValue _ _ v e he)) fun p hp => ⟨.import_ hi hsplit hp, ?_⟩
        obtain rfl := returnValue_eq_ok hp
        exact ⟨rfl, rfl⟩
  next hnone =>
    refine obeys_ofExcept (fun e he => ?_) fun p hp => ?_
    · refine Fails.map (P := fun e => e.Ordinary ∨ Op.Lacks img f (.call index) e) (fun e he => ?_) e he
      obtain he | ⟨missing, rfl⟩ := enter_eq_error he
      · exact .inl he
      · exact .inr (.call hnone missing)
    · obtain ⟨t', ht', rfl⟩ := except_map_eq_ok.1 hp
      exact ⟨.call hnone ht', continues_enter ht' rfl rfl⟩

/-- **What an instruction without structure does.** -/
theorem execOp_obeys (hcall : ∀ index i op args rest, o = .call index → img.imports[index.toNat]? = some i →
      s.split? i.ty.params.length = some (args, rest) → HostImport.ofIndex? index.toNat = some op →
        t.hostCall? img = some (op, args)) :
    Obeys img t (o.Lacks img f) (o.Leads img fn.name t.id f outer s) (execOp img fn t.id f outer s o) := by
  cases o with
  | unreachable => exact obeys_throw (.inl ⟨trivial, id⟩)
  | br depth =>
    refine obeys_bind (fun e he => ?_) fun r hr => obeys_proceed (.br hr)
    obtain he | ⟨deep, rfl⟩ := branch_eq_error he
    · exact .inl he
    · exact .inr (.br deep)
  | brIf depth =>
    refine obeys_operand (fails_popI32 s) fun r hr => ?_
    have htop := popI32_eq_ok hr
    dsimp only
    split
    next hzero => exact obeys_proceed (.brIfNot (hzero ▸ htop))
    next hne =>
      refine obeys_bind (fun e he => ?_) fun r' hr' => obeys_proceed (.brIf htop hne hr')
      obtain he | ⟨deep, rfl⟩ := branch_eq_error he
      · exact .inl he
      · exact .inr (.brIf deep)
  | return_ => exact obeys_leave fun p hp => .return_ hp
  | call index => exact call_obeys fun i op args rest => hcall index i op args rest rfl
  | callIndirect type =>
    refine obeys_operand (fails_popI32 s) fun r hr => obeys_ofExcept (fun e he => ?_) fun p hp => ?_
    · obtain he | ⟨missing, rfl⟩ | ⟨index, entry, missing, rfl⟩ := callIndirect_eq_error he
      · exact .inl he
      · exact .inr (.type missing)
      · exact .inr (.entry entry missing)
    · obtain ⟨index, t', hentry, hknown, htyped, henter, rfl⟩ := callIndirect_eq_ok hp
      exact ⟨.callIndirect (popI32_eq_ok hr) hentry hknown htyped henter, continues_enter henter rfl rfl⟩
  | drop => exact obeys_operand (fails_pop s) fun r hr => obeys_proceed (.drop (pop_eq_ok hr))
  | localGet i =>
    refine obeys_bind (fun e he => ?_) fun v hv => obeys_proceed (.localGet (getLocal_eq_ok hv))
    obtain ⟨hbound, rfl⟩ := getLocal_eq_error he
    exact .inr (.localGet hbound)
  | localSet i =>
    refine obeys_operand (fails_pop s) fun r hr => obeys_bind (fun e he => ?_) fun f' hf' => ?_
    · obtain ⟨hbound, rfl⟩ := setLocal_eq_error he
      exact .inr (.localSet hbound)
    · obtain ⟨hbound, rfl⟩ := setLocal_eq_ok hf'
      exact obeys_proceed (.localSet (pop_eq_ok hr) hbound)
  | localTee i =>
    refine obeys_operand (fails_pop s) fun r hr => obeys_bind (fun e he => ?_) fun f' hf' => ?_
    · obtain ⟨hbound, rfl⟩ := setLocal_eq_error he
      exact .inr (.localTee hbound)
    · obtain ⟨hbound, rfl⟩ := setLocal_eq_ok hf'
      exact obeys_proceed (.localTee (pop_eq_ok hr) hbound)
  | i32Const v => exact obeys_proceed .i32Const
  | i64Const v => exact obeys_proceed .i64Const
  | f64Const v => exact obeys_proceed .f64Const
  | load kind offset =>
    exact obeys_operand (fails_popI32 s) fun r hr => (quiet_onMemory (Memory.fails_load kind r.1 _)).obeys fun v =>
      obeys_proceed (.load (popI32_eq_ok hr))
  | store kind offset =>
    refine obeys_operand (fails_pop s) fun r hr => obeys_operand (fails_popI32 r.2) fun r' hr' => ?_
    have htop : s = r.1 :: .i32 r'.1 :: r'.2 := by rw [pop_eq_ok hr, popI32_eq_ok hr']
    exact (quiet_onMemory (Memory.fails_store kind r'.1 _ r.1)).obeys fun _ => obeys_proceed (.store htop)
  | memoryCopy =>
    refine obeys_operand (fails_popI32 s) fun r hr => obeys_operand (fails_popI32 r.2) fun r' hr' =>
      obeys_operand (fails_popI32 r'.2) fun r'' hr'' => ?_
    have htop : s = .i32 r.1 :: .i32 r'.1 :: .i32 r''.1 :: r''.2 := by
      rw [popI32_eq_ok hr, popI32_eq_ok hr', popI32_eq_ok hr'']
    exact (quiet_onMemory (Memory.fails_copy r''.1 r'.1 r.1)).obeys fun _ => obeys_proceed (.memoryCopy htop)
  | num op => exact obeys_operand (fails_numOp s fn.name op) fun s' hs' => obeys_proceed (.num hs')

end Obeys

/-- What the next instruction of a task makes of it. -/
def StepLeads (img : Image) (t : Task) (p : Progress) : Prop :=
  ∃ f outer fn i, t.frames = f :: outer ∧ img.functions[f.function]? = some fn ∧ fn.body[f.pc]? = some i ∧
    i.Leads img fn t.id { f with pc := f.pc + 1 } outer t.stack f.pc p

/-- **What the next instruction of a task does.** -/
theorem step_obeys (img : Image) (t : Task) : Obeys img t (t.Lacks img) (StepLeads img t) (step img t) := by
  obtain ⟨id, frames, s, awaiting⟩ := t
  cases frames with
  | nil => exact obeys_throw (.inr .frame)
  | cons f outer =>
    simp only [step]
    split
    next missing => exact obeys_throw (.inr (.function missing))
    next fn hfn =>
      split
      next missing => exact obeys_throw (.inr (.instr hfn missing))
      next i hi =>
        have hleads {p : Progress} (h : i.Leads img fn id { f with pc := f.pc + 1 } outer s f.pc p) :
            StepLeads img ⟨id, f :: outer, s, awaiting⟩ p := ⟨f, outer, fn, i, rfl, hfn, hi, h⟩
        cases i with
        | block ty => exact obeys_proceed (hleads .block)
        | loop ty => exact obeys_proceed (hleads .loop)
        | if_ ty =>
          refine obeys_operand (fails_popI32 s) fun r hr => ?_
          have htop := popI32_eq_ok hr
          dsimp only
          split
          next hzero => exact obeys_proceed (hleads (.ifNot (hzero ▸ htop)))
          next hne => exact obeys_proceed (hleads (.if_ htop hne))
        | else_ =>
          simp only [exec]
          split
          next hlabels => exact obeys_throw (.inr (.else_ hfn hi hlabels))
          next hlabels => exact obeys_proceed (hleads (.else_ hlabels))
        | end_ =>
          simp only [exec]
          split
          next hlabels => exact obeys_leave fun p hp => hleads (.leave hlabels hp)
          next hlabels => exact obeys_proceed (hleads (.end_ hlabels))
        | op o =>
          have hop := @execOp_obeys img ⟨id, f :: outer, s, awaiting⟩ fn { f with pc := f.pc + 1 } outer s o (by
            rintro index i op args rest rfl himport hsplit hop
            simp [Task.hostCall?, hfn, hi, himport, hop, hsplit])
          exact fun m => (hop m).mono (fun _ _ h => ⟨h.1.imp_right (.op hfn hi), h.2⟩) fun _ _ h =>
            ⟨hleads (.op h.1), h.2⟩

theorem step_follows (img : Image) (t : Task) (m : Machine) :
    Ends (step img t) m (FailsAfter img t (t.Lacks img) m) (Follows img t m) :=
  (step_obeys img t m).mono (fun _ _ h => h) fun _ _ h => h.2

theorem FailsAfter.ofTask {img : Image} {t : Task} {m m' : Machine} {e : Fault}
    (h : FailsAfter img t (t.Lacks img) m e m') : e.OfTask := by
  obtain ⟨h | h, -⟩ := h
  · exact h.ofTask
  · have := h.structural
    cases e <;> simp_all [Fault.Structural, Fault.OfTask]

end Run

/-! ## What holds of all frames -/

/-- A task that has frames, all of them with a property. -/
structure Task.Runs (P : Frame → Prop) (t : Task) : Prop where
  running : t.frames ≠ []
  frames : ∀ f ∈ t.frames, P f

section Frames

variable {img : Image} {name : String} {id : Nat} {f : Frame} {outer : List Frame} {s : Stack} {p : Progress}
  {P : Frame → Prop}

theorem Task.Runs.cons {awaiting : Option PromiseHandle} (hf : P f) (houter : ∀ g ∈ outer, P g) :
    Task.Runs P ⟨id, f :: outer, s, awaiting⟩ :=
  ⟨List.cons_ne_nil _ _, List.forall_mem_cons.2 ⟨hf, houter⟩⟩

theorem Task.Runs.leave (h : Task.leave img ⟨id, f :: outer, s, none⟩ = .ok p) (houter : ∀ g ∈ outer, P g) :
    p.All (Task.Runs P) := by
  obtain ⟨f', outer', results, rest, hframes, -, -, ⟨-, rfl⟩ | ⟨hne, rfl⟩⟩ := Run.leave_eq_ok h
  · trivial
  · cases hframes
    exact ⟨hne, houter⟩

/-- What calls, returns and other instructions keep of the frames of a task. -/
theorem Op.Leads.keeps {o : Op} (h : o.Leads img name id f outer s p) (hf : P f) (houter : ∀ g ∈ outer, P g)
    (hlocals : ∀ locals, locals.size = f.locals.size → P { f with locals })
    (hbranch : ∀ {s depth f' s'}, f.branch s depth = .ok (f', s') → P f')
    (henter : ∀ {t t' : Task} {index}, t.enter img index = .ok t' → (∀ g ∈ t.frames, P g) → t'.Runs P) :
    p.All (Task.Runs P) := by
  cases h with
  | br jump | brIf _ _ jump => exact .cons (hbranch jump) houter
  | return_ left => exact Task.Runs.leave left houter
  | call _ entered | callIndirect _ _ _ _ entered => exact henter entered (List.forall_mem_cons.2 ⟨hf, houter⟩)
  | import_ _ _ returned =>
    obtain rfl := Run.returnValue_eq_ok returned
    exact .cons hf houter
  | localSet | localTee => exact .cons (hlocals _ Array.size_setIfInBounds) houter
  | _ => exact .cons hf houter

end Frames

end StackScript
