import StackScript.Proofs.Exec.Instructions

/-!
# Calls and operands

All calls of a task share one stack.  What a call leaves of the operands below its own depends on how many operands
its instructions take, since only a return looks at where those of the call start.
-/

namespace StackScript

/-! ## What instructions take -/

/-- The number of operands of an operator. -/
def NumOp.arity : NumOp → Nat
  | eqz _ | floatNeg | convert _ => 1
  | _ => 2

/-- The number of results of the function of a frame. -/
def Image.results (img : Image) (f : Frame) : Nat :=
  img.functions[f.function]?.elim 0 (·.ty.results.length)

/-- The number of operands that a jump takes along. -/
def Frame.carried (f : Frame) (depth : Nat) : Nat :=
  f.labels[depth]?.elim 0 fun l => if l.kind = .loop then 0 else l.arity

/-- The number of operands that an instruction takes. -/
def Op.takes (img : Image) (f : Frame) (s : Stack) : Op → Nat
  | .br depth => f.carried depth.toNat
  | .brIf depth => if s.head? = some (.i32 0) then 1 else f.carried depth.toNat + 1
  | .return_ => img.results f
  | .call index => (img.funcType? index.toNat).elim 0 (·.params.length)
  | .callIndirect type => img.types[type.toNat]?.elim 0 (·.params.length) + 1
  | .drop | .localSet _ | .localTee _ | .load .. => 1
  | .store .. => 2
  | .memoryCopy => 3
  | .num op => op.arity
  | _ => 0

section

variable {img : Image} {f : Frame} {s : Stack}

theorem Op.takes_brIf (depth : UInt32) : (Op.brIf depth).takes img f s =
    if s.head? = some (.i32 0) then 1 else f.carried depth.toNat + 1 :=
  rfl

theorem Op.takes_call (index : UInt32) :
    (Op.call index).takes img f s = (img.funcType? index.toNat).elim 0 (·.params.length) :=
  rfl

theorem Op.takes_callIndirect (type : UInt32) :
    (Op.callIndirect type).takes img f s = img.types[type.toNat]?.elim 0 (·.params.length) + 1 :=
  rfl

end

def Instr.takes (img : Image) (f : Frame) (s : Stack) : Instr → Nat
  | .if_ _ => 1
  | .end_ => if f.labels = [] then img.results f else 0
  | .op o => o.takes img f s
  | _ => 0

/-- The number of operands that the next instruction of a task takes. -/
def Task.takes (img : Image) (t : Task) : Nat :=
  Option.getD (do
    let f ← t.frames.head?
    let fn ← img.functions[f.function]?
    let i ← fn.body[f.pc]?
    return i.takes img f t.stack) 0

/-! ## What instructions leave -/

/-- A call with its own operands and all its labels above a number of operands. -/
def Frame.Above (b : Nat) (f : Frame) : Prop :=
  b ≤ f.base ∧ ∀ l ∈ f.labels, b ≤ l.height

/-- What an instruction that takes a number of operands makes of a call. -/
inductive Task.Leaves (img : Image) (id : Nat) (f : Frame) (outer : List Frame) (s : Stack) (k : Nat) : Task → Prop
  | stays {f' s' awaiting} (function : f'.function = f.function) (base : f'.base = f.base)
      (spares : ∀ low, low <:+ s.drop k → f.Above low.length → low <:+ s' ∧ f'.Above low.length) :
      Leaves img id f outer s k ⟨id, f' :: outer, s', awaiting⟩
  | calls {fn g} (found : img.functions[g.function]? = some fn)
      (params : k = fn.ty.params.length ∨ k = fn.ty.params.length + 1) (enough : k ≤ s.length)
      (base : g.base = (s.drop k).length) (labels : g.labels = []) :
      Leaves img id f outer s k ⟨id, g :: f :: outer, s.drop k, none⟩
  | returns {results low} (count : results.length = img.results f) (height : low.length = f.base)
      (spares : ∀ low', low' <:+ s.drop k → f.Above low'.length → low' <:+ low) :
      Leaves img id f outer s k ⟨id, outer, results ++ low, none⟩

namespace Stack

variable {s s' low : Stack}

theorem suffix_truncate {height : Nat} (h : low <:+ s) (hle : low.length ≤ height) : low <:+ s.truncate height := by
  refine List.suffix_of_suffix_length_le h (List.drop_suffix _ _) ?_
  have hlow := h.length_le
  simp only [truncate, List.length_drop]
  omega

/-- A result on top of the operands that are left. -/
def Pushes (rest : Stack) (x : Except Fault Stack) : Prop :=
  ∀ s', x = .ok s' → ∃ v, s' = v :: rest

theorem pushes_pure {rest : Stack} (v : Value) : Pushes rest (pure (v :: rest)) := fun _ h =>
  ⟨v, (except_pure_eq_ok.1 h).symm⟩

variable {α : Type}

theorem pushes_bind {x : Except Fault α} {f : α → Except Fault Stack} {rest : Stack} (hf : ∀ a, Pushes rest (f a)) :
    Pushes rest (x >>= f) := fun _ h => by
  obtain ⟨a, -, h⟩ := except_bind_eq_ok.1 h
  exact hf a _ h

theorem pushes_pop {g : Value → Except Fault α} {f : α × Stack → Except Fault Stack} {k : Nat}
    (hf : ∀ r, Pushes (r.2.drop k) (f r)) :
    Pushes (s.drop (k + 1)) ((s.pop >>= fun p => g p.1 >>= fun a => pure (a, p.2)) >>= f) := fun _ h => by
  obtain ⟨r, hr, h⟩ := except_bind_eq_ok.1 h
  obtain ⟨p, hp, hr⟩ := except_bind_eq_ok.1 hr
  obtain ⟨a, -, hr⟩ := except_bind_eq_ok.1 hr
  obtain rfl := except_pure_eq_ok.1 hr
  rw [Run.pop_eq_ok hp]
  exact hf _ _ h

theorem pushes_eval (name : String) (op : NumOp) : Pushes (s.drop op.arity) (op.eval name s) := by
  cases op with
  | eqz w => cases w <;> exact pushes_pop fun _ => pushes_pure _
  | rel w => cases w <;> exact pushes_pop fun _ => pushes_pop fun _ => pushes_pure _
  | arith w => cases w <;> exact pushes_pop fun _ => pushes_pop fun _ => pushes_bind fun _ => pushes_pure _
  | bits | floatRel | floatArith => exact pushes_pop fun _ => pushes_pop fun _ => pushes_pure _
  | floatNeg => exact pushes_pop fun _ => pushes_pure _
  | convert c =>
    intro s' h
    obtain ⟨r, hr, h⟩ := except_bind_eq_ok.1 h
    rw [Run.pop_eq_ok hr]
    exact pushes_bind (fun _ => pushes_pure _) s' h

end Stack

section Leaves

variable {img : Image} {id : Nat} {f f' : Frame} {outer : List Frame} {s s' s'' : Stack} {j k : Nat} {p : Progress}

/-- An instruction that pushes values, opens no label below them and stays in its call. -/
theorem Task.Leaves.push {awaiting : Option PromiseHandle} (vs : Stack) (function : f'.function = f.function)
    (base : f'.base = f.base) (labels : ∀ l ∈ f'.labels, l ∈ f.labels ∨ (s.drop k).length ≤ l.height) :
    Task.Leaves img id f outer s k ⟨id, f' :: outer, vs ++ s.drop k, awaiting⟩ :=
  .stays function base fun _ hlow hf => ⟨hlow.trans (List.suffix_append _ _), base ▸ hf.1, fun l hl =>
    (labels l hl).elim (hf.2 l) (Nat.le_trans hlow.length_le)⟩

theorem Task.Leaves.over {t : Task} (h : Task.Leaves img id f outer s k t) : t.id = id ∧ outer <:+ t.frames := by
  cases h with
  | stays | returns => exact ⟨rfl, by simp⟩
  | calls => exact ⟨rfl, (List.suffix_cons _ _).trans (List.suffix_cons _ _)⟩

theorem Frame.branch_leaves {depth : Nat} (h : f.branch (s.drop j) depth = .ok (f', s')) :
    Task.Leaves img id f outer s (f.carried depth + j) ⟨id, f' :: outer, s', none⟩ := by
  unfold Frame.branch at h
  split at h
  · cases h
  next l ls hdrop =>
    have hl : l ∈ f.labels := List.mem_of_mem_drop (hdrop ▸ List.mem_cons_self)
    have hlabels : ∀ l' ∈ ls, l' ∈ f.labels := fun l' hl' => List.mem_of_mem_drop (hdrop ▸ List.mem_cons_of_mem _ hl')
    have hget : f.labels[depth]? = some l := by rw [← List.head?_drop, hdrop, List.head?_cons]
    split at h
    next hkind =>
      cases h
      refine .stays rfl rfl fun low hlow hf => ?_
      rw [Frame.carried, hget, Option.elim_some, if_pos hkind, Nat.zero_add] at hlow
      exact ⟨Stack.suffix_truncate hlow (hf.2 l hl), hf.1, List.forall_mem_cons.2
        ⟨hf.2 l hl, fun l' hl' => hf.2 l' (hlabels l' hl')⟩⟩
    all_goals
      next hkind =>
        split at h
        · cases h
        next carried rest hsplit =>
          cases h
          refine .stays rfl rfl fun low hlow hf => ?_
          obtain ⟨-, -, rfl⟩ := Stack.split?_eq_some hsplit
          rw [Frame.carried, hget, Option.elim_some, if_neg (by simp [hkind]), Nat.add_comm, ← List.drop_drop] at hlow
          exact ⟨(Stack.suffix_truncate hlow (hf.2 l hl)).trans (List.suffix_append _ _), hf.1, fun l' hl' =>
            hf.2 l' (hlabels l' hl')⟩

theorem Task.leave_leaves (h : Task.leave img ⟨id, f :: outer, s, none⟩ = .ok p) :
    p.All (Task.Leaves img id f outer s (img.results f)) := by
  obtain ⟨_, _, results, rest, hframes, hsplit, hbase, ⟨-, rfl⟩ | ⟨-, rfl⟩⟩ := Run.leave_eq_ok h
  · trivial
  · cases hframes
    obtain ⟨henough, rfl, rfl⟩ := Stack.split?_eq_some hsplit
    refine .returns (by simp only [List.reverse_reverse, List.length_take, Nat.min_eq_left henough, Image.results]) ?_ fun low hlow hf => Stack.suffix_truncate hlow hf.1
    simp only [Stack.truncate, List.length_drop] at hbase ⊢
    omega

theorem Task.enter_leaves {index : Nat} {t : Task} (hj : j ≤ 1) (hs : j ≤ s.length)
    (h : Task.enter img ⟨id, f :: outer, s.drop j, none⟩ index = .ok t) :
    ∃ ty, img.funcType? index = some ty ∧ Task.Leaves img id f outer s (ty.params.length + j) t := by
  obtain ⟨place, fn, args, rest, ⟨hfn, rfl⟩, -, hsplit, rfl⟩ := Run.enter_eq_ok h
  obtain ⟨henough, -, rfl⟩ := Stack.split?_eq_some hsplit
  refine ⟨fn.ty, by simp [Image.funcType?, hfn], ?_⟩
  rw [List.length_drop] at henough
  rw [List.drop_drop, Nat.add_comm]
  exact .calls hfn (by omega) (by omega) rfl rfl

theorem Image.funcType?_of_import {index : Nat} {i : Import} (h : img.imports[index]? = some i) :
    img.funcType? index = some i.ty := by
  rw [Image.funcType?, if_pos (Array.getElem?_eq_some_iff.1 h).1, h]
  rfl

theorem Op.Leads.leaves {o : Op} {name : String} (h : o.Leads img name id f outer s p) :
    p.All (Task.Leaves img id f outer s (o.takes img f s)) := by
  have hpush {k : Nat} (vs : Stack) (locals : Array Value) :
      Task.Leaves img id f outer s k ⟨id, { f with locals } :: outer, vs ++ s.drop k, none⟩ :=
    .push vs rfl rfl fun _ => .inl
  cases h with
  | br jump => exact Frame.branch_leaves (j := 0) jump
  | brIfNot top =>
    subst top
    exact hpush [] _
  | brIf top nonzero jump =>
    subst top
    rw [Op.takes_brIf, if_neg (by simpa using nonzero)]
    exact Frame.branch_leaves (j := 1) jump
  | return_ left => exact Task.leave_leaves left
  | call defined entered =>
    obtain ⟨ty, hty, hleaves⟩ := Task.enter_leaves (j := 0) (Nat.zero_le _) (Nat.zero_le _) entered
    rw [Op.takes_call, hty]
    exact hleaves
  | callIndirect top _ _ typed entered =>
    subst top
    obtain ⟨ty, hty, hleaves⟩ := Task.enter_leaves (s := _ :: _) (j := 1) (Nat.le_refl _) (Nat.le_add_left _ _) entered
    rw [Op.takes_callIndirect, ← typed, hty]
    exact hleaves
  | import_ imported arguments returned =>
    obtain ⟨-, -, rfl⟩ := Stack.split?_eq_some arguments
    obtain rfl := Run.returnValue_eq_ok returned
    rw [Op.takes_call, Image.funcType?_of_import imported]
    exact hpush _ _
  | await imported arguments =>
    obtain ⟨-, -, rfl⟩ := Stack.split?_eq_some arguments
    rw [Op.takes_call, Image.funcType?_of_import imported]
    exact .push [] rfl rfl fun _ => .inl
  | drop top | localSet top | store top | memoryCopy top =>
    subst top
    exact hpush [] _
  | load top =>
    subst top
    exact hpush [_] _
  | localTee top =>
    subst top
    exact hpush [_] _
  | localGet | i32Const | i64Const | f64Const => exact hpush [_] _
  | num eval =>
    obtain ⟨v, rfl⟩ := Stack.pushes_eval name _ _ eval
    exact hpush [v] _

/-- **What the next instruction of a task leaves** of the innermost call and of the operands. -/
theorem Run.step_leaves {t : Task} {m m' : Machine} (h : Run.step img t m = .ok p m') :
    ∃ f outer, t.frames = f :: outer ∧
      p.All (Task.Leaves img t.id { f with pc := f.pc + 1 } outer t.stack (t.takes img)) := by
  obtain ⟨f, outer, fn, i, hframes, hfn, hi, hleads⟩ := ((Run.step_obeys img t m).of_ok h).1
  have htakes : t.takes img = i.takes img { f with pc := f.pc + 1 } t.stack := by
    simp only [Task.takes, hframes, hfn, hi, List.head?_cons, Option.bind_eq_bind, Option.bind_some]
    rfl
  refine ⟨f, outer, hframes, ?_⟩
  rw [htakes]
  have hopen {l : Label} {k pc : Nat} (h : (t.stack.drop k).length ≤ l.height) : Task.Leaves img t.id
      { f with pc := f.pc + 1 } outer t.stack k ⟨t.id, { f with pc, labels := l :: f.labels } :: outer,
        t.stack.drop k, none⟩ :=
    .push [] rfl rfl (List.forall_mem_cons.2 ⟨.inr h, fun _ => .inl⟩)
  cases hleads with
  | block | loop => exact hopen (k := 0) (Nat.le_refl _)
  | ifNot top | if_ top =>
    rw [top] at hopen ⊢
    exact hopen (k := 1) (Nat.le_refl _)
  | else_ => exact .push [] rfl rfl fun _ => .inl
  | end_ labels =>
    rw [Instr.takes, if_neg fun h => List.cons_ne_nil _ _ (labels.symm.trans h)]
    exact .push [] rfl rfl fun _ hl => .inl (labels ▸ List.mem_cons_of_mem _ hl)
  | leave labels left =>
    rw [Instr.takes, if_pos labels]
    exact Task.leave_leaves left
  | op leads => exact leads.leaves

end Leaves

/-! ## What a call leaves -/

/-- What a task goes through: an instruction on the machine as it is then, or the end of a wait. -/
inductive Task.Passes (img : Image) (m : Machine) (t : Task) : Task → Prop
  | next {t' m'} (free : t.awaiting = none) (step : Run.step img t m = .ok (.next t') m') : Passes img m t t'
  | waits {t' m'} (free : t.awaiting = none) (step : Run.step img t m = .ok (.blocked t') m') : Passes img m t t'
  | resumes {h} (waiting : t.awaiting = some h) (v : BitVec 64) :
      Passes img m t { t with awaiting := none, stack := .i64 v :: t.stack }

namespace Task

/-- A task has gone from one state through others to a last one. -/
inductive Trail (img : Image) (t : Task) : List Task → Task → Prop
  | start : Trail img t [] t
  | pass {ts t₁ t₂ m} (trail : Trail img t ts t₁) (passes : t₁.Passes img m t₂) : Trail img t (ts ++ [t₁]) t₂

/-- The frames of a task in a call, of which some may be of calls that it has made, all of them above a number of
operands. -/
inductive Upon (g : Frame) (outer : List Frame) (b : Nat) : List Frame → Prop
  | own {f} (function : f.function = g.function) (base : f.base = g.base) (above : f.Above b) :
      Upon g outer b (f :: outer)
  | inner {f fs} (above : f.Above b) (upon : Upon g outer b fs) : Upon g outer b (f :: fs)

/-- A task in a call, which has spared the operands below. -/
structure Inside (g : Frame) (outer : List Frame) (low : Stack) (t : Task) : Prop where
  frames : Upon g outer low.length t.frames
  spared : low <:+ t.stack

/-- A task that has returned from a call, which has spared the operands below. -/
structure Returned (img : Image) (g : Frame) (outer : List Frame) (low : Stack) (t : Task) : Prop where
  frames : t.frames = outer
  stack : ∃ results rest, t.stack = results ++ rest ∧ results.length = img.results g ∧ rest.length = g.base ∧
    low <:+ rest

section

variable {img : Image} {g f f' : Frame} {outer rest : List Frame} {b : Nat} {low : Stack} {t t' : Task} {m : Machine}

theorem Upon.length_lt {fs : List Frame} (h : Upon g outer b fs) : outer.length < fs.length := by
  induction h with
  | own => exact Nat.lt_succ_self _
  | inner _ _ ih => exact Nat.lt_succ_of_lt ih

theorem Upon.above (h : Upon g outer b (f :: rest)) : f.Above b := by
  cases h with
  | own _ _ above | inner above => exact above

theorem Upon.replace (h : Upon g outer b (f :: rest)) (function : f'.function = f.function) (base : f'.base = f.base)
    (above : f'.Above b) : Upon g outer b (f' :: rest) := by
  cases h with
  | own hfunction hbase => exact .own (function.trans hfunction) (base.trans hbase) above
  | inner _ upon => exact .inner above upon

/-- An instruction that takes none of the operands below a call spares them. -/
theorem Inside.passes (h : Inside g outer low t) (passes : t.Passes img m t')
    (own : t.awaiting = none → low.length ≤ t.stack.length - t.takes img) :
    Inside g outer low t' ∨ Returned img g outer low t' := by
  have hleaves (free : t.awaiting = none) {f : Frame} {rest : List Frame} (hframes : t.frames = f :: rest)
      (hleaves : Leaves img t.id { f with pc := f.pc + 1 } rest t.stack (t.takes img) t') :
      Inside g outer low t' ∨ Returned img g outer low t' := by
    have hlow : low <:+ t.stack.drop (t.takes img) :=
      List.suffix_of_suffix_length_le h.spared (List.drop_suffix _ _) (by simpa using own free)
    have hupon : Upon g outer low.length ({ f with pc := f.pc + 1 } :: rest) :=
      (hframes ▸ h.frames).replace rfl rfl ((hframes ▸ h.frames).above)
    cases hleaves with
    | stays function base spares =>
      obtain ⟨hs, hf⟩ := spares low hlow hupon.above
      exact .inl ⟨hupon.replace function base hf, hs⟩
    | calls _ _ _ base labels => exact .inl ⟨.inner ⟨base ▸ hlow.length_le, by simp [labels]⟩ hupon, hlow⟩
    | returns count height spares =>
      have hspared := spares low hlow hupon.above
      cases hupon with
      | own function base =>
        exact .inr ⟨rfl, _, _, rfl, by rw [count, Image.results, function, Image.results], height.trans base, hspared⟩
      | inner _ upon => exact .inl ⟨upon, hspared.trans (List.suffix_append _ _)⟩
  cases passes with
  | next free step | waits free step =>
    obtain ⟨f, rest, hframes, h⟩ := Run.step_leaves step
    exact hleaves free hframes h
  | resumes => exact .inl ⟨h.frames, h.spared.trans (List.suffix_cons _ _)⟩

/-- While no instruction takes them, the operands below a call stay as they are, until it has returned. -/
theorem Inside.of_trail {ts : List Task} (h : Inside g outer low t) (trail : t.Trail img ts t')
    (inside : ∀ t ∈ ts, outer.length < t.frames.length)
    (own : ∀ t ∈ ts, t.awaiting = none → low.length ≤ t.stack.length - t.takes img) :
    (∀ t ∈ ts, low <:+ t.stack) ∧ (Inside g outer low t' ∨ Returned img g outer low t') := by
  induction trail with
  | start => exact ⟨nofun, .inl h⟩
  | @pass ts t₁ t₂ m trail passes ih =>
    obtain ⟨hinside, hlast⟩ := List.forall_mem_append.1 inside
    obtain ⟨hown, hlastOwn⟩ := List.forall_mem_append.1 own
    obtain ⟨hspared, ht₁ | ht₁⟩ := ih hinside hown
    · exact ⟨List.forall_mem_append.2 ⟨hspared, List.forall_mem_singleton.2 ht₁.spared⟩,
        ht₁.passes passes (hlastOwn t₁ List.mem_cons_self)⟩
    · exact absurd (hlast t₁ List.mem_cons_self) (by simp [ht₁.frames])

end

/-- **The operands after a return.**  A call of a function takes its parameters, and the slot of the table that
names it.  When it has returned, there are its results instead, and as many operands as then below them.  They are
the same if no instruction of the call has taken one of them; so it is for each part of them at the bottom. -/
theorem calls_return {img : Image} {t₀ t₁ t₂ : Task} {m₀ m₁ : Machine} {ts : List Task} {g : Frame}
    {outer : List Frame} (called : Run.step img t₀ m₀ = .ok (.next t₁) m₁) (deeper : t₁.frames = g :: outer)
    (caller : t₀.frames.length = outer.length) (trail : t₁.Trail img ts t₂)
    (inside : ∀ t ∈ ts, outer.length < t.frames.length) (back : t₂.frames.length = outer.length) :
    ∃ fn, img.functions[g.function]? = some fn ∧
      (t₀.takes img = fn.ty.params.length ∨ t₀.takes img = fn.ty.params.length + 1) ∧
      t₀.takes img ≤ t₀.stack.length ∧ t₁.stack = t₀.stack.drop (t₀.takes img) ∧
      t₂.frames = outer ∧ t₂.stack.length = t₁.stack.length + fn.ty.results.length ∧ ∀ low, low <:+ t₁.stack →
        (∀ t ∈ ts, t.awaiting = none → low.length ≤ t.stack.length - t.takes img) →
        (∀ t ∈ ts, low <:+ t.stack) ∧ low <:+ t₂.stack := by
  obtain ⟨f, rest, hframes, hleaves⟩ := Run.step_leaves called
  rw [hframes] at caller
  cases hleaves with
  | stays | returns =>
    cases deeper
    simp only [List.length_cons] at caller
    omega
  | @calls fn _ found params enough base labels =>
    cases deeper
    have hrun (low : Stack) (hlow : low <:+ t₀.stack.drop (t₀.takes img))
        (own : ∀ t ∈ ts, t.awaiting = none → low.length ≤ t.stack.length - t.takes img) :
        (∀ t ∈ ts, low <:+ t.stack) ∧ Returned img g ({ f with pc := f.pc + 1 } :: rest) low t₂ := by
      have hupon : Upon g ({ f with pc := f.pc + 1 } :: rest) low.length (g :: { f with pc := f.pc + 1 } :: rest) :=
        .own rfl rfl ⟨base ▸ hlow.length_le, by simp [labels]⟩
      exact (Inside.of_trail ⟨hupon, hlow⟩ trail inside own).imp_right (·.resolve_left fun h =>
        absurd h.frames.length_lt (Nat.not_lt_of_le (Nat.le_of_eq back)))
    obtain ⟨-, hback, results, below, hstack, hresults, hbelow, -⟩ := hrun [] List.nil_suffix fun _ _ _ => Nat.zero_le _
    refine ⟨fn, found, params, enough, rfl, hback, ?_, fun low hlow own => ?_⟩
    · rw [hstack, List.length_append, hresults, hbelow, base, Image.results, found]
      exact Nat.add_comm _ _
    · obtain ⟨hspared, -, results, below, hstack, -, -, hlow⟩ := hrun low hlow own
      exact ⟨hspared, hstack ▸ hlow.trans (List.suffix_append _ _)⟩

/-- Of two functions, the first calls the second with an argument, above an operand of its own. -/
def lendingModule : Module :=
  { imports := [], types := [], table := [], data := [], minPages := 0, heapBase := 0, start := none, main := none
    functions := [⟨"lend", ⟨[], [.i32]⟩, [], [.op (.i32Const 1), .op (.i32Const 7), .op (.call 1), .end_], none⟩,
      ⟨"same", ⟨[.i32], [.i32]⟩, [], [.op (.localGet 0), .end_], none⟩] }

theorem calls_return_lending : ∃ img, Image.ofModule lendingModule {} = .ok img ∧ ∀ m, ∃ t₀ t₁ t₂ ts,
    Run.step img t₀ m = .ok (.next t₁) m ∧ t₁.Trail img ts t₂ ∧ ts.length = 2 ∧ t₀.stack = [.i32 7, .i32 1] ∧
      t₁.stack = [.i32 1] ∧ t₂.frames.length = 1 ∧ t₂.stack.length = 2 ∧ [.i32 1] <:+ t₂.stack := by
  refine ⟨_, rfl, fun m => ?_⟩
  generalize himg : Image.mk .. = img
  let caller (pc : Nat) : Frame := ⟨0, pc, #[], 0, []⟩
  let callee (pc : Nat) : Frame := ⟨1, pc, #[.i32 7], 1, []⟩
  let t₁ : Task := ⟨0, [callee 0, caller 3], [.i32 1], none⟩
  let t : Task := ⟨0, [callee 1, caller 3], [.i32 7, .i32 1], none⟩
  let t₂ : Task := ⟨0, [caller 3], [.i32 7, .i32 1], none⟩
  have called : Run.step img ⟨0, [caller 2], [.i32 7, .i32 1], none⟩ m = .ok (.next t₁) m := himg ▸ rfl
  have inner : Run.step img t₁ m = .ok (.next t) m := himg ▸ rfl
  have leave : Run.step img t m = .ok (.next t₂) m := himg ▸ rfl
  have trail : t₁.Trail img [t₁, t] t₂ := .pass (.pass .start (.next rfl inner)) (.next rfl leave)
  have own : ∀ u ∈ [t₁, t], u.awaiting = none → 1 ≤ u.stack.length - u.takes img := by
    subst himg
    exact List.forall_mem_cons.2 ⟨fun _ => by decide, List.forall_mem_singleton.2 fun _ => by decide⟩
  obtain ⟨fn, -, -, -, -, -, -, hlow⟩ := calls_return called rfl rfl trail (by decide) rfl
  exact ⟨_, t₁, t₂, _, called, trail, rfl, rfl, rfl, rfl, rfl, (hlow [.i32 1] List.suffix_rfl own).2⟩

end Task

end StackScript
