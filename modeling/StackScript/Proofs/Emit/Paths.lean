import StackScript.Emit.Program
import StackScript.Proofs.Steps

/-!
# Ways of the emitter

Everything that emission does to its state is a sequence of a few kinds of steps: it adds locals, places
a constant, adds a type, or leaves a job.  What holds of all states on the way is derived from these.

## Design Notes

A result is shown to have its property in all later states at once, so nothing has to be said again about
a constant, a type or a job when the emission goes on.
-/

namespace StackScript

/-! ## Constant data -/

/-- Constant data in the order of its addresses, which are multiples of a word. -/
structure DataRegion.Ordered (d : DataRegion) : Prop where
  below : ∀ s ∈ d.segments, s.1 + max s.2.length 1 ≤ d.stop
  apart : d.segments.Pairwise fun s t => s.1 + max s.2.length 1 ≤ t.1
  placed : ∀ s ∈ d.segments, Layout.word ∣ s.1 ∧ d.base ≤ s.1
  aligned : Layout.word ∣ d.stop
  base_le : d.base ≤ d.stop

namespace DataRegion

variable {d : DataRegion}

theorem ordered_ofBase (base : Nat) : (ofBase base).Ordered :=
  ⟨nofun, .nil, nofun, Nat.dvd_mul_left _ _, Nat.le_refl _⟩

theorem Ordered.push (h : d.Ordered) (bs : List UInt8) : (d.push bs).2.Ordered := by
  have hstop : d.stop + max bs.length 1 ≤ (d.push bs).2.stop := by
    simp only [DataRegion.push, Layout.align, Layout.word]
    omega
  have hbase := h.base_le
  refine ⟨fun s hs => ?_, ?_, fun s hs => ?_, Nat.dvd_mul_left _ _, Nat.le_trans hbase (by omega)⟩
  · rcases List.mem_append.1 hs with hs | hs
    · have hbelow := h.below s hs
      omega
    · obtain rfl := List.mem_singleton.1 hs
      exact hstop
  · refine List.pairwise_append.2 ⟨h.apart, List.pairwise_singleton _ _, fun s hs t ht => ?_⟩
    obtain rfl := List.mem_singleton.1 ht
    exact h.below s hs
  · rcases List.mem_append.1 hs with hs | hs
    · exact h.placed s hs
    · obtain rfl := List.mem_singleton.1 hs
      exact ⟨h.aligned, hbase⟩

end DataRegion

namespace Emit

/-! ## Paths -/

/-- The words of a named function as a value: its table slot, and no environment. -/
def thunkWords (slot : Nat) : List Layout.Word :=
  [.i32 (BitVec.ofNat 32 slot), .i32 0]

/-- The state with one more job. -/
def State.withJob (st : State) (j : Job) : State :=
  { st with
    nextFunction := st.nextFunction + 1
    table := st.table ++ [st.nextFunction]
    jobs := st.jobs ++ [j] }

/-- The way from a state to another one inside of a function. -/
inductive Path (plan : Plan) (st : State) : State → Prop
  | refl : Path plan st st
  /-- New locals, and places of variables. -/
  | frame {st₁ locals places} (init : Path plan st st₁) (grown : st₁.locals <+: locals)
      (kept : st₁.places <:+ places) : Path plan st { st₁ with locals, places }
  | string {st₁ bs} (init : Path plan st st₁) (absent : st₁.strings.lookup bs = none) :
      Path plan st { st₁ with
        data := (st₁.data.pushStr bs).2, strings := (bs, st₁.data.stop) :: st₁.strings }
  | unit {st₁ enum tag words} (init : Path plan st st₁) :
      Path plan st { st₁ with
        data := (st₁.data.pushWords words).2, units := ((enum, tag), st₁.data.stop) :: st₁.units }
  | words {st₁ words} (init : Path plan st st₁) :
      Path plan st { st₁ with data := (st₁.data.pushWords words).2 }
  | type {st₁ ty} (init : Path plan st st₁) : Path plan st { st₁ with types := st₁.types ++ [ty] }
  | job {st₁ j} (init : Path plan st st₁) : Path plan st (st₁.withJob j)
  /-- A named function used as a value for the first time. -/
  | thunk {st₁ name sig} (init : Path plan st st₁) (absent : st₁.thunks.lookup name = none)
      (found : plan.symbols.function? name = some sig) :
      Path plan st { st₁.withJob (.thunk sig) with
        data := (st₁.data.pushWords (thunkWords st₁.table.length)).2
        thunks := (name, st₁.data.stop) :: st₁.thunks }

variable {plan : Plan} {st st₁ st' hi : State}

theorem Path.trans (h : Path plan st st₁) (h' : Path plan st₁ st') : Path plan st st' := by
  induction h' with
  | refl => exact h
  | frame _ grown kept ih => exact ih.frame grown kept
  | string _ absent ih => exact ih.string absent
  | unit _ ih => exact ih.unit
  | words _ ih => exact ih.words
  | type _ ih => exact ih.type
  | job _ ih => exact ih.job
  | thunk _ absent found ih => exact ih.thunk absent found

/-! ## What stays -/

/-- A state that still knows all constants, types and table entries. -/
structure State.Later (st st' : State) : Prop where
  strings : ∀ bs a, st.strings.lookup bs = some a → st'.strings.lookup bs = some a
  thunks : ∀ name a, st.thunks.lookup name = some a → st'.thunks.lookup name = some a
  segments : st.data.segments <+: st'.data.segments
  base : st'.data.base = st.data.base
  types : st.types <+: st'.types
  table : st.table <+: st'.table

theorem State.Later.refl (st : State) : st.Later st :=
  ⟨fun _ _ => id, fun _ _ => id, List.prefix_rfl, rfl, List.prefix_rfl, List.prefix_rfl⟩

theorem State.Later.trans (h : st.Later st₁) (h' : st₁.Later st') : st.Later st' :=
  ⟨fun bs a ha => h'.strings bs a (h.strings bs a ha), fun name a ha => h'.thunks name a (h.thunks name a ha),
    h.segments.trans h'.segments, h'.base.trans h.base, h.types.trans h'.types, h.table.trans h'.table⟩

variable {α β : Type} {entries : List (α × β)} {a : α} {x : β} {js : List Job} {j : Job} {slot base : Nat}

theorem mem_of_lookup [BEq α] [LawfulBEq α] (h : entries.lookup a = some x) : (a, x) ∈ entries := by
  obtain ⟨before, after, rfl, -⟩ := List.lookup_eq_some_iff.1 h
  exact List.mem_append_right _ List.mem_cons_self

/-- What is found is found behind a new entry for something else. -/
theorem lookup_cons_of_absent [BEq α] [LawfulBEq α] {b : α} {y : β}
    (absent : entries.lookup a = none) (h : entries.lookup b = some x) : ((a, y) :: entries).lookup b = some x := by
  rw [List.lookup_cons]
  have hne : (b == a) = false := by
    refine beq_eq_false_iff_ne.2 fun heq => ?_
    rw [heq, absent] at h
    cases h
  rwa [hne]

/-- **A path keeps constants, types and table entries.** -/
theorem Path.later (h : Path plan st st') : st.Later st' := by
  induction h with
  | refl => exact .refl _
  | frame _ _ _ ih => exact ⟨ih.strings, ih.thunks, ih.segments, ih.base, ih.types, ih.table⟩
  | string _ absent ih =>
    exact ⟨fun bs a ha => lookup_cons_of_absent absent (ih.strings bs a ha), ih.thunks,
      ih.segments.trans (List.prefix_append _ _), ih.base, ih.types, ih.table⟩
  | unit _ ih | words _ ih =>
    exact ⟨ih.strings, ih.thunks, ih.segments.trans (List.prefix_append _ _), ih.base, ih.types, ih.table⟩
  | type _ ih => exact ⟨ih.strings, ih.thunks, ih.segments, ih.base, ih.types.trans (List.prefix_append _ _), ih.table⟩
  | job _ ih => exact ⟨ih.strings, ih.thunks, ih.segments, ih.base, ih.types, ih.table.trans (List.prefix_append _ _)⟩
  | thunk _ absent _ ih =>
    exact ⟨ih.strings, fun name a ha => lookup_cons_of_absent absent (ih.thunks name a ha),
      ih.segments.trans (List.prefix_append _ _), ih.base, ih.types, ih.table.trans (List.prefix_append _ _)⟩

theorem Path.locals (h : Path plan st st') : st.locals <+: st'.locals := by
  induction h with
  | refl => exact List.prefix_rfl
  | frame _ grown _ ih => exact ih.trans grown
  | string _ _ ih | unit _ ih | words _ ih | type _ ih | job _ ih | thunk _ _ _ ih => exact ih

/-- Variables stay where they are kept. -/
theorem Path.places (h : Path plan st st') : st.places <:+ st'.places := by
  induction h with
  | refl => exact List.suffix_rfl
  | frame _ _ kept ih => exact ih.trans kept
  | string _ _ ih | unit _ ih | words _ ih | type _ ih | job _ ih | thunk _ _ _ ih => exact ih

theorem Path.locals_le (h : Path plan st st') : st.locals.length ≤ st'.locals.length :=
  h.locals.length_le

/-! ## What is left behind -/

/-- Some jobs are left to be done, which have the next numbers and table slots. -/
structure State.Leaves (st st' : State) (js : List Job) : Prop where
  jobs : st'.jobs = st.jobs ++ js
  next : st'.nextFunction = st.nextFunction + js.length
  table : st'.table = st.table ++ List.range' st.nextFunction js.length

theorem State.Leaves.none (jobs : st'.jobs = st.jobs) (next : st'.nextFunction = st.nextFunction)
    (table : st'.table = st.table) : st.Leaves st' [] :=
  ⟨by simp [jobs], next, by simp [table]⟩

theorem State.Leaves.trans {ks : List Job} (h : st.Leaves st₁ js) (h' : st₁.Leaves st' ks) :
    st.Leaves st' (js ++ ks) where
  jobs := by rw [h'.jobs, h.jobs, List.append_assoc]
  next := by rw [h'.next, h.next, List.length_append, Nat.add_assoc]
  table := by
    rw [h'.table, h.table, h.next, List.append_assoc, List.length_append, List.range'_append_1]

theorem State.leaves_withJob (st : State) (j : Job) : st.Leaves (st.withJob j) [j] :=
  ⟨rfl, rfl, rfl⟩

/-- **A path leaves jobs.** -/
theorem Path.leaves (h : Path plan st st') : ∃ js, st.Leaves st' js := by
  have hsame {st₁ st₂ : State} (ih : ∃ js, st.Leaves st₁ js) (jobs : st₂.jobs = st₁.jobs)
      (next : st₂.nextFunction = st₁.nextFunction) (table : st₂.table = st₁.table) :
      ∃ js, st.Leaves st₂ js := by
    obtain ⟨js, hjs⟩ := ih
    exact ⟨js ++ [], hjs.trans (.none jobs next table)⟩
  induction h with
  | refl => exact ⟨[], .none rfl rfl rfl⟩
  | frame _ _ _ ih | string _ _ ih | unit _ ih | words _ ih | type _ ih => exact hsame ih rfl rfl rfl
  | job _ ih =>
    obtain ⟨js, hjs⟩ := ih
    exact ⟨_, hjs.trans (State.leaves_withJob _ _)⟩
  | thunk _ _ _ ih =>
    obtain ⟨js, hjs⟩ := ih
    exact ⟨_, hjs.trans ⟨rfl, rfl, rfl⟩⟩

/-- The function in a table slot is still to be emitted, by a job. -/
def State.Schedules (st : State) (slot : Nat) (j : Job) : Prop :=
  ∃ k, st.jobs[k]? = some j ∧ slot + st.jobs.length = st.table.length + k

theorem State.Schedules.leaves (h : st.Schedules slot j) (hleaves : st.Leaves st' js) : st'.Schedules slot j := by
  obtain ⟨k, hk, hslot⟩ := h
  have hlt := (List.getElem?_eq_some_iff.1 hk).1
  refine ⟨k, by rw [hleaves.jobs, List.getElem?_append_left hlt, hk], ?_⟩
  rw [hleaves.jobs, hleaves.table]
  simp only [List.length_append, List.length_range']
  omega

theorem State.Schedules.path (h : st.Schedules slot j) (hpath : Path plan st st') : st'.Schedules slot j := by
  obtain ⟨js, hjs⟩ := hpath.leaves
  exact h.leaves hjs

theorem State.schedules_withJob (st : State) (j : Job) : (st.withJob j).Schedules st.table.length j :=
  ⟨st.jobs.length, by simp [withJob], by simp [withJob]; omega⟩

/-- A named function that is used as a value has its words in the data, and its function is to be emitted
or was so before. -/
theorem Path.thunks (h : Path plan st st') {name : String} {a : Nat}
    (ha : st'.thunks.lookup name = some a) : st.thunks.lookup name = some a ∨
      ∃ slot sig, plan.symbols.function? name = some sig ∧ st'.Schedules slot (.thunk sig) ∧
        (a, (thunkWords slot).flatMap (·.bytes)) ∈ st'.data.segments := by
  have hstep {st₁ st₂ : State} (hpath : Path plan st₁ st₂) (hlookup : st₁.thunks.lookup name = some a)
      (ih : st₁.thunks.lookup name = some a → st.thunks.lookup name = some a ∨
        ∃ slot sig, plan.symbols.function? name = some sig ∧ st₁.Schedules slot (.thunk sig) ∧
          (a, (thunkWords slot).flatMap (·.bytes)) ∈ st₁.data.segments) :
      st.thunks.lookup name = some a ∨
        ∃ slot sig, plan.symbols.function? name = some sig ∧ st₂.Schedules slot (.thunk sig) ∧
          (a, (thunkWords slot).flatMap (·.bytes)) ∈ st₂.data.segments :=
    (ih hlookup).imp_right fun ⟨slot, sig, hsig, hslot, hseg⟩ =>
      ⟨slot, sig, hsig, hslot.path hpath, hpath.later.segments.subset hseg⟩
  induction h with
  | refl => exact .inl ha
  | frame _ grown kept ih => exact hstep (.frame .refl grown kept) ha ih
  | string _ absent ih => exact hstep (.string .refl absent) ha ih
  | unit _ ih => exact hstep (.unit .refl) ha ih
  | words _ ih => exact hstep (.words .refl) ha ih
  | type _ ih => exact hstep (.type .refl) ha ih
  | job _ ih => exact hstep (.job .refl) ha ih
  | @thunk st₁ name' sig _ absent found ih =>
    rw [List.lookup_cons] at ha
    split at ha
    next heq =>
      obtain rfl := beq_iff_eq.1 heq
      cases ha
      refine .inr ⟨st₁.table.length, sig, found, State.schedules_withJob st₁ _, ?_⟩
      exact List.mem_append_right _ (List.mem_singleton.2 rfl)
    · exact hstep (.thunk .refl absent found) ha ih

/-! ## Where constants are -/

/-- The bytes of a string or of bytes as an object: the length and the bytes. -/
def textObject (bs : List UInt8) : List UInt8 :=
  Layout.littleEndian Layout.strHeader bs.length ++ bs

/-- Constants are where the state says they are. -/
structure State.Sound (st : State) : Prop where
  data : st.data.Ordered
  strings : ∀ bs a, st.strings.lookup bs = some a → (a, textObject bs) ∈ st.data.segments

/-- Data may be added. -/
theorem State.Sound.push (h : st.Sound) (bs : List UInt8) (hdata : st'.data = (st.data.push bs).2)
    (hstrings : st'.strings = st.strings) : st'.Sound := by
  refine ⟨hdata ▸ h.data.push bs, fun cs a ha => ?_⟩
  rw [hdata]
  exact List.mem_append_left _ (h.strings cs a (hstrings ▸ ha))

/-- **Constants stay where the state says they are.** -/
theorem Path.sound (h : Path plan st st') (hst : st.Sound) : st'.Sound := by
  induction h with
  | refl => exact hst
  | frame _ _ _ ih | type _ ih | job _ ih => exact ⟨ih.data, ih.strings⟩
  | unit _ ih | words _ ih | thunk _ _ _ ih => exact ih.push _ rfl rfl
  | string _ absent ih =>
    refine ⟨ih.data.push _, fun cs a ha => ?_⟩
    rw [List.lookup_cons] at ha
    split at ha
    next heq =>
      obtain rfl := beq_iff_eq.1 heq
      cases ha
      exact List.mem_append_right _ (List.mem_singleton.2 rfl)
    · exact List.mem_append_left _ (ih.strings cs a ha)

/-! ## Steps -/

/-- Variables have numbers from `first` on, and locals from `low` on, in a function with `base`
parameters, and no local keeps two variables. -/
structure State.Inside (base first low : Nat) (st : State) : Prop where
  bounds : ∀ id i, (id, i) ∈ st.places → first ≤ id ∧ low ≤ i ∧ i < base + st.locals.length
  single : (st.places.map Prod.snd).Nodup

/-- What is asked of a function while it is emitted: its variables have numbers from `first` on, and some locals are
kept as they are.  Whether variables stand in its locals is only looked at if some are kept, or if it is asked for. -/
structure Scope where
  first : Nat
  kept : Nat → Prop
  sized : Prop

/-- It is known that variables stand in locals. -/
def Scope.Knows (c : Scope) : Prop :=
  (∃ k, c.kept k) ∨ c.sized

/-- In a function with `base` parameters, variables stand in locals that need not be kept as they are. -/
structure State.Above (base : Nat) (c : Scope) (st : State) : Prop where
  inside : c.Knows → st.Inside base c.first 0
  kept : ∀ k, c.kept k → k < base + st.locals.length
  apart : ∀ id i, (id, i) ∈ st.places → ¬c.kept i

/-- No local is kept. -/
@[reducible] def Scope.free (sized : Prop) : Scope := ⟨0, fun _ => False, sized⟩

/-- Nothing is asked of a state. -/
theorem State.above_free (base : Nat) (st : State) : st.Above base (.free False) :=
  ⟨fun hk => (hk.elim (fun ⟨_, h⟩ => h) id).elim, nofun, fun _ _ _ => id⟩

theorem State.Inside.grow {first low : Nat} (h : st.Inside base first low) (hpath : Path plan st st')
    (hplaces : st'.places = st.places) : st'.Inside base first low := by
  refine ⟨fun id i hi => ?_, hplaces ▸ h.single⟩
  obtain ⟨hfirst, hlow, hroom⟩ := h.bounds id i (hplaces ▸ hi)
  have hle := hpath.locals_le
  exact ⟨hfirst, hlow, by omega⟩

theorem State.Above.grow {c : Scope} (h : st.Above base c) (hpath : Path plan st st')
    (hplaces : st'.places = st.places) : st'.Above base c where
  inside hk := (h.inside hk).grow hpath hplaces
  kept k hk := Nat.lt_of_lt_of_le (h.kept k hk) (Nat.add_le_add_left hpath.locals_le _)
  apart := hplaces ▸ h.apart

/-- If a step succeeds, variables still stand in such locals, and its result has the property `V` in all states
behind the one after it. -/
def Shows {α : Type} (s : Site) (c : Scope) (x : Emit α) (V : State → α → Prop) : Prop :=
  ∀ st : State, st.Above s.paramCount c → Yields x st (fun _ => True) fun a st' =>
    st'.Above s.paramCount c ∧ Path s.plan st st' ∧ ∀ hi, Path s.plan st' hi → V hi a

/-- From one state to another, there is room in some locals, in which variables stand before. -/
def HasRoom (locals params : Nat) (st st' : State) : Prop :=
  st.Inside params 0 0 ∧ params + st'.locals.length ≤ locals

variable {s : Site} {c : Scope}

namespace Shows

variable {α β : Type} {x : Emit α} {f : α → Emit β} {V V' : State → α → Prop} {W : State → β → Prop}

/-- The run of a step, with the number of locals after it. -/
theorem withRun (h : Shows s c x V) : Shows s c x fun hi a => V hi a ∧ ∃ st after : State,
    (c.Knows → HasRoom (s.paramCount + hi.locals.length) s.paramCount st after) ∧ x.run st = .ok (a, after) ∧
      after.Later hi := by
  intro st hst
  refine Yields.mono (Yields.withRun (h st hst)) (fun _ => id) ?_
  rintro a after ⟨⟨hafter, hpath, hv⟩, hrun⟩
  refine ⟨hafter, hpath, fun hi hhi => ⟨hv hi hhi, st, after, fun hk => ⟨⟨fun id i hi => ?_, (hst.inside hk).single⟩, ?_⟩,
    hrun, hhi.later⟩⟩
  · exact ⟨Nat.zero_le _, Nat.zero_le _, ((hst.inside hk).bounds id i hi).2.2⟩
  · exact Nat.add_le_add_left hhi.locals_le _

/-- **Steps in order.**  What the first one shows holds behind the second one as well. -/
theorem bind (hx : Shows s c x V) (hf : ∀ a, Shows s c (f a) fun hi b => V hi a → W hi b) : Shows s c (x >>= f) W := by
  intro st hst
  refine yields_bind (Yields.mono (hx st hst) (fun _ => id) ?_)
  rintro a st₁ ⟨hst₁, hpath₁, hv⟩
  refine Yields.mono (hf a st₁ hst₁) (fun _ => id) ?_
  rintro b st₂ ⟨hst₂, hpath₂, hw⟩
  exact ⟨hst₂, hpath₁.trans hpath₂, fun hi hhi => hw hi hhi (hv hi (hpath₂.trans hhi))⟩

theorem pure {a : α} (h : ∀ hi, V hi a) : Shows s c (pure a) V := fun _ hst =>
  yields_pure ⟨hst, .refl, fun hi _ => h hi⟩

theorem throw {d : Defect} : Shows s c (throw d : Emit α) V := fun _ _ => True.intro

theorem mono (h : Shows s c x V) (hV : ∀ hi a, V hi a → V' hi a) : Shows s c x V' := fun st hst =>
  Yields.mono (h st hst) (fun _ => id) fun a _ ⟨hst', hpath, hv⟩ =>
    ⟨hst', hpath, fun hi hhi => hV hi a (hv hi hhi)⟩

theorem map {g : α → β} (h : Shows s c x V) (hg : ∀ hi a, V hi a → W hi (g a)) : Shows s c (g <$> x) W :=
  h.bind fun a => .pure fun hi hv => hg hi a hv

theorem orDefect {d : Defect} {o : Option α} (h : ∀ a hi, o = some a → V hi a) : Shows s c (orDefect d o) V := by
  cases o with
  | none => exact throw
  | some a => exact pure fun hi => h a hi rfl

/-- A step that leaves the places of variables. -/
theorem same (h : ∀ st, Yields x st (fun _ => True) fun a st' =>
    st'.places = st.places ∧ Path s.plan st st' ∧ ∀ hi, Path s.plan st' hi → V hi a) : Shows s c x V := fun st hst =>
  Yields.mono (h st) (fun _ => id) fun _ _ ⟨hplaces, hpath, hv⟩ => ⟨hst.grow hpath hplaces, hpath, hv⟩

theorem mapM {f : α → Emit β} {V : State → α → β → Prop} (hf : ∀ a, Shows s c (f a) fun hi b => V hi a b) :
    ∀ as : List α, Shows s c (as.mapM f) fun hi bs => ∀ a ∈ as, ∃ b ∈ bs, V hi a b
  | [] => by
    rw [List.mapM_nil]
    exact pure fun _ => nofun
  | a :: as => by
    rw [List.mapM_cons]
    refine (hf a).bind fun b => (mapM hf as).bind fun bs => .pure fun hi has ha => ?_
    refine List.forall_mem_cons.2 ⟨⟨b, List.mem_cons_self, ha⟩, fun a' ha' => ?_⟩
    obtain ⟨b', hb', hv⟩ := has a' ha'
    exact ⟨b', List.mem_cons_of_mem _ hb', hv⟩

end Shows

section

/-! ### Locals -/

/-- A local that may be written to. -/
def IsLocal (s : Site) (c : Scope) (hi : State) (i : Nat) : Prop :=
  ¬c.kept i ∧ (c.Knows → i < s.paramCount + hi.locals.length)

/-- The next local is one that may be written to. -/
theorem State.Above.isLocal (h : st.Above s.paramCount c) (hlt : st.locals.length + 1 ≤ hi.locals.length) :
    IsLocal s c hi (s.paramCount + st.locals.length) :=
  ⟨fun hk => Nat.lt_irrefl _ (h.kept _ hk), fun _ => Nat.add_lt_add_left hlt _⟩

theorem shows_newLocal (s : Site) (ty : ValType) : Shows s c (newLocal s ty) (IsLocal s c) := by
  intro st hst
  have hpath : Path s.plan st { st with locals := st.locals ++ [ty] } :=
    .frame .refl (List.prefix_append _ _) List.suffix_rfl
  refine yields_bind (yields_get (yields_bind (yields_set (yields_pure ⟨hst.grow hpath rfl, hpath, fun hi hhi => ?_⟩))))
  exact hst.isLocal (by simpa using hhi.locals_le)

/-- The state with a new local for a variable. -/
def State.declare (st : State) (base : Nat) (v : Variable) (ty : ValType) : State :=
  { st with locals := st.locals ++ [ty], places := (v.id, base + st.locals.length) :: st.places }

theorem path_declare (base : Nat) (v : Variable) (ty : ValType) : Path plan st (st.declare base v ty) :=
  .frame .refl (List.prefix_append _ _) (List.suffix_cons _ _)

theorem State.Above.declare {base : Nat} (h : st.Above base c) {v : Variable} (hv : c.first ≤ v.id) (ty : ValType) :
    (st.declare base v ty).Above base c := by
  refine ⟨fun hk => ⟨fun id i hi => ?_, List.nodup_cons.2 ⟨fun hused => ?_, (h.inside hk).single⟩⟩, fun k hk => ?_,
    fun id i hi => ?_⟩
  · simp only [State.declare, List.length_append, List.length_singleton]
    rcases List.mem_cons.1 hi with heq | hi
    · cases heq
      exact ⟨hv, Nat.zero_le _, Nat.lt_succ_self _⟩
    · obtain ⟨hfirst, hlow, hroom⟩ := (h.inside hk).bounds id i hi
      exact ⟨hfirst, hlow, Nat.lt_succ_of_lt hroom⟩
  · obtain ⟨⟨id, i⟩, hi, rfl⟩ := List.mem_map.1 hused
    exact Nat.lt_irrefl _ ((h.inside hk).bounds id _ hi).2.2
  · simp only [State.declare, List.length_append, List.length_singleton]
    exact Nat.lt_succ_of_lt (h.kept k hk)
  · rcases List.mem_cons.1 hi with heq | hi
    · cases heq
      exact fun hk => Nat.lt_irrefl _ (h.kept _ hk)
    · exact h.apart id i hi

/-- A new local for a variable, which is kept in it. -/
theorem shows_declareLocal (ty : ValType) {v : Variable} (hv : c.first ≤ v.id) {α : Type} {k : Nat → Emit α}
    {V : State → α → Prop} (hk : ∀ i, Shows s c (k i) fun hi a => IsLocal s c hi i → V hi a) :
    Shows s c (do
      let i ← newLocal s ty
      bindLocal v i
      k i) V := by
  intro st hst
  refine yields_bind (yields_bind (yields_get (yields_bind (yields_set (yields_pure ?_)))))
  refine yields_bind (yields_modify ?_)
  refine Yields.mono (hk (s.paramCount + st.locals.length) _ (hst.declare hv ty)) (fun _ => id) ?_
  rintro a st' ⟨hst', hpath, hshown⟩
  refine ⟨hst', (path_declare _ v ty).trans hpath, fun hi hhi => ?_⟩
  exact hshown hi hhi (hst.isLocal (by simpa [State.declare] using (hpath.trans hhi).locals_le))

/-! ### Constants -/

theorem shows_strConst (bs : List UInt8) : Shows s c (strConst bs) fun hi a => hi.strings.lookup bs = some a := by
  refine .same fun st => yields_bind (yields_get ?_)
  split
  next a ha => exact yields_pure ⟨rfl, .refl, fun hi hhi => hhi.later.strings bs a ha⟩
  next absent =>
    refine yields_bind (yields_set (yields_pure ⟨rfl, .string .refl absent, fun hi hhi => ?_⟩))
    exact hhi.later.strings bs _ (List.lookup_cons_self ..)

theorem shows_unitConst (enum : String) (tag : Nat) : Shows s c (unitConst enum tag) fun _ _ => True := by
  refine .same fun st => yields_bind (yields_get ?_)
  split
  · exact yields_pure ⟨rfl, .refl, fun _ _ => trivial⟩
  · exact yields_bind (yields_set (yields_pure ⟨rfl, .unit .refl, fun _ _ => trivial⟩))

theorem shows_wordsConst (words : List Layout.Word) :
    Shows s c (wordsConst words) fun hi a => (a, words.flatMap (·.bytes)) ∈ hi.data.segments := by
  refine .same fun st => yields_bind (yields_get (yields_bind (yields_set (yields_pure
    ⟨rfl, .words .refl, fun hi hhi => ?_⟩))))
  exact hhi.later.segments.subset (List.mem_append_right _ (List.mem_singleton.2 rfl))

theorem shows_literalWord (l : Literal) : Shows s c (literalWord l) fun hi w => ∀ bs, l = .bytes bs →
      ∃ a, hi.strings.lookup bs = some a ∧ w = .i32 (BitVec.ofNat 32 a) := by
  cases l with
  | word w => exact .pure fun _ => nofun
  | bytes bs =>
    refine (shows_strConst bs).bind fun a => .pure fun hi ha cs hcs => ?_
    cases hcs
    exact ⟨a, ha, rfl⟩

/-! ### Functions -/

theorem shows_addJob (j : Job) : Shows s c (addJob j) fun hi slot => hi.Schedules slot j :=
  .same fun st => yields_bind (yields_get (yields_bind (yields_set (yields_pure
    ⟨rfl, .job (j := j) .refl, fun _ hhi => (State.schedules_withJob st j).path hhi⟩))))

theorem shows_functionConst (s : Site) (name : String) :
    Shows s c (functionConst s name) fun hi a => hi.thunks.lookup name = some a := by
  refine .same fun st => yields_bind (yields_get ?_)
  split
  next a ha => exact yields_pure ⟨rfl, .refl, fun hi hhi => hhi.later.thunks name a ha⟩
  next absent =>
    cases hsig : s.plan.symbols.function? name with
    | none => exact True.intro
    | some sig =>
      refine yields_bind (yields_pure (yields_bind (yields_bind (yields_get (yields_bind
        (yields_set (yields_pure ?_)))))))
      refine yields_bind (yields_bind (yields_get (yields_bind (yields_set (yields_pure ?_)))))
      refine yields_bind (yields_modify (yields_pure ⟨rfl, .thunk .refl absent hsig, fun hi hhi => ?_⟩))
      exact hhi.later.thunks name _ (List.lookup_cons_self ..)

theorem shows_typeIndex (ty : FuncType) : Shows s c (typeIndex ty) fun hi i => hi.types[i]? = some ty := by
  have hkept {st hi : State} (hhi : Path s.plan st hi) {i : Nat} (hi' : st.types[i]? = some ty) :
      hi.types[i]? = some ty := by
    obtain ⟨more, hmore⟩ := hhi.later.types
    rw [← hmore, List.getElem?_append_left (List.getElem?_eq_some_iff.1 hi').1, hi']
  refine .same fun st => yields_bind (yields_get ?_)
  split
  next i hfound =>
    refine yields_pure ⟨rfl, .refl, fun hi hhi => hkept hhi ?_⟩
    obtain ⟨hlt, heq, -⟩ := List.findIdx?_eq_some_iff_getElem.1 hfound
    rw [List.getElem?_eq_getElem hlt, of_decide_eq_true heq]
  · exact yields_bind (yields_set (yields_pure ⟨rfl, .type .refl, fun hi hhi => hkept hhi (by simp)⟩))

end

end Emit

end StackScript
