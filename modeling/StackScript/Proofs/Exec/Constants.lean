import StackScript.Proofs.Exec.Delivery
import StackScript.Proofs.Exec.Position

/-!
# Constant data at work

What a run does to the constant data of a module.  Functions of the host write only to memory that they
have just allocated, which lies behind the data; so data changes only by instructions that write to it.
-/

namespace StackScript

/-! ## Bytes of a memory -/

namespace Memory

/-- The byte at an address. -/
def byte? (m : Memory) (i : Nat) : Option UInt8 :=
  m.bytes.data[i]?

/-- Some bytes are at an address, and new memory is allocated behind them. -/
structure Shelters (addr : Nat) (bs : List UInt8) (m : Memory) : Prop where
  below : addr + bs.length ≤ m.next
  holds : ∀ i b, bs[i]? = some b → m.byte? (addr + i) = some b

variable {addr : Nat} {bs : List UInt8} {m m' : Memory}

theorem byte?_eq (m : Memory) (i : Nat) : m.byte? i = m.contents[i]? :=
  Array.getElem?_toList.symm

variable {place : Nat} {cs : List UInt8}

theorem Updates.byte?_eq (h : m.Updates place cs m') (hroom : place + cs.length ≤ m.size) (i : Nat) :
    m'.byte? i = if place ≤ i ∧ i < place + cs.length then cs[i - place]? else m.byte? i := by
  rw [Memory.byte?_eq, Memory.byte?_eq, h.1, getElem?_splice (by rwa [length_contents])]

/-- Memory that is only written outside of some bytes keeps them. -/
theorem Shelters.of_bytes (h : m.Shelters addr bs) (hnext : m.next ≤ m'.next)
    (hbytes : ∀ i, addr ≤ i → i < addr + bs.length → ∀ b, m.byte? i = some b → m'.byte? i = some b) :
    m'.Shelters addr bs where
  below := Nat.le_trans h.below hnext
  holds i b hb := by
    have hlt : i < bs.length := (List.getElem?_eq_some_iff.1 hb).1
    exact hbytes _ (Nat.le_add_right _ _) (by omega) b (h.holds i b hb)

/-- A step on the memory that keeps some bytes; if it succeeds, its result has `V`. -/
def Spares {α : Type} (addr : Nat) (bs : List UInt8) (x : Action α) (V : α → Prop) : Prop :=
  ∀ m : Memory, m.Shelters addr bs → match x m with
    | .ok a m' => m'.Shelters addr bs ∧ V a
    | .error _ m' => m'.Shelters addr bs

namespace Spares

variable {α β : Type} {x : Action α} {f : α → Action β} {V : α → Prop} {W : β → Prop}

theorem bind (hx : Spares addr bs x V) (hf : ∀ a, V a → Spares addr bs (f a) W) : Spares addr bs (x >>= f) W := by
  intro m hm
  have h := hx m hm
  simp only [Bind.bind, EStateM.bind]
  split at h <;> next hrun =>
    simp only [hrun]
    first
    | exact hf _ h.2 _ h.1
    | exact h

theorem pure {a : α} (h : V a) : Spares addr bs (Pure.pure a) V := fun _ hm => ⟨hm, h⟩

end Spares

/-- Ranges that have no address in common. -/
def Apart (place len addr len' : Nat) : Prop :=
  place + len ≤ addr ∨ addr + len' ≤ place
  deriving Decidable

theorem Shelters.of_updates (h : m.Shelters addr bs) (hupdates : m.Updates place cs m')
    (hroom : place + cs.length ≤ m.size) (hapart : Apart place cs.length addr bs.length) : m'.Shelters addr bs := by
  refine h.of_bytes (Nat.le_of_eq hupdates.2.1.symm) fun i hlo hhi b hb => ?_
  rwa [hupdates.byte?_eq hroom, if_neg (by unfold Apart at hapart; omega)]

theorem spares_write (hapart : Apart place cs.length addr bs.length) :
    Spares addr bs (write place cs) fun _ => True := by
  intro m hm
  obtain ⟨e, h⟩ | ⟨m', h, hroom, hupdates⟩ := write_cases place cs m <;> rw [h]
  · exact hm
  · exact ⟨hm.of_updates hupdates hroom hapart, trivial⟩

/-- Written bytes are there. -/
theorem shelters_write {u : Unit} (h : write place cs m = .ok u m')
    (hbelow : place + cs.length ≤ m.next) : m'.Shelters place cs ∧ m'.next = m.next := by
  obtain ⟨e, h'⟩ | ⟨m₁, h', hroom, hupdates⟩ := write_cases place cs m <;> cases h'.symm.trans h
  refine ⟨⟨by rwa [hupdates.2.1], fun i b hb => ?_⟩, hupdates.2.1⟩
  have hlt : i < cs.length := (List.getElem?_eq_some_iff.1 hb).1
  rw [hupdates.byte?_eq hroom, if_pos (by omega), Nat.add_sub_cancel_left, hb]

theorem spares_writeAll : ∀ {ds : List DataSegment}, (∀ d ∈ ds, Apart d.offset.toNat d.bytes.length addr bs.length) →
      Spares addr bs (writeAll ds) fun _ => True
  | [], _ => .pure trivial
  | _ :: _, hapart =>
    (spares_write (hapart _ List.mem_cons_self)).bind fun _ _ =>
      spares_writeAll fun d hd => hapart d (List.mem_cons_of_mem _ hd)

end Memory

/-- Constant data in the order of its addresses, in front of the memory that is allocated. -/
structure Module.Ordered (m : Module) : Prop where
  below : ∀ d ∈ m.data, d.offset.toNat + d.bytes.length ≤ m.heapBase.toNat
  apart : m.data.Pairwise fun d e => d.offset.toNat + d.bytes.length ≤ e.offset.toNat

namespace Memory

variable {addr : Nat} {bs : List UInt8} {m m' : Memory}

theorem shelters_writeAll {u : Unit} : ∀ {ds : List DataSegment} {m : Memory},
    writeAll ds m = .ok u m' → (∀ d ∈ ds, d.offset.toNat + d.bytes.length ≤ m.next) →
      (ds.Pairwise fun d e => d.offset.toNat + d.bytes.length ≤ e.offset.toNat) →
        ∀ d ∈ ds, m'.Shelters d.offset.toNat d.bytes
  | [], _, _, _, _ => nofun
  | d :: _, _, h, hbelow, hpairs => by
    obtain ⟨hd, hds⟩ := List.pairwise_cons.1 hpairs
    simp only [writeAll, Bind.bind, EStateM.bind] at h
    split at h
    next m₁ hwrite =>
      obtain ⟨hhere, hnext⟩ := shelters_write hwrite (hbelow d List.mem_cons_self)
      have hrest := shelters_writeAll h (fun e he => hnext ▸ hbelow e (List.mem_cons_of_mem _ he)) hds
      have hkept := spares_writeAll (fun e he => .inr (hd e he)) m₁ hhere
      rw [h] at hkept
      exact List.forall_mem_cons.2 ⟨hkept.1, hrest⟩
    · cases h

/-- **A loaded module holds its data.** -/
theorem shelters_ofModule {module : Module} {maxPages : Nat} (h : ofModule module maxPages = .ok m)
    (hdata : module.Ordered) : ∀ d ∈ module.data, m.Shelters d.offset.toNat d.bytes := by
  unfold ofModule at h
  dsimp only at h
  split at h
  · cases h
  · split at h
    next hrun =>
      cases h
      exact shelters_writeAll hrun (fun d hd => Nat.le_trans (hdata.below d hd) (le_align _)) hdata.apart
    · cases h

theorem spares_store {kind : MemKind} {base : BitVec 32} {offset : Nat} {v : Value}
    (hapart : Apart (effective base offset) kind.width addr bs.length) :
    Spares addr bs (store kind base offset v) fun _ => True := by
  intro m hm
  obtain ⟨e, h⟩ | ⟨n, m', h, hroom, hupdates⟩ := store_cases kind base offset v m <;> rw [h]
  · exact hm
  · have hlength := length_littleEndian kind.width n
    exact ⟨hm.of_updates hupdates (by rwa [hlength]) (by rwa [hlength]), trivial⟩

theorem spares_copy {target source len : BitVec 32} (hapart : Apart target.toNat len.toNat addr bs.length) :
    Spares addr bs (copy target source len) fun _ => True := by
  intro m hm
  obtain ⟨⟨e, h⟩, -⟩ | ⟨m', h, hsource, htarget, hupdates⟩ := copy_cases target source len m <;> rw [h]
  · exact hm
  · have hlength : ((m.contents.drop source.toNat).take len.toNat).length = len.toNat :=
      List.length_take_of_le (by rw [List.length_drop, length_contents]; omega)
    exact ⟨hm.of_updates hupdates (by rwa [hlength]) (by rwa [hlength]), trivial⟩

theorem Shelters.of_allocates {size : Nat} (h : m.Shelters addr bs) (halloc : m.Allocates size m') :
    m'.Shelters addr bs := by
  have hle : m.next + max size 1 ≤ m'.next := halloc.next ▸ le_align _
  obtain ⟨n, hzeros⟩ := halloc.zeros
  refine h.of_bytes (by omega) fun i _ _ b hb => ?_
  rw [byte?_eq] at hb ⊢
  rw [hzeros, List.getElem?_append_left (List.getElem?_eq_some_iff.1 hb).1, hb]

/-- New memory is behind the bytes, below the limit of addresses. -/
theorem spares_alloc (size : Nat) : Spares addr bs (alloc size) fun place =>
    addr + bs.length ≤ place ∧ place + size < Layout.addressLimit := by
  intro m hm
  obtain h | ⟨m', h, halloc⟩ := alloc_cases size m <;> rw [h]
  · exact hm
  · have hlimit := halloc.below
    exact ⟨hm.of_allocates halloc, hm.below, by omega⟩

theorem spares_allocStr (cs : List UInt8) : Spares addr bs (allocStr cs) fun _ => True :=
  (spares_alloc _).bind fun _ hplace =>
    (spares_write (.inr hplace.1)).bind fun _ _ =>
      (spares_write (.inr (Nat.le_trans hplace.1 (Nat.le_add_right _ _)))).bind fun _ _ => .pure trivial

end Memory

/-! ## Steps of a machine -/

namespace Run

variable {α β : Type} {R : Machine → Machine → Prop} {addr : Nat} {bs : List UInt8} {x : Run α} {f : α → Run β}

/-- A relation between machines that looks only at the memory and at the result of the root. -/
class Blind (R : Machine → Machine → Prop) : Prop where
  same : ∀ {m m' : Machine}, m'.memory = m.memory → m'.rootResult = m.rootResult → R m m'
  trans : ∀ {m₁ m₂ m₃ : Machine}, R m₁ m₂ → R m₂ m₃ → R m₁ m₃

/-- A step to a related machine, whether it succeeds or fails. -/
def Respects (R : Machine → Machine → Prop) (x : Run α) : Prop :=
  ∀ m, Ends x m (fun _ m' => R m m') fun _ m' => R m m'

def SameMemory (m m' : Machine) : Prop :=
  m'.memory = m.memory

instance : Blind SameMemory := ⟨fun h _ => h, fun h h' => Eq.trans h' h⟩

/-- Some bytes of the memory are kept. -/
def Sparing (addr : Nat) (bs : List UInt8) (m m' : Machine) : Prop :=
  m.memory.Shelters addr bs → m'.memory.Shelters addr bs

instance : Blind (Sparing addr bs) := ⟨fun h _ hm => h ▸ hm, fun h h' hm => h' (h hm)⟩

/-- A step that leaves the memory as it is. -/
abbrev Keeps (x : Run α) : Prop :=
  Respects SameMemory x

/-- A step that keeps some bytes of the memory. -/
abbrev Spares (addr : Nat) (bs : List UInt8) (x : Run α) : Prop :=
  Respects (Sparing addr bs) x

theorem respects_modify {g : Machine → Machine} (hg : ∀ m, R m (g m)) : Respects R (modify g) := hg

/-- A step on the memory, and what follows it. -/
theorem spares_onMemory {V : α → Prop} {x : Memory.Action α} (hx : Memory.Spares addr bs x V)
    (hf : ∀ a, V a → Spares addr bs (f a)) : Spares addr bs (onMemory x >>= f) := by
  intro m
  by_cases hm : m.memory.Shelters addr bs
  · have h := hx m.memory hm
    refine ends_bind ?_
    unfold Ends
    split at h <;> next hrun =>
      first
      | rw [onMemory_of_ok hrun]; exact (hf _ h.2 _).mono (fun _ _ h' _ => h' h.1) fun _ _ h' _ => h' h.1
      | rw [onMemory_of_error hrun]; exact fun _ => h
  · unfold Ends
    split <;> exact fun h => absurd h hm

section

variable [Blind R]

theorem Respects.bind (hx : Respects R x) (hf : ∀ a, Respects R (f a)) : Respects R (x >>= f) := fun m =>
  ends_bind ((hx m).mono (fun _ _ h => h) fun a m' h =>
    (hf a m').mono (fun _ _ => Blind.trans h) fun _ _ => Blind.trans h)

theorem respects_pure {a : α} : Respects R (pure a) := fun _ => Blind.same rfl rfl

theorem respects_throw {e : Fault} : Respects R (throw e : Run α) := fun _ => Blind.same (R := R) rfl rfl

theorem respects_get : Respects R get := fun _ => Blind.same (R := R) rfl rfl

theorem respects_ofExcept {r : Except Fault α} : Respects R (ofExcept r) := by
  cases r with
  | ok a => exact respects_pure
  | error e => exact respects_throw

theorem respects_ofExceptBind {r : Except Fault α} (h : ∀ a, r = .ok a → Respects R (f a)) :
    Respects R (ofExcept r >>= f) := fun m =>
  ends_bind (ends_ofExcept (fun a ha => h a ha m) fun _ _ => Blind.same rfl rfl)

/-! ### Functions of the host -/

theorem respects_createPromise : Respects R createPromise := fun _ => Blind.same (R := R) rfl rfl

theorem respects_wake (ids : List Nat) : Respects R (wake ids) := fun _ => Blind.same (R := R) rfl rfl

theorem respects_keep (t : Task) : Respects R (keep t) := fun _ => Blind.same (R := R) rfl rfl

theorem respects_settle (h : PromiseHandle) (s : PromiseState) : Respects R (settle h s) := by
  intro m
  refine ends_bind (ends_get ?_)
  split
  · exact ends_throw (Blind.same rfl rfl)
  · exact ends_bind (ends_set (ends_modify (Blind.same rfl rfl)))

theorem respects_take (id : Nat) : Respects R (take id) := by
  intro m
  refine ends_bind (ends_get ?_)
  split
  · exact ends_pure (Blind.same rfl rfl)
  · exact ends_bind (ends_set (ends_pure (Blind.same rfl rfl)))

theorem respects_spawn (img : Image) (index : Nat) (args : List Value) : Respects R (spawn img index args) :=
  respects_get.bind fun _ => (respects_modify fun _ => by exact Blind.same rfl rfl).bind fun _ =>
    respects_ofExcept.bind fun _ => (respects_keep _).bind fun _ => (respects_wake _).bind fun _ => respects_pure

theorem respects_argument (args : List Value) (i : Nat) : Respects R (argument args i) := by
  unfold argument
  split
  · exact respects_pure
  · exact respects_throw

theorem respects_argI32 (args : List Value) (i : Nat) : Respects R (argI32 args i) :=
  (respects_argument args i).bind fun _ => respects_ofExcept

theorem respects_argI64 (args : List Value) (i : Nat) : Respects R (argI64 args i) :=
  (respects_argument args i).bind fun _ => respects_ofExcept

/-- A step on the memory that only looks at it. -/
theorem respects_onMemory {x : Memory.Action α} (hx : ∀ m : Memory, match x m with
    | .ok _ m' => m' = m
    | .error _ m' => m' = m) : Respects R (onMemory x) := by
  intro m
  have h := hx m.memory
  unfold Ends
  split at h <;> next hrun =>
    first
    | rw [onMemory_of_ok hrun]; exact Blind.same h rfl
    | rw [onMemory_of_error hrun]; exact Blind.same h rfl

theorem respects_read (place len : Nat) : Respects R (onMemory (Memory.read place len)) := by
  refine respects_onMemory fun m => ?_
  rw [Memory.read_eq]
  by_cases hin : place + len ≤ m.size
  · rw [if_pos hin]
  · rw [if_neg hin]

theorem respects_load (kind : MemKind) (base : BitVec 32) (offset : Nat) :
    Respects R (onMemory (Memory.load kind base offset)) := by
  refine respects_onMemory fun m => ?_
  rw [Memory.load_eq]
  by_cases hin : Memory.effective base offset + kind.width ≤ m.size
  · rw [if_pos hin]
  · rw [if_neg hin]

theorem respects_argBytes (args : List Value) (i : Nat) : Respects R (argBytes args i) :=
  (respects_argument args i).bind fun _ => (respects_argument args (i + 1)).bind fun _ =>
    respects_ofExcept.bind fun _ => respects_ofExcept.bind fun _ => respects_read _ _

theorem respects_argText (args : List Value) (i : Nat) : Respects R (argText args i) :=
  (respects_argBytes args i).bind fun _ => respects_pure

theorem respects_argPromise (args : List Value) (i : Nat) : Respects R (argPromise args i) :=
  (respects_argI32 args i).bind fun _ => respects_pure

theorem respects_submit (r : Request) : Respects R (submit r) :=
  respects_createPromise.bind fun _ => (respects_modify fun _ => by exact Blind.same rfl rfl).bind fun _ =>
    respects_pure

theorem respects_awaitPromise (task : Nat) (h : PromiseHandle) : Respects R (awaitPromise task h) := by
  intro m
  refine ends_bind (ends_get ?_)
  split
  · exact ends_throw (Blind.same rfl rfl)
  · exact ends_pure (Blind.same rfl rfl)
  · exact ends_throw (Blind.same rfl rfl)
  · exact ends_bind (ends_set (ends_pure (Blind.same rfl rfl)))

theorem respects_externalCall (name : String) (args : List Value) : Respects R (externalCall name args) := by
  intro m
  refine ends_bind (ends_get (ends_bind (ends_set ?_)))
  exact ends_ofExcept (fun _ _ => Blind.same rfl rfl) fun _ _ => Blind.same rfl rfl

theorem Respects.give {x : Run Value} (h : Respects R x) : Respects R (give x) :=
  h.bind fun _ => respects_pure

theorem Respects.finish {x : Run Unit} (h : Respects R x) : Respects R (finish x) :=
  h.bind fun _ => respects_pure

variable (halloc : ∀ size, Respects R (onMemory (Memory.alloc size)))
  (hstr : ∀ cs, Respects R (onMemory (Memory.allocStr cs)))

include hstr

theorem respects_textValue (text : String) : Respects R (textValue text) :=
  (hstr _).bind fun _ => respects_pure

include halloc

/-- Functions of the host do nothing to the memory but allocate. -/
theorem respects_hostCall (img : Image) (task : Nat) (args : List Value) (op : HostImport) :
    Respects R (hostCall img task args op) := by
  cases op with
  | log =>
    refine ((respects_argText args 0).bind fun line => ?_).finish
    split
    · exact respects_modify fun _ => Blind.same rfl rfl
    · exact respects_pure
  | alloc => exact ((respects_argI32 args 0).bind fun _ => (halloc _).bind fun _ => respects_pure).give
  | httpGet | fileRead => exact ((respects_argText args 0).bind fun _ => respects_submit _).give
  | httpPost | fileWrite =>
    exact ((respects_argText args 0).bind fun _ => (respects_argBytes args 2).bind fun _ => respects_submit _).give
  | timerSchedule =>
    exact ((respects_argI32 args 0).bind fun _ => respects_get.bind fun _ => respects_submit _).give
  | taskSpawn =>
    exact ((respects_argI32 args 0).bind fun _ => respects_ofExcept.bind fun _ =>
      respects_createPromise.bind fun _ => (respects_argument args 1).bind fun _ =>
        (respects_spawn _ _ _).bind fun _ => respects_pure).give
  | promiseResolve | promiseReject =>
    exact ((respects_argPromise args 0).bind fun _ => (respects_argI64 args 1).bind fun _ =>
      respects_settle _ _).finish
  | promiseAwait => exact (respects_argPromise args 0).bind fun _ => respects_awaitPromise _ _
  | fmtI64 | fmtU64 => exact ((respects_argI64 args 0).bind fun _ => respects_textValue hstr _).give
  | fmtF64 =>
    exact ((respects_argument args 0).bind fun _ => respects_ofExcept.bind fun _ =>
      respects_textValue hstr _).give

theorem respects_call (img : Image) (t : Task) (index : Nat) : Respects R (call img t index) := by
  unfold call
  split
  · unfold callImport
    split
    · exact respects_throw
    · dsimp only
      split
      · refine (respects_hostCall halloc hstr _ _ _ _).bind fun reply => ?_
        split
        · exact respects_ofExcept
        · exact respects_pure
      · exact (respects_externalCall _ _).bind fun _ => respects_ofExcept
  · exact respects_ofExcept

/-- Instructions without structure, but for those that write. -/
theorem respects_execOp {img : Image} {fn : LoadedFunction} {id : Nat} {f : Frame} {outer : List Frame} {s : Stack}
    (o : Op) (hstore : ∀ kind offset v base rest, o = .store kind offset → s = v :: .i32 base :: rest →
      Respects R (onMemory (Memory.store kind base offset.toNat v)))
    (hcopy : ∀ len source target rest, o = .memoryCopy → s = .i32 len :: .i32 source :: .i32 target :: rest →
      Respects R (onMemory (Memory.copy target source len))) : Respects R (execOp img fn id f outer s o) := by
  cases o with
  | store kind offset =>
    refine respects_ofExceptBind fun r hr => respects_ofExceptBind fun r' hr' => ?_
    have htop : s = r.1 :: .i32 r'.1 :: r'.2 := by rw [pop_eq_ok hr, popI32_eq_ok hr']
    exact (hstore _ _ _ _ _ rfl htop).bind fun _ => respects_pure
  | memoryCopy =>
    refine respects_ofExceptBind fun r hr => respects_ofExceptBind fun r' hr' =>
      respects_ofExceptBind fun r'' hr'' => ?_
    have htop : s = .i32 r.1 :: .i32 r'.1 :: .i32 r''.1 :: r''.2 := by
      rw [popI32_eq_ok hr, popI32_eq_ok hr', popI32_eq_ok hr'']
    exact (hcopy _ _ _ _ rfl htop).bind fun _ => respects_pure
  | load kind offset => exact respects_ofExcept.bind fun _ => (respects_load _ _ _).bind fun _ => respects_pure
  | call index => exact respects_call halloc hstr _ _ _
  | unreachable => exact respects_throw
  | brIf depth =>
    refine respects_ofExcept.bind fun _ => ?_
    dsimp only
    split
    · exact respects_pure
    · exact respects_ofExcept.bind fun _ => respects_pure
  | return_ => exact respects_ofExcept
  | callIndirect type => exact respects_ofExcept.bind fun _ => respects_ofExcept
  | localSet i | localTee i =>
    exact respects_ofExcept.bind fun _ => respects_ofExcept.bind fun _ => respects_pure
  | i32Const v | i64Const v | f64Const v => exact respects_pure
  | br depth | drop | localGet i | num op => exact respects_ofExcept.bind fun _ => respects_pure

end

end Run

/-! ### Instructions -/

/-- Where the next instruction of a task writes: an address and a number of bytes. -/
def Task.writes? (img : Image) (t : Task) : Option (Nat × Nat) := do
  let f ← t.frames.head?
  let fn ← img.functions[f.function]?
  match ← fn.body[f.pc]?, t.stack with
  | .op (.store kind offset), _ :: .i32 base :: _ => some (Memory.effective base offset.toNat, kind.width)
  | .op .memoryCopy, .i32 len :: _ :: .i32 target :: _ => some (target.toNat, len.toNat)
  | _, _ => none

/-- The next instruction of a task writes to some bytes. -/
def Task.WritesTo (img : Image) (t : Task) (addr : Nat) (bs : List UInt8) : Prop :=
  ∃ place len, t.writes? img = some (place, len) ∧ ¬Memory.Apart place len addr bs.length

namespace Run

variable {α β : Type} {R : Machine → Machine → Prop} [Blind R] {addr : Nat} {bs : List UInt8} {x : Run α}
  {f : α → Run β} {img : Image} {t : Task}

/-- Instructions do what they do to the memory by allocating and by writing where they say. -/
theorem respects_step (halloc : ∀ size, Respects R (onMemory (Memory.alloc size)))
    (hstr : ∀ cs, Respects R (onMemory (Memory.allocStr cs)))
    (hstore : ∀ kind base offset v, t.writes? img = some (Memory.effective base offset, kind.width) →
      Respects R (onMemory (Memory.store kind base offset v)))
    (hcopy : ∀ target source len, t.writes? img = some (target.toNat, len.toNat) →
      Respects R (onMemory (Memory.copy target source len))) : Respects R (step img t) := by
  obtain ⟨id, frames, s, awaiting⟩ := t
  unfold step
  dsimp only
  split
  · exact respects_throw
  next f outer =>
    split
    · exact respects_throw
    next fn hfn =>
      split
      · exact respects_throw
      next instr hinstr =>
        unfold exec
        split
        · exact respects_pure
        · exact respects_pure
        · refine respects_ofExcept.bind fun _ => ?_
          dsimp only
          split <;> exact respects_pure
        · split
          · exact respects_throw
          · exact respects_pure
        · split
          · exact respects_ofExcept
          · exact respects_pure
        next o =>
          refine respects_execOp halloc hstr o ?_ ?_
          · rintro kind offset v base rest rfl rfl
            exact hstore _ _ _ _ (by simp [Task.writes?, hfn, hinstr])
          · rintro len source target rest rfl rfl
            exact hcopy _ _ _ (by simp [Task.writes?, hfn, hinstr])

/-- Settling the promise of finished work. -/
theorem respects_complete (hstr : ∀ cs, Respects R (onMemory (Memory.allocStr cs)))
    (hobject : ∀ tag payload, Respects R (resultObject tag payload)) (c : Completion) : Respects R (complete c) := by
  refine Respects.bind ?_ fun _ => respects_settle _ _
  rcases c.outcome with _ | (message | bytes) | (message | n)
  · exact respects_pure
  · exact (respects_textValue hstr message).bind fun _ => hobject 1 _
  · exact (hstr bytes).bind fun _ => hobject 0 _
  · exact (respects_textValue hstr message).bind fun _ => hobject 1 _
  · exact hobject 0 _

/-- A step on the memory alone. -/
theorem spares_memory {V : α → Prop} {x : Memory.Action α} (hx : Memory.Spares addr bs x V) :
    Spares addr bs (onMemory x) := by
  simpa using spares_onMemory (f := pure) hx fun _ _ => respects_pure

/-- **An instruction keeps bytes unless it writes to them.** -/
theorem spares_step (h : ¬t.WritesTo img addr bs) : Spares addr bs (step img t) := by
  have hapart {place len : Nat} (hw : t.writes? img = some (place, len)) : Memory.Apart place len addr bs.length :=
    Decidable.not_not.1 fun hin => h ⟨place, len, hw, hin⟩
  exact respects_step (fun _ => spares_memory (Memory.spares_alloc _))
    (fun _ => spares_memory (Memory.spares_allocStr _))
    (fun _ _ _ _ hw => spares_memory (Memory.spares_store (hapart hw)))
    fun _ _ _ hw => spares_memory (Memory.spares_copy (hapart hw))

theorem spares_resultObject (tag : Nat) (payload : Value) : Spares addr bs (resultObject tag payload) := by
  refine spares_onMemory (Memory.spares_alloc _) fun object hobject => ?_
  have hptr : (BitVec.ofNat 32 object).toNat = object := by
    have hlimit : Layout.addressLimit = 2 ^ 32 := by decide
    rw [BitVec.toNat_ofNat, Nat.mod_eq_of_lt (by omega)]
  have hbehind (offset : Nat) : addr + bs.length ≤ Memory.effective (BitVec.ofNat 32 object) offset := by
    rw [Memory.effective, hptr]
    omega
  exact spares_onMemory (Memory.spares_store (.inr (hbehind _))) fun _ _ =>
    spares_onMemory (Memory.spares_store (.inr (hbehind _))) fun _ _ => respects_pure

/-- Settling the promise of finished work writes only to new memory. -/
theorem spares_complete (c : Completion) : Spares addr bs (complete c) :=
  respects_complete (fun _ => spares_memory (Memory.spares_allocStr _)) spares_resultObject c

/-- The machine after a step, whether it succeeds or fails. -/
def after (x : Run α) (m : Machine) : Machine :=
  match x m with
  | .ok _ m' => m'
  | .error _ m' => m'

theorem Ends.after {m : Machine} {Q : Machine → Prop} (h : Ends x m (fun _ m' => Q m') fun _ m' => Q m') :
    Q (after x m) := by
  unfold Ends at h
  unfold Run.after
  cases hrun : x m <;> rw [hrun] at h <;> exact h

end Run

/-! ## Runs -/

/-- A run, with the instructions that it consists of: each with its task and the machine in front of it.
Besides, promises of finished work are settled, and things are done that leave the memory alone. -/
inductive Passes (img : Image) (m : Machine) : List (Task × Machine) → Machine → Prop
  | refl : Passes img m [] m
  | step {log m₁} (init : Passes img m log m₁) (t : Task) :
      Passes img m (log ++ [(t, m₁)]) (Run.after (Run.step img t) m₁)
  | complete {log m₁} (init : Passes img m log m₁) (c : Completion) :
      Passes img m log (Run.after (Run.complete c) m₁)
  | other {log m₁ m₂} (init : Passes img m log m₁) (memory : m₂.memory = m₁.memory) :
      Passes img m log m₂

namespace Passes

variable {img : Image} {m m₁ m₂ : Machine} {log log' : List (Task × Machine)} {addr : Nat} {bs : List UInt8}

theorem trans (h : Passes img m log m₁) (h' : Passes img m₁ log' m₂) : Passes img m (log ++ log') m₂ := by
  induction h' with
  | refl => simpa using h
  | step _ t ih =>
    rw [← List.append_assoc]
    exact ih.step t
  | complete _ c ih => exact ih.complete c
  | other _ memory ih => exact ih.other memory

/-- What was run in front of an instruction. -/
theorem front {before after : List (Task × Machine)} {t : Task} (h : Passes img m log m₂)
    (hlog : log = before ++ (t, m₁) :: after) : Passes img m before m₁ := by
  induction h generalizing after with
  | refl => simp at hlog
  | @step log m₃ init u ih =>
    obtain rfl | ⟨after, last, rfl⟩ := List.eq_nil_or_concat after
    · obtain ⟨rfl, heq⟩ := List.append_inj' hlog rfl
      cases heq
      exact init
    · rw [List.concat_eq_append, ← List.cons_append, ← List.append_assoc] at hlog
      exact ih (List.append_inj_left' hlog rfl)
  | complete _ _ ih | other _ _ ih => exact ih hlog

/-- **Bytes stay unless an instruction writes to them.** -/
theorem shelters (h : Passes img m log m₁) (hm : m.memory.Shelters addr bs)
    (hlog : ∀ s ∈ log, ¬s.1.WritesTo img addr bs) : m₁.memory.Shelters addr bs := by
  induction h with
  | refl => exact hm
  | step _ t ih =>
    obtain ⟨hfront, hlast⟩ := List.forall_mem_append.1 hlog
    exact (Run.spares_step (hlast _ List.mem_cons_self) _).after (ih hfront)
  | complete _ c ih => exact (Run.spares_complete c _).after (ih hlog)
  | other _ memory ih => exact memory ▸ ih hlog

end Passes

namespace Run

variable {α β : Type} {img : Image} {x : Run α} {f : α → Run β}

/-- The instructions that a step runs, from each machine: with their tasks and the machines in front of them. -/
abbrev Trace := Machine → List (Task × Machine)

namespace Trace

/-- No instructions. -/
def nil : Trace := fun _ => []

/-- Instructions of a step, and of what follows it if it succeeds. -/
def bind (x : Run α) (first : Trace) (rest : α → Trace) : Trace := fun m =>
  first m ++ match x m with
    | .ok a m => rest a m
    | .error _ _ => []

def instructions (img : Image) : Nat → Option Nat → Task → Trace
  | 0, _, _ => nil
  | limit + 1, fuel, t =>
    if fuel = some 0 then nil
    else bind (step img t) (fun m => [(t, m)]) fun
      | .next t => instructions img limit (fuel.map (· - 1)) t
      | .finished _ | .blocked _ => nil

def slice (img : Image) (limit : Nat) (t : Task) : Trace :=
  match t.awaiting with
  | none => instructions img limit img.config.fuel t
  | some h => bind get nil fun m =>
    match m.promises.state h with
    | .ok (.resolved v) =>
      instructions img limit img.config.fuel { t with awaiting := none, stack := .i64 v :: t.stack }
    | _ => nil

def round (img : Image) (limit : Nat) : Trace :=
  bind nextReady nil fun
    | none => nil
    | some id => bind (take id) nil fun
      | none => nil
      | some t => slice img limit t

def drive (img : Image) (sliceLimit : Nat) (goal : Machine → Bool) : Nat → Trace
  | 0 => nil
  | limit + 1 => bind get nil fun m =>
    if goal m then nil
    else bind (Run.round img sliceLimit) (round img sliceLimit) fun
      | none => nil
      | some () => drive img sliceLimit goal limit

def invoke (img : Image) (limit index : Nat) (args : List Value) : Trace :=
  bind (spawn img index args) nil fun id =>
    bind (modify fun st => { st with root := some id, rootResult := none }) nil fun _ =>
      drive img limit (·.rootResult.isSome) limit

def settled (img : Image) (limit : Nat) (h : PromiseHandle) : Trace :=
  drive img limit (isSettled h) limit

def main (img : Image) (limit : Nat) (e : Entry) : Trace :=
  bind (Run.invoke img limit e.function.toNat []) (invoke img limit e.function.toNat []) fun
    | some (some v) =>
      if e.isAsync then bind (ofExcept v.toI32) nil fun h => settled img limit ⟨h.toNat⟩ else nil
    | _ => nil

def entry (img : Image) (limit : Nat) : Trace :=
  bind (link img) nil fun _ =>
    bind (modify fun st => { st with status := .running }) nil fun _ =>
      bind (img.source.start.elim (pure (some none)) fun index => Run.invoke img limit index.toNat [])
          (img.source.start.elim nil fun index => invoke img limit index.toNat []) fun started =>
        if started.isNone then nil else img.source.main.elim nil fun e => main img limit e

def call (img : Image) (limit : Nat) (name : String) (args : List Value) : Trace :=
  bind (link img) nil fun _ =>
    match img.source.export? name with
    | none => nil
    | some index => invoke img limit index args

end Trace

/-- A step that is a run of these instructions. -/
def Logged (img : Image) (x : Run α) (trace : Trace) : Prop :=
  ∀ m, Passes img m (trace m) (after x m)

variable {first : Trace} {rest : α → Trace}

theorem Logged.bind (hx : Logged img x first) (hf : ∀ a, Logged img (f a) (rest a)) :
    Logged img (x >>= f) (.bind x first rest) := by
  intro m
  have hlog := hx m
  unfold after at hlog ⊢
  simp only [Bind.bind, EStateM.bind, Trace.bind]
  cases hrun : x m with
  | error e m₁ =>
    rw [hrun] at hlog
    simpa using hlog
  | ok a m₁ =>
    rw [hrun] at hlog
    exact hlog.trans (hf a m₁)

theorem Respects.logged (h : Keeps x) : Logged img x .nil := fun m => Passes.refl.other (h m).after

theorem Logged.bind_keeps (hx : Logged img x first) (hf : ∀ a, Keeps (f a)) : Logged img (x >>= f) first := by
  intro m
  have h := hx.bind (fun a => (hf a).logged) m
  have hnil : Trace.bind x first (fun _ => .nil) m = first m := by
    unfold Trace.bind
    split <;> exact List.append_nil _
  rwa [hnil] at h

theorem logged_step (t : Task) : Logged img (step img t) fun m => [(t, m)] := fun _ => Passes.refl.step t

theorem logged_instructions : ∀ (limit : Nat) (fuel : Option Nat) (t : Task),
    Logged img (instructions img limit fuel t) (.instructions img limit fuel t)
  | 0, _, _ => respects_pure.logged
  | limit + 1, _, t => by
    unfold instructions Trace.instructions
    split
    · exact respects_pure.logged
    · refine (logged_step t).bind fun p => ?_
      cases p with
      | next t => exact logged_instructions limit _ t
      | finished | blocked => exact respects_pure.logged

theorem logged_slice (limit : Nat) (t : Task) : Logged img (slice img limit t) (.slice img limit t) := by
  unfold slice Trace.slice
  cases t.awaiting with
  | none => exact logged_instructions _ _ _
  | some h =>
    refine respects_get.logged.bind fun m => ?_
    rcases m.promises.state h with e | s | v | e
    · exact respects_throw.logged
    · exact respects_pure.logged
    · exact logged_instructions _ _ _
    · exact respects_throw.logged

theorem keeps_afterSlice (id : Nat) (ending : Slice) : Keeps (afterSlice id ending) := by
  cases ending with
  | finished v =>
    refine respects_modify fun m => ?_
    split <;> rfl
  | blocked t => exact respects_keep t
  | yielded t => exact (respects_keep t).bind fun _ => respects_wake _

theorem keeps_nextReady : Keeps nextReady := by
  intro m
  refine ends_bind (ends_get ?_)
  split
  · exact ends_pure rfl
  · exact ends_bind (ends_set (ends_pure rfl))

theorem get_bind (f : Machine → Run α) (m : Machine) : (get >>= f) m = f m m := rfl

theorem logged_awaitHost : Logged img awaitHost .nil := by
  intro m
  cases hwait : m.work.wait with
  | none =>
    have hrun : awaitHost m = .error (.deadlock m.tasks.length) m := by
      simp only [awaitHost, get_bind, hwait]
      rfl
    unfold after
    rw [hrun]
    exact .refl
  | some p =>
    obtain ⟨c, work⟩ := p
    have hrun : awaitHost m = complete c { m with work } := by
      simp only [awaitHost, get_bind, hwait]
      rfl
    have hset : Passes img m [] { m with work } := .other .refl rfl
    have hcomplete := hset.complete c
    unfold after at hcomplete ⊢
    rwa [hrun]

theorem logged_round (limit : Nat) : Logged img (round img limit) (.round img limit) := by
  refine keeps_nextReady.logged.bind fun r => ?_
  cases r with
  | none => exact logged_awaitHost.bind_keeps fun _ => respects_pure
  | some id =>
    refine (respects_take id).logged.bind fun r => ?_
    cases r with
    | none => exact respects_pure.logged
    | some t =>
      refine (logged_slice limit t).bind_keeps fun r => ?_
      cases r with
      | none => exact respects_pure
      | some ending => exact (keeps_afterSlice id ending).bind fun _ => respects_pure

theorem logged_drive (sliceLimit : Nat) (goal : Machine → Bool) : ∀ limit,
    Logged img (drive img sliceLimit goal limit) (.drive img sliceLimit goal limit)
  | 0 => respects_pure.logged
  | limit + 1 => by
    rw [drive_succ]
    refine respects_get.logged.bind fun _ => ?_
    split
    · exact respects_pure.logged
    · refine (logged_round sliceLimit).bind fun r => ?_
      cases r with
      | none => exact respects_pure.logged
      | some _ => exact logged_drive sliceLimit goal limit

theorem Logged.withoutRoot (h : Logged img x first) : Logged img (withoutRoot x) first := by
  intro m
  refine (h m).other ?_
  unfold after Run.withoutRoot
  cases x m <;> rfl

theorem Logged.withStatus {x : Run (Option α)} (h : Logged img x first) : Logged img (withStatus x) first := by
  intro m
  refine (h m).other ?_
  unfold after Run.withStatus
  rcases x m with ⟨_ | _, _⟩ | _ <;> rfl

theorem logged_invoke (limit index : Nat) (args : List Value) :
    Logged img (invoke img limit index args) (.invoke img limit index args) := by
  refine (respects_spawn _ _ _).logged.bind fun id => (respects_modify fun _ => by rfl).logged.bind fun _ =>
    (logged_drive _ _ _).withoutRoot.bind_keeps fun r => ?_
  cases r with
  | none => exact respects_pure
  | some _ => exact fun m => ends_bind (ends_get (ends_bind (ends_set (ends_pure rfl))))

theorem logged_settled (limit : Nat) (h : PromiseHandle) : Logged img (settled img limit h) (.settled img limit h) := by
  refine (logged_drive _ _ _).bind_keeps fun r => ?_
  cases r with
  | none => exact respects_pure
  | some _ =>
    refine respects_get.bind fun _ => ?_
    split
    · exact respects_throw
    · exact respects_pure
    · exact respects_throw
    · exact respects_throw

theorem keeps_link : Keeps (link img) := by
  refine respects_get.bind fun _ => ?_
  dsimp only
  split
  · exact respects_throw
  · exact respects_pure

theorem logged_mainValue (limit : Nat) (e : Entry) : Logged img (mainValue img limit e) (.main img limit e) := by
  refine (logged_invoke _ _ _).bind fun r => ?_
  rcases r with - | - | v <;> dsimp only
  · exact respects_pure.logged
  · split
    · exact respects_throw.logged
    · exact respects_pure.logged
  · split
    · refine respects_ofExcept.logged.bind fun _ => (logged_settled _ _).bind_keeps fun r => ?_
      cases r <;> exact respects_pure
    · exact respects_pure.logged

theorem logged_elim {γ : Type} {o : Option γ} {y : Run α} {f : γ → Run α} {f' : γ → Trace}
    (hy : Logged img y first) (hf : ∀ c, Logged img (f c) (f' c)) : Logged img (o.elim y f) (o.elim first f') := by
  cases o with
  | none => exact hy
  | some c => exact hf c

theorem logged_entry (limit : Nat) : Logged img (entry img limit) (.entry img limit) := by
  rw [entry_eq]
  refine keeps_link.logged.bind fun _ => (respects_modify fun _ => by rfl).logged.bind fun _ =>
    (logged_elim respects_pure.logged fun _ => logged_invoke _ _ _).bind fun started => ?_
  split
  · exact respects_pure.logged
  · refine (logged_elim respects_pure.logged fun _ => logged_mainValue _ _).bind_keeps fun value => ?_
    cases value with
    | none => exact respects_pure
    | some _ => exact fun m => ends_bind (ends_bind (ends_get (ends_bind (ends_set (ends_pure (ends_pure rfl))))))

end Run

namespace Vm

/-- What a loaded module has been asked to do, with all instructions that have been run. -/
inductive History (origin : Vm) : List (Task × Machine) → Vm → Prop
  | load : History origin [] origin
  | register {log vm} (before : History origin log vm) (name : String) (f : HostFunction) :
      History origin log (vm.register name f)
  | takeOutput {log vm} (before : History origin log vm) : History origin log vm.takeOutput.2
  | run {log vm} (before : History origin log vm) (limit : Nat) :
      History origin (log ++ Run.Trace.entry vm.image limit vm.machine) (vm.run limit).2
  | call {log vm} (before : History origin log vm) (limit : Nat) (name : String) (args : List Value) :
      History origin (log ++ Run.Trace.call vm.image limit name args vm.machine) (vm.call limit name args).2
  | settle {log vm} (before : History origin log vm) (limit : Nat) (h : PromiseHandle) :
      History origin (log ++ Run.Trace.settled vm.image limit h vm.machine) (vm.settle limit h).2

variable {α : Type} {vm origin : Vm} {log : List (Task × Machine)}

theorem perform_passes {x : Run α} {trace : Run.Trace} (hx : Run.Logged vm.image x trace) :
    (vm.perform x).2.image = vm.image ∧ Passes vm.image vm.machine (trace vm.machine) (vm.perform x).2.machine := by
  have hlog := hx vm.machine
  unfold Run.after at hlog
  unfold perform
  split <;> next hrun =>
    rw [hrun] at hlog
    exact ⟨rfl, hlog⟩

/-- Whatever a loaded module is asked to do is a run. -/
theorem History.passes (h : History origin log vm) :
    vm.image = origin.image ∧ Passes origin.image origin.machine log vm.machine := by
  induction h with
  | load => exact ⟨rfl, .refl⟩
  | register _ name f ih | takeOutput _ ih => exact ⟨ih.1, ih.2.other rfl⟩
  | @run log vm _ limit ih =>
    obtain ⟨himage, hlog⟩ := @perform_passes _ vm _ _ (Run.logged_entry limit).withStatus
    exact ⟨himage.trans ih.1, ih.2.trans (ih.1 ▸ hlog)⟩
  | @call log vm _ limit name args ih =>
    have hx : Run.Logged vm.image (do
        Run.link vm.image
        match vm.image.source.export? name with
        | none => throw (.unknownExport name)
        | some index => Run.invoke vm.image limit index args) (.call vm.image limit name args) := by
      refine Run.keeps_link.logged.bind fun _ => ?_
      split
      · exact Run.respects_throw.logged
      · exact Run.logged_invoke _ _ _
    obtain ⟨himage, hlog⟩ := perform_passes hx
    exact ⟨himage.trans ih.1, ih.2.trans (ih.1 ▸ hlog)⟩
  | @settle log vm _ limit h ih =>
    obtain ⟨himage, hlog⟩ := @perform_passes _ vm _ _ (Run.logged_settled limit h)
    exact ⟨himage.trans ih.1, ih.2.trans (ih.1 ▸ hlog)⟩

end Vm

end StackScript
