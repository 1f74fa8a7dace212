import StackScript.Proofs.Loading

/-!
# Strings and bytes in place

A string or bytes that stand in a program are an object in the constant data, one for all places with the
same contents, and the code that evaluates them pushes its address.  The language can assign elements of
bytes, so a program can change such an object.  This module says that nothing else does.
-/

namespace StackScript

open Typed

/-! ## Texts of a program -/

variable {bs : List UInt8}

namespace Emit

theorem Node.hasText {plan : Plan} {count : Nat} {captures : List Variable} {hi : State} {x : Typed.Expr} {code : List Instr}
    (h : Node plan count captures hi x code) (hbs : bs ∈ x.texts) : HasText hi code bs := by
  unfold Node at h
  -- the forms without a text, and all others
  split at h
  all_goals first | exact h bs hbs | simp_all [Typed.Expr.texts]

end Emit

namespace Unfolding

variable {p : Typed.Program} {config : CompileConfig} {m : Module} {st : Emit.State} {all : List Job}

/-- Strings and bytes with the same contents are one object, of which all their code has the address. -/
theorem text_address (h : Unfolding p config m st all) {x : Typed.Expr} (hx : x ∈ p.nodes)
    (hbs : bs ∈ x.texts) : ∃ a, st.strings.lookup bs = some a ∧
      ∃ g ∈ m.functions, Emit.Pushes (fun addr bytes => ⟨addr.toUInt32, bytes⟩ ∈ m.data) a g.body := by
  obtain ⟨g, hg, step, outer, after, hvisit⟩ := h.unfolded.visited h.compiled.typed x hx
  obtain ⟨done, js, -, hlater, -⟩ := hvisit.within
  obtain ⟨a, ha, hpush⟩ := hvisit.node.hasText hbs
  refine ⟨a, hlater.strings bs a ha, g, hg, hpush.mono (fun addr bytes hseg => ?_) List.infix_rfl⟩
  rw [h.data]
  exact List.mem_map.2 ⟨_, hlater.segments.subset hseg, rfl⟩

end Unfolding

/-! ## Runs -/

/-- Constant data that is in memory, at the end of a run and in front of every instruction of it, unless an
earlier instruction has written to it. -/
structure DataSegment.Kept (d : DataSegment) (img : Image) (log : List (Task × Machine)) (m : Machine) : Prop where
  last : (∀ s ∈ log, ¬s.1.WritesTo img d.offset.toNat d.bytes) → m.memory.Shelters d.offset.toNat d.bytes
  each : ∀ before t m₁ after, log = before ++ (t, m₁) :: after →
    (∀ s ∈ before, ¬s.1.WritesTo img d.offset.toNat d.bytes) → m₁.memory.Shelters d.offset.toNat d.bytes

theorem Passes.kept {img : Image} {m m' : Machine} {log : List (Task × Machine)} {d : DataSegment}
    (h : Passes img m log m') (hm : m.memory.Shelters d.offset.toNat d.bytes) : d.Kept img log m' :=
  ⟨h.shelters hm, fun _ _ _ _ hlog => (h.front hlog).shelters hm⟩

/-- A program that assigns an element of bytes that stand in it. -/
def overwritingSource : String :=
  "fn main() -> u8 \x7b let b = b\"a\"; b[0] = 120; return b[0]; \x7d"

/-- Its module has one page, and the bytes are in it. -/
theorem exists_overwriting : ∃ p m, checkSource overwritingSource true = .ok p ∧ compile overwritingSource {} = .ok m ∧
    m.minPages = 1 ∧ ∃ x ∈ p.nodes, [97] ∈ x.texts := by
  obtain ⟨p, m, hp, hm, hfound⟩ := @exists_compile overwritingSource {} (fun p m =>
    decide (m.minPages = 1 ∧ ∃ x ∈ p.nodes, [97] ∈ x.texts)) (by decide +kernel)
  exact ⟨p, m, hp, hm, of_decide_eq_true hfound⟩

theorem Memory.Shelters.contents_eq {m : Memory} {addr : Nat} (h : m.Shelters addr bs) :
    (m.contents.drop addr).take bs.length = bs := by
  apply List.ext_getElem?
  intro i
  rw [List.getElem?_take]
  split
  next hlt => rw [List.getElem?_drop, ← Memory.byte?_eq, h.holds i _ (List.getElem?_eq_getElem hlt),
    List.getElem?_eq_getElem hlt]
  next hge => rw [List.getElem?_eq_none (Nat.le_of_not_lt hge)]

namespace Emit

theorem length_textObject (bs : List UInt8) : (textObject bs).length = Layout.strHeader + bs.length := by
  rw [textObject, List.length_append, Memory.length_littleEndian]

theorem textObject_inj {cs : List UInt8} (h : textObject bs = textObject cs) : bs = cs := by
  refine (List.append_inj h ?_).2
  rw [Memory.length_littleEndian, Memory.length_littleEndian]

/-- Strings with one address have the same contents. -/
theorem State.Sound.strings_inj {st : State} (h : st.Sound) {cs : List UInt8} {a : Nat}
    (hbs : st.strings.lookup bs = some a) (hcs : st.strings.lookup cs = some a) : bs = cs := by
  have hnodup : (st.data.segments.map Prod.fst).Nodup := by
    rw [List.Nodup, List.pairwise_map]
    exact h.data.apart.imp fun hle => by omega
  have heq := List.inj_on_of_nodup_map hnodup (h.strings bs a hbs) (h.strings cs a hcs) rfl
  exact textObject_inj (congrArg Prod.snd heq)

end Emit

namespace Unfolding

variable {p : Typed.Program} {config : CompileConfig} {m : Module} {st : Emit.State} {all : List Job}

/-- Right after loading, an interned string is read at its address. -/
theorem readStr_eq (h : Unfolding p config m st all) {a : Nat}
    (ha : st.strings.lookup bs = some a) {runConfig : RunConfig} {files : Directory} {vm : Vm}
    (loaded : Vm.ofModule m runConfig files = .ok vm) :
    Memory.readStr (BitVec.ofNat 32 a) vm.machine.memory = .ok bs vm.machine.memory := by
  have hsegment := h.unfolded.ledger.sound.strings bs a ha
  have hbelow := h.unfolded.ledger.sound.data.below _ hsegment
  have hstop := h.stop
  rw [Emit.length_textObject] at hbelow
  have hmem : (⟨a.toUInt32, Emit.textObject bs⟩ : DataSegment) ∈ m.data := by
    rw [h.data]
    exact List.mem_map.2 ⟨_, hsegment, rfl⟩
  have hshelters := Memory.shelters_ofModule (Vm.memory_ofModule loaded) h.ordered _ hmem
  have hptr : (BitVec.ofNat 32 a).toNat = a := by
    rw [BitVec.toNat_ofNat]
    exact Nat.mod_eq_of_lt (show a < Layout.addressLimit by omega)
  rw [h.toNat_address hsegment] at hshelters
  refine Memory.readStr_of_contents (by omega) ?_
  rw [hptr, ← Emit.length_textObject]
  exact hshelters.contents_eq

end Unfolding

/-- **Constant data lies in order between its base and the heap.**  So a module can be loaded exactly where it is
allowed its pages, and then every interned string is there, each at an address of its own. -/
theorem constants_laid_out {source : String} {config : CompileConfig} {m : Module}
    (compiled : compile source config = .ok m) : (m.data.Pairwise fun d e =>
      d.offset.toNat < e.offset.toNat ∧ d.offset.toNat + d.bytes.length ≤ e.offset.toNat) ∧
    (∀ d ∈ m.data, Layout.word ∣ d.offset.toNat ∧ Layout.align config.dataBase.toNat ≤ d.offset.toNat ∧
      d.offset.toNat + d.bytes.length ≤ m.heapBase.toNat) ∧
    Layout.word ∣ m.heapBase.toNat ∧ m.heapBase.toNat ≤ m.minPages.toNat * pageSize ∧
    (∀ (runConfig : RunConfig) (files : Directory),
      (∃ vm, Vm.ofModule m runConfig files = .ok vm) ↔ m.minPages ≤ runConfig.maxMemoryPages) ∧
    ∃ p st, checkSource source config.strictMatch = .ok p ∧
      (Emit.functions (Plan.ofProgram p config) config p).run (Plan.initialState p config) = .ok (m.functions, st) ∧
      (∀ x ∈ p.nodes, ∀ bs ∈ x.texts, ∃ a, st.strings.lookup bs = some a ∧
        ∃ g ∈ m.functions, Emit.Pushes (fun addr bytes => ⟨addr.toUInt32, bytes⟩ ∈ m.data) a g.body) ∧
      (∀ bs a, st.strings.lookup bs = some a → ∀ runConfig files vm, Vm.ofModule m runConfig files = .ok vm →
        Memory.readStr (BitVec.ofNat 32 a) vm.machine.memory = .ok bs vm.machine.memory) ∧
      ∀ bs cs a, st.strings.lookup bs = some a → st.strings.lookup cs = some a → bs = cs := by
  obtain ⟨p, -, -, checked, -⟩ := compiled_of_compile compiled
  obtain ⟨st, all, h⟩ := unfolding_of_compile checked compiled
  have hsound := h.unfolded.ledger.sound
  refine ⟨?_, fun d hd => ?_, ?_, h.heapBase_le, fun runConfig files => ⟨?_, ?_⟩, p, st, checked, h.compiled.run,
    fun x hx bs hbs => h.text_address hx hbs, fun bs a ha _ _ _ loaded => h.readStr_eq ha loaded,
    fun _ _ _ => hsound.strings_inj⟩
  · rw [h.data, List.pairwise_map]
    refine hsound.data.apart.imp_of_mem fun {s t} hs ht hapart => ?_
    rw [h.toNat_address hs, h.toNat_address ht]
    dsimp only
    omega
  · have hbelow := h.ordered.below d hd
    rw [h.data] at hd
    obtain ⟨s, hs, rfl⟩ := List.mem_map.1 hd
    obtain ⟨haligned, hbase⟩ := hsound.data.placed s hs
    rw [h.unfolded.dataBase] at hbase
    refine ⟨?_, ?_, hbelow⟩
    · rwa [h.toNat_address hs]
    · rwa [h.toNat_address hs]
  · rw [h.heapBase, toNat_toUInt32 h.stop]
    exact hsound.data.aligned
  · rintro ⟨vm, loaded⟩
    exact UInt32.le_iff_toNat_le.2 (Memory.ofModule_eq_ok (Vm.memory_ofModule loaded)).1
  · intro hpages
    exact h.exists_ofModule hpages files

theorem constants_laid_out_overwriting : ∃ m origin, compile overwritingSource {} = .ok m ∧
    Vm.ofModule m {} {} = .ok origin ∧ ∃ a, Memory.readStr a origin.machine.memory = .ok [97] origin.machine.memory := by
  obtain ⟨p, m, hp, hm, hpages, x, hx, htext⟩ := exists_overwriting
  obtain ⟨-, -, -, -, hloads, p', st, hp', -, htexts, hread, -⟩ := @constants_laid_out overwritingSource {} m hm
  obtain rfl : p = p' := Except.ok.inj (hp.symm.trans hp')
  obtain ⟨a, ha, -⟩ := htexts x hx [97] htext
  obtain ⟨origin, loaded⟩ := (hloads {} {}).2 (by rw [hpages]; decide)
  exact ⟨m, origin, hm, loaded, _, hread _ a ha _ _ _ loaded⟩

end StackScript
