import StackScript.Proofs.Emit.Ledger
import StackScript.Proofs.Exec.Constants
import StackScript.Proofs.Exec.Integrity

/-!
# Loading modules

A compiled module can be loaded wherever it is allowed the pages that it asks for: its bodies are nested,
and its constant data is in order and in front of the heap.
-/

namespace StackScript

namespace Memory

/-- Data that fits can be written. -/
theorem exists_writeAll : ∀ {ds : List DataSegment} {m : Memory},
    (∀ d ∈ ds, d.offset.toNat + d.bytes.length ≤ m.size) → ∃ m', writeAll ds m = .ok () m'
  | [], m, _ => ⟨m, rfl⟩
  | _ :: _, _, h => by
    obtain ⟨hd, hds⟩ := List.forall_mem_cons.1 h
    simp only [writeAll, bind, EStateM.bind]
    rw [write_of_inBounds hd]
    exact exists_writeAll fun e he => by
      rw [size, size_setBytes]
      exact hds e he

theorem exists_ofModule {m : Module} {maxPages : Nat} (hpages : m.minPages.toNat ≤ maxPages)
    (hdata : ∀ d ∈ m.data, d.offset.toNat + d.bytes.length ≤ m.minPages.toNat * pageSize) :
    ∃ memory, ofModule m maxPages = .ok memory := by
  obtain ⟨memory, hwrite⟩ := @exists_writeAll m.data
    ⟨zeros (m.minPages.toNat * pageSize), Layout.align m.heapBase.toNat, maxPages⟩ fun d hd => by
      rw [size, zeros, ByteArray.size, Array.size_replicate]
      exact hdata d hd
  unfold ofModule
  dsimp only
  rw [if_neg (Nat.not_lt.2 hpages), hwrite]
  exact ⟨memory, rfl⟩

end Memory

theorem Vm.memory_ofModule {m : Module} {config : RunConfig} {files : Directory} {vm : Vm}
    (loaded : ofModule m config files = .ok vm) :
    Memory.ofModule m config.maxMemoryPages.toNat = .ok vm.machine.memory := by
  obtain ⟨image, memory, -, hmemory, rfl⟩ := ofModule_eq_ok loaded
  exact hmemory

namespace Unfolding

variable {p : Typed.Program} {config : CompileConfig} {m : Module} {st : Emit.State} {all : List Job}

/-- Constant data has an address of 32 bits. -/
theorem toNat_address (h : Unfolding p config m st all) {s : Nat × List UInt8} (hs : s ∈ st.data.segments) :
    s.1.toUInt32.toNat = s.1 := by
  have hbelow := h.unfolded.ledger.sound.data.below s hs
  have hstop := h.stop
  exact toNat_toUInt32 (by omega)

/-- **The constant data of a module is in order and in front of the heap.** -/
theorem ordered (h : Unfolding p config m st all) : m.Ordered := by
  have hsound := h.unfolded.ledger.sound.data
  refine ⟨fun d hd => ?_, ?_⟩
  · rw [h.data] at hd
    obtain ⟨s, hs, rfl⟩ := List.mem_map.1 hd
    rw [h.heapBase, toNat_toUInt32 h.stop, h.toNat_address hs]
    have hbelow := hsound.below s hs
    dsimp only
    omega
  · rw [h.data, List.pairwise_map]
    refine hsound.apart.imp_of_mem fun {s t} hs ht hapart => ?_
    rw [h.toNat_address hs, h.toNat_address ht]
    dsimp only
    omega

/-- The heap starts in the pages that a module asks for. -/
theorem heapBase_le (h : Unfolding p config m st all) : m.heapBase.toNat ≤ m.minPages.toNat * pageSize := by
  have hstop := h.stop
  have hconfig := config.memoryPages.toNat_lt
  have hpages : Typed.Program.pagesFor st.data.stop < Layout.addressLimit := by
    have hlimit : Layout.addressLimit = 4294967296 := rfl
    unfold Typed.Program.pagesFor pageSize
    omega
  rw [h.heapBase, h.pages, toNat_toUInt32 hstop, toNat_toUInt32 (Nat.max_lt.2 ⟨hconfig, hpages⟩)]
  calc st.data.stop ≤ Typed.Program.pagesFor st.data.stop * pageSize := by
        unfold Typed.Program.pagesFor
        simp only [pageSize]
        omega
    _ ≤ _ := Nat.mul_le_mul_right _ (Nat.le_max_right _ _)

/-- **A compiled module can be loaded** where it is allowed the pages that it asks for. -/
theorem exists_ofModule (h : Unfolding p config m st all) {runConfig : RunConfig}
    (hpages : m.minPages ≤ runConfig.maxMemoryPages) (files : Directory) :
    ∃ vm, Vm.ofModule m runConfig files = .ok vm := by
  obtain ⟨image, himage⟩ := Image.exists_ofModule (fun f hf => (h.compiled.structured_functions f hf).jumps) runConfig
  obtain ⟨memory, hmemory⟩ := Memory.exists_ofModule (UInt32.le_iff_toNat_le.1 hpages) fun d hd =>
    Nat.le_trans (h.ordered.below d hd) h.heapBase_le
  exact ⟨_, except_bind_eq_ok.2 ⟨image, himage, except_bind_eq_ok.2 ⟨memory, hmemory, rfl⟩⟩⟩

end Unfolding

end StackScript
