import Mathlib.Data.List.Induction
import StackScript.Proofs.Emit.Pieces
import StackScript.Proofs.Typing.Program

/-!
# Plans are complete

The plan of a well-typed program has a number for every function that the program can name.

## Design Notes

A number of 32 bits stands for an empty slot in the table of methods.  A program whose numbers all have
32 bits (`Plan.fits`) does not reach it, because the functions of every module come after the methods.
-/

namespace StackScript

/-- What is in a list with a key has an entry. -/
theorem exists_lookup {α β : Type} [BEq α] [LawfulBEq α] {entries : List (α × β)} {key : α} {a : β}
    (h : (key, a) ∈ entries) : ∃ b, entries.lookup key = some b :=
  Option.isSome_iff_exists.1 (List.lookup_isSome_iff.2 ⟨_, h, beq_self_eq_true _⟩)

/-! ## Tables of methods -/

namespace MethodTable

theorem getElem?_setSlot (f : Option Nat) :
    ∀ (slots : List (Option Nat)) (slot i : Nat), (setSlot slots slot f)[i]?.join =
      if slot = i then f else slots[i]?.join
  | [], 0, 0 | [], 0, _ + 1 => by simp [setSlot]
  | [], _ + 1, 0 => by simp [setSlot]
  | [], slot + 1, i + 1 => by
    simpa [setSlot] using getElem?_setSlot f [] slot i
  | _ :: _, 0, 0 | _ :: _, 0, _ + 1 => by simp [setSlot]
  | _ :: _, _ + 1, 0 => by simp [setSlot]
  | s :: rest, slot + 1, i + 1 => by
    simpa [setSlot] using getElem?_setSlot f rest slot i

theorem get?_eq (t : MethodTable) (struct : String) (slot : Nat) :
    t.get? struct slot = ((t.structs.lookup struct).getD [])[slot]?.join := by
  unfold get?
  cases t.structs.lookup struct with
  | none => simp
  | some slots => cases h : slots[slot]? <;> simp [h]

theorem lookup_insertIn (struct name : String) (slot : Nat) (f : Option Nat) :
    ∀ entries : List (String × List (Option Nat)),
      ((insertIn struct slot f entries).lookup name).getD [] =
        if name = struct then setSlot ((entries.lookup name).getD []) slot f
        else (entries.lookup name).getD []
  | [] => by
    by_cases hname : name = struct
    · simp [insertIn, hname]
    · simp [insertIn, List.lookup_cons, beq_false_of_ne hname, hname]
  | (s, _) :: rest => by
    unfold insertIn
    by_cases hs : s = struct
    · by_cases hname : name = s
      · simp [hs, hname]
      · simp [hs, List.lookup_cons, beq_false_of_ne (hs ▸ hname), hs ▸ hname]
    · rw [if_neg hs]
      by_cases hname : name = s
      · simp [hname, hs]
      · rw [List.lookup_cons, beq_false_of_ne hname, List.lookup_cons, beq_false_of_ne hname]
        exact lookup_insertIn struct name slot f rest

/-- **Reading a slot after one was written.** -/
theorem get?_insert (t : MethodTable) (struct name : String) (slot i function : Nat) :
    (t.insert struct slot function).get? name i =
      if name = struct ∧ slot = i then (if function = noFunction then none else some function)
      else t.get? name i := by
  rw [get?_eq, get?_eq, insert, lookup_insertIn]
  by_cases hname : name = struct
  · rw [if_pos hname, getElem?_setSlot]
    by_cases hslot : slot = i
    · simp [hname, hslot]
    · simp [hslot]
  · simp [hname]

end MethodTable

/-! ## Numbers -/

namespace Plan

/-- Numbered functions have numbers from the first one on, in order, and async functions take two. -/
theorem index_bounds : ∀ {rs : List Typed.Routine} {i slot : Nat} {f : Placed},
    f ∈ number i slot rs →
      i ≤ f.index ∧ f.index + (if f.routine.sig.isAsync then 2 else 1) ≤
        i + (number i slot rs).length + (entries (number i slot rs)).length
  | r :: _, _, _, _, hf => by
    unfold number at hf ⊢
    cases hasync : r.sig.isAsync with
    | true =>
      rw [hasync] at hf
      rcases List.mem_cons.mp hf with rfl | hf
      · simp only [hasync, entries, if_true, List.filter_cons, List.length_cons, List.map_cons]
        omega
      · have ih := index_bounds hf
        simp only [entries, hasync, if_true, List.filter_cons, List.length_cons, List.map_cons] at ih ⊢
        omega
    | false =>
      rw [hasync] at hf
      rcases List.mem_cons.mp hf with rfl | hf
      · simp only [hasync, entries, Bool.false_eq_true, if_false, List.filter_cons, List.length_cons]
        omega
      · have ih := index_bounds hf
        simp only [entries, hasync, Bool.false_eq_true, if_false, List.filter_cons, List.length_cons]
          at ih ⊢
        omega

/-- Numbers change nothing else. -/
theorem map_routine_number : ∀ (rs : List Typed.Routine) (i slot : Nat), (number i slot rs).map (·.routine) = rs
  | [], _, _ => rfl
  | _ :: _, _, _ => by
    unfold number
    split
    · rw [List.map_cons, map_routine_number]
    · rw [List.map_cons, map_routine_number]

variable {slot : Nat} {p : Typed.Program} {fs : List Placed} {g : Placed}

/-- Every function is numbered. -/
theorem exists_placed {r : Typed.Routine} {rs : List Typed.Routine} {i : Nat} (hr : r ∈ rs) :
    ∃ f ∈ number i slot rs, f.routine = r := by
  rw [← map_routine_number rs i slot] at hr
  exact List.mem_map.mp hr

/-- The functions of a program have numbers behind the imports and before the functions of every
module. -/
theorem placed_bounds {f : Placed} (hf : f ∈ placed p) :
    (imports p.symbols).length ≤ f.index ∧ f.index < afterRoutines p := by
  obtain ⟨hlo, hhi⟩ := index_bounds hf
  refine ⟨hlo, ?_⟩
  simp only [afterRoutines, placed]
  split at hhi <;> omega

/-! ## Lookups -/

/-- A method goes to its slot. -/
theorem methodTable_concat_method {struct : String} (h : g.routine.owner = some (struct, slot)) :
    methodTable (fs ++ [g]) = (methodTable fs).insert struct slot g.index := by
  rw [methodTable, List.foldl_append, List.foldl_cons, List.foldl_nil, h]
  rfl

/-- Other functions leave the methods. -/
theorem methodTable_concat_function (h : g.routine.owner = none) : methodTable (fs ++ [g]) = methodTable fs := by
  rw [methodTable, List.foldl_append, List.foldl_cons, List.foldl_nil, h]
  rfl

/-- A slot of the table of methods belongs to a numbered method. -/
theorem methodTable_spec (struct : String) (slot : Nat) (fs : List Placed)
    (hnumbers : ∀ f ∈ fs, f.index ≠ MethodTable.noFunction) (h : ∃ f ∈ fs, f.routine.owner = some (struct, slot)) :
    ∃ f ∈ fs, (methodTable fs).get? struct slot = some f.index := by
  -- the last method for the slot stays, so the induction goes from the end of the list
  induction fs using List.reverseRecOn with
  | nil => obtain ⟨f, hf, -⟩ := h; cases hf
  | append_singleton fs g ih =>
    have hg := hnumbers g (by simp)
    by_cases howner : g.routine.owner = some (struct, slot)
    · refine ⟨g, by simp, ?_⟩
      rw [methodTable_concat_method howner]
      simp [MethodTable.get?_insert, hg]
    · obtain ⟨f, hf, hfowner⟩ := h
      have hfs : f ∈ fs := by
        rcases List.mem_append.mp hf with hf | hf
        · exact hf
        · obtain rfl := List.mem_singleton.mp hf
          exact absurd hfowner howner
      obtain ⟨f', hf', hget⟩ := ih (fun f hf => hnumbers f (by simp [hf])) ⟨f, hfs, hfowner⟩
      refine ⟨f', by simp [hf'], ?_⟩
      cases hother : g.routine.owner with
      | none => rw [methodTable_concat_function hother, hget]
      | some place =>
        obtain ⟨struct', slot'⟩ := place
        rw [methodTable_concat_method hother, MethodTable.get?_insert, if_neg, hget]
        rintro ⟨rfl, rfl⟩
        exact howner hother

/-- **The plan of a well-typed program is complete.** -/
theorem complete_ofProgram (h : p.WellTyped) (hfits : fits p = true) (config : CompileConfig) :
    (ofProgram p config).Complete := by
  refine ⟨fun sig hsig hkind => ?_, fun sig hsig hkind => ?_, fun struct shape slot m hshape hm => ?_⟩
  · obtain ⟨r, hr, howner, rfl⟩ := h.functionBody hsig hkind
    obtain ⟨f, hf, rfl⟩ : ∃ f ∈ placed p, f.routine = r := exists_placed hr
    have hmem : (f.routine.sig.name, f.index) ∈ (ofProgram p config).direct :=
      List.mem_filterMap.mpr ⟨f, hf, by simp [howner]⟩
    exact exists_lookup hmem
  · have hmem : sig ∈ externalSigs p.symbols :=
      List.mem_filter.mpr ⟨(SymbolTable.function?_mem hsig).1, by simp [hkind]⟩
    obtain ⟨k, hk⟩ := List.getElem?_of_mem hmem
    have hentry : (sig.name, HostImport.imports.length + k) ∈ (ofProgram p config).externals := by
      refine List.mem_iff_getElem?.mpr ⟨k, ?_⟩
      simp [ofProgram, hk]
    exact exists_lookup hentry
  · obtain ⟨r, hr, howner, -⟩ := h.methodBody hshape hm
    obtain ⟨f, hf, rfl⟩ : ∃ f ∈ placed p, f.routine = r := exists_placed hr
    have hnumbers : ∀ f ∈ placed p, f.index ≠ MethodTable.noFunction := fun f hf => by
      have hbounds := placed_bounds hf
      have hno : MethodTable.noFunction + 1 = Layout.addressLimit := by decide
      have hlimit : afterRoutines p + 3 ≤ Layout.addressLimit := by simpa [fits, Intrinsic.all] using hfits
      omega
    obtain ⟨g, -, hget⟩ := methodTable_spec struct slot (placed p) hnumbers ⟨f, hf, howner⟩
    exact ⟨g.index, hget⟩

end Plan

end StackScript
