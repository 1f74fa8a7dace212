import StackScript.Proofs.Compile

/-!
# Names and numbers of checked trees

The names of a checked program stand for what lexical scope says, and its expressions keep the numbers of the
tree that they come from, so no two of them have the same number.

## Design Notes

Checking drops some nodes, such as the name in front of a direct call, and it never checks a node twice.
So for each number there are at most as many checked expressions as there are nodes.
-/

namespace StackScript

open Typed (occurs stmtNodes)

variable {k : Nat}

/-- A checked function or method has a number at most as often as its tree. -/
theorem occurs_bodies {t : SymbolTable} {ds : List FunctionDecl} {rs : List Typed.Routine}
    (h : List.Forall₂ (Typed.Routine.Scopes t) ds rs) :
    occurs k (rs.flatMap (stmtNodes ·.body)) ≤ (ds.flatMap FunctionDecl.numbers).count k := by
  induction h with
  | nil => exact Nat.le_refl _
  | cons hr _ ih =>
    obtain ⟨⟨ss, span⟩, hb, hlexical⟩ := hr.body
    have hle := hlexical.occurs_le (k := k)
    simp only [Pairing.nodes, Pairing.numbers] at hle
    simp only [List.flatMap_cons, Typed.occurs_append, List.count_append, FunctionDecl.numbers, hb, Option.toList_some,
      List.flatMap_nil, List.append_nil, Block.numbers]
    omega

/-- The bodies of functions and methods leave room for the statements at the top level. -/
theorem count_bodies (n : Nat) (span : Span) : ∀ items : List Item,
    ((items.flatMap Item.bodies).flatMap FunctionDecl.numbers).count k +
      (stmtNumbers (Program.script ⟨items, n, span⟩)).count k ≤ (items.flatMap Item.numbers).count k
  | [] => Nat.le_refl _
  | i :: items => by
    have ih := count_bodies n span items
    have hbodies (d : FunctionDecl) : d.bodies.flatMap FunctionDecl.numbers = d.numbers := by
      cases hbody : d.body <;> simp [FunctionDecl.bodies, FunctionDecl.numbers, hbody]
    cases i with
    | function d =>
      cases hext : d.isExternal <;>
        simp_all [Program.script, Item.bodies, Item.numbers, List.flatMap_append] <;> omega
    | struct d =>
      simp_all [Program.script, Item.bodies, Item.numbers, List.flatMap_append, List.flatMap_assoc]
      rw [Nat.add_assoc]
      exact Nat.add_le_add_left ih _
    | enum d => simpa [Program.script, Item.bodies, Item.numbers] using ih
    | stmt s =>
      simp_all [Program.script, Item.bodies, Item.numbers]
      omega

/-- **The expressions of a checked program have different numbers.** -/
theorem nodup_ids_of_checkSource {source : String} {strictMatch : Bool} {p : Typed.Program}
    (h : checkSource source strictMatch = .ok p) : (p.nodes.map (·.id)).Nodup := by
  obtain ⟨tokens, tree, -, htree, hcheck⟩ := checkSource_eq_ok.1 h
  obtain ⟨hroutines, hscript⟩ := check_lexical hcheck
  refine List.nodup_iff_count.2 fun k => ?_
  have hids : (p.nodes.map (·.id)).count k = occurs k p.nodes := by
    rw [List.count, List.countP_map, occurs]
    rfl
  have hnodup : tree.numbers.Nodup := Program.numbers_eq_range htree ▸ List.nodup_range
  have honce := List.nodup_iff_count.1 hnodup k
  have hbodies := occurs_bodies (k := k) hroutines
  have htop : occurs k (stmtNodes p.script) ≤ _ := hscript.occurs_le
  have hroom := count_bodies (k := k) tree.nodeCount tree.span tree.items
  rw [hids, Typed.Program.nodes, Typed.occurs_append]
  rw [Program.numbers] at honce
  exact Nat.le_trans (Nat.add_le_add hbodies htop) (Nat.le_trans hroom honce)

end StackScript
