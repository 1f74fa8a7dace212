import StackScript.Proofs.Token.Tiling
import StackScript.Proofs.Tree.Reading

/-!
# Names of declarations

Functions, methods and structs of a source text are named by words, which are made of the characters of
identifiers.
-/

namespace StackScript

/-- **The names among the tokens of a text are words.** -/
theorem Tiles.words {text before : List Char} {regions : List Nat} {tokens : List Token}
    (h : Tiles text regions before tokens) : ∀ t ∈ tokens, ∀ n, t.kind = .ident n → IsWord n := by
  induction h with
  | last => simp
  | token _ _ _ fits _ ih =>
    refine List.forall_mem_cons.2 ⟨?_, ih⟩
    rintro n rfl
    cases fits.turn
    assumption

/-- An item that is named by words, as are the methods in it. -/
def Item.Worded : Item → Prop
  | .function d => IsWord d.name
  | .struct d => IsWord d.name ∧ ∀ m ∈ d.methods, IsWord m.name
  | _ => True

/-- **The items of a text are named by words.** -/
theorem worded_of_parse {source : String} {tokens : List Token} {p : Program}
    (htokens : tokenize source = .ok tokens) (h : parse tokens = .ok p) : ∀ i ∈ p.items, i.Worded := by
  intro i hi
  have hfit := (parse_spec (tiles_of_tokenize htokens).words h).2 i hi
  cases i with
  | function d => exact hfit.1
  | struct d => exact ⟨hfit.1, fun m hm => (hfit.2 m hm).1⟩
  | enum | stmt => trivial

end StackScript
