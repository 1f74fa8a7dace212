import StackScript.Proofs.Tree.Reading

/-!
# Reading goes on

## Design Notes

Whether struct literals are allowed is an argument of the productions and no part of the state, so a production
cannot change it for those that come after it.
-/

namespace StackScript

/-- All places and names are good. -/
def Grade.all : Grade :=
  ⟨fun _ => True, fun _ _ => trivial, fun _ => True⟩

theorem Token.good_all (t : Token) : Grade.all.Token t :=
  ⟨trivial, fun _ _ => trivial⟩

theorem Cursor.within_all (c : Cursor) : c.Within .all :=
  ⟨fun t _ => t.good_all, fun t _ => t.good_all, .inr (.inr trivial)⟩

namespace Parse

variable {α : Type}

/-- Where it succeeds, a step reads tokens: one at least, and none that is the end. -/
def Advances (x : Parse α) : Prop :=
  ∀ c a c', x.run c = .ok (a, c') → ∃ read, c.Reads read c' ∧ read ≠ []

theorem advances_of_walks {x : Parse α} {least bound : Nat} {V : α → Prop} {after : List Nat → α → List Nat}
    (h : ∀ {need done}, Walks .all Anywhere (need + least) bound Moving done x V (after done)) : Advances x := by
  intro c a c' hrun
  obtain ⟨-, -, read, hread, hmoved⟩ := (@h 0 [] c trivial c.within_all).of_ok hrun
  exact ⟨read, hread, hmoved⟩

/-- The productions that loops are made of. -/
structure Rounds (bound : Nat) : Prop where
  param : ∀ owner isFirst, Advances (param owner isFirst bound)
  fieldInit : Advances (fieldInit bound)
  interpolation : Advances (interpolation bound)
  arm : Advances (arm bound)
  blockItem : Advances (blockItem bound)
  member : ∀ owner, Advances (member bound owner)
  variant : Advances (variant bound)
  programItem : Advances (programItem bound)
  /-- Behind an operand, a round reads a token or is the last one, and then gives the operand back. -/
  infixes : ∀ bare level lhs c e c', (infixes bound bare level lhs).run c = .ok (e, c') →
    ∃ read, c.Reads read c' ∧ (read = [] → e = lhs)

theorem rounds (bound : Nat) : Rounds bound where
  param owner isFirst := advances_of_walks (quiet_param owner isFirst bound)
  fieldInit := advances_of_walks (Productions.all bound).fieldInit
  interpolation := advances_of_walks (Productions.all bound).interpolation
  arm := advances_of_walks (Productions.all bound).arm
  blockItem := advances_of_walks (Productions.all bound).blockItem
  member owner := advances_of_walks (walks_member owner)
  variant := advances_of_walks quiet_variant
  programItem := advances_of_walks walks_programItem
  infixes bare level lhs c _ _ hrun :=
    ((@(Productions.all bound).infixes bare level lhs 0 [] (fun _ _ => trivial) c trivial c.within_all).of_ok hrun).2.2

end Parse

end StackScript
