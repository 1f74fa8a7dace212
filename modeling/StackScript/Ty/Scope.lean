/-!
# Scopes

Names and what they stand for, in scopes inside one another.
-/

namespace StackScript

/-- The open scopes; in a scope the name bound last comes first. -/
structure ScopeChain (α : Type) where
  scopes : List (List (String × α))

namespace ScopeChain

variable {α : Type}

/-- No open scope. -/
def empty : ScopeChain α :=
  ⟨[]⟩

/-- Opens a scope. -/
def push (c : ScopeChain α) : ScopeChain α :=
  ⟨[] :: c.scopes⟩

/-- Closes the innermost scope. -/
def pop (c : ScopeChain α) : ScopeChain α :=
  ⟨c.scopes.tail⟩

/-- The number of open scopes. -/
def depth (c : ScopeChain α) : Nat :=
  c.scopes.length

/-- Binds a name in the innermost scope; without an open scope nothing happens. -/
def bind (c : ScopeChain α) (name : String) (a : α) : ScopeChain α :=
  match c.scopes with
  | [] => c
  | scope :: outer => ⟨((name, a) :: scope) :: outer⟩

/-- Keeps the outermost `n` scopes. -/
def truncate (c : ScopeChain α) (n : Nat) : ScopeChain α :=
  ⟨c.scopes.drop (c.scopes.length - n)⟩

/-- What a name stands for in a list of scopes, and the number of scopes around that one. -/
def lookupIn (name : String) : List (List (String × α)) → Option (α × Nat)
  | [] => none
  | scope :: outer =>
    match scope.lookup name with
    | some a => some (a, outer.length)
    | none => lookupIn name outer

/-- The innermost meaning of a name, and the number of scopes around the one that holds it. -/
def lookup (c : ScopeChain α) (name : String) : Option (α × Nat) :=
  lookupIn name c.scopes

/-- The innermost meaning of a name. -/
def find? (c : ScopeChain α) (name : String) : Option α :=
  (c.lookup name).map (·.1)

@[simp] theorem lookup_empty (name : String) : (empty : ScopeChain α).lookup name = none := rfl

@[simp] theorem lookup_push (c : ScopeChain α) (name : String) : c.push.lookup name = c.lookup name := rfl

@[simp] theorem pop_push (c : ScopeChain α) : c.push.pop = c := rfl

end ScopeChain

end StackScript
