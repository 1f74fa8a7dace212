import StackScript.Exec.Fault
import StackScript.Machine.Instr

/-!
# Jump targets

Where every construct of a flat body ends, and where its other branch starts.

## Design Notes

A body ends with the `end` that closes the function; every other `end` closes a construct.
-/

namespace StackScript

/-- The targets of a body, by position; they mean something where a construct starts. -/
structure Jumps where
  ends : Array Nat
  elses : Array (Option Nat)

namespace Jumps

/-- Where the construct at a position ends. -/
def endOf (j : Jumps) (pc : Nat) : Nat :=
  j.ends[pc]?.getD 0

/-- Where the other branch of the construct at a position starts. -/
def elseOf (j : Jumps) (pc : Nat) : Option Nat :=
  j.elses[pc]?.getD none

/-- Reads instructions from a position on, with the open constructs, the innermost first. -/
def scan (size : Nat) : Nat → List Nat → Jumps → List Instr → Except Malformation Jumps
  | _, opened, j, [] => if opened.isEmpty then .ok j else .error .unterminated
  | pc, opened, j, instr :: rest =>
    match instr with
    | .block _ | .loop _ | .if_ _ => scan size (pc + 1) (pc :: opened) j rest
    | .else_ =>
      match opened with
      | [] => .error (.elseAt pc)
      | start :: _ =>
        scan size (pc + 1) opened { j with elses := j.elses.setIfInBounds start (some pc) } rest
    | .end_ =>
      match opened with
      | start :: outer =>
        scan size (pc + 1) outer { j with ends := j.ends.setIfInBounds start pc } rest
      | [] => if pc + 1 = size then scan size (pc + 1) [] j rest else .error (.endAt pc)
    | .op _ => scan size (pc + 1) opened j rest

/-- The targets of a body. -/
def ofBody (body : List Instr) : Except Malformation Jumps := do
  let size := body.length
  let j ← scan size 0 [] ⟨.replicate size 0, .replicate size none⟩ body
  if body.getLast? = some .end_ then return j else throw .unterminated

end Jumps

end StackScript
