import StackScript.LogLevel
import StackScript.Project
import StackScript.Proofs.Captures
import StackScript.Proofs.Diagnostic
import StackScript.Proofs.Exec.Labels
import StackScript.Proofs.Exec.Ownership
import StackScript.Proofs.Exec.Preemption
import StackScript.Proofs.Literals
import StackScript.Proofs.Machine.Codec
import StackScript.Proofs.Numerals
import StackScript.Proofs.Rounds
import StackScript.Proofs.Text.LineTable
import StackScript.Proofs.Token.Spelling
import StackScript.Proofs.Tree.Operators
import StackScript.Proofs.Tree.Progress
import StackScript.Proofs.Typing.Exhaustive
import StackScript.Proofs.Typing.Returns
