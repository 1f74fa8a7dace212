import StackScript.Compile
import StackScript.Config.Codec
import StackScript.Exec.Vm
import StackScript.Machine.Text

/-!
# Working with files

Running and building source files of a directory, and loading settings from it.
-/

namespace StackScript

/-- Why a source text cannot be compiled and run. -/
inductive RunError where
  | compile (e : CompileError)
  | fault (f : Fault)

/-- The words for a failure. -/
def RunError.message : RunError → String
  | compile e => e.diagnostic.text
  | fault f => f.message

/-- Why a file cannot be run or built. -/
inductive FileError where
  | source (path : String) (e : FileFault)
  | program (path : String) (e : FileFault)
  | run (path : String) (e : RunError)
  | compile (e : CompileError)
  | output (path : String) (e : FileFault)

/-- The words for a failure. -/
def FileError.message : FileError → String
  | source path e => "Failed to read source: " ++ path ++ ": " ++ e.message
  | program path e => "Failed to read file: " ++ path ++ ": " ++ e.message
  | run path e => "Failed to run " ++ path ++ ": " ++ e.message
  | compile e => e.diagnostic.text
  | output path e => "Failed to write module: " ++ path ++ ": " ++ e.message

/-- Compiles and runs a source text; gives the files after it as well.  Without a result the bound on
rounds was reached. -/
def runSource (limit : Nat) (config : Config) (d : Directory) (text : String) :
    Except RunError (Option Execution) × Directory :=
  match compile text config.compile with
  | .error e => (.error (.compile e), d)
  | .ok m =>
    match Vm.ofModule m config.runtime d with
    | .error f => (.error (.fault f), d)
    | .ok vm =>
      let (result, vm) := vm.run limit
      (result.mapError .fault, vm.machine.work.directory)

/-- Compiles and runs a source file; gives the files after it as well. -/
def runFile (limit : Nat) (d : Directory) (path : String) : Except FileError (Option Execution) × Directory :=
  match d.readText path with
  | .error e => (.error (.program path e), d)
  | .ok text =>
    let (result, d) := runSource limit {} d text
    (result.mapError (.run path), d)

/-- Compiles a source file and writes the module as text; gives the files after it. -/
def buildText (d : Directory) (source target : String) : Except FileError Directory := do
  let text ← (d.readText source).mapError (.source source)
  let m ← (compile text {}).mapError .compile
  (d.write target (Utf8.encode m.text)).mapError (.output target)

/-- Why settings cannot be loaded. -/
inductive ConfigError where
  | file (e : FileFault)
  | parse
  deriving DecidableEq, Repr

/-- Whether something is at a path. -/
def Directory.holds (d : Directory) (path : String) : Bool :=
  match d.resolve path with
  | .ok .directory => true
  | .ok (.entry name) => (d.get? name).isSome
  | _ => false

/-- Settings from a file; without the file they are the defaults. -/
def loadConfig (d : Directory) (path : String) : Except ConfigError Config :=
  if d.holds path then
    match d.readText path with
    | .error e => .error (.file e)
    | .ok text => (Config.ofText? text).elim (.error .parse) .ok
  else .ok {}

end StackScript
