import StackScript.Machine.Module

/-!
# Functions of the host

The functions that every module imports first, in a fixed order.
-/

namespace StackScript

/-- Functions of the host that every module imports. -/
inductive HostImport where
  /-- Writes a line: address and length. -/
  | log
  /-- Allocates bytes. -/
  | alloc
  | httpGet
  | httpPost
  | fileRead
  | fileWrite
  | timerSchedule
  /-- Runs a function of the table as a task, with an environment; gives its promise. -/
  | taskSpawn
  | promiseResolve
  | promiseReject
  /-- Waits for a promise and gives its value. -/
  | promiseAwait
  | fmtI64
  | fmtU64
  | fmtF64
  deriving DecidableEq, Repr

namespace HostImport

/-- All of them in the order of their numbers. -/
def all : List HostImport :=
  [log, alloc, httpGet, httpPost, fileRead, fileWrite, timerSchedule, taskSpawn, promiseResolve,
    promiseReject, promiseAwait, fmtI64, fmtU64, fmtF64]

/-- The number of an import in every module. -/
def index : HostImport → Nat
  | log => 0
  | alloc => 1
  | httpGet => 2
  | httpPost => 3
  | fileRead => 4
  | fileWrite => 5
  | timerSchedule => 6
  | taskSpawn => 7
  | promiseResolve => 8
  | promiseReject => 9
  | promiseAwait => 10
  | fmtI64 => 11
  | fmtU64 => 12
  | fmtF64 => 13

/-- The import with a number. -/
def ofIndex? (i : Nat) : Option HostImport :=
  all[i]?

theorem ofIndex?_index (i : HostImport) : ofIndex? i.index = some i := by
  cases i <;> rfl

/-- The name of an import. -/
def text : HostImport → String
  | log => "log"
  | alloc => "alloc"
  | httpGet => "http_get"
  | httpPost => "http_post"
  | fileRead => "file_read"
  | fileWrite => "file_write"
  | timerSchedule => "timer_schedule"
  | taskSpawn => "task_spawn"
  | promiseResolve => "promise_resolve"
  | promiseReject => "promise_reject"
  | promiseAwait => "promise_await"
  | fmtI64 => "fmt_i64"
  | fmtU64 => "fmt_u64"
  | fmtF64 => "fmt_f64"

/-- The type of an import. -/
def ty : HostImport → FuncType
  | log => .of [.i32, .i32] none
  | alloc | timerSchedule => .of [.i32] (some .i32)
  | httpGet | fileRead | taskSpawn => .of [.i32, .i32] (some .i32)
  | httpPost | fileWrite => .of [.i32, .i32, .i32, .i32] (some .i32)
  | promiseResolve | promiseReject => .of [.i32, .i64] none
  | promiseAwait => .of [.i32] (some .i64)
  | fmtI64 | fmtU64 => .of [.i64] (some .i32)
  | fmtF64 => .of [.f64] (some .i32)

/-- Whether the import starts work that ends later. -/
def isAsync : HostImport → Bool
  | httpGet | httpPost | fileRead | fileWrite | timerSchedule => true
  | _ => false

/-- The provider of all imports. -/
def provider : String := "env"

/-- The declarations of all imports. -/
def imports : List Import :=
  all.map fun i => ⟨provider, i.text, i.ty⟩

end HostImport

end StackScript
