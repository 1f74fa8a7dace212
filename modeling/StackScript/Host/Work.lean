import StackScript.Exec.Promise
import StackScript.Host.Directory

/-!
# Work of the host

Timers, files and requests that a program waits for.

## Design Notes

Work starts only while the program waits.  Finished work is handed out first; when there is none, all
queued work is started in order, and when still nothing is done, the clock moves on to the next timer.
Requests over the network are refused at once, so they are done before the files of the same start.
Time does not pass while a program runs.
-/

namespace StackScript

/-- What a program asks the host for. -/
inductive Request where
  /-- Waking up at a time, in milliseconds. -/
  | sleep (deadline : Nat)
  | httpGet (url : String)
  | httpPost (url : String) (body : List UInt8)
  | readFile (path : String)
  | writeFile (path : String) (contents : List UInt8)
  deriving DecidableEq, Repr

/-- What comes of a request. -/
inductive Outcome where
  /-- A timer fires. -/
  | unit
  | text (result : Except String (List UInt8))
  | count (result : Except String Nat)

/-- A finished request and its promise. -/
structure Completion where
  handle : PromiseHandle
  outcome : Outcome

/-- All work of the host. -/
structure HostWork where
  /-- Milliseconds since the start. -/
  clock : Nat := 0
  directory : Directory := {}
  /-- Requests that are not started, in order. -/
  queued : List (PromiseHandle × Request) := []
  /-- Running timers by deadline. -/
  timers : List (Nat × PromiseHandle) := []
  /-- Finished work, in order. -/
  done : List Completion := []

namespace HostWork

/-- Adds work. -/
def submit (w : HostWork) (h : PromiseHandle) (r : Request) : HostWork :=
  { w with queued := w.queued ++ [(h, r)] }

/-- The number of requests that are not handed out. -/
def inFlight (w : HostWork) : Nat :=
  w.queued.length + w.timers.length + w.done.length

/-- Adds a timer behind those that fire no later. -/
def addTimer (deadline : Nat) (h : PromiseHandle) : List (Nat × PromiseHandle) → List (Nat × PromiseHandle)
  | [] => [(deadline, h)]
  | t :: ts =>
    if t.1 ≤ deadline then t :: addTimer deadline h ts else (deadline, h) :: t :: ts

/-- The answer to a request over the network. -/
def refusal (url : String) : Outcome :=
  .text (.error (url ++ ": builder error"))

/-- Reads a file. -/
def readOutcome (d : Directory) (path : String) : Outcome :=
  .text ((d.read path).mapError fun e => path ++ ": " ++ e.message)

/-- Writes a file. -/
def writeOutcome (d : Directory) (path : String) (contents : List UInt8) : Outcome × Directory :=
  match d.write path contents with
  | .ok d => (.count (.ok contents.length), d)
  | .error e => (.count (.error (path ++ ": " ++ e.message)), d)

/-- Starts queued requests; what is done at once comes in front of what files bring. -/
def startAll (w : HostWork) (refused brought : List Completion) : List (PromiseHandle × Request) → HostWork
  | [] => { w with queued := [], done := w.done ++ refused ++ brought }
  | (h, r) :: rest =>
    match r with
    | .sleep deadline => startAll { w with timers := addTimer deadline h w.timers } refused brought rest
    | .httpGet url => startAll w (refused ++ [⟨h, refusal url⟩]) brought rest
    | .httpPost url _ => startAll w (refused ++ [⟨h, refusal url⟩]) brought rest
    | .readFile path => startAll w refused (brought ++ [⟨h, readOutcome w.directory path⟩]) rest
    | .writeFile path contents =>
      let (outcome, directory) := writeOutcome w.directory path contents
      startAll { w with directory } refused (brought ++ [⟨h, outcome⟩]) rest

/-- Starts all queued requests. -/
def start (w : HostWork) : HostWork :=
  startAll w [] [] w.queued

/-- Moves the clock on to the next timer; every timer that is due fires. -/
def advance (w : HostWork) : HostWork :=
  match w.timers with
  | [] => w
  | (deadline, _) :: _ =>
    let clock := max w.clock deadline
    { w with
      clock
      timers := w.timers.dropWhile (·.1 ≤ clock)
      done := w.done ++ (w.timers.takeWhile (·.1 ≤ clock)).map fun t => ⟨t.2, .unit⟩ }

/-- Finished work comes first, then work that a start finishes, then timers. -/
def progress (w : HostWork) : HostWork :=
  if !w.done.isEmpty then w
  else
    let w := w.start
    if !w.done.isEmpty then w else w.advance

/-- The next work that is done; none if no work is left. -/
def wait (w : HostWork) : Option (Completion × HostWork) :=
  let w := w.progress
  match w.done with
  | c :: rest => some (c, { w with done := rest })
  | [] => none

end HostWork

end StackScript
