import RecurrenceCompiler.Text.Blank

/-!
# Watching

A watched directory is built again once it has been quiet for a while after a change. Each change
puts the rebuild off to the end of a new quiet period, and closing the watcher calls it off. Times are
values of any type that can be added and compared; the command line counts milliseconds.

The quiet period is a timer of a clock. What a rebuild reads and writes is the state `σ`, and a
rebuild may fail with an error in `ε`.
-/

namespace RecurrenceCompiler

/-! ## The clock -/

/-- A running timer. -/
structure Timer (τ : Type) where
  id : Nat
  /-- When the timer ends. -/
  due : τ

/-- A clock with running timers, in the order in which they were started. -/
structure Clock (τ : Type) where
  /-- The current time. -/
  now : τ
  timers : List (Timer τ) := []
  /-- How many timers were started so far. -/
  started : Nat := 0

namespace Clock

/-- Start a timer. Gives its number. -/
def start [Add τ] (c : Clock τ) (delay : τ) : Clock τ × Nat :=
  ({ c with timers := c.timers ++ [⟨c.started, c.now + delay⟩], started := c.started + 1 }, c.started)

/-- Stop a timer, if it is running. -/
def stop (c : Clock τ) (id : Nat) : Clock τ :=
  { c with timers := c.timers.filter fun t => t.id != id }

/-- The timers that have ended, in the order in which they ended. -/
def ended [LE τ] [DecidableLE τ] (c : Clock τ) : List (Timer τ) :=
  (c.timers.filter fun t => t.due ≤ c.now).mergeSort fun t u => t.due ≤ u.due

end Clock

/-! ## Quiet periods -/

/-- A run at the end of a quiet period. -/
structure Firing (τ ε : Type) where
  time : τ
  /-- Whether the run came to its end or let an error escape. -/
  outcome : Except ε Unit

/-- A run that waits for a quiet period. -/
structure Debounce (τ : Type) extends Clock τ where
  /-- The length of the quiet period. -/
  delay : τ
  /-- The timer of the quiet period, if a run is pending. -/
  timer : Option Nat := none

namespace Debounce

/-- Call the run off. -/
def cancel (d : Debounce τ) : Debounce τ :=
  match d.timer with
  | some id => { d with toClock := d.stop id, timer := none }
  | none => d

/-- Put the run off to the end of a new quiet period. -/
def trigger [Add τ] (d : Debounce τ) : Debounce τ :=
  let (clock, id) := d.cancel.start d.delay
  { d with toClock := clock, timer := some id }

/-- The end of a timer: nothing is pending any more, then the run is made. -/
def fire (d : Debounce τ) (run : ExceptT ε (StateM σ) Unit) (t : Timer τ) :
    StateM σ (Debounce τ × Firing τ ε) := do
  let d := { d with toClock := d.stop t.id, timer := none }
  let outcome ← run.run
  return (d, ⟨t.due, outcome⟩)

/-- The end of timers, one after the other. -/
def fireAll (d : Debounce τ) (run : ExceptT ε (StateM σ) Unit) :
    List (Timer τ) → StateM σ (Debounce τ × List (Firing τ ε))
  | [] => return (d, [])
  | t :: ts => do
    let (d, first) ← d.fire run t
    let (d, rest) ← d.fireAll run ts
    return (d, first :: rest)

/-- Let time pass. Gives the runs that were made. -/
def advance [Add τ] [LE τ] [DecidableLE τ] (d : Debounce τ) (run : ExceptT ε (StateM σ) Unit)
    (time : τ) : StateM σ (Debounce τ × List (Firing τ ε)) :=
  let d := { d with now := d.now + time }
  d.fireAll run d.ended

end Debounce

/-! ## Watched directories -/

/-- What happens to a watched directory. -/
inductive WatchEvent (τ : Type) where
  /-- A file changed; its name may be unknown. -/
  | change (file : Option String)
  /-- Time passes. -/
  | advance (time : τ)
  | close

/-- What a watch does at the end of a quiet period. -/
structure Rebuild (ε σ : Type) where
  build : ExceptT ε (StateM σ) Unit
  /-- What is done about the error of a build. -/
  onError : ε → ExceptT ε (StateM σ) Unit := throw

/-- Build, and hand an error to its handler. -/
def Rebuild.attempt (r : Rebuild ε σ) : ExceptT ε (StateM σ) Unit :=
  tryCatch r.build r.onError

/-- A watched directory. -/
structure Watcher (τ : Type) extends Debounce τ where
  closed : Bool := false

namespace Watcher

/-- Whether a change calls for a rebuild: that of a definition file, or of an unknown one. -/
def isRelevant : Option String → Bool
  | none => true
  | some file => ".json".toList.isSuffixOf file.toList

/-- Start to watch, at a given time. -/
def watch (delay now : τ) : Watcher τ :=
  { delay, now }

/-- Take in an event. Gives the rebuilds that were made. -/
def step [Add τ] [LE τ] [DecidableLE τ] (w : Watcher τ) (r : Rebuild ε σ) :
    WatchEvent τ → StateM σ (Watcher τ × List (Firing τ ε))
  | .change file =>
    return (if !w.closed && isRelevant file then { w with toDebounce := w.trigger } else w, [])
  | .advance time => do
    let (d, rebuilds) ← w.toDebounce.advance r.attempt time
    return ({ w with toDebounce := d }, rebuilds)
  | .close => return ({ toDebounce := w.cancel, closed := true }, [])

/-- Take in events. -/
def run [Add τ] [LE τ] [DecidableLE τ] (w : Watcher τ) (r : Rebuild ε σ) :
    List (WatchEvent τ) → StateM σ (Watcher τ × List (Firing τ ε))
  | [] => return (w, [])
  | e :: es => do
    let (w, first) ← w.step r e
    let (w, rest) ← w.run r es
    return (w, first ++ rest)

end Watcher

end RecurrenceCompiler
