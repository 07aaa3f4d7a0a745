/-!
# Clocks

Whether an edge is live is judged by a clock. A logical clock shows the highest time it has been
told of. A system clock shows a reading of the wall clock and is not moved by what it is told; the
reading is taken outside of the library.

* `Instant`: times, in nanoseconds;
* `Clock`: `now`, `observe`, `advance`.
-/

namespace WebOfTrust

/-- A time in nanoseconds. -/
abbrev Instant : Type := UInt64

/-- The source of a clock's time. -/
inductive Clock.Mode where
  | logical
  | system
deriving DecidableEq

/-- A clock with the time it shows. -/
inductive Clock where
  /-- Shows the highest time it has been told of. -/
  | logical (highWater : Instant)
  /-- Shows a reading of the wall clock. -/
  | system (reading : Instant)
deriving DecidableEq

namespace Clock

/-- A new clock; the reading is for a system clock. -/
def start (mode : Mode) (reading : Instant) : Clock :=
  match mode with
  | .logical => logical 0
  | .system => system reading

/-- The source of a clock's time. -/
def mode : Clock → Mode
  | logical _ => .logical
  | system _ => .system

/-- The time that a clock shows. -/
def now : Clock → Instant
  | logical highWater => highWater
  | system reading => reading

/-- Tell a clock of a time. -/
def observe : Clock → Instant → Clock
  | logical highWater, t => logical (if highWater < t then t else highWater)
  | system reading, _ => system reading

/-- Replace the reading of a system clock. -/
def refresh : Clock → Instant → Clock
  | logical highWater, _ => logical highWater
  | system _, reading => system reading

end Clock

end WebOfTrust
