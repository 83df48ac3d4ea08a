import Mathlib.Data.UInt

/-! `Hlc` packs 48 bits of milliseconds and a counter of 16 bits into a `u64`. Both calls of
`HlcClock` hold its mutex, so a run is a list of calls. The source of time may return anything. -/

namespace Ehdb.Core

def logicalBits : UInt64 := 16

def logicalMask : UInt64 := (1 <<< logicalBits) - 1

structure Hlc where
  raw : UInt64
  deriving DecidableEq

namespace Hlc

instance : LT Hlc := ⟨fun a b => a.raw < b.raw⟩

instance (a b : Hlc) : Decidable (a < b) := inferInstanceAs (Decidable (a.raw < b.raw))

def fromParts (physicalMillis logical : UInt64) : Hlc :=
  ⟨(physicalMillis <<< logicalBits) ||| (logical &&& logicalMask)⟩

def physicalMillis (hlc : Hlc) : UInt64 := hlc.raw >>> logicalBits

def logical (hlc : Hlc) : UInt64 := hlc.raw &&& logicalMask

end Hlc

/-- The mutex of the clock guards the highest value issued or observed. -/
structure HlcClock where
  state : Hlc
  deriving DecidableEq

namespace HlcClock

def seededFrom (highestSeen : Hlc) : HlcClock := ⟨highestSeen⟩

/-- The timestamp that `now` issues after `last` when the source reads `physical`. -/
def next (last : Hlc) (physical : UInt64) : Hlc :=
  if physical > last.physicalMillis then
    .fromParts physical 0
  else
    let logical := last.logical + 1
    if logical > logicalMask then
      .fromParts (last.physicalMillis + 1) 0
    else
      .fromParts last.physicalMillis logical

def now (clock : HlcClock) (physical : UInt64) : Hlc × HlcClock :=
  let next := next clock.state physical
  (next, ⟨next⟩)

def observe (clock : HlcClock) (remote : Hlc) : HlcClock :=
  if remote > clock.state then ⟨remote⟩ else clock

end HlcClock

/-- A call on the clock; for `now`, with what the source returns to it. -/
inductive ClockCall where
  | now (physical : UInt64)
  | observe (remote : Hlc)
  deriving DecidableEq

/-- What a call made known: a timestamp that was returned, or one that was observed. -/
inductive Stamp where
  | issued (value : Hlc)
  | observed (value : Hlc)
  deriving DecidableEq

def Stamp.value : Stamp → Hlc
  | .issued value => value
  | .observed value => value

namespace HlcClock

def call (clock : HlcClock) : ClockCall → Stamp × HlcClock
  | .now physical =>
    let (value, clock) := clock.now physical
    (.issued value, clock)
  | .observe remote => (.observed remote, clock.observe remote)

def after (clock : HlcClock) (calls : List ClockCall) : HlcClock :=
  calls.foldl (fun clock c => (clock.call c).2) clock

def run (clock : HlcClock) : List ClockCall → List Stamp
  | [] => []
  | c :: calls => (clock.call c).1 :: (clock.call c).2.run calls

end HlcClock

end Ehdb.Core
