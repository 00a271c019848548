import PlaybackCues.Cue.Validation

set_option autoImplicit false

/-!
# Cues as table rows

A stored row holds the parts of a cue in signed columns of 16 and 32 bits. Reading a row checks
the columns, builds the cue anew and compares the ids, so a row with changed content is refused.
-/
namespace PlaybackCues

/-- The parts of a row that are stored as whole numbers. -/
structure Columns where
  index : Int
  offset : Int
  volume : Int
  pauseSeconds : Option Int
  deriving DecidableEq

structure Row extends Columns where
  id : Uuid
  start : Seconds
  stop : Seconds
  rate : Binary64
  mode : String
  deriving DecidableEq

namespace Columns

def maxColumn : Nat := twoTo 31 - 1

def natural (name : String) (top : Nat) (z : Int) : Except Invalid Nat :=
  if 0 ≤ z ∧ z ≤ top then .ok z.toNat else .error (.column name z)

/-- A number that fits a column of 32 bits. -/
def fit (name : String) (n : Nat) : Except Invalid Int :=
  if n ≤ maxColumn then .ok n else .error (.column name n)

def ofCue (c : Cue) : Except Invalid Columns := do
  let index ← fit "document_index" c.index
  let offset ← fit "source_offset" c.offset
  let pauseSeconds ← c.mode.seconds?.mapM (fit "pause_seconds")
  return ⟨index, offset, c.volume, pauseSeconds⟩

end Columns

namespace Row

def ofCue (c : Cue) : Except Invalid Row := do
  let columns ← Columns.ofCue c
  return ⟨columns, c.id, c.start, c.stop, c.rate, c.mode.label⟩

def toCue (r : Row) : Except Invalid Cue := do
  let index ← Columns.natural "document_index" Columns.maxColumn r.index
  let offset ← Columns.natural "source_offset" Columns.maxColumn r.offset
  let volume ← Columns.natural "volume" maxByte r.volume
  let seconds ← r.pauseSeconds.mapM (Columns.natural "pause_seconds" Columns.maxColumn)
  let mode ← Mode.ofParts r.mode seconds
  let cue ← CueSpec.build ⟨r.start, r.stop, volume, r.rate, mode⟩ index offset
  if cue.id = r.id then .ok cue else .error (.foreignContent r.id)

end Row

end PlaybackCues
