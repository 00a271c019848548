import PlaybackCues.Recording.Basic

set_option autoImplicit false

/-!
# A recording as notes

Every event opens a line, and the next line closes it; the last line runs on for three seconds.
A change of levels less than a millisecond after its line was opened belongs to that line. A seek
turns the line before it into a jump and a pause turns it into a pause. Lines that cannot be built
are left out, and an empty line stands where the media time leaps by more than half a minute.
-/
namespace PlaybackCues.Transcript

structure Line where
  /-- The media time of the event that opened the line. -/
  anchor : Seconds
  start : Seconds
  volume : Nat
  rate : Binary64
  mode : Mode
  deriving DecidableEq

def trailingWindow : Seconds := 3
def blockGap : Seconds := 30
def coincidence : Seconds := 0.001

def clampVolume (v : Binary64) : Nat := (v.round.clamp 0 (.ofNat maxVolume)).toNatClamped 255

def clampRate (v : Binary64) : Binary64 := (roundRate v).clamp minRate maxRate

def pauseSeconds (v : Binary64) : Nat := (v.round.max 1).toNatClamped (twoTo 32 - 1)

/-- The levels in force and the lines opened so far, the newest first. -/
structure Draft where
  volume : Nat
  rate : Binary64
  lines : List Line

def closing? (e : RecordedEvent) : Option Mode :=
  match e.kind with
  | .seek => some .jump
  | .pause => some (.pause (pauseSeconds e.value))
  | _ => none

def close (e : RecordedEvent) : List Line → List Line
  | [] => []
  | line :: older => { line with mode := (closing? e).getD line.mode } :: older

/-- The event falls on the instant at which the line was opened. -/
def joins (e : RecordedEvent) (line : Line) : Bool :=
  e.kind.isLevel && line.mode = .natural && (line.anchor - e.time).abs < coincidence &&
    (line.start - e.resumption).abs < coincidence

def Draft.add (d : Draft) (e : RecordedEvent) : Draft :=
  let volume := if e.kind = .volume then clampVolume e.value else d.volume
  let rate := if e.kind = .speed then clampRate e.value else d.rate
  let opened : Line := ⟨e.time, e.resumption, volume, rate, .natural⟩
  match close e d.lines with
  | [] => ⟨volume, rate, [opened]⟩
  | line :: older =>
    if joins e line then ⟨volume, rate, { line with volume, rate } :: older⟩
    else ⟨volume, rate, opened :: line :: older⟩

def lines (r : Recording) : List Line :=
  let start : Draft := ⟨clampVolume (.ofNat r.volume), clampRate r.rate, []⟩
  (r.events.foldl Draft.add start).lines.reverse

/-- The end of a line: where the next one is anchored, if that is later than its start. -/
def endOf (line : Line) : Option Line → Seconds
  | some next =>
    if line.start + coincidence < next.anchor then next.anchor else line.start + trailingWindow
  | none => line.start + trailingWindow

def specs : List Line → List (Seconds × CueSpec)
  | [] => []
  | line :: rest =>
    (line.anchor, ⟨line.start, endOf line rest.head?, line.volume, line.rate, line.mode⟩) ::
      specs rest

def written (r : Recording) : List (Seconds × List Char) :=
  (specs (lines r)).zipIdx.filterMap fun ((anchor, spec), i) =>
    match spec.build i 0 with
    | .ok cue => some (anchor, cue.canonical)
    | .error _ => none

/-- Each line on one of its own, and an empty one where the anchor leaps. -/
def layout : List (Seconds × List Char) → List Char
  | [] => []
  | [(_, text)] => text
  | (anchor, text) :: (next, more) :: rest =>
    let gap := if blockGap < (next - anchor).abs then ['\n', '\n'] else ['\n']
    text ++ gap ++ layout ((next, more) :: rest)

def write (r : Recording) : List Char := layout (written r)

end PlaybackCues.Transcript
