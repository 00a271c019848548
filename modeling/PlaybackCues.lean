import PlaybackCues.Clock.Desk
import PlaybackCues.Clock.EventLoop
import PlaybackCues.Clock.Timers
import PlaybackCues.Cue.Basic
import PlaybackCues.Cue.Validation
import PlaybackCues.Identity.Sha1
import PlaybackCues.Identity.Uuid
import PlaybackCues.Json.Number
import PlaybackCues.Json.Reader
import PlaybackCues.Json.Value
import PlaybackCues.Json.Writer
import PlaybackCues.Main
import PlaybackCues.Notes.Parser
import PlaybackCues.Number.Binary64
import PlaybackCues.Number.Powers
import PlaybackCues.Number.Rounding
import PlaybackCues.Number.Shortest
import PlaybackCues.Number.Text
import PlaybackCues.Persistence.Cues
import PlaybackCues.Persistence.Decoding
import PlaybackCues.Persistence.Recordings
import PlaybackCues.Player.Basic
import PlaybackCues.Player.Simulated
import PlaybackCues.Proofs.Clock.Rearming
import PlaybackCues.Proofs.Clock.Regimes
import PlaybackCues.Proofs.Clock.Ringing
import PlaybackCues.Proofs.Clock.Turns
import PlaybackCues.Proofs.Cue.Built
import PlaybackCues.Proofs.Cue.Texts
import PlaybackCues.Proofs.Identity.Uuids
import PlaybackCues.Proofs.Json.Numbers
import PlaybackCues.Proofs.Json.Reading
import PlaybackCues.Proofs.Json.Texts
import PlaybackCues.Proofs.Notes.Captures
import PlaybackCues.Proofs.Notes.Entries
import PlaybackCues.Proofs.Notes.Grammar
import PlaybackCues.Proofs.Notes.Identity
import PlaybackCues.Proofs.Notes.Locality
import PlaybackCues.Proofs.Notes.Numbering
import PlaybackCues.Proofs.Notes.Reading
import PlaybackCues.Proofs.Notes.Rewriting
import PlaybackCues.Proofs.Notes.Scanning
import PlaybackCues.Proofs.Notes.Values
import PlaybackCues.Proofs.Notes.Written
import PlaybackCues.Proofs.Number.Fractions
import PlaybackCues.Proofs.Number.Hundredths
import PlaybackCues.Proofs.Number.Milliseconds
import PlaybackCues.Proofs.Number.Order
import PlaybackCues.Proofs.Number.Sums
import PlaybackCues.Proofs.Persistence.Cues
import PlaybackCues.Proofs.Persistence.Fields
import PlaybackCues.Proofs.Persistence.Recordings
import PlaybackCues.Proofs.Player.Bounds
import PlaybackCues.Proofs.Player.Motion
import PlaybackCues.Proofs.Recording.Captures
import PlaybackCues.Proofs.Recording.Chains
import PlaybackCues.Proofs.Recording.Contiguity
import PlaybackCues.Proofs.Recording.Levels
import PlaybackCues.Proofs.Recording.Lines
import PlaybackCues.Proofs.Recording.Looks
import PlaybackCues.Proofs.Recording.Observing
import PlaybackCues.Proofs.Recording.Patches
import PlaybackCues.Proofs.Recording.Stretches
import PlaybackCues.Proofs.Recording.Timeline
import PlaybackCues.Proofs.Recording.Unsought
import PlaybackCues.Proofs.Resolver.Attuned
import PlaybackCues.Proofs.Resolver.Coherence
import PlaybackCues.Proofs.Resolver.Defaults
import PlaybackCues.Proofs.Resolver.Expiry
import PlaybackCues.Proofs.Resolver.Flights
import PlaybackCues.Proofs.Resolver.Forward
import PlaybackCues.Proofs.Resolver.Jumps
import PlaybackCues.Proofs.Resolver.Listing
import PlaybackCues.Proofs.Resolver.Losses
import PlaybackCues.Proofs.Resolver.Passage
import PlaybackCues.Proofs.Resolver.Prose
import PlaybackCues.Proofs.Resolver.Replay
import PlaybackCues.Proofs.Resolver.Retirement
import PlaybackCues.Proofs.Resolver.Runs
import PlaybackCues.Proofs.Resolver.Seeking
import PlaybackCues.Proofs.Resolver.Sending
import PlaybackCues.Proofs.Resolver.Straight
import PlaybackCues.Proofs.Resolver.Waiting
import PlaybackCues.Proofs.Resolver.Watching
import PlaybackCues.Proofs.Session.Edits
import PlaybackCues.Proofs.Session.Pauses
import PlaybackCues.Proofs.Session.Rounds
import PlaybackCues.Proofs.Session.Runs
import PlaybackCues.Proofs.Session.Turns
import PlaybackCues.Proofs.Storage.Listings
import PlaybackCues.Proofs.Storage.Rows
import PlaybackCues.Proofs.Time.Calendars
import PlaybackCues.Proofs.Time.Lengths
import PlaybackCues.Proofs.Time.Timestamps
import PlaybackCues.Recording.Basic
import PlaybackCues.Recording.Capture
import PlaybackCues.Recording.Recorder
import PlaybackCues.Recording.Transcript
import PlaybackCues.Resolver.Basic
import PlaybackCues.Resolver.Obedience
import PlaybackCues.Resolver.Tick
import PlaybackCues.Session.Basic
import PlaybackCues.Settings.Basic
import PlaybackCues.Settings.Environment
import PlaybackCues.Settings.VariableFile
import PlaybackCues.Simulation
import PlaybackCues.Storage.Row
import PlaybackCues.Storage.Store
import PlaybackCues.Text.Blank
import PlaybackCues.Text.Digits
import PlaybackCues.Time.Calendar
import PlaybackCues.Time.Text
import PlaybackCues.Time.Timestamp
import PlaybackCues.TimeCode
