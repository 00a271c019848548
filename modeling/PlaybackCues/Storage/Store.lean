import PlaybackCues.Notes.Parser

set_option autoImplicit false

/-!
# The store of cues

The store holds a list of cues for each session and replaces it as a whole. It can be offline;
then every access fails and nothing changes. A listing is in the order of the indexes, and cues of
one index keep the order in which they were written. `reconcile` makes a session hold exactly what
the notes say.
-/
namespace PlaybackCues

inductive StoreError where
  | database (reason : String)
  | corrupt (reason : String)
  | unavailable (reason : String)
  deriving DecidableEq

def StoreError.message : StoreError → String
  | .database reason => "Database error: " ++ reason
  | .corrupt reason => "Stored annotation is invalid: " ++ reason
  | .unavailable reason => "Repository unavailable: " ++ reason

/-- In the order of the indexes; equal indexes keep their order. -/
def byIndex (cues : List Cue) : List Cue := cues.mergeSort fun a b => a.index ≤ b.index

structure Store where
  sessions : List (Int × List Cue)
  offline : Bool

namespace Store

def empty : Store := ⟨[], false⟩

def written (s : Store) (session : Int) : List Cue := (s.sessions.lookup session).getD []

/-- What the store would list for a session if it were online. -/
def listing (s : Store) (session : Int) : List Cue := byIndex (s.written session)

def put (s : Store) (session : Int) (cues : List Cue) : Store :=
  { s with sessions := (session, cues) :: s.sessions.filter fun entry => entry.1 ≠ session }

def outage : StoreError := .unavailable "offline"

def list (s : Store) (session : Int) : Except StoreError (List Cue) :=
  if s.offline then .error outage else .ok (s.listing session)

def replace (s : Store) (session : Int) (cues : List Cue) : Except StoreError Store :=
  if s.offline then .error outage else .ok (s.put session cues)

def load (s : Store) (session : Int) : Except StoreError (List Cue) :=
  (s.list session).map byIndex

/-- Writes the cues of the notes, and gives them back. -/
def reconcile (s : Store) (session : Int) (notes : List Char) :
    Except StoreError (Store × List Cue) :=
  let cues := Notes.parse notes
  (s.replace session cues).map fun s => (s, cues)

end Store

end PlaybackCues
