set_option autoImplicit false

/-!
# The digest SHA-1

A message of bytes is padded to whole blocks of sixteen words, and each block is mixed into five
words of state in eighty steps. The digest is the final state, twenty bytes in all.
-/
namespace PlaybackCues.Sha1

def wordBytes (w : UInt32) : List UInt8 :=
  [(w >>> 24).toUInt8, (w >>> 16).toUInt8, (w >>> 8).toUInt8, w.toUInt8]

/-- Whole words, the first byte the most significant; a rest of fewer than four is dropped. -/
def words : List UInt8 → List UInt32
  | a :: b :: c :: d :: rest =>
    (a.toUInt32 <<< 24 ||| b.toUInt32 <<< 16 ||| c.toUInt32 <<< 8 ||| d.toUInt32) :: words rest
  | _ => []

/-- The message, a one bit, zeros, and the length in bits as two words. -/
def padded (message : List UInt8) : List UInt8 :=
  let bits := 8 * message.length
  let zeros := (119 - message.length % 64) % 64
  message ++ 0x80 :: List.replicate zeros 0 ++
    wordBytes (bits / 0x100000000).toUInt32 ++ wordBytes bits.toUInt32

def rotate (w : UInt32) (k : UInt32) : UInt32 := (w <<< k) ||| (w >>> (32 - k))

structure State where
  a : UInt32
  b : UInt32
  c : UInt32
  d : UInt32
  e : UInt32
  deriving DecidableEq

def State.start : State :=
  ⟨0x67452301, 0xEFCDAB89, 0x98BADCFE, 0x10325476, 0xC3D2E1F0⟩

def State.add (s t : State) : State :=
  ⟨s.a + t.a, s.b + t.b, s.c + t.c, s.d + t.d, s.e + t.e⟩

def State.bytes (s : State) : List UInt8 :=
  [s.a, s.b, s.c, s.d, s.e].flatMap wordBytes

/-- The mixing function and the constant of a step. -/
def stage (t : Nat) (s : State) : UInt32 × UInt32 :=
  if t < 20 then ((s.b &&& s.c) ||| (~~~s.b &&& s.d), 0x5A827999)
  else if t < 40 then (s.b ^^^ s.c ^^^ s.d, 0x6ED9EBA1)
  else if t < 60 then ((s.b &&& s.c) ||| (s.b &&& s.d) ||| (s.c &&& s.d), 0x8F1BBCDC)
  else (s.b ^^^ s.c ^^^ s.d, 0xCA62C1D6)

def mix (s : State) (t : Nat) (w : UInt32) : State :=
  let (f, k) := stage t s
  ⟨rotate s.a 5 + f + s.e + k + w, s.a, rotate s.b 30, s.c, s.d⟩

/-- The next word of the schedule, from a window of the last sixteen. -/
def nextWord (window : List UInt32) : UInt32 :=
  rotate (window.getD 13 0 ^^^ window.getD 8 0 ^^^ window.getD 2 0 ^^^ window.getD 0 0) 1

/-- The steps from `t` on; the window holds the words of this step and the fifteen after it. -/
def steps : Nat → Nat → List UInt32 → State → State
  | 0, _, _, s => s
  | _ + 1, _, [], s => s
  | k + 1, t, w :: rest, s => steps k (t + 1) (rest ++ [nextWord (w :: rest)]) (mix s t w)

def block (s : State) (ws : List UInt32) : State := s.add (steps 80 0 ws s)

def blocks : Nat → List UInt32 → State → State
  | 0, _, s => s
  | k + 1, ws, s => blocks k (ws.drop 16) (block s (ws.take 16))

def digest (message : List UInt8) : List UInt8 :=
  let ws := words (padded message)
  (blocks (ws.length / 16) ws State.start).bytes

end PlaybackCues.Sha1
