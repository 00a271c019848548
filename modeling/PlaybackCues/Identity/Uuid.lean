import PlaybackCues.Identity.Sha1
import PlaybackCues.Text.Digits

set_option autoImplicit false

/-!
# Universally unique ids

An id is 128 bits. It is written as 32 hexadecimal digits in five groups, and read back in that
form or without hyphens, in braces, or as a URN. An id by name comes from the digest of a name
space and a text, with the version five and the variant bits set.
-/
namespace PlaybackCues

structure Uuid where
  bits : BitVec 128
  deriving DecidableEq

namespace Uuid

def zero : Uuid := ⟨0⟩

instance : Inhabited Uuid := ⟨zero⟩

def bytesOf : Nat → Nat → List UInt8
  | 0, _ => []
  | k + 1, n => bytesOf k (n / 256) ++ [n.toUInt8]

def bytes (u : Uuid) : List UInt8 := bytesOf 16 u.bits.toNat

def ofBytes (bs : List UInt8) : Uuid :=
  ⟨BitVec.ofNat 128 (bs.foldl (fun n b => 256 * n + b.toNat) 0)⟩

/-- Version five in the seventh byte and the variant in the ninth. -/
def stamp (i : Nat) (b : UInt8) : UInt8 :=
  if i = 6 then (b &&& 0x0F) ||| 0x50 else if i = 8 then (b &&& 0x3F) ||| 0x80 else b

def byName (space : Uuid) (name : String) : Uuid :=
  ofBytes (((Sha1.digest (space.bytes ++ name.toUTF8.toList)).take 16).mapIdx stamp)

/-! ## Text -/

def hexDigits (u : Uuid) : List Char :=
  let ds := Nat.toDigits 16 u.bits.toNat
  List.replicate (32 - ds.length) '0' ++ ds

def grouped (ds : List Char) : List Char :=
  ds.take 8 ++ '-' :: (ds.drop 8).take 4 ++ '-' :: (ds.drop 12).take 4 ++
    '-' :: (ds.drop 16).take 4 ++ '-' :: ds.drop 20

def toChars (u : Uuid) : List Char := grouped u.hexDigits

def text (u : Uuid) : String := String.ofList u.toChars

def readHex? (cs : List Char) : Option Nat :=
  cs.foldlM (fun n c => (Digits.hexValue? c).map (16 * n + ·)) 0

def readSimple? (cs : List Char) : Option Uuid :=
  if cs.length = 32 then (readHex? cs).map fun n => ⟨BitVec.ofNat 128 n⟩ else none

def readGrouped? (cs : List Char) : Option Uuid :=
  if cs.length = 36 && [8, 13, 18, 23].all (fun i => cs[i]? = some '-') then
    readSimple? (cs.take 8 ++ (cs.drop 9).take 4 ++ (cs.drop 14).take 4 ++
      (cs.drop 19).take 4 ++ cs.drop 24)
  else none

def urnStart : List Char := "urn:uuid:".toList

/-- Each written form has a length of its own, which decides how the text is read. -/
def read? (cs : List Char) : Option Uuid :=
  match cs.length with
  | 32 => readSimple? cs
  | 36 => readGrouped? cs
  | 38 =>
    if cs.head? = some '\x7b' && cs.getLast? = some '\x7d' then readGrouped? (cs.drop 1).dropLast
    else none
  | 45 => if urnStart.isPrefixOf cs then readGrouped? (cs.drop 9) else none
  | _ => none

end Uuid

end PlaybackCues
