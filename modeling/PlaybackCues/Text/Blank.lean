set_option autoImplicit false

/-!
# Blank characters

The Unicode property White_Space: twenty-five characters. Titles and settings are trimmed of
them on both sides.
-/
namespace PlaybackCues.Blank

/-- The first and last code points of each range of the property. -/
def ranges : List (Nat × Nat) :=
  [(0x09, 0x0D), (0x20, 0x20), (0x85, 0x85), (0xA0, 0xA0), (0x1680, 0x1680), (0x2000, 0x200A),
   (0x2028, 0x2029), (0x202F, 0x202F), (0x205F, 0x205F), (0x3000, 0x3000)]

def isBlank (c : Char) : Bool := ranges.any fun r => r.1 ≤ c.toNat && c.toNat ≤ r.2

def skip (cs : List Char) : List Char := cs.dropWhile isBlank

def trim (cs : List Char) : List Char := (skip (skip cs).reverse).reverse

example : ranges.foldl (fun n r => n + (r.2 + 1 - r.1)) 0 = 25 := rfl

end PlaybackCues.Blank
