set_option autoImplicit false

/-!
# Digits

Whole numbers as runs of the ten ASCII digits. `value` reads a run, with leading zeros allowed;
`write` gives the run without them, and `padded` puts zeros in front up to a width. `hexValue?` is
the value of one hexadecimal digit.
-/
namespace PlaybackCues.Digits

def value (digits : List Char) : Nat := digits.foldl (fun n c => 10 * n + (c.toNat - 48)) 0

def write (n : Nat) : List Char := Nat.toDigits 10 n

def padded (width n : Nat) : List Char :=
  List.replicate (width - (write n).length) '0' ++ write n

def hexValue? (c : Char) : Option Nat :=
  if c.isDigit then some (c.toNat - 48)
  else if 'a' ≤ c && c ≤ 'f' then some (c.toNat - 87)
  else if 'A' ≤ c && c ≤ 'F' then some (c.toNat - 55)
  else none

/-- The longest run of digits in front, and the rest. -/
def split (cs : List Char) : List Char × List Char :=
  (cs.takeWhile Char.isDigit, cs.dropWhile Char.isDigit)

/-- A run of at least one digit in front, and the rest. -/
def run? (cs : List Char) : Option (List Char × List Char) :=
  match split cs with
  | ([], _) => none
  | (ds, rest) => some (ds, rest)

theorem split_append (cs : List Char) : (split cs).1 ++ (split cs).2 = cs :=
  List.takeWhile_append_dropWhile

theorem isDigit_of_mem_split {cs : List Char} {c : Char} (h : c ∈ (split cs).1) :
    c.isDigit = true := by
  have := List.all_takeWhile (l := cs) (p := Char.isDigit)
  exact List.all_eq_true.mp this c h

theorem run?_eq_some_iff {cs ds rest : List Char} :
    run? cs = some (ds, rest) ↔ ds ≠ [] ∧ split cs = (ds, rest) := by
  unfold run?
  split
  · next h => simp [h]; grind
  · next h => simp [h]; grind

theorem run?_append {cs ds rest : List Char} (h : run? cs = some (ds, rest)) : ds ++ rest = cs := by
  obtain ⟨_, hs⟩ := run?_eq_some_iff.mp h
  have := split_append cs
  rwa [hs] at this

end PlaybackCues.Digits
