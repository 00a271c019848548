import PlaybackCues.Json.Number

set_option autoImplicit false

/-!
# Reading JSON

A text is read as one value with blanks around it and nothing else behind it. Each call on a part
of a value has less fuel than the call around it, and twice the length of the text is enough.
-/
namespace PlaybackCues.Json

def isBlank (c : Char) : Bool := c = ' ' || c = '\n' || c = '\t' || c = '\r'

def skipBlanks (cs : List Char) : List Char := cs.dropWhile isBlank

/-! ## Texts -/

def hexEscape? : List Char → Option (Nat × List Char)
  | a :: b :: c :: d :: rest => do
    let a ← Digits.hexValue? a
    let b ← Digits.hexValue? b
    let c ← Digits.hexValue? c
    let d ← Digits.hexValue? d
    some (((a * 16 + b) * 16 + c) * 16 + d, rest)
  | _ => none

def shortEscape? : Char → Option Char
  | '"' => some '"'
  | '\\' => some '\\'
  | '/' => some '/'
  | 'b' => some '\x08'
  | 'f' => some '\x0c'
  | 'n' => some '\n'
  | 'r' => some '\r'
  | 't' => some '\t'
  | _ => none

def isHighSurrogate (n : Nat) : Bool := 0xD800 ≤ n && n < 0xDC00
def isLowSurrogate (n : Nat) : Bool := 0xDC00 ≤ n && n < 0xE000

/-- A piece of a text: a character or half of a pair of surrogates. -/
inductive Piece where
  | char (c : Char)
  | half (n : Nat)

/-- Puts halves together; a half that is alone makes the text meaningless. -/
def assemble : List Piece → JsonText
  | [] => some []
  | .char c :: rest => (assemble rest).map (c :: ·)
  | .half high :: .half low :: rest =>
    if isHighSurrogate high && isLowSurrogate low then
      (assemble rest).map
        (Char.ofNat (0x10000 + (high - 0xD800) * 0x400 + (low - 0xDC00)) :: ·)
    else none
  | .half _ :: _ => none

def pieceOf (n : Nat) : Piece :=
  if isHighSurrogate n || isLowSurrogate n then .half n else .char (Char.ofNat n)

/-- The pieces of a text up to the closing quote, and the rest. -/
def pieces? : Nat → List Char → Option (List Piece × List Char)
  | 0, _ => none
  | _ + 1, [] => none
  | _ + 1, '"' :: rest => some ([], rest)
  | k + 1, '\\' :: 'u' :: rest => do
    let (n, rest) ← hexEscape? rest
    let (ps, rest) ← pieces? k rest
    some (pieceOf n :: ps, rest)
  | k + 1, '\\' :: c :: rest => do
    let c ← shortEscape? c
    let (ps, rest) ← pieces? k rest
    some (.char c :: ps, rest)
  | k + 1, c :: rest =>
    if c = '\\' || c.toNat < 0x20 then none
    else (pieces? k rest).map fun r => (.char c :: r.1, r.2)

def text? (cs : List Char) : Option (JsonText × List Char) :=
  (pieces? (cs.length + 1) cs).map fun r => (assemble r.1, r.2)

/-! ## Values -/

def word? (word : String) (cs : List Char) : Option (List Char) :=
  if word.toList.isPrefixOf cs then some (cs.drop word.length) else none

def scalar? (cs : List Char) : Option (Json × List Char) :=
  match cs with
  | '"' :: rest => (text? rest).map fun r => (.text r.1, r.2)
  | 'n' :: _ => (word? "null" cs).map fun rest => (.null, rest)
  | 't' :: _ => (word? "true" cs).map fun rest => (.bool true, rest)
  | 'f' :: _ => (word? "false" cs).map fun rest => (.bool false, rest)
  | _ => (JsonLiteral.scan? cs).map fun r => (.number r.1.toNumber, r.2)

mutual

/-- The value in front of a text, after blanks, and the rest. -/
def value? : Nat → List Char → Option (Json × List Char)
  | 0, _ => none
  | k + 1, cs =>
    match skipBlanks cs with
    | '[' :: rest =>
      match skipBlanks rest with
      | ']' :: rest => some (.array [], rest)
      | rest => (items? k rest).map fun r => (.array r.1, r.2)
    | '\x7b' :: rest =>
      match skipBlanks rest with
      | '\x7d' :: rest => some (.object [], rest)
      | rest => (members? k rest).map fun r => (.object r.1, r.2)
    | rest => scalar? rest

/-- At least one item of an array, and the closing bracket. -/
def items? : Nat → List Char → Option (List Json × List Char)
  | 0, _ => none
  | k + 1, cs => do
    let (v, cs) ← value? k cs
    match skipBlanks cs with
    | ',' :: rest => (items? k rest).map fun r => (v :: r.1, r.2)
    | ']' :: rest => some ([v], rest)
    | _ => none

/-- At least one member of an object, and the closing brace. -/
def members? : Nat → List Char → Option (List (JsonText × Json) × List Char)
  | 0, _ => none
  | k + 1, cs =>
    match skipBlanks cs with
    | '"' :: rest => do
      let (name, cs) ← text? rest
      match skipBlanks cs with
      | ':' :: rest => do
        let (v, cs) ← value? k rest
        match skipBlanks cs with
        | ',' :: rest => (members? k rest).map fun r => ((name, v) :: r.1, r.2)
        | '\x7d' :: rest => some ([(name, v)], rest)
        | _ => none
      | _ => none
    | _ => none

end

def read? (cs : List Char) : Option Json :=
  match value? (2 * cs.length + 1) cs with
  | some (v, rest) => if skipBlanks rest = [] then some v else none
  | none => none

end PlaybackCues.Json
