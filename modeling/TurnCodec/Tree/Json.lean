import TurnCodec.Decimal.Shortest
import TurnCodec.Tree.Basic
/-! Trees as indented JSON text. Byte strings become objects, floats without a
number null, and a discarded value a word that is no JSON. The text is UTF-8, like all
texts by its bytes; where a text in a tree is not, it has replacement characters. -/

namespace TurnCodec

/-- Two lowercase hexadecimal digits. -/
def hexByte (n : Nat) : String := String.ofList [Nat.digitChar (n / 16), Nat.digitChar (n % 16)]

namespace Json

def escape (c : Char) : String :=
  match c with
  | '"' => "\\\""
  | '\\' => "\\\\"
  | '\x08' => "\\b"
  | '\t' => "\\t"
  | '\n' => "\\n"
  | '\x0c' => "\\f"
  | '\r' => "\\r"
  | c => if c.toNat < 0x20 then "\\u00" ++ hexByte c.toNat else c.toString

/-- The bounds of the bytes that go with the first byte of a character in UTF-8, if it is one. -/
def tails? (first : Nat) : Option (List (Nat × Nat)) :=
  let tail := (0x80, 0xbf)
  if first < 0x80 then some []
  else if first < 0xc2 then none
  else if first < 0xe0 then some [tail]
  else if first = 0xe0 then some [(0xa0, 0xbf), tail]
  else if first = 0xed then some [(0x80, 0x9f), tail]
  else if first < 0xf0 then some [tail, tail]
  else if first = 0xf0 then some [(0x90, 0xbf), tail, tail]
  else if first < 0xf4 then some [tail, tail, tail]
  else if first = 0xf4 then some [(0x80, 0x8f), tail, tail]
  else none

/-- A character as far as it is read: its bytes, the latest first, and the bounds of those to come. -/
structure Partial where
  read : List Char := []
  tails : List (Nat × Nat) := []

/-- Stands for bytes that are not UTF-8. -/
def replacement : List Char := ['\xef', '\xbf', '\xbd']

def Partial.first (c : Char) : List Char × Partial :=
  match tails? c.toNat with
  | none => (replacement, {})
  | some [] => ((escape c).toList, {})
  | some tails => ([], ⟨[c], tails⟩)

/-- What a byte makes complete. One that does not go on with a character may begin another. -/
def Partial.next (p : Partial) (c : Char) : List Char × Partial :=
  match p.tails with
  | [] => first c
  | (low, high) :: tails =>
    if c.toNat < low ∨ high < c.toNat then (replacement ++ (first c).1, (first c).2)
    else if tails.isEmpty then ((c :: p.read).reverse, {})
    else ([], ⟨c :: p.read, tails⟩)

def quoted (p : Partial) : List Char → List Char
  | [] => if p.tails.isEmpty then [] else replacement
  | c :: cs => (p.next c).1 ++ quoted (p.next c).2 cs

def quote (s : String) : String := "\"" ++ String.ofList (quoted {} s.toList) ++ "\""

def zeros (n : Nat) : String := String.ofList (List.replicate n '0')

/-- An exponent with its sign and two digits or more. -/
def exponent (e : Int) : String :=
  (if e < 0 then "e-" else "e+") ++ (if e.natAbs < 10 then "0" else "") ++ toString e.natAbs

/-- Positional from `0.0001` up to fifteen places before the point, always with a
point; scientific beyond. -/
def decimal (d : Decimal) : String :=
  let digits := toString d.digits
  let point := (digits.length : Int) + d.exponent
  let cut (n : Nat) (mark : String) :=
    String.ofList (digits.toList.take n) ++ mark ++ String.ofList (digits.toList.drop n)
  if digits.length ≤ point ∧ point ≤ 15 then digits ++ zeros d.exponent.toNat ++ ".0"
  else if 0 < point ∧ point ≤ 15 then cut point.toNat "."
  else if -4 < point ∧ point ≤ 0 then "0." ++ zeros (-point).toNat ++ digits
  else cut 1 (if digits.length = 1 then "" else ".") ++ exponent (point - 1)

def float (x : Binary64) : String :=
  if 0x7ff0000000000000 ≤ x.magnitude then "null"
  else
    (if x.bits = x.magnitude then "" else "-") ++
      if x.magnitude = 0 then "0.0" else decimal (Binary.of x).shortest

/-- A new line at a depth of nesting. -/
def newline (depth : Nat) : String := "\n" ++ String.ofList (List.replicate (2 * depth) ' ')

/-- Lines between brackets, one deeper than the brackets themselves. -/
def bracket (left right : String) (depth : Nat) (lines : List String) : String :=
  if lines.isEmpty then left ++ right
  else
    left ++ newline (depth + 1) ++ String.intercalate ("," ++ newline (depth + 1)) lines ++ newline depth ++ right

mutual

/-- The text of a tree that stands at a depth of nesting. -/
def textAt (depth : Nat) : Tree → String
  | .null => "null"
  | .bool b => if b then "true" else "false"
  | .int n => toString n.val
  | .float x => float x
  | .text s => quote s
  | .bytes b subtype =>
    bracket "\x7b" "\x7d" depth
      ["\"bytes\": [" ++ String.intercalate ", " (b.map fun c => toString c.toNat) ++ "]",
        "\"subtype\": " ++ (subtype.map fun n => toString n.toNat).getD "null"]
  | .array items => bracket "[" "]" depth (itemTexts (depth + 1) items)
  | .object fields => bracket "\x7b" "\x7d" depth (fieldTexts (depth + 1) fields)
  | .discarded => "<discarded>"

def itemTexts (depth : Nat) : List Tree → List String
  | [] => []
  | x :: xs => textAt depth x :: itemTexts depth xs

def fieldTexts (depth : Nat) : List (String × Tree) → List String
  | [] => []
  | (k, x) :: fs => (quote k ++ ": " ++ textAt depth x) :: fieldTexts depth fs

end

end Json

def Tree.toJson (t : Tree) : String := Json.textAt 0 t

end TurnCodec
