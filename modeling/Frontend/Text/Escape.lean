/-!
# Escaped characters

Characters and bytes that cannot be shown as they are have an escaped form: a letter after a
backslash for the usual white space, the quotes and the backslash itself, and the hexadecimal code
for whatever else is not a printable ASCII character.  The code of a character stands in braces and
has as many digits as it needs; the code of a byte always has two digits.
-/

namespace Frontend.Escape

/-- What stands after the backslash for the characters that have an escape of their own. -/
def letter? (c : Char) : Option Char :=
  if c = '\t' then some 't'
  else if c = '\r' then some 'r'
  else if c = '\n' then some 'n'
  else if c = '\'' ∨ c = '"' ∨ c = '\\' then some c
  else none

/-- The printable ASCII characters, from the space to the tilde. -/
def isPrintable (c : Char) : Bool := decide (0x20 ≤ c.toNat ∧ c.toNat ≤ 0x7e)

def hex (n : Nat) : String := String.ofList (Nat.toDigits 16 n)

/-- The two lower case hexadecimal digits of a byte. -/
def hexPair (b : UInt8) : String :=
  String.ofList [Nat.digitChar (b.toNat / 16), Nat.digitChar (b.toNat % 16)]

/-- The text of a character whose escape, if it is not printable, is `code`. -/
def escapeWith (code : String) (c : Char) : String :=
  match letter? c with
  | some l => String.ofList ['\\', l]
  | none => if isPrintable c then String.singleton c else code

def char (c : Char) : String := escapeWith ("\\u\x7b" ++ hex c.toNat ++ "\x7d") c

def byte (b : UInt8) : String := escapeWith ("\\x" ++ hexPair b) (Char.ofNat b.toNat)

end Frontend.Escape
