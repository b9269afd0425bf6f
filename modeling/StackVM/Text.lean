/-
  StackVM.Text — text as bytes.

  Sources, labels and file names are whatever bytes their author wrote, valid UTF-8 or not, so a text is
  a list of bytes. The classes of characters are those of ASCII: a byte above 127 is never a letter, a
  digit or a blank.
-/

namespace StackVM

abbrev Text := List UInt8

namespace Text

/-- The UTF-8 bytes of a string. -/
def ofString (s : String) : Text := s.toList.flatMap String.utf8EncodeChar

/-- The byte of an ASCII character. -/
def byte (c : Char) : UInt8 := c.toUInt8

/-! ## Classes of characters -/

def isDigit (b : UInt8) : Bool := byte '0' ≤ b && b ≤ byte '9'

def isUpper (b : UInt8) : Bool := byte 'A' ≤ b && b ≤ byte 'Z'

def isLower (b : UInt8) : Bool := byte 'a' ≤ b && b ≤ byte 'z'

def isLetter (b : UInt8) : Bool := isUpper b || isLower b

def isAlphanumeric (b : UInt8) : Bool := isLetter b || isDigit b

/-- Space, tab, line feed, vertical tab, form feed, carriage return. -/
def isBlank (b : UInt8) : Bool := b == byte ' ' || (9 ≤ b && b ≤ 13)

def lower (b : UInt8) : UInt8 := if isUpper b then b + 32 else b

/-! ## Numbers, columns, quotes -/

def decimal (n : Nat) : Text := ofString (toString n)

/-- Lower-case hexadecimal digits, without a mark in front. -/
def hexadecimal (n : Nat) : Text := ofString (String.ofList (Nat.toDigits 16 n))

/-- Right-aligned in a column; a text that is too wide is kept whole. -/
def padStart (width : Nat) (fill : UInt8) (t : Text) : Text :=
  List.replicate (width - t.length) fill ++ t

/-- Left-aligned in a column; a text that is too wide is kept whole. -/
def padEnd (width : Nat) (fill : UInt8) (t : Text) : Text :=
  t ++ List.replicate (width - t.length) fill

def quoted (t : Text) : Text := ofString "'" ++ t ++ ofString "'"

/-- What a reader of zero-terminated text sees: all before the first zero byte. -/
def untilZero (t : Text) : Text := t.takeWhile (· != 0)

/-! ## Lines -/

/-- The lines of a text, cut at line feeds only. A line feed at the very end starts no further line. -/
def lines : Text → List Text
  | [] => []
  | b :: rest =>
    if b = byte '\n' then [] :: lines rest
    else match lines rest with
      | [] => [[b]]
      | l :: ls => (b :: l) :: ls

end Text

end StackVM
