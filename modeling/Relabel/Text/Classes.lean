import Relabel.Text.Digits
import Relabel.Text.Letters
import Relabel.Text.Marks

/-!
# Character classes

Blanks, decimal digits, word characters and the two identifier classes. Each is the property of
the whole code space; the ASCII members are tested first.
-/

namespace Relabel.Text

/-- The code points with the property `White_Space`. -/
def blanks : CodeSet :=
  [(0x09, 0x0d), (0x20, 0x20), (0x85, 0x85), (0xa0, 0xa0), (0x1680, 0x1680), (0x2000, 0x200a),
    (0x2028, 0x2029), (0x202f, 0x202f), (0x205f, 0x205f), (0x3000, 0x3000)]

/-- White space in any script. -/
def isBlank (c : Char) : Bool :=
  blanks.contains c

/-- The five ASCII characters that separate the parts of a tag. -/
def isAsciiBlank (c : Char) : Bool :=
  c == ' ' || c == '\t' || c == '\n' || c == '\x0c' || c == '\r'

def isAsciiLetter (c : Char) : Bool :=
  ('a' ≤ c && c ≤ 'z') || ('A' ≤ c && c ≤ 'Z')

def isAsciiDigit (c : Char) : Bool :=
  '0' ≤ c && c ≤ '9'

/-- A decimal digit in any script. -/
def isDigit (c : Char) : Bool :=
  isAsciiDigit c || (c.toNat ≥ 128 && digits.contains c)

/-- A character that may start an identifier, `$` and `_` apart. -/
def isIdStart (c : Char) : Bool :=
  isAsciiLetter c || (c.toNat ≥ 128 && letters.contains c)

/-- A character that may continue an identifier, `$` and the joiners apart. -/
def isIdContinue (c : Char) : Bool :=
  isIdStart c || isAsciiDigit c || c == '_' || (c.toNat ≥ 128 && marks.contains c)

/-- Word characters that continue no identifier: joiners, enclosing marks, circled letters. -/
def wordOnly : CodeSet :=
  [(0x0488, 0x0489), (0x1abe, 0x1abe), (0x200c, 0x200d), (0x20dd, 0x20e0), (0x20e2, 0x20e4),
    (0x24b6, 0x24e9), (0x2e2f, 0x2e2f), (0xa670, 0xa672), (0x1f130, 0x1f149), (0x1f150, 0x1f169),
    (0x1f170, 0x1f189)]

/-- Identifier characters that are neither letters, marks, digits nor connectors. -/
def idOnly : CodeSet :=
  [(0x00b7, 0x00b7), (0x0387, 0x0387), (0x1369, 0x1371), (0x19da, 0x19da), (0x2118, 0x2118),
    (0x212e, 0x212e), (0x309b, 0x309c), (0x30fb, 0x30fb), (0xff65, 0xff65)]

/-- A word character: alphabetic, mark, decimal digit, connector or joiner. -/
def isWord (c : Char) : Bool :=
  (isIdContinue c && !idOnly.contains c) || wordOnly.contains c

/-- ASCII letters become lower case; every other character stays. -/
def lowerAscii (c : Char) : Char :=
  if 'A' ≤ c && c ≤ 'Z' then Char.ofNat (c.toNat + 32) else c

/-- ASCII letters become upper case; every other character stays. -/
def upperAscii (c : Char) : Char :=
  if 'a' ≤ c && c ≤ 'z' then Char.ofNat (c.toNat - 32) else c

/-- A text with its ASCII letters in lower case. -/
def lowercase (s : String) : String :=
  .ofList (s.toList.map lowerAscii)

/-- Equality of texts that ignores the case of ASCII letters. -/
def sameLetters (s t : String) : Bool :=
  s.toList.map lowerAscii == t.toList.map lowerAscii

end Relabel.Text
