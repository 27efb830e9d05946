import Relabel.Text.Hex

/-!
# Quoted text

The JSON form of a text, which is also a string literal of the emitted programs: quotes,
backslashes and control characters are escaped, everything else stands for itself.
-/

namespace Relabel.Text

/-- One character inside quotes. -/
def quoteChar (c : Char) : List Char :=
  match c with
  | '"' => ['\\', '"']
  | '\\' => ['\\', '\\']
  | '\n' => ['\\', 'n']
  | '\r' => ['\\', 'r']
  | '\t' => ['\\', 't']
  | '\x08' => ['\\', 'b']
  | '\x0c' => ['\\', 'f']
  | c => if c.toNat < 32 then '\\' :: 'u' :: '0' :: '0' :: hexByte c.toNat else [c]

/-- A text in double quotes. -/
def quoted (s : String) : String :=
  .ofList ('"' :: s.toList.flatMap quoteChar ++ ['"'])

end Relabel.Text
