import Dataflow.Text.Hidden

/- A text between quotation marks, in which what cannot be shown is escaped: marks and
   backslashes by a backslash, the usual controls by a letter, and other characters by their
   number in braces. -/

namespace Dataflow.Text

def hexadecimal (c : Char) : List Char := Nat.toDigits 16 c.toNat

def escape (c : Char) : List Char :=
  match c with
  | '\x00' => ['\\', '0']
  | '\t' => ['\\', 't']
  | '\n' => ['\\', 'n']
  | '\r' => ['\\', 'r']
  | '"' => ['\\', '"']
  | '\\' => ['\\', '\\']
  | c => if isHidden c then ['\\', 'u', '\x7b'] ++ hexadecimal c ++ ['\x7d'] else [c]

/-- A text between quotation marks. -/
def quote (s : String) : String :=
  String.ofList ('"' :: s.toList.flatMap escape ++ ['"'])

end Dataflow.Text
