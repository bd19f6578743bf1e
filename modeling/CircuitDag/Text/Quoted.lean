import CircuitDag.Text.Unprintable

/-!
# Quoted text

Strings inside messages stand in double quotes. Quotes, backslashes and the common control
characters get short escapes, other characters that cannot be shown get their code point.
-/

set_option autoImplicit false

namespace CircuitDag.Text

def quoteChar (c : Char) : List Char :=
  match c with
  | '\x00' => ['\\', '0']
  | '\t' => ['\\', 't']
  | '\r' => ['\\', 'r']
  | '\n' => ['\\', 'n']
  | '"' => ['\\', '"']
  | '\\' => ['\\', '\\']
  | c =>
      if isUnprintable c then
        ['\\', 'u', '\x7b'] ++ Nat.toDigits 16 c.toNat ++ ['\x7d']
      else [c]

def quote (s : String) : String := "\"" ++ String.ofList (s.toList.flatMap quoteChar) ++ "\""

end CircuitDag.Text
