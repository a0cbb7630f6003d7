/-!
# Bytes shown as text

A byte is shown as the character with its value.  Printable characters stand for themselves, the
quotes, the backslash and the three line layout characters are written with a backslash, and
everything else by its hexadecimal code.
-/

namespace ErrorFree

namespace Text

/-- The visible form of a byte. -/
def escapeByte (byte : UInt8) : String :=
  match Char.ofNat byte.toNat with
  | '\t' => "\\t"
  | '\r' => "\\r"
  | '\n' => "\\n"
  | '\'' => "\\'"
  | '"' => "\\\""
  | '\\' => "\\\\"
  | c =>
      if 0x20 ≤ c.toNat ∧ c.toNat ≤ 0x7e then c.toString
      else "\\u\x7b" ++ String.ofList (Nat.toDigits 16 c.toNat) ++ "\x7d"

end Text

end ErrorFree
