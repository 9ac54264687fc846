import Splice.Text.CodePoint
/-!
# Text — bytes as messages show them

Bytes are shown as the characters they stand for in ASCII, between quotes
and after the letter `b`. The quote is chosen and escaped as it is for a
text, and every byte that is no printable ASCII character is escaped.
-/

namespace Splice

/-- A sequence of bytes. -/
abbrev Bytes := List UInt8

namespace Bytes

/-- The quote that bytes are shown between. -/
def quoteMark (bs : Bytes) : Char := if bs.contains 0x27 && !bs.contains 0x22 then '"' else '\''

/-- One shown byte: an escape, or the character it stands for. -/
def shown (mark : Char) (b : UInt8) : Text :=
  let c := Char.ofNat b.toNat
  if c = mark ∨ c = '\\' then [.char '\\', .char c]
  else if c = '\t' then Text.ofString "\\t"
  else if c = '\n' then Text.ofString "\\n"
  else if c = '\r' then Text.ofString "\\r"
  else if 0x20 ≤ b ∧ b < 0x7f then [.char c]
  else Text.ofString "\\x" ++ Text.hex 2 b.toNat

/-- Bytes between quotes, escaped for display. -/
def quoted (bs : Bytes) : Text :=
  let mark := bs.quoteMark
  .char 'b' :: .char mark :: bs.flatMap (shown mark) ++ [.char mark]

end Bytes

end Splice
