import Splice.Text.Printable
/-!
# Text — the quoted form shown in messages

Messages show a text between quotes, single ones unless the text holds a
single quote and no double one. The backslash and the chosen quote are
escaped, as is every code point that is not printable, so the shown form
is readable on one line and never ends early.
-/

namespace Splice

/-- The quote a text is shown between. -/
def Text.quoteMark (t : Text) : Char :=
  if t.contains (.char '\'') && !t.contains (.char '"') then '"' else '\''

/-- One code point of a shown text: an escape, or itself. -/
def CodePoint.shown (mark : Char) (c : CodePoint) : Text :=
  if c = .char mark ∨ c = .char '\\' then [.char '\\', c]
  else if c = .char '\n' then Text.ofString "\\n"
  else if c = .char '\r' then Text.ofString "\\r"
  else if c = .char '\t' then Text.ofString "\\t"
  else if c.isPrintable then [c]
  else if c.toNat < 0x100 then Text.ofString "\\x" ++ Text.hex 2 c.toNat
  else if c.toNat < 0x10000 then Text.ofString "\\u" ++ Text.hex 4 c.toNat
  else Text.ofString "\\U" ++ Text.hex 8 c.toNat

/-- A text between quotes, escaped for display. -/
def Text.quoted (t : Text) : Text :=
  let mark := t.quoteMark
  .char mark :: t.flatMap (CodePoint.shown mark) ++ [.char mark]

end Splice
