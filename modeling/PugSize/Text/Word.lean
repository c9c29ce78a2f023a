import PugSize.Text.Identifier

/-!
The Unicode word class: letters, marks, decimal digits, connector punctuation and the two
join controls. It differs from `ID_Continue` by the ranges listed here.
-/

namespace PugSize.Text

namespace Word

/-- Word characters that continue no identifier: enclosing marks and circled letters. -/
def beyondIdentifiers : Ranges :=
  [(0x0488, 0x0489), (0x1ABE, 0x1ABE), (0x20DD, 0x20E0), (0x20E2, 0x20E4), (0x24B6, 0x24E9),
   (0x2E2F, 0x2E2F), (0xA670, 0xA672), (0x1F130, 0x1F149), (0x1F150, 0x1F169), (0x1F170, 0x1F189)]

/-- Characters that continue identifiers and are no word characters. -/
def identifiersOnly : Ranges :=
  [(0x00B7, 0x00B7), (0x0387, 0x0387), (0x1369, 0x1371), (0x19DA, 0x19DA), (0x2118, 0x2118),
   (0x212E, 0x212E), (0x309B, 0x309C), (0x30FB, 0x30FB), (0xFF65, 0xFF65)]

end Word

/-- A character of the Unicode word class. -/
def isWord (c : Char) : Bool :=
  if c.toNat < 128 then c.isAlphanum || c = '_'
  else Word.beyondIdentifiers.contains c ||
    (isIdContinue c && !Word.identifiersOnly.contains c)

end PugSize.Text
