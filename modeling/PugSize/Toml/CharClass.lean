/-!
Classes of characters in configuration files.
-/

namespace PugSize.Toml

def isSpace (c : Char) : Bool := c == ' ' || c == '\t'

/-- Control characters other than the tab. -/
def isControl (c : Char) : Bool := (c.toNat < 32 && c != '\t') || c.toNat == 127

/-- A character that a key may have without quotation marks. -/
def isBareKeyChar (c : Char) : Bool := c.isAlphanum || c == '_' || c == '-'

end PugSize.Toml
