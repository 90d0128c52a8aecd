import ProcessForge.Text.Range

/-! Characters of XML: those a document may hold, its blanks, and those that make up names. -/

namespace ProcessForge.Xml

def isAllowed (c : Char) : Bool :=
  let point := c.toNat
  point == 9 || point == 10 || point == 13 || (32 ≤ point && point != 0xFFFE && point != 0xFFFF)

def isAllowedText (s : String) : Bool := s.toList.all isAllowed

def isSpace (c : Char) : Bool := c == ' ' || c == '\t' || c == '\n' || c == '\r'

/-- Ranges of the characters outside ASCII with which a name may begin. -/
def nameStartRanges : List (Nat × Nat) := [
  (0xC0, 0xD6), (0xD8, 0xF6), (0xF8, 0x2FF), (0x370, 0x37D), (0x37F, 0x1FFF), (0x200C, 0x200D),
  (0x2070, 0x218F), (0x2C00, 0x2FEF), (0x3001, 0xD7FF), (0xF900, 0xFDCF), (0xFDF0, 0xFFFD),
  (0x10000, 0xEFFFF)]

/-- Whether a name without colon may begin with the character. -/
def isNameStart (c : Char) : Bool :=
  if c.toNat < 128 then c.isAlpha || c == '_' else Text.inRanges nameStartRanges c.toNat

/-- Whether a name without colon may go on with the character. -/
def isNamePart (c : Char) : Bool := isNameStart c || c.isDigit || c == '-' || c == '.' || c.toNat == 0xB7
    || (0x300 ≤ c.toNat && c.toNat ≤ 0x36F) || c.toNat == 0x203F || c.toNat == 0x2040

def isNcName (s : String) : Bool :=
  match s.toList with
  | [] => false
  | c :: rest => isNameStart c && rest.all isNamePart

end ProcessForge.Xml
