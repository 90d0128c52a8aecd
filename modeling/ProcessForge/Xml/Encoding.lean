/-! Character encodings of documents. A byte order mark decides first; then the pattern of the first
    bytes; otherwise the declaration at the top of the document names the encoding. -/

namespace ProcessForge.Xml

/-- Encodings that documents can be read in. -/
inductive Encoding where
  | utf8
  | utf16 (bigEndian : Bool)
  | latin1
  | ascii
  | windows1252
  deriving DecidableEq, Repr, Inhabited

/-- The encoding of a declared name, in any letter case. -/
def Encoding.ofName? (name : String) : Option Encoding :=
  let name := String.ofList (name.toList.map Char.toUpper)
  if name ∈ ["UTF-8", "UTF8"] then some .utf8
  else if name ∈ ["ISO-8859-1", "ISO8859-1", "ISO_8859-1", "ISO-LATIN-1", "ISO LATIN 1", "LATIN1",
      "LATIN-1", "L1"] then some .latin1
  else if name ∈ ["ASCII", "US-ASCII"] then some .ascii
  else if name ∈ ["WINDOWS-1252", "CP1252", "MS-ANSI"] then some .windows1252
  else none

/-- Characters of the bytes 0x80 to 0x9F in the western Windows encoding; zero for none. -/
def windowsTable : List Nat := [
  0x20AC, 0, 0x201A, 0x0192, 0x201E, 0x2026, 0x2020, 0x2021, 0x02C6, 0x2030, 0x0160, 0x2039, 0x0152,
  0, 0x017D, 0, 0, 0x2018, 0x2019, 0x201C, 0x201D, 0x2022, 0x2013, 0x2014, 0x02DC, 0x2122, 0x0161,
  0x203A, 0x0153, 0, 0x017E, 0x0178]

def decodeUnits : List Nat → Option (List Char)
  | [] => some []
  | [u] => if 0xD800 ≤ u && u ≤ 0xDFFF then none else some [Char.ofNat u]
  | u :: v :: rest =>
    if 0xD800 ≤ u && u ≤ 0xDBFF then
      if 0xDC00 ≤ v && v ≤ 0xDFFF then
        (decodeUnits rest).map (Char.ofNat (0x10000 + (u - 0xD800) * 0x400 + (v - 0xDC00)) :: ·)
      else none
    else if 0xDC00 ≤ u && u ≤ 0xDFFF then none
    else (decodeUnits (v :: rest)).map (Char.ofNat u :: ·)

def pairUnits (bigEndian : Bool) : List Nat → Option (List Nat)
  | [] => some []
  | [_] => none
  | a :: b :: rest =>
    (pairUnits bigEndian rest).map ((if bigEndian then a * 256 + b else b * 256 + a) :: ·)

/-- Character of one byte in the western Windows encoding. -/
def windowsChar? (b : Nat) : Option Char :=
  if b < 0x80 || 0xA0 ≤ b then some (Char.ofNat b)
  else match windowsTable[b - 0x80]? with
    | some 0 => none
    | some point => some (Char.ofNat point)
    | none => none

def Encoding.decode? (e : Encoding) (bytes : ByteArray) : Option (List Char) :=
  let codes := bytes.toList.map UInt8.toNat
  match e with
  | .utf8 => (String.fromUTF8? bytes).map String.toList
  | .utf16 bigEndian => (pairUnits bigEndian codes).bind decodeUnits
  | .latin1 => some (codes.map Char.ofNat)
  | .ascii => codes.mapM fun b => if b < 0x80 then some (Char.ofNat b) else none
  | .windows1252 => codes.mapM windowsChar?

/-- The encoding that the first bytes show, and how many of them are a byte order mark. -/
def detect? (bytes : ByteArray) : Option (Encoding × Nat) :=
  match (bytes.toList.take 4).map UInt8.toNat with
  | 0xEF :: 0xBB :: 0xBF :: _ => some (.utf8, 3)
  | 0xFE :: 0xFF :: _ => some (.utf16 true, 2)
  | 0xFF :: 0xFE :: _ => some (.utf16 false, 2)
  | [0x3C, 0x00, 0x3F, 0x00] => some (.utf16 false, 0)
  | [0x00, 0x3C, 0x00, 0x3F] => some (.utf16 true, 0)
  | _ => none

end ProcessForge.Xml
