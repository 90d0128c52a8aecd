import ProcessForge.Text.Blank
import ProcessForge.Xml.Tree

/-! Printer of documents. Nested elements go on lines of their own, two blanks per level, except in an
    element that has text: it is written as it is, with everything below it. Blank lines are taken out
    of the finished text. -/

namespace ProcessForge.Xml

def escapeTextChar (c : Char) : String :=
  match c with
  | '&' => "&amp;"
  | '<' => "&lt;"
  | '>' => "&gt;"
  | '\r' => "&#13;"
  | c => c.toString

def escapeValueChar (c : Char) : String :=
  match c with
  | '"' => "&quot;"
  | '\t' => "&#9;"
  | '\n' => "&#10;"
  | c => escapeTextChar c

def escapeText (s : String) : String := String.join (s.toList.map escapeTextChar)

def escapeValue (s : String) : String := String.join (s.toList.map escapeValueChar)

def Namespace.render (space : Namespace) : String :=
  let name := match space.short with
    | some short => "xmlns:" ++ short
    | none => "xmlns"
  " " ++ name ++ "=\"" ++ escapeValue space.uri ++ "\""

def Attribute.render (a : Attribute) : String := " " ++ a.name.written ++ "=\"" ++ escapeValue a.value ++ "\""

/-- Name, declarations and attributes of a tag. -/
def Tag.render (tag : Tag) : String := tag.name.written ++ String.join (tag.declared.map Namespace.render)
    ++ String.join (tag.attributes.map Attribute.render)

/-- Blanks in front of a line; deeper levels than thirty are not told apart. -/
def indentation (level : Nat) : String := String.ofList (List.replicate (2 * min level 30) ' ')

mutual

/-- A node at a level, on lines of its own if `lined`. -/
def Node.render (lined : Bool) (level : Nat) : Node → String
  | .text s => escapeText s
  | .comment s => "<!--" ++ s ++ "-->"
  | .instruction target none => "<?" ++ target ++ "?>"
  | .instruction target (some body) => "<?" ++ target ++ " " ++ body ++ "?>"
  | .element tag [] => "<" ++ tag.render ++ "/>"
  | .element tag (first :: rest) =>
    let inner := lined && !(first.isText || rest.any Node.isText)
    "<" ++ tag.render ++ ">" ++ (if inner then "\n" else "")
      ++ first.renderLine inner (level + 1) ++ renderLines inner (level + 1) rest
      ++ (if inner then indentation level else "") ++ "</" ++ tag.name.written ++ ">"

def Node.renderLine (lined : Bool) (level : Nat) (node : Node) : String :=
  (if lined then indentation level else "") ++ node.render lined level ++ (if lined then "\n" else "")

def renderLines (lined : Bool) (level : Nat) : List Node → String
  | [] => ""
  | node :: rest => node.renderLine lined level ++ renderLines lined level rest

end

/-- A text in double quotes, or in single ones if it has a double quote. -/
def quoted (s : String) : String :=
  if s.toList.contains '"' then "'" ++ s ++ "'" else "\"" ++ s ++ "\""

def Doctype.render (d : Doctype) : String :=
  let external := match d.publicId, d.systemId with
    | some pub, some system => " PUBLIC \"" ++ pub ++ "\" " ++ quoted system
    | some pub, none => " PUBLIC \"" ++ pub ++ "\""
    | none, some system => " SYSTEM " ++ quoted system
    | none, none => ""
  "<!DOCTYPE " ++ d.name ++ external
    ++ (if d.declarations.isEmpty then ">\n" else " [\n" ++ String.join d.declarations ++ "]>\n")

/-- A document before its blank lines are taken out. The document type is left out unless it names
    the root. -/
def Document.renderRaw (standalone : Option Bool) (d : Document) : String :=
  let alone := match standalone with
    | none => ""
    | some true => " standalone=\"yes\""
    | some false => " standalone=\"no\""
  let doctype := match d.doctype with
    | some t => if t.name == d.root.tag.name.stem then t.render else ""
    | none => ""
  "<?xml version=\"" ++ d.version ++ "\" encoding=\"UTF-8\"" ++ alone ++ "?>\n"
    ++ String.join (d.preface.map fun node => node.render true 0 ++ "\n")
    ++ doctype
    ++ String.join (d.before.map fun node => node.render true 0 ++ "\n")
    ++ d.root.node.render true 0
    ++ String.join (d.after.map fun node => "\n" ++ node.render true 0) ++ "\n"

def Document.render (d : Document) (standalone : Option Bool := none) : String :=
  Text.dropBlankLines (d.renderRaw standalone)

end ProcessForge.Xml
