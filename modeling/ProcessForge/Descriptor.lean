import ProcessForge.Expression.Dialect
import ProcessForge.Json.Printer
import ProcessForge.Json.Reader
import ProcessForge.Work

/-! Descriptors of calls and e-mails. Every text of a descriptor is put into the dialect of an engine.
    In one dialect a body that is given as text is read first, so that its own texts are reached. -/

namespace ProcessForge.Descriptor

/-- The value that a body given as text holds: an object or an array. -/
def bodyValue? (s : String) : Except Failure (Option Json) :=
  let cs := Text.trimChars s.toList
  match cs with
  | '\x7b' :: _ | '[' :: _ =>
    match Json.parse (String.ofList cs) with
    | .ok v => .ok (some v)
    | .error .malformed => .ok none
    | .error .hugeNumber => .error .hugeNumber
  | _ => .ok none

/-- The value of a member before its texts are resolved. -/
def openBody (dialect : Dialect) (name : String) (v : Json) : Except Failure Json :=
  match dialect, v with
  | .bonita, .str s =>
    if name == "body" then do return (← bodyValue? s).getD v else .ok v
  | _, _ => .ok v

mutual

/-- Resolves the texts of a value; `fuel` bounds the nesting, bodies given as text included. -/
def resolveWithin (dialect : Dialect) : Nat → Json → Except Failure Json
  | 0, v => .ok v
  | _ + 1, .str s => .ok (.str (Expression.descriptorText dialect s))
  | fuel + 1, .arr items => do return .arr (← resolveItems dialect fuel items)
  | fuel + 1, .obj members => do return .obj (← resolveMembers dialect fuel members)
  | _ + 1, v => .ok v

def resolveItems (dialect : Dialect) : Nat → List Json → Except Failure (List Json)
  | 0, items => .ok items
  | _ + 1, [] => .ok []
  | fuel + 1, item :: rest => do
    let item ← resolveWithin dialect fuel item
    let rest ← resolveItems dialect fuel rest
    return item :: rest

def resolveMembers (dialect : Dialect) : Nat → List (String × Json) → Except Failure (List (String × Json))
  | 0, members => .ok members
  | _ + 1, [] => .ok []
  | fuel + 1, (name, v) :: rest => do
    let v ← openBody dialect name v
    let v ← resolveWithin dialect fuel v
    let rest ← resolveMembers dialect fuel rest
    return (name, v) :: rest

end

def resolve (dialect : Dialect) (v : Json) : Except Failure Json := resolveWithin dialect (2 * v.weight + 1) v

/-- Descriptor files with a change made to each. One that is no JSON is reported and left out. -/
def changeFiles (change : Json → Except Failure Json) : OrderedMap String → Work (OrderedMap String)
  | [] => return []
  | (file, content) :: rest => do
    match Json.parse content with
    | .error .malformed =>
      Work.note (.unreadableDescriptor file)
      changeFiles change rest
    | .error .hugeNumber => throw .hugeNumber
    | .ok v =>
      let v ← Work.ofExcept (change v)
      let rest ← changeFiles change rest
      return (file, v.render .indented) :: rest

def resolveFiles (dialect : Dialect) (files : OrderedMap String) : Work (OrderedMap String) :=
  changeFiles (resolve dialect) files

def resolveNamed (dialect : String) (v : Json) : Except Failure Json :=
  match Dialect.ofName? dialect with
  | some dialect => resolve dialect v
  | none => .error .unknownDialect

end ProcessForge.Descriptor
