import ProcessForge.Bonita.Diagram
import ProcessForge.Expression.Marker

/-! Drafts of expressions, of references to business objects and of operators. -/

namespace ProcessForge.Bonita

open Xml

def objectRef (name : String) (dataType className : Option String) : Draft :=
  piece "referencedElements" "process:BusinessObjectData"
    [("name", some name), ("dataType", dataType), ("className", className)] []

def expressionPiece (pairs : List (String × Option String)) (content : List Draft) : Draft :=
  piece "expression" "expression:Expression" pairs content

def constant (value : String) : Draft :=
  expressionPiece [("name", some value), ("content", some value), ("returnTypeFixed", some "true")] []

def emptyExpression : Draft := expressionPiece [("content", some ""), ("returnTypeFixed", some "true")] []

def truth (value : Bool) : Draft :=
  let text := if value then "true" else "false"
  expressionPiece [("name", some text), ("content", some text), ("returnType", some "java.lang.Boolean"),
    ("returnTypeFixed", some "true")] []

/-- A whole number, or none. -/
def number (value : Option Int) : Draft :=
  let text := value.map fun n => toString n
  expressionPiece [("name", text), ("content", some (text.getD "")), ("returnType", some "java.lang.Integer"),
    ("returnTypeFixed", some "true")] []

def table : Draft := piece "expression" "expression:TableExpression" [] []

def list : Draft := piece "expression" "expression:ListExpression" [] []

def rootIdentifier? (path : List Char) : Option String :=
  match path with
  | c :: _ =>
    if c.isAlpha || c == '_' then
      some (String.ofList (path.takeWhile fun c => c.isAlphanum || c == '_'))
    else none
  | [] => none

/-- Script that reads a path of a business object. -/
def pathScript (path root : String) (object : BusinessObject) : Draft :=
  piece "referencedElements" "expression:Expression" [
    ("name", some path), ("content", some path), ("interpreter", some "GROOVY"),
    ("type", some "TYPE_READ_ONLY_SCRIPT")] [
    piece "referencedElements" "expression:Expression" [
      ("name", some root), ("content", some root), ("type", some "TYPE_VARIABLE"),
      ("returnType", some object.className)] [
      objectRef root (some object.dataType) (some object.className)]]

/-- The different paths of the interpolations of a text, in order. -/
def paths (value : String) : List (List Char) :=
  (Expression.interpolations value.toList).foldl (fun found body =>
    let path := Text.trimChars body
    if path.isEmpty || found.contains path then found else found ++ [path]) []

/-- A text with interpolations, and the scripts for those that begin with a business object. -/
def pattern (objects : OrderedMap BusinessObject) (value : Option String) : Draft :=
  let scripts := (paths (value.getD "")).filterMap fun path => do
    let root ← rootIdentifier? path
    let object ← objects.value? root
    return pathScript (String.ofList path) root object
  expressionPiece [("name", some "<pattern-expression>"), ("content", value), ("type", some "TYPE_PATTERN"),
    ("returnTypeFixed", some "true")] scripts

def operator (field inputType : String) : Draft :=
  piece "operator" "expression:Operator" [
    ("type", some "JAVA_METHOD"), ("expression", some ("set" ++ Text.capitalize field))] [
    .element (.plain "inputTypes") [] [.text inputType]]

end ProcessForge.Bonita
