-- SUMMARY: Tokens of a script: their kinds, their place in the text, and tests on them.
import TidyImports.Text.Basic

/-!
# Tokens

A token carries its own characters and the byte offset where they start. White
space belongs to no token.
-/

namespace TidyImports

/-- What a token is. -/
inductive Token.Kind where
  | ident
  | number
  /-- A quoted string; not closed when its line or the text ended first. -/
  | string (closed : Bool)
  /-- Literal text of a template, up to a backtick or to the `${` that opens a substitution. -/
  | template (opens : Bool)
  | regex
  | punct (c : Char)
  | lineComment
  | blockComment
  deriving DecidableEq, Repr, Inhabited

structure Token where
  kind : Token.Kind
  start : Nat
  text : Text
  deriving DecidableEq, Repr, Inhabited

namespace Token

/-- Offset just past the token. -/
def stop (t : Token) : Nat := t.start + t.text.size

def span (t : Token) : Span := ⟨t.start, t.stop⟩

def isComment (t : Token) : Bool :=
  match t.kind with
  | .lineComment | .blockComment => true
  | _ => false

/-- Anything but a comment. -/
def isCode (t : Token) : Bool := !t.isComment

def isIdent (t : Token) : Bool := t.kind == .ident

/-- Is the token the word `name`? -/
def isWord (t : Token) (name : String) : Bool := t.isIdent && t.text == name.toList

def isPunct (t : Token) (c : Char) : Bool := t.kind == .punct c

/-- Is the token a quoted string, closed or not? -/
def isString (t : Token) : Bool :=
  match t.kind with
  | .string _ => true
  | _ => false

/-- What stands between the quotes of a closed string. -/
def contents? (t : Token) : Option Text :=
  match t.kind with
  | .string true => some t.text.tail.dropLast
  | _ => none

/-- The token's characters as a name. -/
def name (t : Token) : String := String.ofList t.text

end Token

end TidyImports
