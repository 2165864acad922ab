import Mathlib.Data.List.Basic
import Tbouncer.Base.PyText

/-!
# The tokens of a C file

As much of the lexical structure of C as tells the braces of a program from other
characters: spliced lines, comments, string literals, character constants, digraphs and
preprocessing directives, whose tokens are left out. Conditional groups are not
evaluated and macros not expanded. Every token carries the number of its line.
-/

namespace Tbouncer.Base.CLex
open Base

abbrev Located (α : Type) := ℕ × α

inductive CToken where
  | word (text : Text)
  | literal
  | punct (c : Char)
  deriving DecidableEq

def openBrace : CToken := .punct '\x7b'
def closeBrace : CToken := .punct '\x7d'
def openParen : CToken := .punct '('
def closeParen : CToken := .punct ')'

def backslash : Char := Char.ofNat 92
def doubleQuote : Char := Char.ofNat 34
def singleQuote : Char := Char.ofNat 39

def located (code : List Text) : List (Located Char) :=
  code.zipIdx.flatMap fun x => x.1.map fun c => (x.2, c)

/- A backslash at the end of a line joins it with the next. -/
def splice : List (Located Char) → List (Located Char)
  | [] => []
  | [x] => [x]
  | x :: y :: s =>
      if x.2 = backslash ∧ y.2 = '\n' then splice s else x :: splice (y :: s)

/-! ### The lexer, character by character -/

/- What the characters read last belong to. In `slash`, `less` and `percent` it depends
on the next character. -/
inductive Inside where
  | code
  | word (line : ℕ) (read : Text)
  | slash (line : ℕ)
  | less (line : ℕ)
  | percent (line : ℕ)
  | lineComment
  | blockComment (star : Bool)
  | string (escaped : Bool)
  | character (escaped : Bool)
  deriving DecidableEq

/- `fresh` as long as the line has only white space and comments. -/
structure Lexer where
  inside : Inside
  directive : Bool
  fresh : Bool
  tokens : List (Located CToken)

def Lexer.start : Lexer := ⟨.code, false, true, []⟩

def isWordChar (c : Char) : Bool :=
  c.isAlphanum || c == '_' || c == '$' || 128 ≤ c.toNat

def Lexer.emit (l : Lexer) (line : ℕ) (t : CToken) : Lexer :=
  { l with
    inside := .code
    fresh := false
    tokens := if l.directive then l.tokens else l.tokens ++ [(line, t)] }

def Lexer.newline (l : Lexer) : Lexer :=
  { l with inside := .code, directive := false, fresh := true }

def Lexer.hash (l : Lexer) (line : ℕ) : Lexer :=
  if l.fresh then { l with inside := .code, directive := true, fresh := false }
  else l.emit line (.punct '#')

/- A character that is not part of what stands before it. -/
def Lexer.next (l : Lexer) (x : Located Char) : Lexer :=
  if x.2 = '\n' then l.newline
  else if isSpace x.2 then { l with inside := .code }
  else if x.2 = '/' then { l with inside := .slash x.1 }
  else if x.2 = '<' then { l with inside := .less x.1 }
  else if x.2 = '%' then { l with inside := .percent x.1 }
  else if x.2 = '#' then l.hash x.1
  else if x.2 = doubleQuote then { l.emit x.1 .literal with inside := .string false }
  else if x.2 = singleQuote then { l.emit x.1 .literal with inside := .character false }
  else if isWordChar x.2 then { l with inside := .word x.1 [x.2], fresh := false }
  else l.emit x.1 (.punct x.2)

/- A literal that is not closed ends with its line. -/
def Lexer.quoted (l : Lexer) (quote : Char) (escaped : Bool) (again : Bool → Inside)
    (x : Located Char) : Lexer :=
  if x.2 = '\n' then l.newline
  else if escaped then { l with inside := again false }
  else if x.2 = quote then { l with inside := .code }
  else { l with inside := again (x.2 = backslash) }

def Lexer.step (l : Lexer) (x : Located Char) : Lexer :=
  match l.inside with
  | .code => l.next x
  | .word line read =>
      if isWordChar x.2 then { l with inside := .word line (read ++ [x.2]) }
      else (l.emit line (.word read)).next x
  | .slash line =>
      if x.2 = '/' then { l with inside := .lineComment }
      else if x.2 = '*' then { l with inside := .blockComment false }
      else (l.emit line (.punct '/')).next x
  | .less line =>
      if x.2 = '%' then l.emit line openBrace
      else (l.emit line (.punct '<')).next x
  | .percent line =>
      if x.2 = '>' then l.emit line closeBrace
      else if x.2 = ':' then l.hash line
      else (l.emit line (.punct '%')).next x
  | .lineComment => if x.2 = '\n' then l.newline else l
  | .blockComment star =>
      if star && x.2 = '/' then { l with inside := .code }
      else { l with inside := .blockComment (x.2 = '*') }
  | .string escaped => l.quoted doubleQuote escaped .string x
  | .character escaped => l.quoted singleQuote escaped .character x

/- The file ends like a line. -/
def tokens (code : List Text) : List (Located CToken) :=
  ((splice (located code) ++ [(code.length, '\n')]).foldl Lexer.step Lexer.start).tokens

/-! ### Function definitions -/

/- What follows the parenthesis that closes the `depth` open ones. -/
def afterParens : ℕ → List (Located CToken) → Option (List (Located CToken))
  | _, [] => none
  | depth, t :: ts =>
      if t.2 = openParen then afterParens (depth + 1) ts
      else if t.2 = closeParen then
        if depth ≤ 1 then some ts else afterParens (depth - 1) ts
      else afterParens depth ts

/- The line of the brace that closes the `depth` open ones. -/
def closingBrace : ℕ → List (Located CToken) → Option ℕ
  | _, [] => none
  | depth, t :: ts =>
      if t.2 = openBrace then closingBrace (depth + 1) ts
      else if t.2 = closeBrace then
        if depth ≤ 1 then some t.1 else closingBrace (depth - 1) ts
      else closingBrace depth ts

/- The tokens begin with `name`, its parameters and a body: the lines of the braces
of the body. A prototype has no body. -/
def bodyAt (name : Text) : List (Located CToken) → Option (ℕ × ℕ)
  | t :: u :: ts =>
      if t.2 = .word name ∧ u.2 = openParen then
        match afterParens 1 ts with
        | some (v :: body) =>
            if v.2 = openBrace then (closingBrace 1 body).map fun last => (v.1, last) else none
        | _ => none
      else none
  | _ => none

def depthAfter (depth : ℕ) (t : CToken) : ℕ :=
  if t = openBrace ∨ t = openParen then depth + 1
  else if t = closeBrace ∨ t = closeParen then depth - 1
  else depth

/- The first definition of `name` at file scope. -/
def findBody (name : Text) : ℕ → List (Located CToken) → Option (ℕ × ℕ)
  | _, [] => none
  | depth, t :: ts =>
      match if depth = 0 then bodyAt name (t :: ts) else none with
      | some span => some span
      | none => findBody name (depthAfter depth t.2) ts

/-- The lines of the opening and of the closing brace of the definition of `name`. -/
def definitionSpan (name : Text) (code : List Text) : Option (ℕ × ℕ) :=
  findBody name 0 (tokens code)

end Tbouncer.Base.CLex
