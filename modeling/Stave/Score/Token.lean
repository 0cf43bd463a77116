/-!
# Tokens of the notation
-/

namespace Stave.Score

inductive Token where
  | number
  | noteName
  | rest
  | multiply
  | divide
  | dot
  | openGroup
  | closeGroup
  | openParallel
  | closeParallel
  | up
  | down
  | accent
  | staccato
  | tenuto
  | comma
  | comment
deriving DecidableEq

/-- A coarse classification of tokens. -/
inductive TokenKind where
  | number
  | noteName
  | rest
  | durationMark
  | delimiter
  | modifier
  | separator
  | comment
deriving DecidableEq

namespace Token

/-- All tokens, in the order in which they are listed to users. -/
def all : List Token :=
  [number, noteName, rest, multiply, divide, dot, openGroup, closeGroup, openParallel, closeParallel,
    up, down, accent, staccato, tenuto, comma, comment]

def kind : Token → TokenKind
  | number => .number
  | noteName => .noteName
  | rest => .rest
  | multiply | divide | dot => .durationMark
  | openGroup | closeGroup | openParallel | closeParallel => .delimiter
  | up | down | accent | staccato | tenuto => .modifier
  | comma => .separator
  | comment => .comment

/-- The character of a token that is always the same one. -/
def symbol? : Token → Option Char
  | rest => some '~'
  | multiply => some '@'
  | divide => some '/'
  | dot => some '.'
  | openGroup => some '('
  | closeGroup => some ')'
  | openParallel => some '['
  | closeParallel => some ']'
  | up => some '^'
  | down => some '_'
  | accent => some '!'
  | staccato => some '\x27'
  | tenuto => some '='
  | comma => some ','
  | number | noteName | comment => none

/-- The token that a character is by itself. -/
def ofSymbol? (c : Char) : Option Token := all.find? fun t => t.symbol? == some c

instance : ToString Token where
  toString
    | number => "number"
    | noteName => "note name"
    | comment => "comment"
    | t => String.ofList t.symbol?.toList

/-- Whether an element can begin with this token. -/
def startsElement : Token → Bool
  | number | noteName | rest | openGroup | openParallel => true
  | _ => false

end Token

end Stave.Score
