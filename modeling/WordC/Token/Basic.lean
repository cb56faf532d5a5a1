import WordC.Position

/-!
# Tokens

The words of the language: punctuation and operator `Mark`s, `Keyword`s, identifiers and literals.
A token keeps the text it was read from, without the quotes of a quoted literal, and the position
of its first character.

* `Mark.lexeme`, `Keyword.lexeme`: the spelling in a source
* `Mark.name`, `Keyword.name`, `Token.Kind.name`: the name in dumps and in messages
* `Token.make`: a word is a keyword if it is spelled like one
-/

namespace WordC

/-- Punctuation and operators. -/
inductive Mark
  | barBar | ampAmp | bangEqual | equalEqual | greaterEqual | lessEqual
  | semicolon | star | comma | openParen | closeParen | openBracket | closeBracket
  | openBrace | closeBrace | dot | less | greater | question | plus | minus | slash
  | bar | amp | bang | equal
deriving DecidableEq, Repr

namespace Mark

/-- The mark as it is named in dumps and messages. -/
def name : Mark → String
  | barBar => "PipePipe"
  | ampAmp => "AmpasandAmp"
  | bangEqual => "ExclEqual"
  | equalEqual => "EqualEqual"
  | greaterEqual => "RAngleEqual"
  | lessEqual => "LAngleEqual"
  | semicolon => "Semicolon"
  | star => "Star"
  | comma => "Comma"
  | openParen => "LParen"
  | closeParen => "RParen"
  | openBracket => "LBracket"
  | closeBracket => "RBracket"
  | openBrace => "LCurly"
  | closeBrace => "RCurly"
  | dot => "Period"
  | less => "LAngle"
  | greater => "RAngle"
  | question => "Question"
  | plus => "Plus"
  | minus => "Minus"
  | slash => "Slash"
  | bar => "Pipe"
  | amp => "Ampasand"
  | bang => "Excl"
  | equal => "Equal"

/-- The spelling of a mark. -/
def lexeme : Mark → String
  | barBar => "||"
  | ampAmp => "&&"
  | bangEqual => "!="
  | equalEqual => "=="
  | greaterEqual => ">="
  | lessEqual => "<="
  | semicolon => ";"
  | star => "*"
  | comma => ","
  | openParen => "("
  | closeParen => ")"
  | openBracket => "["
  | closeBracket => "]"
  | openBrace => "\x7b"
  | closeBrace => "\x7d"
  | dot => "."
  | less => "<"
  | greater => ">"
  | question => "?"
  | plus => "+"
  | minus => "-"
  | slash => "/"
  | bar => "|"
  | amp => "&"
  | bang => "!"
  | equal => "="

/-- All marks. -/
def all : List Mark :=
  [barBar, ampAmp, bangEqual, equalEqual, greaterEqual, lessEqual, semicolon, star, comma,
   openParen, closeParen, openBracket, closeBracket, openBrace, closeBrace, dot, less, greater,
   question, plus, minus, slash, bar, amp, bang, equal]

/-- The marks written with two characters. -/
def ofPair? : Char → Char → Option Mark
  | '|', '|' => some barBar
  | '&', '&' => some ampAmp
  | '!', '=' => some bangEqual
  | '=', '=' => some equalEqual
  | '>', '=' => some greaterEqual
  | '<', '=' => some lessEqual
  | _, _ => none

/-- The marks written with one character. -/
def ofChar? : Char → Option Mark
  | ';' => some semicolon
  | '*' => some star
  | ',' => some comma
  | '(' => some openParen
  | ')' => some closeParen
  | '[' => some openBracket
  | ']' => some closeBracket
  | '\x7b' => some openBrace
  | '\x7d' => some closeBrace
  | '.' => some dot
  | '<' => some less
  | '>' => some greater
  | '?' => some question
  | '+' => some plus
  | '-' => some minus
  | '/' => some slash
  | '|' => some bar
  | '&' => some amp
  | '!' => some bang
  | '=' => some equal
  | _ => none

end Mark

/-- The reserved words. -/
inductive Keyword
  | returnWord | intWord | charWord | voidWord | ifWord | whileWord | forWord | constWord
  | trueWord | falseWord | elseWord
deriving DecidableEq, Repr

namespace Keyword

/-- The spelling of a reserved word. -/
def lexeme : Keyword → String
  | returnWord => "return"
  | intWord => "int"
  | charWord => "char"
  | voidWord => "void"
  | ifWord => "if"
  | whileWord => "while"
  | forWord => "for"
  | constWord => "const"
  | trueWord => "true"
  | falseWord => "false"
  | elseWord => "else"

/-- The reserved word as it is named in dumps and messages. -/
def name : Keyword → String
  | returnWord => "KwReturn"
  | intWord => "KwInt"
  | charWord => "KwChar"
  | voidWord => "KwVoid"
  | ifWord => "KwIf"
  | whileWord => "KwWhile"
  | forWord => "KwFor"
  | constWord => "KwConst"
  | trueWord => "KwTrue"
  | falseWord => "KwFalse"
  | elseWord => "KwElse"

/-- All reserved words. -/
def all : List Keyword :=
  [returnWord, intWord, charWord, voidWord, ifWord, whileWord, forWord, constWord, trueWord,
   falseWord, elseWord]

/-- The reserved word with the given spelling. -/
def ofLexeme? (text : String) : Option Keyword := all.find? fun k => k.lexeme = text

theorem lexeme_of_ofLexeme? {text : String} {k : Keyword} (h : ofLexeme? text = some k) :
    k.lexeme = text := by
  simpa using List.find?_some h

end Keyword

/-- What sort of word a token is; literals of one word come with their value. -/
inductive Token.Kind
  | mark (m : Mark)
  | keyword (k : Keyword)
  | identifier
  | number (value : UInt16)
  | text
  | character (code : UInt16)
deriving DecidableEq, Repr

namespace Token.Kind

/-- The kind as it is named in dumps, without the value. -/
def name : Token.Kind → String
  | mark m => m.name
  | keyword k => k.name
  | identifier => "Ident"
  | number _ => "Number"
  | text => "Text"
  | character _ => "Char"

/-- The kind in words. -/
def describe : Token.Kind → String
  | identifier => "identifier"
  | number _ => "number"
  | text => "string literal"
  | character _ => "character literal"
  | kind => kind.name

end Token.Kind

/-- A word of the source. -/
structure Token where
  kind : Token.Kind
  text : String
  pos : Position
deriving DecidableEq, Repr

namespace Token

/-- A token of the given kind, except that an identifier spelled like a keyword is that keyword. -/
def make (kind : Kind) (text : String) (pos : Position) : Token :=
  match kind with
  | .identifier => ⟨((Keyword.ofLexeme? text).map Kind.keyword).getD .identifier, text, pos⟩
  | kind => ⟨kind, text, pos⟩

/-- Does the token begin a declaration? -/
def startsDeclaration (t : Token) : Bool :=
  match t.kind with
  | .keyword .intWord | .keyword .charWord | .keyword .voidWord | .keyword .constWord => true
  | _ => false

end Token

end WordC
