import WordC.Token.Numeral

/-!
# Text as a YAML scalar

A text is written plain where a reader takes it for the same text, and in quotes where it would
read as something else:

* in double quotes, with escapes, if it has a character that is not printable;
* in single quotes, themselves doubled, if it reads as null, as a truth value or as a number, or if
  it has characters that mean something at that place;
* plain otherwise.
-/

namespace WordC.Scalar

/-- May the character be written as it is? -/
def isPrintable (c : Char) : Bool :=
  let n := c.toNat
  (0x20 ≤ n && n ≤ 0x7E) || (0xA0 ≤ n && n ≤ 0xD7FF) ||
  (0xE000 ≤ n && n ≤ 0xFFFD && n ≠ 0xFEFF) || 0x10000 ≤ n

/-! ### Texts that read as something else -/

/-- The spellings of null and of the truth values. -/
def wordSpellings : List String :=
  ["~", "null", "Null", "NULL", "true", "True", "TRUE", "false", "False", "FALSE"]

/-- A text without its sign, and whether that was a minus. -/
def splitSign : List Char → Bool × List Char
  | '+' :: cs => (false, cs)
  | '-' :: cs => (true, cs)
  | cs => (false, cs)

/-- The value of digits with or without a mark for their radix. -/
def magnitude? : List Char → Option Nat
  | '0' :: 'x' :: digits => Numeral.digits? 16 digits
  | '0' :: 'o' :: digits => Numeral.digits? 8 digits
  | '0' :: 'b' :: digits => Numeral.digits? 2 digits
  | digits => Numeral.digits? 10 digits

/-- Does the text read as an integer of 128 bits? -/
def readsAsInteger (cs : List Char) : Bool :=
  match splitSign cs with
  | (false, digits) => (magnitude? digits).any (· < Nat.pow 2 128)
  | (true, digits) => (magnitude? digits).any (· ≤ Nat.pow 2 127)

/-- Is the text, after a sign, a zero and further digits? -/
def hasLeadingZero (cs : List Char) : Bool :=
  match (splitSign cs).2 with
  | '0' :: d :: ds => (d :: ds).all Char.isDigit
  | _ => false

/-- The decimal exponent that a text ends with; nothing stands for zero. -/
def exponent? : List Char → Option Int
  | [] => some 0
  | e :: cs =>
    if e = 'e' ∨ e = 'E' then
      match splitSign cs with
      | (negative, digits) =>
        (Numeral.digits? 10 digits).map fun n => if negative then -(n : Int) else n
    else none

/-- The digits of a decimal fraction without its sign and the power of ten that its last digit
counts. -/
def decimal? (cs : List Char) : Option (List Char × Int) :=
  let whole := cs.takeWhile Char.isDigit
  let behind := cs.dropWhile Char.isDigit
  let part := match behind with
    | '.' :: more => more.takeWhile Char.isDigit
    | _ => []
  let tail := match behind with
    | '.' :: more => more.dropWhile Char.isDigit
    | _ => behind
  if whole.isEmpty && part.isEmpty then none
  else (exponent? tail).map fun e => (whole ++ part, e - part.length)

/-- The least number that no double is nearest to: half a unit above the greatest double. -/
def doubleLimit : Nat := Nat.pow 2 1024 - Nat.pow 2 970

/-- Is the number `m · 10 ^ e` nearest to a double? Its number of digits settles it, unless it is
that of the limit. -/
def fitsDouble (digits : List Char) (e : Int) : Bool :=
  let significant := digits.dropWhile (· = '0')
  let m := (Numeral.digits? 10 significant).getD 0
  let places : Int := significant.length + e
  if significant.isEmpty || places < 309 then true
  else if 309 < places then false
  else if 0 ≤ e then m * Nat.pow 10 e.toNat < doubleLimit
  else m < doubleLimit * Nat.pow 10 (-e).toNat

/-- The spellings of infinity, which may have a sign in front. -/
def infinitySpellings : List String := [".inf", ".Inf", ".INF"]

/-- The spellings of what is not a number. -/
def nanSpellings : List String := [".nan", ".NaN", ".NAN"]

/-- Does the text read as a floating-point number? -/
def readsAsFloat (cs : List Char) : Bool :=
  let unsigned := (splitSign cs).2
  infinitySpellings.contains (String.ofList unsigned) || nanSpellings.contains (String.ofList cs) ||
  match decimal? unsigned with
  | some (digits, e) => fitsDouble digits e
  | none => false

/-- Does a reader take the text for something that is no text? -/
def isAmbiguous (cs : List Char) : Bool :=
  cs.isEmpty || wordSpellings.contains (String.ofList cs) || readsAsInteger cs ||
  hasLeadingZero cs || readsAsFloat cs

/-! ### Texts with characters that mean something -/

/-- The characters that begin something else than a plain text. -/
def indicators : List Char :=
  ['#', ',', '[', ']', '\x7b', '\x7d', '&', '*', '!', '|', '>', '\'', '"', '%', '@', '\x60']

/-- A blank in the sense of the format. -/
def isSeparator (c : Char) : Bool := c = ' ' || c = '\t'

/-- Does the text begin like something else than a plain text? -/
def startsLikeMarkup : List Char → Bool
  | '-' :: '-' :: '-' :: _ => true
  | '.' :: '.' :: '.' :: _ => true
  | '?' :: rest => rest.head?.all isSeparator
  | '-' :: rest => rest.head?.all isSeparator
  | c :: _ => indicators.contains c
  | [] => false

/-- Is there a colon before a blank or at the end, or a hash behind a blank? -/
def hasMarkup : List Char → Bool
  | [] => false
  | ':' :: rest => rest.head?.all isSeparator || hasMarkup rest
  | c :: rest => (isSeparator c && rest.head? = some '#') || hasMarkup rest

/-- Can the text not be written plain because of the characters in it? -/
def needsQuotes (cs : List Char) : Bool :=
  startsLikeMarkup cs || hasMarkup cs || cs.head? = some ' ' || cs.getLast? = some ' '

/-! ### Writing -/

/-- The digit with a given value, in upper case. -/
def hexDigit (n : Nat) : Char := (Nat.digitChar n).toUpper

/-- A number with a given count of hexadecimal digits. -/
def hex (count n : Nat) : List Char :=
  (List.range count).reverse.map fun i => hexDigit (n / Nat.pow 16 i % 16)

/-- A character inside double quotes. -/
def escaped (c : Char) : List Char :=
  if c = '"' ∨ c = '\\' then ['\\', c]
  else if isPrintable c then [c]
  else
    match c.toNat with
    | 0x00 => ['\\', '0']
    | 0x07 => ['\\', 'a']
    | 0x08 => ['\\', 'b']
    | 0x09 => ['\\', 't']
    | 0x0A => ['\\', 'n']
    | 0x0B => ['\\', 'v']
    | 0x0C => ['\\', 'f']
    | 0x0D => ['\\', 'r']
    | 0x1B => ['\\', 'e']
    | n => if n ≤ 0xFF then '\\' :: 'x' :: hex 2 n else '\\' :: 'u' :: hex 4 n

/-- A text in double quotes. -/
def doubleQuoted (cs : List Char) : List Char := '"' :: (cs.flatMap escaped ++ ['"'])

/-- A text in single quotes. -/
def singleQuoted (cs : List Char) : List Char :=
  '\'' :: (cs.flatMap (fun c => if c = '\'' then ['\'', '\''] else [c]) ++ ['\''])

/-- A text as a scalar, in the style that reads back. -/
def write (text : String) : String :=
  let cs := text.toList
  if !cs.all isPrintable then String.ofList (doubleQuoted cs)
  else if isAmbiguous cs || needsQuotes cs then String.ofList (singleQuoted cs)
  else text

end WordC.Scalar
