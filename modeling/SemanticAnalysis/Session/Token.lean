/-!
The tokens of a session document: words, quoted text, punctuation and the ends of
lines. Blanks and comments separate tokens and are dropped. Text may be quoted with
escapes or without, on one line or as a block of lines.
-/

namespace SemanticAnalysis.Session

/-- A token. Text quoted as a block of lines does not serve as a key. -/
inductive Token where
  | word (text : String)
  | quoted (text : String) (isBlock : Bool)
  | symbol (c : Char)
  | openDouble
  | closeDouble
  | newline
deriving DecidableEq

namespace Token

def isBlank (c : Char) : Bool := c = ' ' || c = '\t'

def isWordChar (c : Char) : Bool := c.isAlphanum || c = '_' || c = '-'

/-- Whether a character may stand in a comment or in text: all but control
characters, of which only the tab may. -/
def isPlain (c : Char) : Bool := c = '\t' || (0x20 ≤ c.toNat && c.toNat ≠ 0x7f)

def isSymbol (c : Char) : Bool :=
  c = '[' || c = ']' || c = '\x7b' || c = '\x7d' || c = '=' || c = ',' || c = '.'

def tick : Char := '\x27'

def hexValue (c : Char) : Option Nat :=
  if c.isDigit then some (c.toNat - '0'.toNat)
  else if 'a' ≤ c ∧ c ≤ 'f' then some (c.toNat - 'a'.toNat + 10)
  else if 'A' ≤ c ∧ c ≤ 'F' then some (c.toNat - 'A'.toNat + 10)
  else none

def readHex (sofar : Nat) : Nat → List Char → Option (Nat × List Char)
  | 0, cs => some (sofar, cs)
  | _ + 1, [] => none
  | n + 1, c :: cs => do readHex (16 * sofar + (← hexValue c)) n cs

def charOfCode (code : Nat) : Option Char :=
  if code.isValidChar then some (Char.ofNat code) else none

def readEscape : List Char → Option (Char × List Char)
  | 'b' :: cs => some ('\x08', cs)
  | 't' :: cs => some ('\t', cs)
  | 'n' :: cs => some ('\n', cs)
  | 'f' :: cs => some ('\x0c', cs)
  | 'r' :: cs => some ('\r', cs)
  | '"' :: cs => some ('"', cs)
  | '\\' :: cs => some ('\\', cs)
  | 'u' :: cs => do
    let (code, cs) ← readHex 0 4 cs
    return (← charOfCode code, cs)
  | 'U' :: cs => do
    let (code, cs) ← readHex 0 8 cs
    return (← charOfCode code, cs)
  | _ => none

def dropNewline? : List Char → Option (List Char)
  | '\n' :: cs => some cs
  | '\r' :: '\n' :: cs => some cs
  | _ => none

def dropBlankLines : List Char → List Char
  | ' ' :: cs => dropBlankLines cs
  | '\t' :: cs => dropBlankLines cs
  | '\n' :: cs => dropBlankLines cs
  | '\r' :: '\n' :: cs => dropBlankLines cs
  | cs => cs

def before (c : Char) (found : Option (List Char × List Char)) :
    Option (List Char × List Char) :=
  found.map fun p => (c :: p.1, p.2)

/-- Reads text with escapes up to its closing quote. The fuel is the number of
characters at most read. -/
def readText : Nat → List Char → Option (List Char × List Char)
  | 0, _ => none
  | _ + 1, [] => none
  | _ + 1, '"' :: cs => some ([], cs)
  | fuel + 1, '\\' :: cs => do
    let (c, cs) ← readEscape cs
    before c (readText fuel cs)
  | fuel + 1, c :: cs => if isPlain c then before c (readText fuel cs) else none

/-- Reads a block of text with escapes up to its closing quotes. A backslash at the
end of a line drops the blanks and line ends after it. -/
def readTextBlock : Nat → List Char → Option (List Char × List Char)
  | 0, _ => none
  | fuel + 1, '"' :: '"' :: '"' :: '"' :: cs =>
    before '"' (readTextBlock fuel ('"' :: '"' :: '"' :: cs))
  | _ + 1, '"' :: '"' :: '"' :: cs => some ([], cs)
  | fuel + 1, '\\' :: cs =>
    match dropNewline? (cs.dropWhile isBlank) with
    | some cs => readTextBlock fuel (dropBlankLines cs)
    | none => do
      let (c, cs) ← readEscape cs
      before c (readTextBlock fuel cs)
  | fuel + 1, '\r' :: '\n' :: cs => before '\n' (readTextBlock fuel cs)
  | fuel + 1, '\n' :: cs => before '\n' (readTextBlock fuel cs)
  | fuel + 1, c :: cs => if isPlain c then before c (readTextBlock fuel cs) else none
  | _ + 1, [] => none

def readVerbatim : List Char → Option (List Char × List Char)
  | [] => none
  | c :: cs =>
    if c = tick then some ([], cs)
    else if isPlain c then before c (readVerbatim cs)
    else none

def closesBlock : List Char → Bool
  | a :: b :: c :: _ => a = tick && b = tick && c = tick
  | _ => false

def readVerbatimBlock : List Char → Option (List Char × List Char)
  | [] => none
  | c :: cs =>
    if closesBlock (c :: cs) && !closesBlock cs then some ([], cs.drop 2)
    else if isPlain c || c = '\n' || (c = '\r' && cs.head? = some '\n') then
      before c (readVerbatimBlock cs)
    else none

/-- Drops an end of line that comes right after the opening of a block. -/
def openBlock (cs : List Char) : List Char := (dropNewline? cs).getD cs

def readAfterQuote (quote : Char) (isBlock : Bool) (cs : List Char) :
    Option (List Char × List Char) :=
  if isBlock then
    let cs := openBlock (cs.drop 2)
    if quote = tick then readVerbatimBlock cs else readTextBlock (cs.length + 1) cs
  else if quote = tick then readVerbatim cs
  else readText (cs.length + 1) cs

def readQuoted (quote : Char) (cs : List Char) : Option (Token × List Char) := do
  let isBlock := cs.take 2 == [quote, quote]
  let (text, cs) ← readAfterQuote quote isBlock cs
  return (.quoted (String.ofList text) isBlock, cs)

def readToken (c : Char) (cs : List Char) : Option (Token × List Char) :=
  if c = '\n' then some (.newline, cs)
  else if c = '\r' then (dropNewline? (c :: cs)).map fun cs => (.newline, cs)
  else if c = '"' || c = tick then readQuoted c cs
  else if c = '[' && cs.head? = some '[' then some (.openDouble, cs.tail)
  else if c = ']' && cs.head? = some ']' then some (.closeDouble, cs.tail)
  else if isSymbol c then some (.symbol c, cs)
  else if isWordChar c then
    some (.word (String.ofList (c :: cs.takeWhile isWordChar)), cs.dropWhile isWordChar)
  else none

/-- The tokens of some characters. The fuel is the number of tokens, blanks and
comments at most read. -/
def scanWith : Nat → List Char → Option (List Token)
  | _, [] => some []
  | 0, _ :: _ => none
  | fuel + 1, c :: cs =>
    if isBlank c then scanWith fuel cs
    else if c = '#' then scanWith fuel (cs.dropWhile isPlain)
    else do
      let (token, rest) ← readToken c cs
      let tokens ← scanWith fuel rest
      return token :: tokens

/-- The tokens of a document. A mark of byte order before it is dropped. -/
def scan (text : String) : Option (List Token) :=
  let cs := match text.toList with
    | '\ufeff' :: cs => cs
    | cs => cs
  scanWith cs.length cs

end Token

end SemanticAnalysis.Session
