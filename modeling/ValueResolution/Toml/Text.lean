import ValueResolution.Toml.Datetime
/-!
# The texts of a TOML document

What stands between values (`skipSpaces`, `newline?`, `comment`, `skipTrivia`), and the four ways of
writing a string: in double quotes with escapes, in single quotes as it is, and both again in
three quotes over several lines. In a string over several lines a line break right behind the
opening quotes is dropped, every other one is a line feed, and one or two quotes may stand in
front of the closing ones.
-/

set_option autoImplicit false

namespace ValueResolution.Toml

/-! ## Between values -/

/-- A space or a tab. -/
def isSpace (c : Char) : Bool := c == ' ' || c == '\t'

/-- The text behind the spaces and tabs at its front. -/
def skipSpaces (cs : List Char) : List Char := cs.dropWhile isSpace

/-- The text behind a line break. -/
def newline? : List Char → Option (List Char)
  | '\n' :: rest => some rest
  | '\r' :: '\n' :: rest => some rest
  | _ => none

/-- Whether a character is neither a control character nor the delete character; a tab counts as
printable. -/
def isPrintable (c : Char) : Bool := c == '\t' || (' ' ≤ c && c != '\x7f')

/-- The text behind a comment, if one begins here. -/
def comment : List Char → List Char
  | '#' :: rest => rest.dropWhile isPrintable
  | cs => cs

/-- The text behind spaces, comments and line breaks; `within` says whether a comment has begun. -/
def skipTriviaFrom (within : Bool) : List Char → List Char
  | [] => []
  | '\n' :: rest => skipTriviaFrom false rest
  | '\r' :: '\n' :: rest => skipTriviaFrom false rest
  | c :: rest =>
    if within then if isPrintable c then skipTriviaFrom true rest else c :: rest
    else if isSpace c then skipTriviaFrom false rest
    else if c = '#' then skipTriviaFrom true rest
    else c :: rest

/-- The text behind spaces, comments and line breaks. -/
def skipTrivia (cs : List Char) : List Char := skipTriviaFrom false cs

/-- The text behind what may stand at the end of a line: spaces, a comment, a line break. -/
def endOfLine? (cs : List Char) : Option (List Char) :=
  match comment (skipSpaces cs) with
  | [] => some []
  | cs => newline? cs

/-! ## Strings -/

/-- Reads a character given by `n` hexadecimal digits. -/
def codePoint? (n : Nat) : Reader Char := fun cs =>
  let hex := cs.take n
  if hex.length = n && hex.all Text.isHexDigit then
    let v := Text.ofDigits 16 hex
    if v.isValidChar then some (Char.ofNat v, cs.drop n) else none
  else none

/-- Reads what follows the backslash of an escape. -/
def escape? : Reader Char
  | 'b' :: rest => some ('\x08', rest)
  | 't' :: rest => some ('\t', rest)
  | 'n' :: rest => some ('\n', rest)
  | 'f' :: rest => some ('\x0c', rest)
  | 'r' :: rest => some ('\r', rest)
  | '"' :: rest => some ('"', rest)
  | '\\' :: rest => some ('\\', rest)
  | 'u' :: rest => codePoint? 4 rest
  | 'U' :: rest => codePoint? 8 rest
  | _ => none

/-- Reads up to a double quote, with escapes. -/
def basicBody : Nat → Reader (List Char)
  | 0, _ => none
  | fuel + 1, cs =>
    match cs with
    | [] => none
    | '"' :: rest => some ([], rest)
    | '\\' :: rest => do
      let (c, rest) ← escape? rest
      let (s, rest) ← basicBody fuel rest
      return (c :: s, rest)
    | c :: rest => do
      if !isPrintable c then none
      let (s, rest) ← basicBody fuel rest
      return (c :: s, rest)

/-- Reads up to a single quote. -/
def literalBody (cs : List Char) : Option (List Char × List Char) :=
  let s := cs.takeWhile fun c => isPrintable c && c != '\''
  match cs.drop s.length with
  | '\'' :: rest => some (s, rest)
  | _ => none

/-- The text behind a backslash that ends a line: the blanks and line breaks up to the next
character are not part of the string. -/
def joinedLine? (cs : List Char) : Option (List Char) :=
  (newline? (skipSpaces cs)).map fun rest => blankLines rest
where
  /-- The text behind spaces and line breaks. -/
  blankLines : List Char → List Char
    | [] => []
    | '\n' :: rest => blankLines rest
    | '\r' :: '\n' :: rest => blankLines rest
    | c :: rest => if isSpace c then blankLines rest else c :: rest

/-- The quotes in front of three closing ones, at most two. -/
def quotesBeforeClosing (quote : Char) : Reader (List Char)
  | a :: b :: rest =>
    if a = quote && b = quote then some ([a, b], rest)
    else if a = quote then some ([a], b :: rest)
    else some ([], a :: b :: rest)
  | a :: [] => if a = quote then some ([a], []) else some ([], [a])
  | [] => some ([], [])

/-- The text behind three quotes. -/
def tripleQuote? (quote : Char) : List Char → Option (List Char)
  | a :: b :: c :: rest => if a = quote && b = quote && c = quote then some rest else none
  | _ => none

/-- Reads a string over several lines up to its closing quotes; only a string in double quotes has
escapes. -/
def linesBody (quote : Char) : Nat → Reader (List Char)
  | 0, _ => none
  | fuel + 1, cs =>
    match tripleQuote? quote cs with
    | some rest => quotesBeforeClosing quote rest
    | none =>
      match newline? cs with
      | some rest => do
        let (s, rest) ← linesBody quote fuel rest
        return ('\n' :: s, rest)
      | none =>
        match cs with
        | [] => none
        | c :: rest =>
          if c = '\\' && quote = '"' then
            match joinedLine? rest with
            | some rest => linesBody quote fuel rest
            | none => do
              let (c, rest) ← escape? rest
              let (s, rest) ← linesBody quote fuel rest
              return (c :: s, rest)
          else do
            if !isPrintable c then none
            let (s, rest) ← linesBody quote fuel rest
            return (c :: s, rest)

/-- Reads a string over several lines behind its opening quotes. -/
def lines? (quote : Char) : Reader (List Char) := fun cs =>
  let cs := (newline? cs).getD cs
  linesBody quote (cs.length + 1) cs

/-- Reads a string on one line behind its opening quote. -/
def line? (quote : Char) : Reader (List Char) := fun cs =>
  if quote = '"' then basicBody (cs.length + 1) cs else literalBody cs

/-- Reads a string in any of the four forms. -/
def string? : Reader String
  | [] => none
  | quote :: cs => do
    let (s, rest) ← match tripleQuote? quote (quote :: cs) with
      | some rest => lines? quote rest
      | none => line? quote cs
    return (String.ofList s, rest)

end ValueResolution.Toml
