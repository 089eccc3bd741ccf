import CyclicProof.Toml.Scalar
import CyclicProof.Toml.Table

/-!
# Reading TOML

`Toml.read?` reads a document. A document is a sequence of lines: headers, which say what table the
next lines belong to, and assignments of values to keys. Arrays and inline tables may go over
several lines. The answer is `none` if the text is not a TOML document.
-/

namespace CyclicProof

namespace Toml

/-! ## Blanks, line ends and comments -/

/-- Blanks within a line. -/
def isSpace (c : Char) : Bool := c == ' ' || c == '\t'

/-- Drop the blanks at the start. -/
def skipSpace (cs : List Char) : List Char := cs.dropWhile isSpace

/-- Whether a character may stand in comments and in texts: anything but a control character, the
tabulator excepted. -/
def isPlain (c : Char) : Bool := c == '\t' || (0x20 ≤ c.toNat && c.toNat ≠ 0x7f)

/-- Take a line end off. -/
def lineEnd? : List Char → Option (List Char)
  | '\n' :: rest => some rest
  | '\r' :: '\n' :: rest => some rest
  | _ => none

/-- Drop a comment, if there is one. What follows is a line end or the end of the document, unless
the comment holds a control character. -/
def skipComment : List Char → List Char
  | '#' :: rest => rest.dropWhile isPlain
  | cs => cs

/-- Finish a line: blanks and a comment may follow, then a line end or the end of the document. -/
def finishLine (cs : List Char) : Option (List Char) :=
  match skipComment (skipSpace cs) with
  | [] => some []
  | cs => lineEnd? cs

/-- Drop blanks, comments and line ends. There are at most `fuel` lines to pass. -/
def skipLines : Nat → List Char → List Char
  | 0, cs => cs
  | fuel + 1, cs =>
    let cs := skipComment (skipSpace cs)
    match lineEnd? cs with
    | some rest => skipLines fuel rest
    | none => cs

/-! ## Texts -/

/-- Take `count` hexadecimal digits off and answer the character that they number. -/
def readCodePoint (count : Nat) (cs : List Char) : Option (Char × List Char) := do
  guard (count ≤ cs.length)
  let code ← Digits.hexNumber? (cs.take count)
  guard code.isValidChar
  return (Char.ofNat code, cs.drop count)

/-- Read an escape behind its backslash. -/
def readEscape : List Char → Option (Char × List Char)
  | 'b' :: rest => some ('\x08', rest)
  | 't' :: rest => some ('\t', rest)
  | 'n' :: rest => some ('\n', rest)
  | 'f' :: rest => some ('\x0c', rest)
  | 'r' :: rest => some ('\r', rest)
  | 'e' :: rest => some ('\x1b', rest)
  | '"' :: rest => some ('"', rest)
  | '\\' :: rest => some ('\\', rest)
  | 'x' :: rest => readCodePoint 2 rest
  | 'u' :: rest => readCodePoint 4 rest
  | 'U' :: rest => readCodePoint 8 rest
  | _ => none

/-- Read a text on one line behind its opening quote. `fuel` bounds the number of characters. -/
def readBasic : Nat → List Char → Option (List Char × List Char)
  | 0, _ => none
  | _, [] => none
  | _, '"' :: rest => some ([], rest)
  | fuel + 1, '\\' :: rest => do
    let (c, rest) ← readEscape rest
    let (text, rest) ← readBasic fuel rest
    return (c :: text, rest)
  | fuel + 1, c :: rest => do
    guard (isPlain c)
    let (text, rest) ← readBasic fuel rest
    return (c :: text, rest)

/-- Read a text without escapes on one line behind its opening quote. -/
def readLiteral (cs : List Char) : Option (List Char × List Char) :=
  match cs.dropWhile fun c => isPlain c && c != '\'' with
  | '\'' :: rest => some (cs.takeWhile fun c => isPlain c && c != '\'', rest)
  | _ => none

/-- Skip the blanks and line ends behind a backslash at the end of a line; the answer is `none` if
the line goes on. -/
def skipContinuation (fuel : Nat) (cs : List Char) : Option (List Char) := do
  let cs ← lineEnd? (skipSpace cs)
  return go fuel cs
where
  /-- Drop blanks and line ends. -/
  go : Nat → List Char → List Char
    | 0, cs => cs
    | fuel + 1, cs =>
      let cs := skipSpace cs
      match lineEnd? cs with
      | some rest => go fuel rest
      | none => cs

/-- Go through a text over several lines behind its three opening quotes, and answer what follows
it. Up to two quotes may stand right before the closing ones. Only the text's being there counts,
so its contents are not kept. -/
def skipMultiline (quote : Char) (escapes : Bool) : Nat → List Char → Option (List Char)
  | 0, _ => none
  | fuel + 1, cs =>
    match cs with
    | [] => none
    | c :: rest =>
      if c == quote then
        let count := (cs.takeWhile (· == quote)).length
        if count < 3 then skipMultiline quote escapes fuel (cs.drop count)
        else if count ≤ 5 then some (cs.drop count)
        else none
      else if c == '\\' && escapes then
        match readEscape rest with
        | some (_, rest) => skipMultiline quote escapes fuel rest
        | none => skipContinuation rest.length rest >>= skipMultiline quote escapes fuel
      else
        match lineEnd? cs with
        | some rest => skipMultiline quote escapes fuel rest
        | none => if isPlain c then skipMultiline quote escapes fuel rest else none

/-! ## Keys -/

/-- Whether a character may stand in a key without quotes. -/
def isBare (c : Char) : Bool :=
  ('a' ≤ c && c ≤ 'z') || ('A' ≤ c && c ≤ 'Z') || c.isDigit || c == '_' || c == '-'

/-- Read a key without dots. -/
def readSimpleKey (cs : List Char) : Option (String × List Char) :=
  match cs with
  | '"' :: rest => (readBasic cs.length rest).map fun (key, rest) => (String.ofList key, rest)
  | '\'' :: rest => (readLiteral rest).map fun (key, rest) => (String.ofList key, rest)
  | cs =>
    match cs.takeWhile isBare with
    | [] => none
    | key => some (String.ofList key, cs.dropWhile isBare)

/-- Read a dotted key with at most a given number of parts: the parts before the last one, and the
last one. -/
def readParts : Nat → List Char → Option ((List String × String) × List Char)
  | 0, _ => none
  | parts + 1, cs => do
    let (key, rest) ← readSimpleKey (skipSpace cs)
    match skipSpace rest with
    | '.' :: rest =>
      let ((path, last), rest) ← readParts parts rest
      return ((key :: path, last), rest)
    | rest => return (([], key), rest)

/-- How deep arrays and inline tables may nest, and how many parts a key may have. -/
def maxDepth : Nat := 80

/-- Read a dotted key. -/
def readKey (cs : List Char) : Option ((List String × String) × List Char) := readParts maxDepth cs

/-! ## Values -/

/-- Whether a character may stand in a scalar without quotes. -/
def isScalarChar (c : Char) : Bool :=
  isBare c || c == '+' || c == '.' || c == ':'

/-- Read the run of a scalar. A date may be followed by a blank and a time. -/
def readRun (cs : List Char) : List Char × List Char :=
  let run := cs.takeWhile isScalarChar
  match readDate run, cs.dropWhile isScalarChar with
  | some [], ' ' :: c :: rest =>
    if c.isDigit then
      (run ++ ' ' :: (c :: rest).takeWhile isScalarChar, (c :: rest).dropWhile isScalarChar)
    else (run, ' ' :: c :: rest)
  | _, rest => (run, rest)

/-- Read a scalar without quotes. -/
def readScalar (cs : List Char) : Option (Item × List Char) := do
  let (run, rest) := readRun cs
  match ← scalar? run with
  | .integer value => return (.integer value, rest)
  | .other => return (.other, rest)

mutual

/-- Read a value. `fuel` bounds the number of parts, and `depth` says how deep arrays and inline
tables may still nest. -/
def readValue : Nat → Nat → List Char → Option (Item × List Char)
  | 0, _, _ => none
  | fuel + 1, depth, cs =>
    match cs with
    | '"' :: '"' :: '"' :: rest =>
      (skipMultiline '"' true cs.length rest).map fun rest => (.other, rest)
    | '"' :: rest => (readBasic cs.length rest).map fun (_, rest) => (.other, rest)
    | '\'' :: '\'' :: '\'' :: rest =>
      (skipMultiline '\'' false cs.length rest).map fun rest => (.other, rest)
    | '\'' :: rest => (readLiteral rest).map fun (_, rest) => (.other, rest)
    | '[' :: rest => do
      guard (0 < depth)
      let rest ← readItems fuel (depth - 1) rest
      return (.other, rest)
    | '\x7b' :: rest => do
      guard (0 < depth)
      let rest ← readInline fuel (depth - 1) [] rest
      return (.other, rest)
    | cs => readScalar cs

/-- Read the items of an array up to the closing bracket. -/
def readItems : Nat → Nat → List Char → Option (List Char)
  | 0, _, _ => none
  | fuel + 1, depth, cs =>
    match skipLines cs.length cs with
    | ']' :: rest => some rest
    | cs => do
      let (_, rest) ← readValue fuel depth cs
      match skipLines rest.length rest with
      | ',' :: rest => readItems fuel depth rest
      | ']' :: rest => return rest
      | _ => none

/-- Read the entries of an inline table up to the closing brace. Lines may end everywhere but inside
a key. -/
def readInline : Nat → Nat → Entries → List Char → Option (List Char)
  | 0, _, _, _ => none
  | fuel + 1, depth, entries, cs =>
    match skipLines cs.length cs with
    | '\x7d' :: rest => some rest
    | cs => do
      let ((path, key), rest) ← readKey cs
      let rest ← expect (· == '=') (skipLines rest.length rest)
      let (item, rest) ← readValue fuel depth (skipLines rest.length rest)
      let entries ← entries.assign path key item
      match skipLines rest.length rest with
      | ',' :: rest => readInline fuel depth entries rest
      | '\x7d' :: rest => return rest
      | _ => none

end

/-! ## Documents -/

/-- A document that has been read in part. -/
structure Draft where
  /-- The entries so far. -/
  entries : Entries
  /-- The table that the last header named. -/
  header : List String

/-- Read the rest of a header behind its opening brackets, up to the end of the line. -/
def readHeader (closing : List Char) (cs : List Char) :
    Option ((List String × String) × List Char) := do
  let (key, rest) ← readKey cs
  guard (closing.isPrefixOf rest)
  let rest ← finishLine (rest.drop closing.length)
  return (key, rest)

/-- Read a line that is neither empty nor a comment. -/
def readLine (draft : Draft) (cs : List Char) : Option (Draft × List Char) :=
  match cs with
  | '[' :: '[' :: rest => do
    let ((path, key), rest) ← readHeader [']', ']'] rest
    let entries ← draft.entries.openElement path key
    return (⟨entries, path ++ [key]⟩, rest)
  | '[' :: rest => do
    let ((path, key), rest) ← readHeader [']'] rest
    let entries ← draft.entries.openTable path key
    return (⟨entries, path ++ [key]⟩, rest)
  | cs => do
    let ((path, key), rest) ← readKey cs
    let rest ← expect (· == '=') rest
    let (item, rest) ← readValue cs.length maxDepth (skipSpace rest)
    let rest ← finishLine rest
    let entries ← draft.entries.atSection draft.header (Entries.assign path key item)
    return ({ draft with entries }, rest)

/-- Read lines until the end of the document. `fuel` bounds their number. -/
def readLines : Nat → Draft → List Char → Option Entries
  | 0, _, _ => none
  | fuel + 1, draft, cs =>
    match skipLines cs.length cs with
    | [] => some draft.entries
    | cs => do
      let (draft, rest) ← readLine draft cs
      readLines fuel draft rest

/-- Read a document. It may start with a byte order mark. -/
def read? (text : String) : Option Entries :=
  let cs := match text.toList with
    | '\uFEFF' :: rest => rest
    | cs => cs
  readLines (cs.length + 1) ⟨[], []⟩ cs

end Toml

end CyclicProof
