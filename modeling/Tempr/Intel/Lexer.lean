import Mathlib.Data.List.DropRight
import Tempr.Editor.Selection
import Tempr.Intel.Text

/-!
# The completion lexer

How completion reads the text from the start of a statement to the cursor: the
word that is being typed, the qualifier before it, and what the tokens before it
let expect there.

Texts are sliced at byte offsets. A slice at an offset that is no character
boundary panics: a function that slices gives `none` then.
-/

namespace Tempr.Intel

open Tempr.Editor (ByteRange Rope)
open Tempr.Editor.Rope (lenBytes)

/-! ## Characters -/

/-- The character tables of the standard library. Of characters outside of ASCII
nothing is used but that there are tables. -/
class CharTables where
  isAlphabetic : Char → Bool
  isNumeric : Char → Bool
  isWhitespace : Char → Bool
  isLowercase : Char → Bool
  isUppercase : Char → Bool
  /-- the lower case of one character -/
  lowercaseChar : Char → List Char
  toUppercase : Text → Text
  isAlphabetic_ascii : ∀ c : Char, c.toNat < 128 → isAlphabetic c = c.isAlpha
  isNumeric_ascii : ∀ c : Char, c.toNat < 128 → isNumeric c = c.isDigit
  isWhitespace_ascii : ∀ c : Char, c.toNat < 128 →
    isWhitespace c = (c == ' ' || decide (9 ≤ c.toNat ∧ c.toNat ≤ 13))
  lowercaseChar_ascii : ∀ c : Char, c.toNat < 128 →
    lowercaseChar c = [c.toLower]

export CharTables (isAlphabetic isNumeric isWhitespace isLowercase isUppercase
  lowercaseChar toUppercase)

/-- The tables that know no character outside of ASCII. -/
@[reducible] def CharTables.ascii : CharTables where
  isAlphabetic := Char.isAlpha
  isNumeric := Char.isDigit
  isWhitespace c := c == ' ' || decide (9 ≤ c.toNat ∧ c.toNat ≤ 13)
  isLowercase := Char.isLower
  isUppercase := Char.isUpper
  lowercaseChar c := [c.toLower]
  toUppercase text := text.map Char.toUpper
  isAlphabetic_ascii _ _ := rfl
  isNumeric_ascii _ _ := rfl
  isWhitespace_ascii _ _ := rfl
  lowercaseChar_ascii _ _ := rfl

/-! ## Slices -/

/-- The text up to a byte offset. -/
def sliceTo (text : Text) (offset : ℕ) : Option Text :=
  if Rope.IsCharBoundary text offset then
    some (text.take (Rope.byteToChar text offset))
  else none

/-- The text from a byte offset on. -/
def sliceFrom (text : Text) (offset : ℕ) : Option Text :=
  if Rope.IsCharBoundary text offset then
    some (text.drop (Rope.byteToChar text offset))
  else none

/-- The byte offset of the first occurrence of a text. -/
def findText (pattern : Text) : Text → Option ℕ
  | [] => if pattern = [] then some 0 else none
  | c :: text =>
      if pattern.isPrefixOf (c :: text) then some 0
      else (findText pattern text).map (· + c.utf8Size)

variable [CharTables]

def trimStart (text : Text) : Text := text.dropWhile isWhitespace

def trimEnd (text : Text) : Text := text.rdropWhile isWhitespace

def isIdentStart (c : Char) : Bool :=
  isAlphabetic c || decide (c = '_')

def isIdentChar (c : Char) : Bool :=
  isAlphabetic c || isNumeric c || decide (c = '_' ∨ c = '$')

/-! ## The word that is typed -/

/-- Where the identifier at the end of the text starts. -/
def wordStart (text : Text) : ℕ :=
  lenBytes (text.rdropWhile isIdentChar)

omit [CharTables] in
/-- How many quotes there are, of which doubled ones count for nothing. -/
def countQuotes : Text → ℕ
  | '"' :: '"' :: text => countQuotes text
  | '"' :: text => countQuotes text + 1
  | _ :: text => countQuotes text
  | [] => 0

omit [CharTables] in
/-- The quote before the word, if it opens a quoted name that is not closed. -/
def openQuoteBefore (text : Text) (wordStart : ℕ) : Option (Option ℕ) := do
  let before ← sliceTo text wordStart
  if before.getLast? ≠ some '"' then return none
  if countQuotes before % 2 = 1 then return some (wordStart - 1)
  return none

omit [CharTables] in
/-- The body of a quoted name, and where its opening quote stands. The text is
listed from its end. -/
def quotedBack (body : Text) : List Char → Option (Text × ℕ)
  | '"' :: '"' :: before => quotedBack ('"' :: '"' :: body) before
  | '"' :: before => some (unescapeQuotes body, lenBytes before)
  | c :: before => quotedBack (c :: body) before
  | [] => none

/-- The identifier at the end of the text, and where it starts. -/
def identifierBack (text : Text) : Option (Text × ℕ) :=
  let text := trimEnd text
  if text.getLast? = some '"' then quotedBack [] text.dropLast.reverse
  else
    let ident := text.rtakeWhile isIdentChar
    if ident.head?.any isIdentStart then some (ident, wordStart text)
    else none

/-- At most `n` parts of the qualifier that ends at `cursor`, and where it
starts. -/
def qualifierParts (text : Text) : ℕ → ℕ → Option (List Text × ℕ)
  | 0, cursor => some ([], cursor)
  | n + 1, cursor => do
      let before := trimEnd (← sliceTo text cursor)
      if before.getLast? ≠ some '.' then return ([], cursor)
      match identifierBack (← sliceTo text (lenBytes before - 1)) with
      | none => return ([], cursor)
      | some (part, start) =>
          let (parts, cursor) ← qualifierParts text n start
          return (parts ++ [part], cursor)

/-- The qualifier before a word, with its parts from left to right. -/
def qualifierBefore (text : Text) (wordStart : ℕ) :
    Option (Option (List Text × ℕ)) := do
  let (parts, cursor) ← qualifierParts text 3 wordStart
  return if parts.isEmpty then none else some (parts, cursor)

/-! ## Tokens -/

inductive Token
  /-- an unquoted word or number -/
  | word (text : Text)
  /-- a quoted identifier: never a keyword -/
  | quoted
  | dot
  | comma
  | «open»
  | close
  | other
  deriving DecidableEq, Repr

def takeWord (text : Text) : Option (Text × Text) := do
  let stop := lenBytes (text.takeWhile isIdentChar)
  return (← sliceTo text stop, ← sliceFrom text stop)

omit [CharTables] in
/-- The quoted text that is read character by character, without the closing
quote, and what follows it. `idx` is the offset of the next character. -/
def takeQuotedFrom (quote : Char) (text : Text) (body : Text) :
    Bool → ℕ → List Char → Option (Text × Text)
  | _, _, [] => some (body, [])
  | true, idx, c :: chars =>
      takeQuotedFrom quote text (body ++ [c]) false (idx + c.utf8Size) chars
  | false, idx, c :: chars =>
      if c = quote then do
        -- a doubled quote is one of the text
        let rest ← sliceFrom text (idx + 1)
        if rest.head? = some quote then
          takeQuotedFrom quote text body true (idx + c.utf8Size) chars
        else return (body, rest)
      else
        takeQuotedFrom quote text (body ++ [c]) false (idx + c.utf8Size) chars

omit [CharTables] in
/-- A quoted identifier and what follows it. -/
def takeQuoted (text : Text) : Option (Text × Text) :=
  takeQuotedFrom '"' text [] false (lenBytes (text.take 1)) (text.drop 1)

omit [CharTables] in
def skipSingleQuoted (text : Text) : Option Text :=
  (takeQuotedFrom '\'' text [] false (lenBytes (text.take 1))
    (text.drop 1)).map Prod.snd

omit [CharTables] in
/-- What follows the block comment at depth `depth` that goes on at `idx`. -/
def skipBlockCommentFrom (text : Text) : ℕ → ℕ → ℕ → Option Text
  | 0, _, _ => none
  | fuel + 1, depth, idx =>
      if idx < lenBytes text then do
        let rest ← sliceFrom text idx
        if "/*".toList.isPrefixOf rest then
          skipBlockCommentFrom text fuel (depth + 1) (idx + 2)
        else if "*/".toList.isPrefixOf rest then
          if depth - 1 = 0 then sliceFrom text (idx + 2)
          else skipBlockCommentFrom text fuel (depth - 1) (idx + 2)
        else
          match rest with
          | c :: _ => skipBlockCommentFrom text fuel depth (idx + c.utf8Size)
          | [] => return []
      else return []

omit [CharTables] in
def skipBlockComment (text : Text) : Option Text :=
  skipBlockCommentFrom text (text.length + 1) 0 0

/-- What follows a text in dollar quotes; nothing if the dollar starts
something else. -/
def skipDollarQuoted (text : Text) : Option (Option Text) :=
  match text with
  | '$' :: rest => do
      let tagEnd := lenBytes
        (rest.takeWhile fun c =>
          isAlphabetic c || isNumeric c || decide (c = '_'))
      if (← sliceFrom rest tagEnd).head? ≠ some '$' then return none
      let tag ← sliceTo text (tagEnd + 2)
      match findText tag (← sliceFrom text (tagEnd + 2)) with
      | some offset =>
          return some (← sliceFrom text (tagEnd + 2 + offset + lenBytes tag))
      | none => return some []
  | _ => some none

/-- One round of the lexer: the tokens that it adds, and the text that it goes on
with, if it does. -/
def tokenizeStep (text : Text) : Option (List Token × Option Text) :=
  let rest := trimStart text
  match rest with
  | [] => some ([], none)
  | first :: _ =>
      if "--".toList.isPrefixOf rest then
        match findText ['\n'] rest with
        | some stop => do return ([], some (← sliceFrom rest (stop + 1)))
        | none => some ([], none)
      else if "/*".toList.isPrefixOf rest then do
        return ([], some (← skipBlockComment rest))
      else if first = '\'' then do
        return ([], some (← skipSingleQuoted rest))
      else if first = '"' then do
        return ([.quoted], some (← takeQuoted rest).2)
      else if first = '$' then do
        match ← skipDollarQuoted rest with
        | some after => return ([], some after)
        | none =>
            let (word, after) ← takeWord rest
            return ([.word word], some after)
      else if first = '.' then do
        return ([.dot], some (← sliceFrom rest 1))
      else if first = ',' then do
        return ([.comma], some (← sliceFrom rest 1))
      else if first = '(' then do
        return ([.open], some (← sliceFrom rest 1))
      else if first = ')' then do
        return ([.close], some (← sliceFrom rest 1))
      else if isIdentStart first || first.isDigit then do
        let (word, after) ← takeWord rest
        return ([.word word], some after)
      else do
        return ([.other], some (← sliceFrom rest first.utf8Size))

/-- The tokens of a text, in at most `fuel` rounds. -/
def tokenizeFrom : ℕ → Text → Option (List Token)
  | 0, _ => none
  | fuel + 1, text => do
      let (tokens, next) ← tokenizeStep text
      match next with
      | some rest => return tokens ++ (← tokenizeFrom fuel rest)
      | none => return tokens

def tokenize (text : Text) : Option (List Token) :=
  tokenizeFrom (text.length + 1) text

/-! ## What the cursor position expects -/

inductive CompletionContext
  /-- nothing before the cursor, or after a complete `WITH` clause -/
  | statementStart
  /-- where a relation is named -/
  | relation
  /-- any expression -/
  | expression
  /-- the user names an alias or a CTE -/
  | «alias»
  /-- after the dot of a qualifier -/
  | qualifier (parts : List Text)
  deriving DecidableEq, Repr

omit [CharTables] in
def asciiLowercase (text : Text) : Text := text.map Char.toLower

omit [CharTables] in
/-- Does the statement begin with `WITH`? -/
def startsWithWith (tokens : List Token) : Bool :=
  match tokens.head? with
  | some (.word word) => decide (asciiLowercase word = "with".toList)
  | _ => false

omit [CharTables] in
def parenDepth (tokens : List Token) : ℕ :=
  tokens.foldl
    (fun depth token =>
      match token with
      | .open => depth + 1
      | .close => depth - 1
      | _ => depth)
    0

omit [CharTables] in
def clauses : List String :=
  ["select", "from", "where", "join", "on", "using", "group", "order", "having",
    "limit", "offset", "returning", "set", "values", "into", "update", "insert",
    "with", "union", "intersect", "except", "window", "partition", "fetch",
    "for"]

omit [CharTables] in
/-- The first clause keyword outside of parentheses. The tokens are listed from
the last, and `depth` parentheses have been closed. -/
def nearestClauseFrom : ℕ → List Token → Option Text
  | _, [] => none
  | depth, token :: tokens =>
      match token with
      | .close => nearestClauseFrom (depth + 1) tokens
      | .open => nearestClauseFrom (depth - 1) tokens
      | .word word =>
          if depth = 0 ∧ asciiLowercase word ∈ clauses.map String.toList then
            some (asciiLowercase word)
          else nearestClauseFrom depth tokens
      | _ => nearestClauseFrom depth tokens

omit [CharTables] in
def nearestClause (tokens : List Token) : Option Text :=
  nearestClauseFrom 0 tokens.reverse

omit [CharTables] in
def classify (tokens : List Token) : CompletionContext :=
  match tokens.getLast? with
  | none => .statementStart
  | some (.word word) =>
      if asciiLowercase word ∈ ["as", "with"].map String.toList then .alias
      else if asciiLowercase word ∈ ["from", "join", "update", "into", "table",
          "truncate", "only"].map String.toList then .relation
      else .expression
  | some .comma =>
      if 0 < parenDepth tokens then .expression
      else
        match nearestClause tokens with
        | some clause =>
            if clause ∈ ["from", "join", "update", "into"].map String.toList
            then .relation
            else if clause = "with".toList then .alias
            else .expression
        | none => .expression
  | some .close =>
      if parenDepth tokens = 0 ∧ startsWithWith tokens = true then
        .statementStart
      else .expression
  | some _ => .expression

/-- The classified cursor and the word that it replaces. -/
structure CursorContext where
  context : CompletionContext
  word : ByteRange
  typed : Text
  deriving DecidableEq, Repr

/-- Classify the text from the start of a statement, at `base`, to the
cursor. -/
def cursorContext (before : Text) (base : ℕ) : Option CursorContext := do
  let quote ← openQuoteBefore before (wordStart before)
  -- an open quote belongs to the word, and what is typed follows it
  let start := quote.getD (wordStart before)
  let typedStart := (quote.map (· + 1)).getD (wordStart before)
  let qualifier ← qualifierBefore before start
  let typed ← sliceFrom before typedStart
  let context ← match qualifier with
    | some (parts, _) => pure (.qualifier parts)
    | none => classify <$> (tokenize (← sliceTo before start))
  return ⟨context, ⟨base + start, base + lenBytes before⟩, typed⟩

end Tempr.Intel
