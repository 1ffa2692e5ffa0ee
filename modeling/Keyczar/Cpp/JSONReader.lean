import Keyczar.Cpp.Values

/-!
# `json_reader.cc`

The parser for the texts of keys and metadata. A pointer into the text is what is left of it from there on, and the zero at its end is
the end of the list; of a string with a zero in it only what stands in front is a text. The depth of the recursion is the number of
levels that the limit leaves, and a loop over a list or a dictionary turns at most once for every character that is left.
-/

namespace Cpp

/-- The string that `c_str` points to. -/
def cStr (s : Bytes) : Bytes := s.takeWhile (· ≠ 0)

namespace JSONReader

/-- `Token::Type`. -/
inductive TokenType where
  | objectBegin | objectEnd | arrayBegin | arrayEnd | string | number | boolTrue | boolFalse | nullToken | listSeparator
  | objectPairSeparator | endOfInput | invalidToken
  deriving DecidableEq, Repr

/-- `Token`: it begins at the position of the reader. -/
structure Token where
  type : TokenType
  length : Nat
  deriving DecidableEq, Repr

/-- `kInvalidToken`. -/
def kInvalidToken : Token := ⟨.invalidToken, 0⟩

def kStackLimit : Nat := 100

def kBadRootElementType : String := "Root value must be an array or object."
def kInvalidEscape : String := "Invalid escape sequence."
def kSyntaxError : String := "Syntax error."
def kTrailingComma : String := "Trailing comma not allowed."
def kTooMuchNesting : String := "Too much nesting."
def kUnexpectedDataAfterRoot : String := "Unexpected data after root element."
def kUnsupportedEncoding : String := "Unsupported encoding. JSON must be UTF-8."
def kUnquotedDictionaryKey : String := "Dictionary keys must be quoted."

end JSONReader

/-- The members of a `JSONReader`. -/
structure JSONReader where
  startPos : Bytes
  jsonPos : Bytes
  allowTrailingComma : Bool
  errorMessage : String := ""

namespace JSONReader

/-! ## Blanks and comments -/

/-- A line comment, behind its slashes: read until `\n` or `\r`. -/
def skipLine : Bytes → Bytes
  | [] => []
  | c :: s => if c = ascii '\n' ∨ c = ascii '\r' then s else skipLine s

/-- A block comment, behind its first two characters: read until `*/`. -/
def skipBlock : Bytes → Bytes
  | [] => []
  | c :: s => if c = ascii '*' ∧ s.head? = some (ascii '/') then s.tail else skipBlock s

/-- `EatComment`: what is left behind the comment, if there is one. -/
def eatComment : Bytes → Option Bytes
  | c :: d :: s =>
    if c ≠ ascii '/' then none
    else if d = ascii '/' then some (skipLine s)
    else if d = ascii '*' then some (skipBlock s)
    else none
  | _ => none

def isBlank (c : UInt8) : Bool := c = ascii ' ' || c = ascii '\n' || c = ascii '\r' || c = ascii '\t'

/-- The loop of `EatWhitespaceAndComments`, turn by turn. -/
def eatLoop : Nat → Bytes → Bytes
  | 0, s => s
  | _, [] => []
  | n + 1, c :: s =>
    if isBlank c then eatLoop n s
    else if c = ascii '/' then
      match eatComment (c :: s) with
      | none => c :: s
      | some rest => eatLoop n rest
    else c :: s

/-- `EatWhitespaceAndComments`. -/
def eatWhitespaceAndComments (s : Bytes) : Bytes := eatLoop s.length s

/-! ## Tokens -/

/-- `ReadInt`: how many digits there are. -/
def readInt (s : Bytes) (canHaveLeadingZeros : Bool) : Option Nat :=
  let len := (s.takeWhile Decimal.isDigit).length
  -- We need at least 1 digit.
  if len = 0 then none
  else if !canHaveLeadingZeros ∧ 1 < len ∧ s.head? = some (ascii '0') then none
  else some len

/-- The optional fraction part of a number, behind `length` characters of it. -/
def readFraction (s : Bytes) (length : Nat) : Option Nat :=
  if (s.drop length).head? = some (ascii '.') then (readInt (s.drop (length + 1)) true).map (length + 1 + ·) else some length

/-- The optional exponent part. -/
def readExponent (s : Bytes) (length : Nat) : Option Nat :=
  let c := (s.drop length).head?
  if c = some (ascii 'e') ∨ c = some (ascii 'E') then
    let c := (s.drop (length + 1)).head?
    let length := if c = some (ascii '-') ∨ c = some (ascii '+') then length + 2 else length + 1
    (readInt (s.drop length) true).map (length + ·)
  else some length

/-- `ParseNumberToken`. -/
def parseNumberToken (s : Bytes) : Token :=
  let length := if s.head? = some (ascii '-') then 1 else 0
  match ((readInt (s.drop length) false).map (length + ·)).bind (readFraction s) |>.bind (readExponent s) with
  | none => kInvalidToken
  | some length => ⟨.number, length⟩

/-- `DecodeNumber`: a fraction and an exponent are not read. -/
def decodeNumber (token : Bytes) : Value := .integer (strto32 token)

def isHexDigit (c : UInt8) : Bool :=
  ascii '0' ≤ c && c ≤ ascii '9' || ascii 'a' ≤ c && c ≤ ascii 'f' || ascii 'A' ≤ c && c ≤ ascii 'F'

/-- The characters that may stand behind a backslash alone. -/
def isSingleEscape (c : UInt8) : Bool := (asciiString "\\/bfnrtv\"").contains c

/-- How `ParseStringToken` ends. -/
inductive StringScan where
  | closed (length : Nat)
  | invalidEscape (length : Nat)
  | unterminated
  deriving DecidableEq, Repr

/-- The loop of `ParseStringToken`: the characters from the next one on, behind `length` characters of the token. -/
def scanString : Bytes → Nat → StringScan
  | [], _ => .unterminated
  | c :: s, length =>
    if c = ascii '\\' then
      match s with
      | [] => .invalidEscape (length + 1)
      | e :: s =>
        -- Make sure the escaped char is valid.
        if e = ascii 'x' then
          match s with
          | h₁ :: h₂ :: s =>
            if isHexDigit h₁ && isHexDigit h₂ then scanString s (length + 4) else .invalidEscape (length + 1)
          | _ => .invalidEscape (length + 1)
        else if e = ascii 'u' then
          match s with
          | h₁ :: h₂ :: h₃ :: h₄ :: s =>
            if isHexDigit h₁ && isHexDigit h₂ && isHexDigit h₃ && isHexDigit h₄ then scanString s (length + 6)
            else .invalidEscape (length + 1)
          | _ => .invalidEscape (length + 1)
        else if isSingleEscape e then scanString s (length + 2)
        else .invalidEscape (length + 1)
    else if c = ascii '"' then .closed (length + 1)
    else scanString s (length + 1)

theorem scanString_plain {c : UInt8} (hescape : c ≠ ascii '\\') (hquote : c ≠ ascii '"') (s : Bytes) (length : Nat) :
    scanString (c :: s) length = scanString s (length + 1) := by
  rw [scanString.eq_def]
  dsimp only
  rw [if_neg hescape, if_neg hquote]

theorem scanString_quote (s : Bytes) (length : Nat) : scanString (ascii '"' :: s) length = .closed (length + 1) := by
  rw [scanString.eq_def]
  dsimp only
  rw [if_neg (by decide), if_pos rfl]

theorem scanString_single {e : UInt8} (hx : e ≠ ascii 'x') (hu : e ≠ ascii 'u') (he : isSingleEscape e = true) (s : Bytes) (length : Nat) :
    scanString (ascii '\\' :: e :: s) length = scanString s (length + 2) := by
  rw [scanString.eq_def]
  dsimp only
  rw [if_pos rfl, if_neg hx, if_neg hu, if_pos he]

theorem scanString_hex {h₁ h₂ : UInt8} (hh₁ : isHexDigit h₁ = true) (hh₂ : isHexDigit h₂ = true) (s : Bytes) (length : Nat) :
    scanString (ascii '\\' :: ascii 'x' :: h₁ :: h₂ :: s) length = scanString s (length + 4) := by
  rw [scanString.eq_def]
  dsimp only
  rw [if_pos rfl, if_pos rfl, hh₁, hh₂, Bool.and_self, if_pos rfl]

/-- `HexToInt`. -/
def hexToInt (c : UInt8) : Nat :=
  if ascii '0' ≤ c ∧ c ≤ ascii '9' then c.toNat - 48
  else if ascii 'A' ≤ c ∧ c ≤ ascii 'F' then c.toNat - 65 + 10
  else if ascii 'a' ≤ c ∧ c ≤ ascii 'f' then c.toNat - 97 + 10
  else 0

/-- The character that one character behind a backslash stands for. -/
def singleEscape (c : UInt8) : Option UInt8 :=
  if c = ascii '"' ∨ c = ascii '/' ∨ c = ascii '\\' then some c
  else if c = ascii 'b' then some 8
  else if c = ascii 'f' then some 12
  else if c = ascii 'n' then some 10
  else if c = ascii 'r' then some 13
  else if c = ascii 't' then some 9
  else if c = ascii 'v' then some 11
  else none

/-- The loop of `DecodeString` over the characters between the quotes. A string has characters of eight bits: of four hexadecimal digits
the last two are left. -/
def decodeChars : Bytes → Option Bytes
  | [] => some []
  | c :: s =>
    if c = ascii '\\' then
      match s with
      | [] => none
      | e :: s =>
        if e = ascii 'x' then
          match s with
          | h₁ :: h₂ :: s => (decodeChars s).map (UInt8.ofNat (hexToInt h₁ * 16 + hexToInt h₂) :: ·)
          | _ => none
        else if e = ascii 'u' then
          match s with
          | h₁ :: h₂ :: h₃ :: h₄ :: s =>
            (decodeChars s).map
              (UInt8.ofNat (hexToInt h₁ * 4096 + hexToInt h₂ * 256 + hexToInt h₃ * 16 + hexToInt h₄) :: ·)
          | _ => none
        else (singleEscape e).bind fun e => (decodeChars s).map (e :: ·)
    else (decodeChars s).map (c :: ·)

theorem decodeChars_plain {c : UInt8} (hescape : c ≠ ascii '\\') (s : Bytes) : decodeChars (c :: s) = (decodeChars s).map (c :: ·) := by
  rw [decodeChars.eq_def]
  dsimp only
  rw [if_neg hescape]

theorem decodeChars_single {e : UInt8} (hx : e ≠ ascii 'x') (hu : e ≠ ascii 'u') (s : Bytes) :
    decodeChars (ascii '\\' :: e :: s) = (singleEscape e).bind fun e => (decodeChars s).map (e :: ·) := by
  rw [decodeChars.eq_def]
  dsimp only
  rw [if_pos rfl, if_neg hx, if_neg hu]

theorem decodeChars_hex (h₁ h₂ : UInt8) (s : Bytes) :
    decodeChars (ascii '\\' :: ascii 'x' :: h₁ :: h₂ :: s) =
      (decodeChars s).map (UInt8.ofNat (hexToInt h₁ * 16 + hexToInt h₂) :: ·) := by
  rw [decodeChars.eq_def]
  dsimp only
  rw [if_pos rfl, if_pos rfl]

/-- `DecodeString` of the text of a token. -/
def decodeString (token : Bytes) : Option Bytes := decodeChars ((token.drop 1).take (token.length - 2))

/-! ## The reader -/

/-- `NextStringMatch`. -/
def nextStringMatch (s str : Bytes) : Bool := s.take str.length = str

variable (r : JSONReader)

/-- `SetErrorMessage`, for the position that something of the text is left at. -/
def setErrorMessage (description : String) (errorPos : Bytes) : JSONReader :=
  let before := r.startPos.take (r.startPos.length - errorPos.length)
  let lineNumber := before.count (ascii '\n') + 1
  let columnNumber := (before.reverse.takeWhile (· ≠ ascii '\n')).length + 1
  { r with
    errorMessage := r.errorMessage ++ s!"Line: {lineNumber}, column: {columnNumber}" ++ description ++ "\n" }

/-- `json_pos_ += token.length`. -/
def advance (token : Token) : JSONReader := { r with jsonPos := r.jsonPos.drop token.length }

/-- The text of the token at the position. -/
def text (token : Token) : Bytes := r.jsonPos.take token.length

/-- `ParseStringToken`. -/
def parseStringToken : Token × JSONReader :=
  match scanString (r.jsonPos.drop 1) 1 with
  | .closed length => (⟨.string, length⟩, r)
  | .invalidEscape length => (kInvalidToken, r.setErrorMessage kInvalidEscape (r.jsonPos.drop length))
  | .unterminated => (kInvalidToken, r)

/-- The token of a word that stands at the position, if it does. -/
def wordToken (word : String) (type : TokenType) : Token :=
  if nextStringMatch r.jsonPos (asciiString word) then ⟨type, word.length⟩ else kInvalidToken

/-- The token that starts with a character, which is not blank. -/
def tokenOf (c : UInt8) : Token × JSONReader :=
  if c = ascii 'n' then (r.wordToken "null" .nullToken, r)
  else if c = ascii 't' then (r.wordToken "true" .boolTrue, r)
  else if c = ascii 'f' then (r.wordToken "false" .boolFalse, r)
  else if c = ascii '[' then (⟨.arrayBegin, 1⟩, r)
  else if c = ascii ']' then (⟨.arrayEnd, 1⟩, r)
  else if c = ascii ',' then (⟨.listSeparator, 1⟩, r)
  else if c = ascii '\x7b' then (⟨.objectBegin, 1⟩, r)
  else if c = ascii '\x7d' then (⟨.objectEnd, 1⟩, r)
  else if c = ascii ':' then (⟨.objectPairSeparator, 1⟩, r)
  else if Decimal.isDigit c ∨ c = ascii '-' then (parseNumberToken r.jsonPos, r)
  else if c = ascii '"' then r.parseStringToken
  else (kInvalidToken, r)

/-- `ParseToken`. -/
def parseToken : Token × JSONReader :=
  let r := { r with jsonPos := eatWhitespaceAndComments r.jsonPos }
  match r.jsonPos with
  | [] => (⟨.endOfInput, 0⟩, r)
  | c :: _ => r.tokenOf c

/-- A function of the reader that returns a value or a null pointer. -/
abbrev Build (α : Type) : Type := JSONReader → Except JSONReader (α × JSONReader)

/-- What follows a value in a list or a dictionary, up to the token that the loop goes on with. -/
def parseSeparator (close : TokenType) (r : JSONReader) : Except JSONReader (Token × JSONReader) :=
  let (token, r) := r.parseToken
  if token.type = .listSeparator then
    let (token, r) := (r.advance token).parseToken
    -- Trailing commas are invalid according to the JSON RFC, but some consumers need the parsing leniency
    if token.type = close ∧ !r.allowTrailingComma then .error (r.setErrorMessage kTrailingComma r.jsonPos)
    else .ok (token, r)
  else if token.type ≠ close then .error r
  else .ok (token, r)

/-- The loop over a list, with the values so far. -/
def buildList (buildValue : Build Value) : Nat → Token → List Value → Build (List Value)
  | 0, _, _, r => .error r
  | n + 1, token, values, r =>
    if token.type = .arrayEnd then .ok (values, r.advance token)
    else do
      let (arrayNode, r) ← buildValue r
      let (token, r) ← parseSeparator .arrayEnd r
      buildList buildValue n token (values ++ [arrayNode]) r

/-- The loop over a dictionary, with the entries so far. -/
def buildDictionary (buildValue : Build Value) : Nat → Token → Entries → Build Entries
  | 0, _, _, r => .error r
  | n + 1, token, entries, r =>
    if token.type = .objectEnd then .ok (entries, r.advance token)
    else if token.type ≠ .string then .error (r.setErrorMessage kUnquotedDictionaryKey r.jsonPos)
    else
      match decodeString (r.text token) with
      | none => .error r
      | some dictKey =>
        let (token, r) := (r.advance token).parseToken
        if token.type ≠ .objectPairSeparator then .error r
        else do
          -- the token behind the colon is parsed here, and again by `BuildValue`
          let (_, r) := (r.advance token).parseToken
          let (dictValue, r) ← buildValue r
          let (token, r) ← parseSeparator .objectEnd r
          buildDictionary buildValue n token (entries.set dictKey dictValue) r

/-- `BuildValue`, with the levels that the limit leaves. -/
def buildValue : Nat → Bool → Build Value
  | 0, _, r => .error (r.setErrorMessage kTooMuchNesting r.jsonPos)
  | levels + 1, isRoot, r =>
    let (token, r) := r.parseToken
    -- The root token must be an array or an object.
    if isRoot ∧ token.type ≠ .objectBegin ∧ token.type ≠ .arrayBegin then
      .error (r.setErrorMessage kBadRootElementType r.jsonPos)
    else
      match token.type with
      | .nullToken => .ok (.null, r.advance token)
      | .boolTrue => .ok (.boolean true, r.advance token)
      | .boolFalse => .ok (.boolean false, r.advance token)
      | .number => .ok (decodeNumber (r.text token), r.advance token)
      | .string =>
        match decodeString (r.text token) with
        | none => .error r
        | some s => .ok (.string s, r.advance token)
      | .arrayBegin => do
        let (token, r) := (r.advance token).parseToken
        let (values, r) ← buildList (buildValue levels false) (r.jsonPos.length + 1) token [] r
        return (.list values, r)
      | .objectBegin => do
        let (token, r) := (r.advance token).parseToken
        let (entries, r) ← buildDictionary (buildValue levels false) (r.jsonPos.length + 1) token [] r
        return (.dictionary entries, r)
      | _ => .error r

/-- `JsonToValue`, with the error message if it is a null pointer. -/
def jsonToValue (json : Bytes) (checkRoot allowTrailingComma : Bool) : Except String Value :=
  -- The input must be in UTF-8.
  if !isStringUTF8 (cStr json) then .error kUnsupportedEncoding
  else
    let failed (r : JSONReader) : Except String Value :=
      .error (if r.errorMessage = "" then (r.setErrorMessage kSyntaxError r.jsonPos).errorMessage else r.errorMessage)
    match buildValue kStackLimit checkRoot ⟨cStr json, cStr json, allowTrailingComma, ""⟩ with
    | .error r => failed r
    | .ok (root, r) =>
      let (token, r) := r.parseToken
      if token.type = .endOfInput then .ok root else failed (r.setErrorMessage kUnexpectedDataAfterRoot r.jsonPos)

/-- `ReadAndReturnError`. -/
def readAndReturnError (json : Bytes) (allowTrailingComma : Bool) : Except String Value := jsonToValue json true allowTrailingComma

end JSONReader

end Cpp
