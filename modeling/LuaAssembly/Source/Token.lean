import LuaAssembly.Bytes.Printable
import LuaAssembly.Source.Position

/-!
# Tokens

Source is a sequence of tokens with blanks and comments between them.  A token that starts with a
double quote runs to the next double quote that is not escaped, or to the end of its line; any
other token runs to the next blank or semicolon.  A semicolon outside a token starts a comment,
which runs to the end of the line.
-/
namespace LuaAssembly

/-- The classes of tokens. -/
inductive TokenKind where
  | eof
  /-- A directive, mnemonic, number, register, constant or bare name. -/
  | word
  /-- A quoted literal, quotes included. -/
  | string
  /-- Any other class, by number. -/
  | other (code : Int)
  deriving DecidableEq

namespace TokenKind

/-- The class with the given number. -/
def ofCode (code : Int) : TokenKind :=
  if code = 0 then .eof else if code = 1 then .word else if code = 2 then .string else .other code

/-- The name of the class. -/
def name : TokenKind → Bytes
  | .eof => utf8 "EOF"
  | .word => utf8 "WORD"
  | .string => utf8 "STRING"
  | .other code => utf8 "Token(" ++ Numeral.ofInt code ++ utf8 ")"

end TokenKind

/-- A token of source. -/
structure Token where
  kind : TokenKind
  /-- Its text, as it stands in the source. -/
  literal : Bytes
  pos : Position
  deriving DecidableEq

namespace Token

/-- The position just after the token. -/
def stop (t : Token) : Position :=
  t.pos.shift t.literal.length

/-- The token as a message shows it: class and text, the text cut after twenty bytes. -/
def text (t : Token) : Bytes :=
  match t.kind with
  | .eof => utf8 "EOF"
  | kind =>
    if 20 < t.literal.length then
      kind.name ++ utf8 "(" ++ Bytes.shown (t.literal.take 20) ++ utf8 "...)"
    else kind.name ++ utf8 "(" ++ t.literal.shown ++ utf8 ")"

end Token

/-! ## The lexer

The lexer reads one byte at a time.  What it does with a byte depends on its mode only. -/

/-- A blank. -/
def isBlank (b : UInt8) : Bool :=
  b = 0x20 || (0x09 ≤ b && b ≤ 0x0D)

/-- What the lexer is in the middle of.  The bytes of an unfinished token are kept in reverse. -/
inductive LexMode where
  | gap
  | comment
  | word (start : Position) (read : Bytes)
  /-- Inside a literal that started at `start`; `escaped` after a backslash that counts. -/
  | literal (start : Position) (read : Bytes) (escaped : Bool)

namespace LexMode

/-- The token that ends where the lexer stands, if it is inside one. -/
def finish : LexMode → Option Token
  | .gap => none
  | .comment => none
  | .word start read => some ⟨.word, read.reverse, start⟩
  | .literal start read _ => some ⟨.string, read.reverse, start⟩

/-- The mode after a byte at position `p` that stands between tokens. -/
def openWith (p : Position) (b : UInt8) : LexMode :=
  if isBlank b then .gap
  else if b = 0x3B then .comment
  else if b = 0x22 then .literal p [b] false
  else .word p [b]

/-- One byte at position `p`: the token it completes, if any, and the next mode. -/
def step (p : Position) (b : UInt8) : LexMode → Option Token × LexMode
  | .gap => (none, openWith p b)
  | .comment => (none, if b = 0x0A then .gap else .comment)
  | .word start read =>
    if isBlank b || b = 0x3B then (finish (.word start read), openWith p b)
    else (none, .word start (b :: read))
  | .literal start read escaped =>
    if b = 0x0A then (finish (.literal start read escaped), .gap)
    else if escaped then (none, .literal start (b :: read) false)
    else if b = 0x22 then (finish (.literal start (b :: read) false), .gap)
    else (none, .literal start (b :: read) (b = 0x5C))

end LexMode

/-- Source cut into tokens. -/
structure Lexed where
  tokens : List Token
  /-- The position of the end of the source. -/
  stop : Position

/-- Reads source in a given mode from position `p` on; `done` holds the tokens found so far, the
newest first. -/
def lexFrom (p : Position) (mode : LexMode) (done : List Token) : Bytes → Lexed
  | [] => ⟨(mode.finish.toList ++ done).reverse, p⟩
  | b :: rest =>
    let (token, next) := mode.step p b
    lexFrom (p.advance b) next (token.toList ++ done) rest

/-- The tokens of a source text. -/
def lex (source : Bytes) : Lexed :=
  lexFrom .start .gap [] source

/-- The tokens of a source text, without the end. -/
def tokenize (source : Bytes) : List Token :=
  (lex source).tokens

end LuaAssembly
