import Tabletop.Error
import Tabletop.Narrative.Face

/-!
# Tokens of narrative notation

A text is first split into `Piece`s. A run of letters is then read as a group's name if a colon
follows it, and else one die or symbol a letter. Commas separate like white space.
-/

namespace Tabletop.Narrative

/-- What the text is split into at first. -/
inductive Piece where
  | int
  | reference
  | word
  | colon
  | leftParen
  | rightParen
deriving DecidableEq, Repr, Inhabited

/-- What a token is. -/
inductive Kind where
  | int
  | reference
  | die (d : SymbolDie)
  | symbol (f : Face)
  /-- The name of a group, without the colon behind it. -/
  | groupName
  | leftParen
  | rightParen
deriving DecidableEq, Repr, Inhabited

namespace Kind

/-- How messages name the kind. -/
def label : Kind → String
  | int => "<integer>"
  | reference => "<reference>"
  | die _ => "<die>"
  | symbol _ => "<symbol>"
  | groupName => "<group name>"
  | leftParen => "'('"
  | rightParen => "')'"

instance : ToString Kind := ⟨label⟩

/-- The die or the symbol that a letter stands for. -/
def ofLetter? (c : Char) : Option Kind :=
  match SymbolDie.ofLetter? c with
  | some d => some (.die d)
  | none => (Face.ofLetter? c).map .symbol

end Kind

/-- A token with its text and position. -/
abbrev Token := Lexeme Kind

/-- White space and commas between tokens. -/
def isSeparator (c : Char) : Bool :=
  c == ' ' || c == '\t' || c == '\r' || c == '\n' || c == ','

/-- The character may be part of a word. -/
def isWordChar (c : Char) : Bool :=
  c.isAlpha || c == '_'

/-- The longest piece at the start of a text. -/
def longest? : List Char → Option (Piece × Nat)
  | [] => none
  | c :: cs =>
    if c = ':' then some (.colon, 1)
    else if c = '(' then some (.leftParen, 1)
    else if c = ')' then some (.rightParen, 1)
    else if c.isDigit then some (.int, Lexicon.run Char.isDigit (c :: cs))
    else if isWordChar c then some (.word, Lexicon.run isWordChar (c :: cs))
    else (Lexicon.reference? (c :: cs)).map (.reference, ·)

/-- The pieces of narrative notation. -/
def lexicon : Lexicon Piece := ⟨isSeparator, longest?⟩

/-- A word as dice and symbols, one a letter. -/
def spell (position : Nat) : List Char → Except LexError (List Token)
  | [] => .ok []
  | c :: cs =>
    match Kind.ofLetter? c with
    | none => .error ⟨position, c⟩
    | some kind => (spell (position + c.utf8Size) cs).map (⟨kind, c.toString, position⟩ :: ·)

/-- Decides what the words of a scanned text are. A colon elsewhere is an error. -/
def settle (fault : Option LexError) : List (Lexeme Piece) → Except LexError (List Token)
  | [] =>
    match fault with
    | none => .ok []
    | some e => .error e
  | ⟨.int, text, position⟩ :: rest => (settle fault rest).map (⟨.int, text, position⟩ :: ·)
  | ⟨.reference, text, position⟩ :: rest =>
    (settle fault rest).map (⟨.reference, text, position⟩ :: ·)
  | ⟨.leftParen, text, position⟩ :: rest =>
    (settle fault rest).map (⟨.leftParen, text, position⟩ :: ·)
  | ⟨.rightParen, text, position⟩ :: rest =>
    (settle fault rest).map (⟨.rightParen, text, position⟩ :: ·)
  | ⟨.colon, _, position⟩ :: _ => .error ⟨position, ':'⟩
  | ⟨.word, text, position⟩ :: ⟨.colon, _, _⟩ :: rest =>
    (settle fault rest).map (⟨.groupName, text, position⟩ :: ·)
  | ⟨.word, text, position⟩ :: rest => do
    let letters ← spell position text.toList
    (settle fault rest).map (letters ++ ·)

/-- The tokens of a text. -/
def tokenize (text : String) : Except LexError (List Token) :=
  let scan := lexicon.scan 0 text.toList
  settle scan.fault scan.lexemes

end Tabletop.Narrative
