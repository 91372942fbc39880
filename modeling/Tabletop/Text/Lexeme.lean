/-!
# Lexemes

Splitting a text into lexemes. A `Lexicon` says which characters stand between lexemes and what the
longest lexeme at the start of a text is; `Lexicon.scan` goes through the text from left to right
and stops at the first character that starts no lexeme. Positions are byte offsets.
-/

namespace Tabletop

/-- A piece of a text: what it is, its characters, and the offset of its first byte. -/
structure Lexeme (κ : Type) where
  kind : κ
  text : String
  position : Nat
deriving DecidableEq, Repr, Inhabited

/-- The offset just behind the lexeme. -/
def Lexeme.stop {κ : Type} (l : Lexeme κ) : Nat :=
  l.position + l.text.utf8ByteSize

/-- A character that starts no lexeme, or a lexeme that cannot stand where it does, by its first
character. -/
structure LexError where
  position : Nat
  char : Char
deriving DecidableEq, Repr, Inhabited

/-- The lexemes of a notation. -/
structure Lexicon (κ : Type) where
  /-- The character may stand between lexemes. -/
  separates : Char → Bool
  /-- The longest lexeme at the start of a text: its kind and its number of characters. -/
  longest? : List Char → Option (κ × Nat)

/-- The lexemes of a text up to the first character that starts none. -/
structure Scan (κ : Type) where
  lexemes : List (Lexeme κ)
  fault : Option LexError
deriving Repr, Inhabited

namespace Lexicon

/-- Splits the text `cs`, which stands at `position`. A lexeme has at least one character. -/
def scan {κ : Type} (lx : Lexicon κ) (position : Nat) : List Char → Scan κ
  | [] => ⟨[], none⟩
  | c :: cs =>
    if lx.separates c then
      lx.scan (position + c.utf8Size) cs
    else
      match lx.longest? (c :: cs) with
      | some (kind, n + 1) =>
        let text := String.ofList (c :: cs.take n)
        let rest := lx.scan (position + text.utf8ByteSize) (cs.drop n)
        ⟨⟨kind, text, position⟩ :: rest.lexemes, rest.fault⟩
      | _ => ⟨[], some ⟨position, c⟩⟩
termination_by cs => cs.length

end Lexicon

/-! ## Lexemes that notations share -/

namespace Lexicon

/-- The length of the longest run of `p` at the start of a text. -/
def run (p : Char → Bool) (cs : List Char) : Nat :=
  (cs.takeWhile p).length

/-- The length of a reference `${name}` at the start of a text: the name is not empty and runs up
to the first closing brace. -/
def reference? : List Char → Option Nat
  | '$' :: '\x7b' :: cs =>
    let n := run (· != '\x7d') cs
    if n = 0 || (cs.drop n).isEmpty then none else some (n + 3)
  | _ => none

end Lexicon

end Tabletop
