import Tabletop.Text.Blank

/-!
# References

A reference stands for a number that is supplied when the dice are rolled. It is written `${name}`,
`${@name}` for a property, or `${?question}` for a prompt.
-/

namespace Tabletop

/-- Where the value of a reference comes from. -/
inductive Reference.Kind where
  | named
  | property
  | prompt
deriving DecidableEq, Repr, Inhabited

/-- A name that stands for a number. -/
structure Reference where
  kind : Reference.Kind
  name : String
deriving DecidableEq, Repr, Inhabited

namespace Reference

/-- What stands before the name. -/
def Kind.sigil : Kind → String
  | named => ""
  | property => "@"
  | prompt => "?"

instance : ToString Reference where
  toString r := "$\x7b" ++ r.kind.sigil ++ r.name ++ "\x7d"

/-- The characters between `${` and `}`, or all of them where one of the two is missing. -/
def inner : List Char → List Char
  | '$' :: '\x7b' :: cs => if cs.getLast? = some '\x7d' then cs.dropLast else '$' :: '\x7b' :: cs
  | cs => cs

/-- Reads a written reference. The sigil is the first character; the rest is trimmed. -/
def ofText (text : String) : Reference :=
  match inner text.toList with
  | '@' :: cs => ⟨.property, String.ofList (Text.trimChars cs)⟩
  | '?' :: cs => ⟨.prompt, String.ofList (Text.trimChars cs)⟩
  | cs => ⟨.named, String.ofList (Text.trimChars cs)⟩

end Reference

/-- Supplies the values of references; `none` for those it does not know. -/
abbrev Resolver := Reference → Option Int64

namespace Resolver

/-- Knows no reference. -/
def empty : Resolver := fun _ => none

/-- Looks every reference up in the table of its kind. -/
def ofTables (named properties prompts : List (String × Int64)) : Resolver
  | ⟨.named, name⟩ => named.lookup name
  | ⟨.property, name⟩ => properties.lookup name
  | ⟨.prompt, name⟩ => prompts.lookup name

end Resolver

end Tabletop
