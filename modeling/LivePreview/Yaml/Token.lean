/-!
# YAML tokens

What a YAML stream consists of once indentation is made explicit: every block collection has its
start and end, every mapping key and value its mark.
-/
namespace LivePreview.Yaml

/-- How a scalar is written. -/
inductive ScalarStyle where
  | plain
  | quoted
  | block
deriving DecidableEq, Repr

inductive TokenKind where
  | versionDirective
  | tagDirective (handle tagPrefix : String)
  /-- A directive that has no meaning here. -/
  | reservedDirective
  | documentStart
  | documentEnd
  | streamEnd
  | blockSequenceStart
  | blockMappingStart
  | blockEnd
  | flowSequenceStart
  | flowSequenceEnd
  | flowMappingStart
  | flowMappingEnd
  | blockEntry
  | flowEntry
  | key
  | value
  | reference (name : String)
  | anchor (name : String)
  | tag (handle suffix : String)
  | scalar (style : ScalarStyle) (text : String)
deriving DecidableEq, Repr

structure Token where
  kind : TokenKind
  /-- The column in which the token begins, counted from zero. -/
  column : Nat
deriving DecidableEq, Repr

/-- Why a stream is no YAML. -/
inductive Fault where
  | unexpectedCharacter
  | badIndentation
  | tabInIndentation
  | commentNotSeparated
  | badDirective
  | badTag
  | badAnchor
  | badQuotedScalar
  | badEscape
  | badBlockScalar
  | badPlainScalar
  | misplacedBracket
  | misplacedEntry
  | misplacedKey
  | misplacedValue
  | missingColon
  | tooDeep
  | badDocumentMarker
  | missingNode
  | unknownAnchor
  | unknownTagHandle
  | badCollection
deriving DecidableEq, Repr

end LivePreview.Yaml
