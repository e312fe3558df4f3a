import Offside.Source.Basic
import Offside.Tree.Arena

/-!
Why a parse fails. Every error but one names the token at which the parse stopped.
-/

namespace Offside

inductive ParseError where
  /-- A line is not indented by a whole number of units past the first line, or it closes or opens
  more than one level at once. -/
  | unalignedIndent (t : Token)
  | unexpectedToken (t : Token)
  | unmatchedBracket (t : Token)
  | outOfMemory
  deriving DecidableEq, Repr

namespace ParseError

def token? : ParseError → Option Token
  | unalignedIndent t | unexpectedToken t | unmatchedBracket t => some t
  | outOfMemory => none

def kind : ParseError → String
  | unalignedIndent _ => "unaligned-indent"
  | unexpectedToken _ => "unexpected-token"
  | unmatchedBracket _ => "unmatched-bracket"
  | outOfMemory => "out-of-memory"

def message : ParseError → String
  | unalignedIndent t => s!"unaligned indentation at byte {t.start}"
  | unexpectedToken t => s!"unexpected {t.tag.name} at byte {t.start}"
  | unmatchedBracket t => s!"unmatched {t.tag.name} at byte {t.start}"
  | outOfMemory => Arena.fullMessage

def describe (s : Source) (e : ParseError) : String :=
  match e.token? with
  | some t => (s.locate t.start).render ++ ": " ++ e.message
  | none => e.message

end ParseError
end Offside
