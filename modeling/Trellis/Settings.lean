/-!
# Settings

What a host may choose about the language: the extension that completes the name of an imported file, the
mark in front of the name of a built-in module, and how strictly the grammar is matched.
-/

namespace Trellis

/-- **How the parser treats a token that is not the one it asks for.** -/
inductive MatchMode where
  | strict
  /-- It is discarded, and so are those behind it, until one fits or `limit` of them are gone. -/
  | lenient (limit : Nat)
deriving DecidableEq, Repr

/-- The number of tokens that lenient matching discards unless told otherwise. -/
def MatchMode.defaultLimit : Nat := 1000000

structure Settings where
  /-- Added to the name of an imported file that has no extension. -/
  moduleExtension : String := "vine"
  /-- Names that start with it are those of built-in modules. -/
  builtinMark : String := "vine:"
  matching : MatchMode := .strict

def Settings.lenient : Settings :=
  { matching := .lenient MatchMode.defaultLimit }

end Trellis
