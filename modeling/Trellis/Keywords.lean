import Trellis.Token

/-!
# Keyword tables

Keywords may be spelled otherwise than by their canonical names. A table maps spellings to keywords; it
is made from the canonical names by a list of overrides, each a canonical name with its new spelling.
Names that no keyword has are passed over, a name given twice takes the later spelling, and a name that
is not mentioned keeps its own. The constant keyword has two canonical names, each with a spelling of its
own.
-/

namespace Trellis

structure KeywordTable where
  entries : List (String × Keyword)

namespace KeywordTable

def canonical : List (String × Keyword) :=
  [("use", .useKw), ("expose", .exposeKw), ("pick", .pickKw), ("as", .asKw), ("task", .taskKw),
    ("wait", .waitKw), ("to", .toKw), ("run", .runKw), ("if", .ifKw), ("else", .elseKw),
    ("let", .letKw), ("const", .constKw), ("cst", .constKw), ("fn", .fnKw), ("return", .returnKw),
    ("end", .endKw), ("for", .forKw), ("in", .inKw), ("range", .rangeKw), ("switch", .switchKw),
    ("case", .caseKw), ("default", .defaultKw), ("break", .breakKw), ("NaN", .nanKw),
    ("nil", .nilKw), ("true", .trueKw), ("false", .falseKw)]

/-- The spelling that a list of overrides gives to a canonical name: the last one given, or the name. -/
def spelling (overrides : List (String × String)) (name : String) : String :=
  ((overrides.reverse.find? (·.1 == name)).map (·.2)).getD name

/-- **The table that a list of overrides makes of the canonical names.** -/
def ofOverrides (overrides : List (String × String)) : KeywordTable :=
  ⟨canonical.map fun (name, k) => (spelling overrides name, k)⟩

def default : KeywordTable :=
  ⟨canonical⟩

def find? (t : KeywordTable) (word : String) : Option Keyword :=
  (t.entries.find? (·.1 == word)).map (·.2)

def sorted (t : KeywordTable) : List (String × Keyword) :=
  t.entries.eraseDups.mergeSort fun a b => a.1 ≤ b.1

end KeywordTable

end Trellis
