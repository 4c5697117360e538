import Trellis.Text.CodePoints

/-!
# Linkers of consonants

The characters outside ASCII whose `Indic_Conjunct_Break` is `Linker`: signs that take the vowel from
a consonant and link it with the next one.
-/

namespace Trellis.Text.Table

def conjunctLinker : CodePoints := .ofRuns [
  2381,1,127,1,255,1,127,1,255,1,255,1,747,1,1944,1,653,1,227,1,102,1,36372,1,309,1,24392,1,1779,1,668,1,1389,1,264,1,
  81,1,1192,1]

end Trellis.Text.Table
