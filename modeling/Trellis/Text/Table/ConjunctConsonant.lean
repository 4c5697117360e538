import Trellis.Text.CodePoints

/-!
# Consonants that form conjuncts

The characters outside ASCII whose `Indic_Conjunct_Break` is `Consonant`: letters that are written as
one with the letter before them when a linker stands between the two.
-/

namespace Trellis.Text.Table

def conjunctConsonant : CodePoints := .ofRuns [
  2325,37,30,8,24,8,21,20,1,7,1,1,3,4,34,2,1,1,16,2,163,20,1,7,1,2,1,5,63,1,27,20,1,7,1,2,1,5,34,2,1,1,17,1,163,20,1,
  16,30,3,186,38,709,43,20,1,16,6,4,4,3,1,3,2,7,3,4,13,12,1,1777,52,620,53,182,2,6,33,17,8,54,30,13,2,11,3,36299,3,3,
  36,45,5,2,9,10,5,97,16,1,3,6,1,3,2,96,11,213,27,24101,1,15,4,1,3,1,29,1741,36,29,1,2,1,568,10,1,1,2,1,1,38,1354,7,2,
  1,2,8,1,2,1,24,208,1,10,40,29,1,11,40,1152,13,1,34]

end Trellis.Text.Table
