import Trellis.Text.CodePoints

/-!
# Characters that begin a grapheme

The characters outside ASCII that are in one grapheme with whatever follows them: number signs that
span digits, and letters that are written above or before the next one.
-/

namespace Trellis.Text.Table

def graphemePrepend : CodePoints := .ofRuns [
  1536,6,215,1,49,1,384,2,80,1,1131,1,66414,1,15,1,244,2,525,1,1389,1,1,1,322,6,700,1,443,1]

end Trellis.Text.Table
