import Trellis.Text.CodePoints

/-!
# Characters that stand apart

The characters outside ASCII that never share a grapheme with a neighbour: controls, format characters,
the separators of lines and paragraphs, and unassigned code points that are meant to be ignored.
-/

namespace Trellis.Text.Table

def graphemeControl : CodePoints := .ofRuns [
  128,32,13,1,1390,1,4593,1,2044,1,2,2,24,7,49,16,56975,1,240,12,13364,16,34912,4,5327,8,798341,32,96,128,240,3600]

end Trellis.Text.Table
