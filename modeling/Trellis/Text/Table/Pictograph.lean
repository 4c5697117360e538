import Trellis.Text.CodePoints

/-!
# Pictographs

The characters outside ASCII with the property `Extended_Pictographic`, which can be joined into one
picture.
-/

namespace Trellis.Text.Table

def pictograph : CodePoints := .ofRuns [
  169,1,4,1,8077,1,12,1,216,1,22,1,90,6,15,2,367,2,12,1,166,1,25,11,4,3,199,1,231,2,10,1,9,1,58,4,1,5,9,1,2,1,2,2,2,1,
  4,1,2,1,1,2,2,1,3,1,3,2,8,3,5,1,1,1,5,12,11,2,2,1,1,2,1,1,18,1,2,2,18,6,1,1,1,2,3,2,5,1,2,2,4,2,11,2,5,2,2,1,5,2,1,
  1,1,2,20,2,5,6,1,4,2,1,4,1,2,1,2,6,1,1,2,1,1,1,1,1,6,1,3,1,6,1,10,2,15,1,2,1,4,1,1,1,4,3,1,1,11,2,48,3,9,1,14,1,14,
  1,372,2,463,3,19,2,51,1,4,1,1242,1,12,1,601,1,1,1,114026,1,39,4,100,12,15,2,15,1,14,2,37,10,112,2,12,2,14,1,2,10,19,
  56,27,15,10,1,20,1,2,9,1,4,9,23,6,188,2,112,2,2,1,3,2,83,2,3,1,4,5,254,1,63,11,6,1,24,7,2,2,8,12,1,2,4,2,1,4,2,13,2,
  2,1,8,2,9,1,5,3,12,3,8,3,2,1,1,1,4,1,6,1,3,1,6,86,48,70,5,8,2,17,3,1,1,6,2,13,218,38,12,4,56,8,10,6,40,8,30,2,12,4,
  2,14,9,39,12,47,1,10,1,185,88,8,14,146,256,1022]

end Trellis.Text.Table
