/-!
# Tags

The tag of a value says of what kind it is. Messages about values name their tags.
-/

namespace Trellis

inductive Tag where
  | number
  | text
  | boolean
  | nil
  | nan
  | object
  | array
  | range
  | function
  | taskFunction
  | lambda
  | module
  | task
deriving DecidableEq, Repr

def Tag.name : Tag → String
  | .number => "number"
  | .text => "string"
  | .boolean => "boolean"
  | .nil => "nil"
  | .nan => "NaN"
  | .object => "object"
  | .array => "array"
  | .range => "range"
  | .function => "function"
  | .taskFunction => "task-function"
  | .lambda => "lambda-function"
  | .module => "environment"
  | .task => "task"

end Trellis
