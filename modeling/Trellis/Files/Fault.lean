/-!
# Why a file operation fails

The reasons for which reading, writing or removing a file can fail, with their wording.
-/

namespace Trellis

inductive FileFault where
  | missing
  | busy
  | present
  | notDirectory
  | isDirectory
  | invalid
  | nameTooLong
  | notEmpty
  /-- A name holds the character that ends names. -/
  | nulInName
  | notText
deriving DecidableEq, Repr

/-- The wording of a reason, with its number in the operating system. -/
def FileFault.message : FileFault → String
  | .missing => "No such file or directory (os error 2)"
  | .busy => "Device or resource busy (os error 16)"
  | .present => "File exists (os error 17)"
  | .notDirectory => "Not a directory (os error 20)"
  | .isDirectory => "Is a directory (os error 21)"
  | .invalid => "Invalid argument (os error 22)"
  | .nameTooLong => "File name too long (os error 36)"
  | .notEmpty => "Directory not empty (os error 39)"
  | .nulInName => "file name contained an unexpected NUL byte"
  | .notText => "stream did not contain valid UTF-8"

end Trellis
