import Ephippion.Support.ArgSpecParser
import Ephippion.Transforms.SymbolicEncapsulationPass

/-!
# The white list

The names on the white list are what the pass extracts, one after the other, from the file that the
option names.
-/

namespace Ephippion

/-- `is >> str`: spaces, then the characters up to the next one; it fails if there are none. -/
def extract (is : List Char) : Option (String × List Char) :=
  let is := is.dropWhile isSpace
  let str := is.takeWhile (!isSpace ·)
  if str.isEmpty then none else some (String.ofList str, is.dropWhile (!isSpace ·))

/-- `while (wlFile >> funcName)`, for as many rounds as the fuel allows. -/
def extractAll : Nat → List Char → List String
  | 0, _ => []
  | fuel + 1, wlFile => match extract wlFile with
    | some (funcName, rest) => funcName :: extractAll fuel rest
    | none => []

/-- The white list of a file; `none` is one that cannot be opened. Each round takes a character. -/
def readWhiteList (file : Option String) : List String :=
  match file with
  | some text => extractAll text.toList.length text.toList
  | none => []

/-- The options with `-eph-func-wl-file`. -/
def Options.withWhiteListFile (opts : Options) (file : Option String) : Options :=
  { opts with functionWhiteList := some (readWhiteList file) }

end Ephippion
