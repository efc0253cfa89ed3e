import Ephippion.Lib.Pattern
import Ephippion.Support.ArgSpec

/-!
# `parser<ArgSpec>`

The command line's parser of specifications: a regular expression takes the text apart, a
`StringSwitch` makes a direction of its first group and `strtoul` a flag of its second.
-/

namespace Ephippion

/-- `StringSwitch`: the value of the first case that is `s`. -/
def stringSwitch {α : Type} (s : String) (cases : List (String × α)) (default : α) : α :=
  (cases.lookup s).getD default

/-- `isspace`, in the C locale. -/
def isSpace (c : Char) : Bool := c = ' ' || 9 ≤ c.toNat && c.toNat ≤ 13

/-- `strtoul(s, &c, 10)`: spaces, a sign and digits; without digits 0, with too many
`ULONG_MAX`. -/
def strtoul (s : List Char) : BitVec 64 :=
  let s := s.dropWhile isSpace
  let negative := s.head? = some '-'
  let s := if negative || s.head? = some '+' then s.tail else s
  let value := (s.takeWhile Char.isDigit).foldl (fun n c => 10 * n + (c.toNat - '0'.toNat)) 0
  if (BitVec.allOnes 64).toNat < value then BitVec.allOnes 64
  else if negative then -BitVec.ofNat 64 value
  else BitVec.ofNat 64 value

namespace ArgSpecParser

/-- `([[:alpha:]]+):([0|1])`; the letters are those of the C locale. -/
def optre : Pattern Char :=
  .seq (.group (.many1 Char.isAlpha))
    (.seq (.one (· = ':')) (.group (.one fun c => ['0', '|', '1'].contains c)))

/-- What `parse` returns, `Val` after it and the text it has given to `O.error`. -/
structure Result where
  errorOccurred : Bool
  val : ArgSpec
  error : Option String
  deriving DecidableEq, Repr

def parse (argValue : String) (val : ArgSpec) : Result :=
  let r : Bool × ArgSpec := match optre.regexMatch argValue.toList with
    | some groups =>
      if groups.length = 3 then
        (false, { val with
          direction := stringSwitch (String.ofList (groups[1]?.getD []))
            [("in", .inbound), ("out", .outbound), ("both", .both)] .inbound
          iteratorDependent := strtoul (groups[2]?.getD []) ≠ 0 })
      else (true, val)
    | none => (true, val)
  if r.1 then ⟨true, r.2, some ("'" ++ argValue ++ "' value invalid for argspec argument!")⟩
  else ⟨false, r.2, none⟩

end ArgSpecParser

end Ephippion
