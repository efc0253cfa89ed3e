import Ephippion.Support.ArgSpec

/-!
# JSON values and the decoding of specifications

What the sources ask of a JSON value, and how a specification is decoded from one. Parsing a text is
LLVM's: it is a parameter, `none` for a text that is no JSON. A floating point number is known by
the `int64_t` it is equal to, if there is one.

Decoding goes into a specification that is there already; one that fails leaves it as it was
(`fromJSON_eq`).
-/

namespace Ephippion

inductive Json
  | null
  | boolean (b : Bool)
  | integer (v : BitVec 64)
  | double (asInteger : Option (BitVec 64))
  | string (s : String)
  | array (elems : List Json)
  | object (members : List (String × Json))

/-- The members of an object. -/
abbrev JsonObject := List (String × Json)

namespace Json

def getAsObject : Json → Option JsonObject
  | object members => some members
  | _ => none

def getAsArray : Json → Option (List Json)
  | array elems => some elems
  | _ => none

def getAsString : Json → Option String
  | string s => some s
  | _ => none

def getAsBoolean : Json → Option Bool
  | boolean b => some b
  | _ => none

def getAsInteger : Json → Option (BitVec 64)
  | integer v => some v
  | double asInteger => asInteger
  | _ => none

end Json

namespace JsonObject

def get (o : JsonObject) (key : String) : Option Json := o.lookup key

def getString (o : JsonObject) (key : String) : Option String := (o.get key).bind (·.getAsString)

def getObject (o : JsonObject) (key : String) : Option JsonObject :=
  (o.get key).bind (·.getAsObject)

def getArray (o : JsonObject) (key : String) : Option (List Json) := (o.get key).bind (·.getAsArray)

end JsonObject

/-- `fromJSON(const Value &, int &)`: what an `int` gets of an `int64_t`. -/
def getAsInt (e : Json) : Option (BitVec 32) := e.getAsInteger.map (·.setWidth 32)

/-- `static_cast<ArgDirection>`. -/
def ArgDirection.ofInt (direction : BitVec 32) : ArgDirection := ⟨direction.setWidth 8⟩

/-- `fromJSON(const Value &, ArgSpec &)`: does it succeed, and the specification after it. -/
def fromJSON (e : Json) (r : ArgSpec) : Bool × ArgSpec :=
  match e.getAsObject with
  | none => (false, r)
  | some o =>
    match (o.get "direction").bind getAsInt, (o.get "iterator dependent").bind (·.getAsBoolean) with
    | some direction, some iteratorDependent =>
      (true, { r with direction := .ofInt direction, iteratorDependent := iteratorDependent })
    | _, _ => (false, r)

/-- Both fields of a specification, if they can be decoded. -/
def decodeFields (e : Json) : Option (ArgDirection × Bool) :=
  e.getAsObject.bind fun o => ((o.get "direction").bind getAsInt).bind fun direction =>
    ((o.get "iterator dependent").bind (·.getAsBoolean)).map fun iteratorDependent =>
      (.ofInt direction, iteratorDependent)

theorem fromJSON_eq (e : Json) (r : ArgSpec) : fromJSON e r = match decodeFields e with
    | some (direction, iteratorDependent) => (true, ⟨r.name, direction, iteratorDependent⟩)
    | none => (false, r) := by
  unfold fromJSON decodeFields
  cases e.getAsObject with
  | none => rfl
  | some o =>
    simp only [Option.bind_some]
    cases (o.get "direction").bind getAsInt with
    | none => rfl
    | some direction => cases (o.get "iterator dependent").bind (·.getAsBoolean) <;> rfl

end Ephippion
