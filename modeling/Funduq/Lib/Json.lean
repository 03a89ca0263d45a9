/-!
# JSON values

The values that cross a JSON boundary: what a reader finds under a key, and
nothing about how the text is written.  An object is the list of its members in
the order they were put there; a reader only ever asks for one by its key, and
the first member of that key answers.
-/

namespace Funduq.Lib

/-- A JSON value.  Numbers are integers: nothing here computes with them. -/
inductive Json where
  | null
  | bool (b : Bool)
  | num (n : Int)
  | str (s : String)
  | arr (items : List Json)
  | obj (members : List (String × Json))
  deriving Repr, Inhabited

namespace Json

/-- The members of an object, `none` for every other value. -/
def members? : Json → Option (List (String × Json))
  | obj ms => some ms
  | _ => none

/-- The string a value is, `none` for every other value. -/
def str? : Json → Option String
  | str s => some s
  | _ => none

/-- What an object holds under `key`; `none` when it holds nothing there or is
not an object. -/
def get? (j : Json) (key : String) : Option Json :=
  j.members?.bind fun ms => (ms.find? fun m => m.1 = key).map Prod.snd

/-- The string an object holds under `key`. -/
def getStr? (j : Json) (key : String) : Option String :=
  (j.get? key).bind str?

/-- Whether a value counts as true: nothing that is empty does. -/
def truthy : Json → Bool
  | null => false
  | bool b => b
  | num n => n ≠ 0
  | str s => s ≠ ""
  | arr items => !items.isEmpty
  | obj members => !members.isEmpty

/-- `value or default`. -/
def orElse (value other : Json) : Json := if value.truthy then value else other

end Json

end Funduq.Lib
