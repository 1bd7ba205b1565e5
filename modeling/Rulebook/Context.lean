import Rulebook.Fields
import Rulebook.Value

/-!
A context holds named values, in the order of their names. A dotted path names a place in it: the
part before the first dot is the root, and every further part names a field of what came before.
Each dot separates, so a part may be empty.

    "user.profile.age"    root user,  rest [profile, age]
    "total"               root total, rest []
    ".a"                  root "",    rest [a]

Paths reach into maps: writing at `user.profile.age` makes the maps on the way that are missing, and
puts a map in the place of any other value that stands there.

    write  user.age 25        {user: {age: 25}}
    write  user.age.years 3   {user: {age: {years: 3}}}      25 was no map

A write at the root of the context and a write inside a map are the same operation on field lists.
-/

namespace Rulebook

/-! ### Paths -/

/-- The parts between the dots, of which there is always at least one. -/
def splitDots : List Char → List Char × List (List Char)
  | [] => ([], [])
  | c :: cs =>
    let (first, rest) := splitDots cs
    if c = '.' then ([], first :: rest) else (c :: first, rest)

/-- A place in a context. -/
structure Path where
  root : String
  rest : List String
  deriving DecidableEq, Repr

/-- The path that a text spells. -/
def Path.ofString (s : String) : Path :=
  let (first, rest) := splitDots s.toList
  ⟨String.ofList first, rest.map String.ofList⟩

/-- All parts of a path, the root first. -/
def Path.parts (p : Path) : List String := p.root :: p.rest

/-! ### Values at paths -/

/-- Write at the end of a path of names. A value on the way that is no map counts as
    an empty one. -/
def Value.write (v : Value) (fs : List (String × Value)) :
    String → List String → List (String × Value)
  | k, [] => Fields.insert k v fs
  | k, j :: ks =>
    let inner := ((Fields.find? k fs).map Value.fields).getD []
    Fields.insert k (.map (Value.write v inner j ks)) fs

/-- Follow names through maps. -/
def Value.descend : List String → Value → Option Value
  | [], v => some v
  | k :: ks, .map fs => (Fields.find? k fs).bind (Value.descend ks)
  | _ :: _, _ => none

/-- Named values. -/
structure Context where
  entries : List (String × Value)
  deriving Inhabited

namespace Context

/-- The context without values. -/
def empty : Context := ⟨[]⟩

/-- The value under a name, which may contain dots. -/
def lookup (k : String) (c : Context) : Option Value := Fields.find? k c.entries

/-- The value at a path, if every part before its end names a map. -/
def get (path : String) (c : Context) : Option Value :=
  let p := Path.ofString path
  (c.lookup p.root).bind (Value.descend p.rest)

/-- Write a value at a path. -/
def insert (path : String) (v : Value) (c : Context) : Context :=
  let p := Path.ofString path
  ⟨v.write c.entries p.root p.rest⟩

/-- Take out the value under a name. -/
def remove (k : String) (c : Context) : Context := ⟨Fields.erase k c.entries⟩

/-- Whether there is a value under a name. -/
def contains (k : String) (c : Context) : Bool := (c.lookup k).isSome

/-- The number of names. -/
def size (c : Context) : Nat := c.entries.length

/-- The context that holds these pairs; of one name the last counts, and dots mean nothing. -/
def ofList (pairs : List (String × Value)) : Context := ⟨Fields.ofList pairs⟩

end Context

end Rulebook
