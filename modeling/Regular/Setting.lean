/-!
# Settings

A setting is a value as a file or a request gives it. A group of settings is given by their
names or, in a list, in their order; names that are not known are passed over, but a known
one may occur only once.
-/

namespace Regular

inductive Setting where
  | text (s : String)
  | integer (n : Int)
  | boolean (b : Bool)
  | list (items : List Setting)
  | table (entries : List (String × Setting))
  /-- A value that nothing asks for, such as a number that is no integer. -/
  | other
deriving Inhabited, Repr

namespace Setting

def text? : Setting → Option String
  | text s => some s
  | _ => none

def boolean? : Setting → Option Bool
  | boolean b => some b
  | _ => none

def list? : Setting → Option (List Setting)
  | list items => some items
  | _ => none

def texts? (s : Setting) : Option (List String) := s.list? >>= (·.mapM text?)

/-- A limit, a natural number of 64 bits, where zero lifts the limit. -/
def limit? : Setting → Option (Option Nat)
  | integer n =>
    if n < 0 ∨ UInt64.size ≤ n then none
    else if n = 0 then some none
    else some (some n.toNat)
  | _ => none

/-- The settings with the given names, as far as they are given. -/
def fields? (names : List String) : Setting → Option (List (Option Setting))
  | table entries =>
    names.mapM fun name =>
      match entries.filter (·.1 = name) with
      | [] => some none
      | [(_, s)] => some (some s)
      | _ => none
  | list items =>
    if items.length ≤ names.length then
      some (items.map some ++ List.replicate (names.length - items.length) none)
    else none
  | _ => none

/-- Reads a setting that may be left out. -/
def readOr {α : Type} (default : α) (read : Setting → Option α) : Option Setting → Option α
  | none => some default
  | some s => read s

end Setting

end Regular
