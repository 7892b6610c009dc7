import UtilityCss.Toml.Scalar

namespace UtilityCss.Toml

/-- How a table came to be, which decides what may still be added to it. -/
inductive Origin where
  /-- by a header of its own -/
  | header
  /-- by the header of a table below it -/
  | parent
  /-- by a dotted key -/
  | dotted
  /-- written out in one value -/
  | inline
  deriving DecidableEq, Repr

inductive Item where
  | scalar (value : Scalar)
  | array (items : List Item)
  | table (origin : Origin) (entries : List (String × Item))
  /-- tables under one repeated header, the last apart -/
  | rows (earlier : List (List (String × Item))) (last : List (String × Item))

abbrev Table := List (String × Item)

/-- The names of the tables on the way to an entry, and its own. -/
structure Key where
  path : List String
  name : String
  deriving DecidableEq, Repr

namespace Table

/-- Gives a key an item, in the place of the one that it has. -/
def put (name : String) (item : Item) (t : Table) : Table :=
  if t.any (·.1 == name) then t.map fun (k, old) => if k = name then (k, item) else (k, old)
  else t ++ [(name, item)]

/-- Changes the table at the end of a path by `f`, which is told its origin. Tables that are missing are
made, with the origin `made`. A path of dotted keys leads through no table that has a header, and no
path leads into a table that is written out. -/
def alter (made : Origin) (f : Origin → Table → Option Table) :
    List String → Origin → Table → Option Table
  | [], origin, t => f origin t
  | name :: path, _, t =>
    match t.lookup name with
    | none => (alter made f path made []).map fun inner => put name (.table made inner) t
    | some (.table origin inner) =>
      if origin = .inline ∨ (made = .dotted ∧ origin = .header) then none
      else (alter made f path origin inner).map fun inner => put name (.table origin inner) t
    | some (.rows earlier last) =>
      (alter made f path .header last).map fun last => put name (.rows earlier last) t
    | some (.scalar _) | some (.array _) => none

/-- Adds an entry. A dotted key adds only to tables that dotted keys have made. -/
def assign (key : Key) (item : Item) (t : Table) : Option Table :=
  alter .dotted (fun origin inner =>
    if (key.path ≠ [] ∧ origin ≠ .dotted) ∨ (inner.lookup key.name).isSome then none
    else some (put key.name item inner)) key.path .header t

/-- Opens a table under its header. A table has one header at most, and none if dotted keys made it. -/
def openTable (key : Key) (t : Table) : Option Table :=
  alter .parent (fun _ inner =>
    match inner.lookup key.name with
    | none => some (put key.name (.table .header []) inner)
    | some (.table .parent below) => some (put key.name (.table .header below) inner)
    | some _ => none) key.path .header t

/-- Opens one more table under a repeated header. -/
def openRow (key : Key) (t : Table) : Option Table :=
  alter .parent (fun _ inner =>
    match inner.lookup key.name with
    | none => some (put key.name (.rows [] []) inner)
    | some (.rows earlier last) => some (put key.name (.rows (earlier ++ [last]) []) inner)
    | some _ => none) key.path .header t

end Table
end UtilityCss.Toml
