import AnchorLowering.Text.Basic

/-!
# Tables

A table maps names to values and remembers in which order the names were first set, so whatever is
listed from it comes out in the order in which it was written.
-/

namespace AnchorLowering

/-- A table from names to values that remembers in which order the names were first set. -/
abbrev Table (α : Type) := List (Text × α)

namespace Table

variable {α : Type}

def set (table : Table α) (name : Text) (value : α) : Table α :=
  match table with
  | [] => [(name, value)]
  | (n, v) :: rest => if n == name then (n, value) :: rest else (n, v) :: set rest name value

def get? (table : Table α) (name : Text) : Option α := table.lookup name

/-- The table that results from setting the entries one after the other. -/
def ofEntries (entries : List (Text × α)) : Table α :=
  entries.foldl (fun table e => set table e.1 e.2) []

end Table

end AnchorLowering
