/-!
# Ordered dictionaries

A dictionary is the list of its entries in the order in which their keys were first inserted.  Inserting under a key
that is there keeps the place and replaces the entry.
-/
namespace Monkey.Dict

/-- The dictionary with one more entry. -/
def insert {κ ν : Type} [BEq κ] (key : κ) (value : ν) : List (κ × ν) → List (κ × ν)
  | [] => [(key, value)]
  | entry :: rest => if entry.1 == key then (key, value) :: rest else entry :: insert key value rest

/-- The dictionary of entries inserted one after the other. -/
def ofEntries {κ ν : Type} [BEq κ] (entries : List (κ × ν)) : List (κ × ν) :=
  entries.foldl (fun dict entry => insert entry.1 entry.2 dict) []

end Monkey.Dict
