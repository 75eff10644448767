import TerminalShell.Toml.Value

/-!
Tables in the making. A table remembers how it came about, because that decides whether a later
line may add to it; a value that has been written is never added to.
-/
namespace TerminalShell.Toml

inductive Origin where
  /-- As the parent of a table with a header. -/
  | implied
  /-- Through a key with dots. -/
  | dotted
  | header
  deriving DecidableEq, Repr

inductive Node where
  | value (v : Value)
  | table (origin : Origin) (entries : List (String × Node))
  /-- The tables of one repeated header, the latest first. -/
  | tables (latest : List (String × Node)) (earlier : List (List (String × Node)))

abbrev Entries := List (String × Node)

namespace Entries

/-- Lets a key hold a node, in the place of the one it holds. -/
def put (key : String) (node : Node) : Entries → Entries
  | [] => [(key, node)]
  | entry :: rest => if entry.1 = key then (key, node) :: rest else entry :: put key node rest

/-- Adds a value below a key with dots. The tables on the way are new or have no header, and the
last one has come about through such keys. -/
def insert? : List String → Value → Entries → Option Entries
  | [], _, _ => none
  | [key], v, entries =>
    if (entries.lookup key).isSome then none else some (entries.put key (.value v))
  | key :: next :: rest, v, entries =>
    match entries.lookup key with
    | none => (insert? (next :: rest) v []).map fun sub => entries.put key (.table .dotted sub)
    | some (.table .dotted sub) =>
      (insert? (next :: rest) v sub).map fun sub => entries.put key (.table .dotted sub)
    | some (.table .implied sub) =>
      if rest.isEmpty then none
      else (insert? (next :: rest) v sub).map fun sub => entries.put key (.table .implied sub)
    | some (.tables latest earlier) =>
      if rest.isEmpty then none
      else (insert? (next :: rest) v latest).map fun latest =>
        entries.put key (.tables latest earlier)
    | some (.table .header _) | some (.value _) => none

/-- Changes the entries at the end of a path of headers, where the latest of several tables
stands for all. -/
def alter? (change : Entries → Option Entries) : List String → Entries → Option Entries
  | [], entries => change entries
  | key :: path, entries =>
    match entries.lookup key with
    | none => (alter? change path []).map fun sub => entries.put key (.table .implied sub)
    | some (.table origin sub) => (alter? change path sub).map fun sub =>
        entries.put key (.table origin sub)
    | some (.tables latest earlier) => (alter? change path latest).map fun latest =>
        entries.put key (.tables latest earlier)
    | some (.value _) => none

/-- Begins a table with a header; only a table implied so far can still get one. -/
def header? (key : String) (entries : Entries) : Option Entries :=
  match entries.lookup key with
  | none => some (entries.put key (.table .header []))
  | some (.table .implied sub) => some (entries.put key (.table .header sub))
  | _ => none

def repeatedHeader? (key : String) (entries : Entries) : Option Entries :=
  match entries.lookup key with
  | none => some (entries.put key (.tables [] []))
  | some (.tables latest earlier) => some (entries.put key (.tables [] (latest :: earlier)))
  | _ => none

end Entries

mutual

def Node.toValue : Node → Value
  | .value v => v
  | .table _ entries => .table (entriesToValues entries)
  | .tables latest earlier =>
    .array ((Value.table (entriesToValues latest) :: tablesToValues earlier).reverse)

def entriesToValues : List (String × Node) → List (String × Value)
  | [] => []
  | (key, node) :: rest => (key, node.toValue) :: entriesToValues rest

def tablesToValues : List (List (String × Node)) → List Value
  | [] => []
  | entries :: rest => Value.table (entriesToValues entries) :: tablesToValues rest

end

end TerminalShell.Toml
