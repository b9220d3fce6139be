import JobAllocation.Binary64.Decimal

/-!
# TOML documents as they grow

A document is built statement by statement. Each table remembers where it came from, because that
decides what may still be added to it: a table that was declared by its own header, one that a
longer header implies, and one that dotted keys imply. Inline tables and arrays are closed as soon
as they are written.
-/
namespace JobAllocation.Toml

/-- A closed value. -/
inductive Value where
  | string (value : String)
  | integer (value : Int)
  | float (value : Binary64)
  | boolean (value : Bool)
  | dateTime (text : String)
  | array (items : List Value)
  | table (entries : List (String × Value))

/-- What brought a table about. -/
inductive Origin where
  /-- A header of its own. -/
  | declared
  /-- A longer header. -/
  | implied
  /-- Dotted keys. -/
  | dotted
  deriving DecidableEq

/-- What a key stands for while the document is read. -/
inductive Item where
  | value (v : Value)
  | table (origin : Origin) (entries : List (String × Item))
  /-- An array of tables: the closed ones, and the entries of the last one. -/
  | rows (earlier : List Value) (entries : List (String × Item))

abbrev Entries := List (String × Item)

mutual

/-- The value that an item has become. -/
def Item.close : Item → Value
  | .value v => v
  | .table _ entries => .table (closeEntries entries)
  | .rows earlier entries => .array (earlier ++ [.table (closeEntries entries)])

def closeEntries : List (String × Item) → List (String × Value)
  | [] => []
  | (name, item) :: rest => (name, item.close) :: closeEntries rest

end

namespace Entries

/-- Sets what a key stands for. A key that is there keeps its place. -/
def put (key : String) (item : Item) : Entries → Entries
  | [] => [(key, item)]
  | entry :: rest => if entry.1 = key then (key, item) :: rest else entry :: put key item rest

/-- Changes the entries to which a path of tables leads. Tables that are missing on the way are
implied, and of an array of tables the last one is meant. -/
def modify (f : Entries → Option Entries) : List String → Entries → Option Entries
  | [], entries => f entries
  | key :: path, entries =>
    match entries.lookup key with
    | none => (modify f path []).map fun e => put key (.table .implied e) entries
    | some (.table origin e) => (modify f path e).map fun e => put key (.table origin e) entries
    | some (.rows earlier e) => (modify f path e).map fun e => put key (.rows earlier e) entries
    | some (.value _) => none

/-- Declares a table by its header. A table can be declared once, and not after dotted keys have
made it. -/
def declare (key : String) (entries : Entries) : Option Entries :=
  match entries.lookup key with
  | none => some (put key (.table .declared []) entries)
  | some (.table .implied e) => some (put key (.table .declared e) entries)
  | some _ => none

/-- Begins the next table of an array of tables. -/
def beginRow (key : String) (entries : Entries) : Option Entries :=
  match entries.lookup key with
  | none => some (put key (.rows [] []) entries)
  | some (.rows earlier e) =>
    some (put key (.rows (earlier ++ [.table (closeEntries e)]) []) entries)
  | some _ => none

/-- Binds a dotted key to a value. The tables on the way are made by dotted keys alone, except that
tables which only a longer header implies may be passed through, and a key is bound once. -/
def bind (key : String) (v : Value) : List String → Entries → Option Entries
  | [], entries => if entries.any (·.1 == key) then none else some (put key (.value v) entries)
  | name :: path, entries =>
    match entries.lookup name with
    | none => (bind key v path []).map fun e => put name (.table .dotted e) entries
    | some (.table .dotted e) =>
      (bind key v path e).map fun e => put name (.table .dotted e) entries
    | some (.table .implied e) =>
      if path.isEmpty then none
      else (bind key v path e).map fun e => put name (.table .implied e) entries
    | some (.rows earlier e) =>
      if path.isEmpty then none
      else (bind key v path e).map fun e => put name (.rows earlier e) entries
    | some _ => none

end Entries
end JobAllocation.Toml
