import JobAllocation.Toml.Lexeme
import JobAllocation.Toml.Scalar

/-!
# TOML documents

The grammar of TOML 1.0. Arrays and inline tables may be nested, and keys dotted, to a depth below
`depthLimit`. `document?` takes a whole text and returns the entries of its root table.
-/
namespace JobAllocation.Toml

open Text

/-- No nesting reaches this depth. -/
def depthLimit : Nat := 80

/-- A dotted key as the path to a table and the key in it. -/
def splitKey? (names : List String) : Option (List String × String) :=
  if names.length < depthLimit then names.getLast?.map fun last => (names.dropLast, last) else none

/-- The closed table that the pairs of an inline table make. -/
def inlineTable? (pairs : List (List String × Value)) : Option Value := do
  let entries ← pairs.foldlM (fun (entries : Entries) (names, v) => do
    let (path, key) ← splitKey? names
    entries.bind key v path) ([] : Entries)
  return .table (closeEntries entries)

mutual

/-- A value that starts with the first character, inside `depth` brackets. -/
def value (depth : Nat) (s : List Char) : Option (Step Value s) :=
  match s with
  | [] => none
  | '[' :: r =>
    if depth + 1 < depthLimit then
      match h : trivia? false r with
      | some (']' :: rest) => some ⟨.array [], rest, by
          have := length_trivia?_le h
          simp only [List.length_cons] at this ⊢
          omega⟩
      | _ => (items (depth + 1) r).map fun st => (st.map .array).after '['
    else none
  | '\x7b' :: r =>
    if depth + 1 < depthLimit then
      match h : trim r with
      | '\x7d' :: rest => some ⟨.table [], rest, by
          have := length_trim_le r
          rw [h] at this
          simp only [List.length_cons] at this ⊢
          omega⟩
      | _ =>
        match pairs (depth + 1) r with
        | none => none
        | some st => (inlineTable? st.value).map fun v => (st.map fun _ => v).after '\x7b'
    else none
  | c :: r =>
    if c = '"' || c = '\'' then
      (quoted (c :: r)).map fun st => st.map fun cs => .string (String.ofList cs)
    else scalar (c :: r)
termination_by (s.length, 0)

/-- The items of an array that has some, up to its end. The last one may be followed by a comma. -/
def items (depth : Nat) (s : List Char) : Option (Step (List Value) s) :=
  match hs : trivia? false s with
  | none => none
  | some start =>
    have hstart := length_trivia?_le hs
    match value depth start with
    | none => none
    | some v =>
      match h : trivia? false v.rest with
      | some (']' :: r) => some ⟨[v.value], r, by
          have := length_trivia?_le h
          have := v.shorter
          simp_all only [List.length_cons]
          omega⟩
      | some (',' :: r) =>
        have hr : r.length < s.length := by
          have := length_trivia?_le h
          have := v.shorter
          simp_all only [List.length_cons]
          omega
        match hc : trivia? false r with
        | some (']' :: rest) => some ⟨[v.value], rest, by
            have := length_trivia?_le hc
            simp_all only [List.length_cons]
            omega⟩
        | _ => (items depth r).map fun st => (st.map (v.value :: ·)).within (Nat.le_of_lt hr)
      | _ => none
termination_by (s.length, 1)
decreasing_by
  · simp only [Prod.lex_def]
    omega
  · exact Prod.Lex.left _ _ hr

/-- The pairs of an inline table that has some, up to its end. -/
def pairs (depth : Nat) (s : List Char) : Option (Step (List (List String × Value)) s) :=
  match dotted s with
  | none => none
  | some k =>
    match hk : k.rest with
    | '=' :: r =>
      match value depth (trim r) with
      | none => none
      | some v =>
        match h : trim v.rest with
        | '\x7d' :: rest => some ⟨[(k.value, v.value)], rest, by
            have := length_trim_le v.rest
            have := v.shorter
            have := length_trim_le r
            have := k.shorter
            simp_all only [List.length_cons]
            omega⟩
        | ',' :: rest =>
          have hr : rest.length < s.length := by
            have := length_trim_le v.rest
            have := v.shorter
            have := length_trim_le r
            have := k.shorter
            simp_all only [List.length_cons]
            omega
          (pairs depth rest).map fun st =>
            (st.map ((k.value, v.value) :: ·)).within (Nat.le_of_lt hr)
        | _ => none
    | _ => none
termination_by (s.length, 1)
decreasing_by
  · have := length_trim_le r
    have := k.shorter
    simp_all only [List.length_cons, Prod.lex_def]
    omega
  · exact Prod.Lex.left _ _ hr

end

/-- One line of a document that says something. -/
inductive Statement where
  | header (names : List String)
  | rowHeader (names : List String)
  | pair (names : List String) (v : Value)

/-- Reads a statement. What follows it on its line is left. -/
def statement (s : List Char) : Option (Step Statement s) :=
  match s with
  | '[' :: '[' :: r =>
    match dotted r with
    | none => none
    | some k =>
      match h : k.rest with
      | ']' :: ']' :: rest => some ⟨.rowHeader k.value, rest, by
          have := k.shorter
          simp_all only [List.length_cons]
          omega⟩
      | _ => none
  | '[' :: r =>
    match dotted r with
    | none => none
    | some k =>
      match h : k.rest with
      | ']' :: rest => some ⟨.header k.value, rest, by
          have := k.shorter
          simp_all only [List.length_cons]
          omega⟩
      | _ => none
  | s =>
    match dotted s with
    | none => none
    | some k =>
      match h : k.rest with
      | '=' :: r =>
        (value 0 (trim r)).map fun st => ⟨.pair k.value st.value, st.rest, by
          have := k.shorter
          have := st.shorter
          have := length_trim_le r
          simp_all only [List.length_cons]
          omega⟩
      | _ => none

theorem length_lineEnd?_lt {s r : List Char} (h : lineEnd? s = some r) (hs : s ≠ []) :
    r.length < s.length := by
  have hp := List.length_pos_iff.mpr hs
  have hc := length_comment_le (trim s)
  have ht := length_trim_le s
  unfold lineEnd? at h
  split at h
  · cases h
    exact hp
  · have := length_lineBreak?_lt h
    omega

theorem length_lineEnd?_le {s r : List Char} (h : lineEnd? s = some r) : r.length ≤ s.length := by
  cases s with
  | nil =>
    cases h
    exact Nat.le_refl _
  | cons c s => exact Nat.le_of_lt (length_lineEnd?_lt h (List.cons_ne_nil c s))

/-- The statements of a text. -/
def statements? (s : List Char) : Option (List Statement) :=
  match _hs : trim s with
  | [] => some []
  | c :: r =>
    if c = '#' || c = '\n' || c = '\r' then
      match _h : lineEnd? (c :: r) with
      | none => none
      | some rest => statements? rest
    else
      match statement (c :: r) with
      | none => none
      | some st =>
        match _h : lineEnd? st.rest with
        | none => none
        | some rest => (statements? rest).map (st.value :: ·)
termination_by s.length
decreasing_by
  · have := length_lineEnd?_lt _h (List.cons_ne_nil c r)
    have := length_trim_le s
    rw [_hs] at this
    omega
  · have := length_lineEnd?_le _h
    have := st.shorter
    have := length_trim_le s
    rw [_hs] at this
    omega

/-- A document that is being read: its entries, and the path to the table that pairs go to. -/
structure Draft where
  entries : Entries
  path : List String

namespace Draft

/-- The draft after one more statement. -/
def add (draft : Draft) : Statement → Option Draft
  | .header names => do
    let (path, key) ← splitKey? names
    return ⟨← draft.entries.modify (Entries.declare key) path, names⟩
  | .rowHeader names => do
    let (path, key) ← splitKey? names
    return ⟨← draft.entries.modify (Entries.beginRow key) path, names⟩
  | .pair names v => do
    let (path, key) ← splitKey? names
    return { draft with entries := ← draft.entries.modify (Entries.bind key v path) draft.path }

end Draft

/-- A text without the byte order mark that may begin it. -/
def withoutMark : List Char → List Char
  | '\ufeff' :: r => r
  | s => s

/-- The entries of the document that a text writes. -/
def document? (text : String) : Option (List (String × Value)) := do
  let draft ← (← statements? (withoutMark text.toList)).foldlM Draft.add ⟨[], []⟩
  return closeEntries draft.entries

end JobAllocation.Toml
