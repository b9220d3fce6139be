import JobAllocation.Text.Step

/-!
# Blanks, comments, keys and strings of TOML

Everything is read from the front of a text. A string is read from after its opening quotes on.
-/
namespace JobAllocation.Toml

open Text

def isBlank (c : Char) : Bool := c == ' ' || c == '\t'

/-- A character that may stand in a comment or a literal string: no control character but the
tab. -/
def isPlain (c : Char) : Bool := c == '\t' || (0x20 ≤ c.toNat && c.toNat != 0x7F)

/-- A text without its leading blanks. -/
def trim (s : List Char) : List Char := skip isBlank s

theorem length_trim_le (s : List Char) : (trim s).length ≤ s.length := length_skip_le _ _

/-- What follows a line break. -/
def lineBreak? : List Char → Option (List Char)
  | '\n' :: r => some r
  | '\r' :: '\n' :: r => some r
  | _ => none

theorem length_lineBreak?_lt {s r : List Char} (h : lineBreak? s = some r) :
    r.length < s.length := by
  unfold lineBreak? at h
  split at h
  · cases h
    exact Nat.lt_succ_self _
  · cases h
    exact Nat.lt_succ_of_lt (Nat.lt_succ_self _)
  · cases h

/-- What follows a comment, if there is one. -/
def comment : List Char → List Char
  | '#' :: r => skip isPlain r
  | s => s

theorem length_comment_le (s : List Char) : (comment s).length ≤ s.length := by
  unfold comment
  split
  · exact Nat.le_succ_of_le (length_skip_le _ _)
  · exact Nat.le_refl _

/-- What follows the end of a line, which may have blanks and a comment before it. The end of the
text ends the last line. -/
def lineEnd? (s : List Char) : Option (List Char) :=
  match comment (trim s) with
  | [] => some []
  | r => lineBreak? r

/-- What follows blanks, line breaks and comments. A comment has to end with a line break. -/
def trivia? : (inComment : Bool) → List Char → Option (List Char)
  | false, [] => some []
  | true, [] => none
  | _, '\n' :: r => trivia? false r
  | _, '\r' :: '\n' :: r => trivia? false r
  | false, c :: r =>
    if isBlank c then trivia? false r
    else if c = '#' then trivia? true r
    else if c = '\r' then none
    else some (c :: r)
  | true, c :: r => if isPlain c then trivia? true r else none

theorem length_trivia?_le {inComment : Bool} {s r : List Char} (h : trivia? inComment s = some r) :
    r.length ≤ s.length := by
  fun_induction trivia? inComment s <;> simp_all <;> grind

/-- The character that an escape stands for, from after the backslash on. -/
def escaped (s : List Char) : Option (Step Char s) :=
  match s with
  | 'b' :: r => some (.char '\x08' _ r)
  | 't' :: r => some (.char '\t' _ r)
  | 'n' :: r => some (.char '\n' _ r)
  | 'f' :: r => some (.char '\x0c' _ r)
  | 'r' :: r => some (.char '\r' _ r)
  | '"' :: r => some (.char '"' _ r)
  | '\\' :: r => some (.char '\\' _ r)
  | 'u' :: r => (codePoint 4 r).map (·.within (by simp))
  | 'U' :: r => (codePoint 8 r).map (·.within (by simp))
  | _ => none
where
  codePoint (digits : Nat) (r : List Char) : Option (Step Char (' ' :: r)) :=
    match h : hexDigits 0 digits r with
    | some (code, rest) =>
      (scalar? code).map fun c => ⟨c, rest, Nat.lt_succ_of_le (length_hexDigits h)⟩
    | none => none

/-- A basic string on one line. -/
def basic (s : List Char) : Option (Step (List Char) s) :=
  match s with
  | [] => none
  | '"' :: r => some (.char [] _ r)
  | '\\' :: r =>
    match escaped r with
    | none => none
    | some e =>
      (basic e.rest).map fun st =>
        ((st.map (e.value :: ·)).within (Nat.le_of_lt e.shorter)).after '\\'
  | c :: r => if isPlain c then (basic r).map fun st => (st.map (c :: ·)).after c else none
termination_by s.length
decreasing_by
  · have := e.shorter
    simp only [List.length_cons]
    omega
  · simp

/-- A literal string on one line. -/
def literal (s : List Char) : Option (Step (List Char) s) :=
  match s with
  | [] => none
  | '\'' :: r => some (.char [] _ r)
  | c :: r => if isPlain c then (literal r).map fun st => (st.map (c :: ·)).after c else none

/-- What follows a backslash at the end of a line: the next character that is neither blank nor a
line break. -/
def continuation? (s : List Char) : Option (List Char) :=
  match lineBreak? (trim s) with
  | some _ => some (rest s)
  | none => none
where
  rest : List Char → List Char
    | '\r' :: '\n' :: r => rest r
    | c :: r => if isBlank c || c == '\n' then rest r else c :: r
    | [] => []

theorem length_rest_le (s : List Char) : (continuation?.rest s).length ≤ s.length := by
  fun_induction continuation?.rest s <;> simp_all <;> omega

theorem length_continuation?_le {s r : List Char} (h : continuation? s = some r) :
    r.length ≤ s.length := by
  unfold continuation? at h
  split at h
  · cases h
    exact length_rest_le s
  · cases h

/-- The closing quotes of a string over several lines, from after the first of them on. Up to two
quotes before them belong to the string. -/
def closing (quote : Char) (s : List Char) : Option (Step (List Char) (quote :: s)) :=
  let more := s.takeWhile (· == quote)
  if 2 ≤ more.length ∧ more.length ≤ 4 then
    some ⟨more.drop 2, skip (· == quote) s, Nat.lt_succ_of_le (length_skip_le _ s)⟩
  else none

/-- Whether the quote that was read begins the end of a string: two more follow it. -/
def closes (quote : Char) (s : List Char) : Bool := 2 ≤ (s.takeWhile (· == quote)).length

/-- A basic string over several lines. -/
def basicLines (s : List Char) : Option (Step (List Char) s) :=
  match s with
  | [] => none
  | '"' :: r =>
    if closes '"' r then closing '"' r
    else (basicLines r).map fun st => (st.map ('"' :: ·)).after '"'
  | '\\' :: r =>
    match h : continuation? r with
    | some rest =>
      have hl := length_continuation?_le h
      (basicLines rest).map fun st => (st.within hl).after '\\'
    | none =>
      match escaped r with
      | none => none
      | some e =>
        (basicLines e.rest).map fun st =>
          ((st.map (e.value :: ·)).within (Nat.le_of_lt e.shorter)).after '\\'
  | '\r' :: '\n' :: r => (basicLines r).map fun st => ((st.map ('\n' :: ·)).after '\n').after '\r'
  | c :: r =>
    if c = '\n' || isPlain c then (basicLines r).map fun st => (st.map (c :: ·)).after c else none
termination_by s.length
decreasing_by
  · simp
  · simp only [List.length_cons]
    omega
  · have := e.shorter
    simp only [List.length_cons]
    omega
  · simp only [List.length_cons]
    omega
  · simp

/-- A literal string over several lines. -/
def literalLines (s : List Char) : Option (Step (List Char) s) :=
  match s with
  | [] => none
  | '\'' :: r =>
    if closes '\'' r then closing '\'' r
    else (literalLines r).map fun st => (st.map ('\'' :: ·)).after '\''
  | '\r' :: '\n' :: r => (literalLines r).map fun st => ((st.map ('\n' :: ·)).after '\n').after '\r'
  | c :: r =>
    if c = '\n' || isPlain c then (literalLines r).map fun st => (st.map (c :: ·)).after c else none

/-- A string over several lines without the line break that may follow its opening quotes. -/
def firstLine (s : List Char) : List Char := (lineBreak? s).getD s

theorem length_firstLine_le (s : List Char) : (firstLine s).length ≤ s.length := by
  unfold firstLine
  cases h : lineBreak? s with
  | none => exact Nat.le_refl _
  | some r => exact Nat.le_of_lt (length_lineBreak?_lt h)

/-- A string with its quotes. -/
def quoted (s : List Char) : Option (Step (List Char) s) :=
  match s with
  | '"' :: '"' :: '"' :: r =>
    (basicLines (firstLine r)).map fun st => st.within (by
      have := length_firstLine_le r
      simp only [List.length_cons]
      omega)
  | '"' :: r => (basic r).map (·.after '"')
  | '\'' :: '\'' :: '\'' :: r =>
    (literalLines (firstLine r)).map fun st => st.within (by
      have := length_firstLine_le r
      simp only [List.length_cons]
      omega)
  | '\'' :: r => (literal r).map (·.after '\'')
  | _ => none

def isBare (c : Char) : Bool := c.isAlphanum || c == '_' || c == '-'

/-- One key: bare, or a string on one line. -/
def key (s : List Char) : Option (Step (List Char) s) :=
  match s with
  | '"' :: r => (basic r).map (·.after '"')
  | '\'' :: r => (literal r).map (·.after '\'')
  | s => word isBare s

/-- Keys joined by points, with blanks around each. -/
def dotted (s : List Char) : Option (Step (List String) s) :=
  match key (trim s) with
  | none => none
  | some k =>
    match h : trim k.rest with
    | '.' :: r =>
      have hr : r.length < s.length := by
        have := length_trim_le k.rest
        have := k.shorter
        have := length_trim_le s
        simp_all only [List.length_cons]
        omega
      (dotted r).map fun st => (st.map (String.ofList k.value :: ·)).within (Nat.le_of_lt hr)
    | r => some ⟨[String.ofList k.value], r, by
        have := length_trim_le k.rest
        have := k.shorter
        have := length_trim_le s
        simp_all only
        omega⟩
termination_by s.length

end JobAllocation.Toml
