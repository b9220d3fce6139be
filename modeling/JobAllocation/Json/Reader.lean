import JobAllocation.Arithmetic
import JobAllocation.Json.Value
import JobAllocation.Text.Step

/-!
# Reading JSON

The grammar of the JSON standard. `read?` takes a whole text, with blanks around one value.
-/
namespace JobAllocation.Json

open Text

def isBlank (c : Char) : Bool := c == ' ' || c == '\t' || c == '\n' || c == '\r'

/-- A text without its leading blanks. -/
def trim (s : List Char) : List Char := skip isBlank s

theorem length_trim_le (s : List Char) : (trim s).length ≤ s.length := length_skip_le _ _

/-- The low half of a surrogate pair, of which the high half has been read. -/
def lowSurrogate (high : Nat) (s : List Char) : Option (Step Char s) :=
  match s with
  | '\\' :: 'u' :: r =>
    match h : hexDigits 0 4 r with
    | some (low, rest) =>
      if 0xDC00 ≤ low ∧ low < 0xE000 then
        match scalar? (0x10000 + (high - 0xD800) * 0x400 + (low - 0xDC00)) with
        | some c => some ⟨c, rest, by have := length_hexDigits h; simp; omega⟩
        | none => none
      else none
    | none => none
  | _ => none

/-- The character that an escape stands for, from after the backslash on. -/
def escaped (s : List Char) : Option (Step Char s) :=
  match s with
  | '"' :: r => some (.char '"' _ r)
  | '\\' :: r => some (.char '\\' _ r)
  | '/' :: r => some (.char '/' _ r)
  | 'b' :: r => some (.char '\x08' _ r)
  | 'f' :: r => some (.char '\x0c' _ r)
  | 'n' :: r => some (.char '\n' _ r)
  | 'r' :: r => some (.char '\r' _ r)
  | 't' :: r => some (.char '\t' _ r)
  | 'u' :: r =>
    match h : hexDigits 0 4 r with
    | some (code, rest) =>
      have hl : rest.length ≤ r.length := length_hexDigits h
      if 0xD800 ≤ code ∧ code < 0xDC00 then
        (lowSurrogate code rest).map fun st => (st.within hl).after 'u'
      else
        (scalar? code).map fun c => ⟨c, rest, Nat.lt_succ_of_le hl⟩
    | none => none
  | _ => none

/-- The characters of a string, from after its opening quote on. -/
def quoted (s : List Char) : Option (Step (List Char) s) :=
  match s with
  | [] => none
  | '"' :: r => some (.char [] _ r)
  | '\\' :: r =>
    match escaped r with
    | none => none
    | some e =>
      (quoted e.rest).map fun st =>
        ((st.map (e.value :: ·)).within (Nat.le_of_lt e.shorter)).after '\\'
  | c :: r =>
    if c.toNat < 0x20 then none
    else (quoted r).map fun st => (st.map (c :: ·)).after c
termination_by s.length
decreasing_by
  · have := e.shorter
    simp only [List.length_cons]
    omega
  · simp

def isNumberChar (c : Char) : Bool :=
  Decimal.isDigit c || c == '-' || c == '+' || c == '.' || c == 'e' || c == 'E'

/-- The digits before and after the point and the exponent of a numeral without its sign. -/
structure Parts where
  whole : List Char
  fraction : Option (List Char)
  exponent : Option (Bool × List Char)

/-- Splits a numeral without its sign at its point and its exponent mark. -/
def splitNumber (s : List Char) : Option Parts :=
  let whole := s.takeWhile Decimal.isDigit
  let (fraction, rest) :=
    match s.dropWhile Decimal.isDigit with
    | '.' :: r => (some (r.takeWhile Decimal.isDigit), r.dropWhile Decimal.isDigit)
    | r => (none, r)
  match rest with
  | [] => some ⟨whole, fraction, none⟩
  | mark :: r =>
    if mark ≠ 'e' ∧ mark ≠ 'E' then none
    else
      match r with
      | '-' :: digits => some ⟨whole, fraction, some (true, digits)⟩
      | '+' :: digits => some ⟨whole, fraction, some (false, digits)⟩
      | digits => some ⟨whole, fraction, some (false, digits)⟩

/-- Digits, at least one, all of them decimal. -/
def isNumeral (s : List Char) : Bool := !s.isEmpty && s.all Decimal.isDigit

/-- No leading zero. -/
def isWhole : List Char → Bool
  | '0' :: r => r.isEmpty
  | s => isNumeral s

/-- The signed exponent that digits write. -/
def exponentValue : Option (Bool × List Char) → Int
  | none => 0
  | some (true, digits) => -(Decimal.natural digits : Int)
  | some (false, digits) => Decimal.natural digits

/-- The value of a numeral. -/
def number? (s : List Char) : Option Json :=
  let (negative, s) :=
    match s with
    | '-' :: r => (true, r)
    | s => (false, s)
  match splitNumber s with
  | none => none
  | some parts =>
    if isWhole parts.whole && parts.fraction.all isNumeral &&
        parts.exponent.all (isNumeral ·.2) then
      let d := Decimal.ofParts negative parts.whole (parts.fraction.getD [])
        (exponentValue parts.exponent)
      if parts.fraction.isNone && parts.exponent.isNone && !negative && d.digits < 2 ^ 64 then
        some (.natural d.digits)
      else some (.decimal d)
    else none

mutual

/-- A value that starts with the first character. -/
def value (s : List Char) : Option (Step Json s) :=
  match s with
  | [] => none
  | '"' :: r => (quoted r).map fun st => (st.map fun cs => .string (String.ofList cs)).after '"'
  | '[' :: r =>
    match h : trim r with
    | ']' :: rest => some ⟨.array [], rest, by
        have := length_trim_le r
        rw [h] at this
        simp only [List.length_cons] at this ⊢
        omega⟩
    | _ => (elements r).map fun st => (st.map .array).after '['
  | '\x7b' :: r =>
    match h : trim r with
    | '\x7d' :: rest => some ⟨.object [], rest, by
        have := length_trim_le r
        rw [h] at this
        simp only [List.length_cons] at this ⊢
        omega⟩
    | _ => (members r).map fun st => (st.map fun ms => .object (ofMembers ms)).after '\x7b'
  | 't' :: 'r' :: 'u' :: 'e' :: r => some ⟨.bool true, r, by simp only [List.length_cons]; omega⟩
  | 'f' :: 'a' :: 'l' :: 's' :: 'e' :: r =>
    some ⟨.bool false, r, by simp only [List.length_cons]; omega⟩
  | 'n' :: 'u' :: 'l' :: 'l' :: r => some ⟨.null, r, by simp only [List.length_cons]; omega⟩
  | s =>
    match word isNumberChar s with
    | none => none
    | some w => (number? w.value).map fun n => w.map fun _ => n
termination_by (s.length, 0)

/-- The items of an array that has some, up to its end. -/
def elements (s : List Char) : Option (Step (List Json) s) :=
  match value (trim s) with
  | none => none
  | some v =>
    match h : trim v.rest with
    | ',' :: r =>
      have hr : r.length < s.length := by
        have := length_trim_le v.rest
        have := v.shorter
        have := length_trim_le s
        simp_all only [List.length_cons]
        omega
      (elements r).map fun st => (st.map (v.value :: ·)).within (Nat.le_of_lt hr)
    | ']' :: r => some ⟨[v.value], r, by
        have := length_trim_le v.rest
        have := v.shorter
        have := length_trim_le s
        simp_all only [List.length_cons]
        omega⟩
    | _ => none
termination_by (s.length, 1)
decreasing_by
  · have := length_trim_le s
    simp only [Prod.lex_def]
    omega
  · exact Prod.Lex.left _ _ hr

/-- The members of an object that has some, up to its end. -/
def members (s : List Char) : Option (Step (List (String × Json)) s) :=
  match hk : trim s with
  | '"' :: r =>
    match quoted r with
    | none => none
    | some key =>
      match hc : trim key.rest with
      | ':' :: afterColon =>
        match value (trim afterColon) with
        | none => none
        | some v =>
          match h : trim v.rest with
          | ',' :: rest =>
            have hr : rest.length < s.length := by
              have := length_trim_le v.rest
              have := v.shorter
              have := length_trim_le afterColon
              have := length_trim_le key.rest
              have := key.shorter
              have := length_trim_le s
              simp_all only [List.length_cons]
              omega
            (members rest).map fun st =>
              (st.map ((String.ofList key.value, v.value) :: ·)).within (Nat.le_of_lt hr)
          | '\x7d' :: rest => some ⟨[(String.ofList key.value, v.value)], rest, by
              have := length_trim_le v.rest
              have := v.shorter
              have := length_trim_le afterColon
              have := length_trim_le key.rest
              have := key.shorter
              have := length_trim_le s
              simp_all only [List.length_cons]
              omega⟩
          | _ => none
      | _ => none
  | _ => none
termination_by (s.length, 1)
decreasing_by
  · have := length_trim_le afterColon
    have := length_trim_le key.rest
    have := key.shorter
    have := length_trim_le s
    simp_all only [List.length_cons, Prod.lex_def]
    omega
  · exact Prod.Lex.left _ _ hr

end

/-- The value that a text writes. -/
def read? (text : String) : Option Json :=
  match value (trim text.toList) with
  | some st => if (trim st.rest).isEmpty then some st.value else none
  | none => none

end JobAllocation.Json
