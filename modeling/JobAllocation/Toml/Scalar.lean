import JobAllocation.Arithmetic
import JobAllocation.Text.Step
import JobAllocation.Toml.Value

/-!
# Numbers, booleans and dates of TOML

A scalar is one word of letters, digits and a few signs, read as a whole. Only a date may be joined
to a time by a blank.
-/
namespace JobAllocation.Toml

open Text

def isScalarChar (c : Char) : Bool :=
  c.isAlphanum || c == '_' || c == '+' || c == '-' || c == '.' || c == ':'

/-- Digits of a kind with single underscores between them, which are dropped. -/
def grouped? (p : Char → Bool) : List Char → Option (List Char)
  | [] => none
  | [c] => if p c then some [c] else none
  | c :: '_' :: r => if p c then (grouped? p r).map (c :: ·) else none
  | c :: r => if p c then (grouped? p r).map (c :: ·) else none

/-- Splits off a sign, true standing for minus. -/
def sign : List Char → Bool × List Char
  | '-' :: r => (true, r)
  | '+' :: r => (false, r)
  | s => (false, s)

/-- The number that decimal digits with a sign write. -/
def signed (negative : Bool) (digits : List Char) : Int :=
  if negative then -(Decimal.natural digits : Int) else Decimal.natural digits

/-- Decimal digits of a whole number, without leading zeros. -/
def whole? (s : List Char) : Option (List Char) :=
  match grouped? Decimal.isDigit s with
  | some ['0'] => some ['0']
  | some ('0' :: _) => none
  | digits => digits

/-- The number that digits write in some base. -/
def inBase (base : Nat) (digits : List Char) : Nat :=
  digits.foldl (fun n c => base * n + (hexValue? c).getD 0) 0

/-- Integers have 64 bits. -/
def integerOf? (n : Int) : Option Value :=
  if -(2 ^ 63) ≤ n ∧ n < 2 ^ 63 then some (.integer n) else none

/-- Digits in a given base, after its mark. -/
def based? (base : Nat) (s : List Char) : Option Value :=
  match grouped? (fun c => (hexValue? c).any (· < base)) s with
  | some digits => integerOf? (inBase base digits)
  | none => none

def integer? (s : List Char) : Option Value :=
  match s with
  | '0' :: 'x' :: r => based? 16 r
  | '0' :: 'o' :: r => based? 8 r
  | '0' :: 'b' :: r => based? 2 r
  | s =>
    let (negative, r) := sign s
    match whole? r with
    | some digits => integerOf? (signed negative digits)
    | none => none

/-- The exponent that follows its mark. -/
def exponent? (s : List Char) : Option Int :=
  let (negative, r) := sign s
  match grouped? Decimal.isDigit r with
  | some digits => some (signed negative digits)
  | none => none

def isExponentMark (c : Char) : Bool := c == 'e' || c == 'E'

/-- A rounded numeral. One that is too large is refused, but not one that is too far below zero. -/
def rounded? (d : Decimal) : Option Value :=
  match Binary64.ofDecimal d with
  | .infinite false => none
  | x => some (.float x)

/-- A number with a point or an exponent. -/
def decimal? (negative : Bool) (s : List Char) : Option Value := do
  let mantissa := s.takeWhile (!isExponentMark ·)
  let exponent ←
    match s.dropWhile (!isExponentMark ·) with
    | [] => some none
    | _ :: r => (exponent? r).map some
  let digits := mantissa.takeWhile (· != '.')
  let fraction ←
    match mantissa.dropWhile (· != '.') with
    | [] => some none
    | _ :: r => (grouped? Decimal.isDigit r).map some
  if exponent.isNone && fraction.isNone then none
  else
    rounded? (.ofParts negative (← whole? digits) (fraction.getD []) (exponent.getD 0))

def float? (s : List Char) : Option Value :=
  match sign s with
  | (negative, ['i', 'n', 'f']) => some (.float (.infinite negative))
  | (negative, ['n', 'a', 'n']) => some (.float (.undefined negative))
  | (negative, r) => decimal? negative r

/-- Reads `n` decimal digits as a number from `low` to `high`. -/
def field? (n low high : Nat) (s : List Char) : Option (Nat × List Char) :=
  let digits := s.take n
  let v := Decimal.natural digits
  if digits.length = n ∧ digits.all Decimal.isDigit ∧ low ≤ v ∧ v ≤ high then some (v, s.drop n)
  else none

/-- Reads one given character. -/
def mark? (c : Char) : List Char → Option (List Char)
  | d :: r => if d = c then some r else none
  | [] => none

def isLeapYear (year : Nat) : Bool := year % 4 == 0 && (year % 100 != 0 || year % 400 == 0)

def daysIn (year month : Nat) : Nat :=
  if month = 2 then if isLeapYear year then 29 else 28
  else if month = 4 ∨ month = 6 ∨ month = 9 ∨ month = 11 then 30
  else 31

/-- What follows a date. -/
def date? (s : List Char) : Option (List Char) := do
  let (year, s) ← field? 4 0 9999 s
  let (month, s) ← field? 2 1 12 (← mark? '-' s)
  let (_, s) ← field? 2 1 (daysIn year month) (← mark? '-' s)
  return s

/-- What follows a time of day. A minute may have a leap second. -/
def time? (s : List Char) : Option (List Char) := do
  let (_, s) ← field? 2 0 23 s
  let (_, s) ← field? 2 0 59 (← mark? ':' s)
  let (_, s) ← field? 2 0 60 (← mark? ':' s)
  match s with
  | '.' :: r =>
    let (_, r) ← field? 1 0 9 r
    return r.dropWhile Decimal.isDigit
  | s => return s

/-- Whether the rest of a word is nothing or an offset from universal time. -/
def isOffset : List Char → Bool
  | [] => true
  | ['Z'] | ['z'] => true
  | c :: r =>
    (c == '+' || c == '-') &&
      ((field? 2 0 23 r >>= fun (_, r) => mark? ':' r >>= field? 2 0 59).any (·.2.isEmpty))

/-- Whether a word is a time of day that goes with a date. -/
def isTimeOfDate (s : List Char) : Bool := (time? s).any isOffset

/-- Whether a word is a date, with a time or without, or a time alone. -/
def isDateTime (s : List Char) : Bool :=
  match date? s with
  | some [] => true
  | some (c :: r) => (c == 'T' || c == 't') && isTimeOfDate r
  | none => (time? s).any (·.isEmpty)

/-- The value of a word. -/
def scalar? (s : List Char) : Option Value :=
  match s with
  | ['t', 'r', 'u', 'e'] => some (.boolean true)
  | ['f', 'a', 'l', 's', 'e'] => some (.boolean false)
  | s =>
    if isDateTime s then some (.dateTime (String.ofList s))
    else
      match float? s with
      | some v => some v
      | none => integer? s

/-- Reads a scalar. A word after one blank is the time of a date. -/
def scalar (s : List Char) : Option (Step Value s) :=
  match word isScalarChar s with
  | none => none
  | some w =>
    match h : w.rest with
    | ' ' :: c :: r =>
      if Decimal.isDigit c && (date? w.value).any (·.isEmpty) then
        match word isScalarChar (c :: r) with
        | none => none
        | some time =>
          if isTimeOfDate time.value then
            some ⟨.dateTime (String.ofList (w.value ++ ' ' :: time.value)), time.rest, by
              have := w.shorter
              have := time.shorter
              simp_all only [List.length_cons]
              omega⟩
          else none
      else (scalar? w.value).map fun v => w.map fun _ => v
    | _ => (scalar? w.value).map fun v => w.map fun _ => v

end JobAllocation.Toml
