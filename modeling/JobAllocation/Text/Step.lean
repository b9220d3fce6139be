/-!
# Reading from the front of a text

A reader takes something off the front of a text and says what is left. What is left is shorter, and
the step carries the proof, so a reader that goes on with the rest terminates by the length of its
text.
-/
namespace JobAllocation.Text

/-- What was read from the front of `s`, with the rest. -/
structure Step (α : Type) (s : List Char) where
  value : α
  rest : List Char
  shorter : rest.length < s.length

namespace Step

variable {α β : Type} {s t : List Char}

def map (f : α → β) (st : Step α s) : Step β s := ⟨f st.value, st.rest, st.shorter⟩

/-- The same step, taken from a text that is not shorter. -/
def within (st : Step α s) (h : s.length ≤ t.length) : Step α t :=
  ⟨st.value, st.rest, Nat.lt_of_lt_of_le st.shorter h⟩

/-- The same step, with one more character in front. -/
def after (c : Char) (st : Step α s) : Step α (c :: s) := st.within (by simp)

/-- A step over one character. -/
def char (value : α) (c : Char) (rest : List Char) : Step α (c :: rest) :=
  ⟨value, rest, by simp⟩

end Step

/-- A text without its leading characters of one kind. -/
def skip (p : Char → Bool) (s : List Char) : List Char := s.dropWhile p

theorem length_skip_le (p : Char → Bool) (s : List Char) : (skip p s).length ≤ s.length :=
  (List.dropWhile_sublist p).length_le

/-- Reads one or more characters of a kind. -/
def word (p : Char → Bool) (s : List Char) : Option (Step (List Char) s) :=
  match s with
  | [] => none
  | c :: r =>
    if p c then
      some ⟨c :: r.takeWhile p, skip p r, Nat.lt_succ_of_le (length_skip_le p r)⟩
    else none

/-- The value of a hexadecimal digit. -/
def hexValue? (c : Char) : Option Nat :=
  if '0' ≤ c && c ≤ '9' then some (c.toNat - '0'.toNat)
  else if 'a' ≤ c && c ≤ 'f' then some (c.toNat - 'a'.toNat + 10)
  else if 'A' ≤ c && c ≤ 'F' then some (c.toNat - 'A'.toNat + 10)
  else none

/-- Reads exactly `n` hexadecimal digits as a number, after those that make up `value`. -/
def hexDigits (value : Nat) : Nat → List Char → Option (Nat × List Char)
  | 0, s => some (value, s)
  | _ + 1, [] => none
  | n + 1, c :: r =>
    match hexValue? c with
    | none => none
    | some d => hexDigits (16 * value + d) n r

theorem length_hexDigits {value n : Nat} {s r : List Char} {v : Nat}
    (h : hexDigits value n s = some (v, r)) : r.length ≤ s.length := by
  induction n generalizing value s with
  | zero =>
    simp only [hexDigits, Option.some.injEq, Prod.mk.injEq] at h
    exact h.2 ▸ Nat.le_refl _
  | succ n ih =>
    cases s with
    | nil => simp [hexDigits] at h
    | cons c s =>
      unfold hexDigits at h
      cases hd : hexValue? c with
      | none => simp [hd] at h
      | some d =>
        simp only [hd] at h
        exact Nat.le_succ_of_le (ih h)

/-- The character with a code point, if there is one. -/
def scalar? (n : Nat) : Option Char :=
  if h : n.isValidChar then some (Char.ofNatAux n h) else none

end JobAllocation.Text
