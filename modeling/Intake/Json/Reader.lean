import Intake.Json.Fault

/-!
# Reading a JSON text

A reader takes something off the front of a text. What it takes is never empty, so a reader can be
repeated until the text ends. `list` repeats a reader between brackets with commas in between, and
`whole` asks that nothing follows but blanks.
-/

set_option autoImplicit false
set_option relaxedAutoImplicit false

namespace Intake.Json

/-- What was read off the front of `source`, and what follows it. -/
structure Taken (source : Bytes) (α : Type) where
  value : α
  rest : Bytes
  shorter : rest.length < source.length

namespace Taken

variable {source inner : Bytes} {α β : Type}

/-- What was read behind other bytes was read off the whole. -/
def widen (t : Taken inner α) (h : inner.length < source.length) : Taken source α :=
  ⟨t.value, t.rest, Nat.lt_trans t.shorter h⟩

def map (f : α → β) (t : Taken source α) : Taken source β :=
  ⟨f t.value, t.rest, t.shorter⟩

end Taken

/-- A reader of things of one kind. -/
abbrev Reader (α : Type) : Type :=
  (s : Bytes) → Except Fault (Taken s α)

/-- Space, line feed, carriage return and tab may stand between the tokens of a text. -/
def isBlank (b : UInt8) : Bool :=
  b == ' '.toUInt8 || b == '\n'.toUInt8 || b == '\t'.toUInt8 || b == '\r'.toUInt8

/-- The text without the blanks in front of it. -/
def skipBlanks (s : Bytes) : Bytes :=
  s.dropWhile isBlank

/-- A text is all there before anything has been read off it. -/
theorem length_le_self (s : Bytes) : s.length ≤ s.length :=
  Nat.le_refl s.length

/-- What follows something in the rest of a text is shorter than the text. -/
theorem length_lt_of_rest {s rest after : Bytes} (h : after.length < rest.length)
    (hrest : rest.length < s.length) : after.length < s.length :=
  Nat.lt_trans h hrest

theorem length_skipBlanks_le (s : Bytes) : (skipBlanks s).length ≤ s.length :=
  (List.dropWhile_sublist isBlank).length_le

/-- The text without the blanks in front of it, as evidence of its length. -/
theorem length_lt_of_skipBlanks {s rest : Bytes} {b : UInt8} (h : skipBlanks s = b :: rest) :
    rest.length < s.length := by
  have := length_skipBlanks_le s
  rw [h] at this
  exact this

/-- What follows the rest of a word. -/
def word : (letters : List Char) → Bytes → Except Fault Bytes
  | [], s => .ok s
  | _ :: _, [] => .error (.here .endOfValue [])
  | c :: letters, b :: s =>
    if b = c.toUInt8 then word letters s else .error (.here .word (b :: s))

theorem length_word_le {letters : List Char} {s rest : Bytes} (h : word letters s = .ok rest) :
    rest.length ≤ s.length := by
  induction letters generalizing s with
  | nil =>
    obtain rfl := Except.ok.inj h
    exact Nat.le_refl _
  | cons c letters ih =>
    cases s with
    | nil => simp [word] at h
    | cons b s =>
      rw [word] at h
      split at h
      · exact Nat.le_succ_of_le (ih h)
      · simp at h

section List

variable {α : Type} (item : Reader α) {source : Bytes}

/-- The elements up to the closing bracket, behind those in the reversed list `read`. The text
begins with an element. -/
def elementsOnto (read : List α) (s : Bytes) (h : s.length ≤ source.length) :
    Except Fault (Taken source (List α)) :=
  match item s with
  | .error e => .error e
  | .ok ⟨x, rest, shorter⟩ =>
    match hend : skipBlanks rest with
    | [] => .error (.here .endOfList [])
    | b :: after =>
      have := length_lt_of_skipBlanks hend
      if b = ']'.toUInt8 then .ok ⟨(x :: read).reverse, after, by omega⟩
      else if b = ','.toUInt8 then
        match hnext : skipBlanks after with
        | [] => .error (.here .endOfValue [])
        | c :: next =>
          have := length_lt_of_skipBlanks hnext
          if c = ']'.toUInt8 then .error (.here .trailingComma (c :: next))
          else elementsOnto (x :: read) (c :: next) (by simp only [List.length_cons]; omega)
      else .error (.here .listComma (b :: after))
termination_by s.length

/-- The elements up to the closing bracket, from behind the opening one. -/
def list : Reader (List α) := fun s ↦
  match hfirst : skipBlanks s with
  | [] => .error (.here .endOfList [])
  | b :: rest =>
    have := length_lt_of_skipBlanks hfirst
    if b = ']'.toUInt8 then .ok ⟨[], rest, this⟩
    else elementsOnto item [] (b :: rest) this

end List

/-- What a reader takes a text for that has only blanks behind it. -/
def whole {α : Type} (reader : Reader α) (text : Bytes) : Except Error α :=
  match reader text with
  | .error e => .error (.ofFault text e)
  | .ok t =>
    match skipBlanks t.rest with
    | [] => .ok t.value
    | rest => .error (.ofFault text (.here .trailing rest))

end Intake.Json
