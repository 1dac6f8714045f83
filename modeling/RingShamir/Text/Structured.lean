import RingShamir.Text.Combining
import RingShamir.Text.Formless

/-!
# Structured text of values

Values are shown for diagnosis as nested text: a record shows its name and its
fields between braces, a tagged value its name and its arguments between
parentheses, a list its entries between brackets, and a text stands between
double quotes with the characters that would break it escaped, and those that are not
shown by themselves written as their code points.

Main results:

- Theorem `escape_of_printable`: a character from the space to the tilde, but
  for the quote and the backslash, stands for itself.
-/

namespace RingShamir.Text

/-- Entries between brackets. -/
def list (entries : List String) : String :=
  "[" ++ ", ".intercalate entries ++ "]"

/-- A name and its arguments between parentheses. -/
def tagged (name : String) (arguments : List String) : String :=
  name ++ "(" ++ ", ".intercalate arguments ++ ")"

/-- A name and its fields between braces. -/
def record (name : String) (fields : List (String × String)) : String :=
  name ++ " \x7b " ++ ", ".intercalate (fields.map fun (label, value) => label ++ ": " ++ value)
    ++ " \x7d"

/-- A record of which only some fields are shown. -/
def partialRecord (name : String) (fields : List (String × String)) : String :=
  name ++ " \x7b " ++
    ", ".intercalate (fields.map (fun (label, value) => label ++ ": " ++ value) ++ [".."])
    ++ " \x7d"

/-- Absent values and present ones. -/
def option : Option String → String
  | none => "None"
  | some value => tagged "Some" [value]

/-- A list of natural numbers. -/
def naturals (ns : List Nat) : String :=
  list (ns.map toString)

/-- A list of words. -/
def words (ws : List UInt64) : String :=
  list (ws.map toString)

/-- Whether a character is not shown by itself. -/
def isHidden (c : Char) : Bool :=
  isCombining c || isFormless c

/-- A character inside a quoted text. -/
def escape (c : Char) : String :=
  if c = '"' then "\\\""
  else if c = '\\' then "\\\\"
  else if c = '\n' then "\\n"
  else if c = '\r' then "\\r"
  else if c = '\t' then "\\t"
  else if c = '\x00' then "\\0"
  else if isHidden c then "\\u\x7b" ++ String.ofList (Nat.toDigits 16 c.toNat) ++ "\x7d"
  else String.singleton c

theorem isHidden_of_printable {c : Char} (hlow : 0x20 ≤ c.toNat) (hhigh : c.toNat ≤ 0x7e) :
    isHidden c = false := by
  have hcombining : isCombining c = false :=
    inRanges_eq_false (by decide +kernel : areOutside 0x20 0x7e combiningRanges = true) hlow hhigh
  have hformless : isFormless c = false :=
    inRanges_eq_false (by decide +kernel : areOutside 0x20 0x7e formlessRanges = true) hlow hhigh
  rw [isHidden, hcombining, hformless]
  rfl

theorem escape_of_printable {c : Char} (hlow : 0x20 ≤ c.toNat) (hhigh : c.toNat ≤ 0x7e)
    (hquote : c ≠ '"') (hbackslash : c ≠ '\\') : escape c = String.singleton c := by
  have hcontrol : ∀ d : Char, d.toNat < 0x20 → c ≠ d := by
    rintro d hd rfl
    omega
  have hnewline := hcontrol '\n' (by decide)
  have hreturn := hcontrol '\r' (by decide)
  have htab := hcontrol '\t' (by decide)
  have hzero := hcontrol '\x00' (by decide)
  simp [escape, *, isHidden_of_printable hlow hhigh]

/-- A text between double quotes. -/
def quoted (s : String) : String :=
  "\"" ++ String.join (s.toList.map escape) ++ "\""

end RingShamir.Text
