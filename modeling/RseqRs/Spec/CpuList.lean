import RseqRs.Model.Cpus

/-!
# The language of CPU lists

What `Cpus::possible` accepts, as a grammar: a list of numbers and ranges with commas between
them, and white space around it. Only the end of a range counts, and of the whole list only the
greatest number; a range may run backwards, and ranges may overlap.
-/

namespace RseqRs

namespace CpuList

/-- A number that a `u32` holds: digits, which may have a `+` before them. -/
inductive Numeral : List Char → ℕ → Prop
  | digits {s : List Char} : s ≠ [] → (∀ c ∈ s, c.isDigit = true) → Text.value s < 2 ^ 32 →
      Numeral s (Text.value s)
  | plus {s : List Char} : s ≠ [] → (∀ c ∈ s, c.isDigit = true) → Text.value s < 2 ^ 32 →
      Numeral ('+' :: s) (Text.value s)

/-- A number or a range, and where it ends. -/
inductive Item : List Char → ℕ → Prop
  | single {s : List Char} {n : ℕ} : Numeral s n → Item s n
  | range {lo hi : List Char} {m n : ℕ} : Numeral lo m → Numeral hi n → Item (lo ++ '-' :: hi) n

/-- A list, and the greatest of the ends in it. -/
inductive Items : List Char → ℕ → Prop
  | last {s : List Char} {n : ℕ} : Item s n → Items s n
  | more {s l : List Char} {n m : ℕ} : Item s n → Items l m → Items (s ++ ',' :: l) (max n m)

/-- White space. -/
def Blank (s : List Char) : Prop := ∀ c ∈ s, Cpus.isWhitespace c = true

/-- The file can be read, and what the buffer holds of it is a list whose greatest number is
`n`, with white space around it. -/
def Holds (file : Option (List UInt8)) (n : ℕ) : Prop :=
  ∃ content front list back, file = some content ∧
    Cpus.fromUtf8 (content.take Cpus.bufLen) = some (front ++ list ++ back) ∧
    Blank front ∧ Items list n ∧ Blank back

end CpuList

end RseqRs
