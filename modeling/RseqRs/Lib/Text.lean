import Mathlib.Data.List.Basic

/-!
# Cut text

What is left of a text when only its first part is kept: of a decimal numeral, which then
stands for a smaller number, and of a list of fields with a separator between them, where
one field is cut and the later ones are gone.
-/

namespace Text

/-! ### Numerals -/

/-- The value of a string of decimal digits. -/
def value (l : List Char) : ℕ := Nat.ofDigitChars 10 l 0

@[simp] theorem value_toDigits (n : ℕ) : value (Nat.toDigits 10 n) = n :=
  Nat.ofDigitChars_ten_toDigits

theorem isDigit_of_mem {n : ℕ} {c : Char} (h : c ∈ Nat.toDigits 10 n) : c.isDigit = true :=
  Nat.isDigit_of_mem_toDigits (by decide) (by decide) h

/-- A numeral of at least two digits is that of the tenth, and one more digit. -/
theorem toDigits_eq_append {n : ℕ} (h : 10 ≤ n) :
    Nat.toDigits 10 n = Nat.toDigits 10 (n / 10) ++ [(n % 10).digitChar] :=
  Nat.toDigits_of_base_le (by decide) h

/-- A part of a numeral is the numeral, or stands for a tenth at most. -/
theorem value_prefix {l : List Char} (n : ℕ) (h : l <+: Nat.toDigits 10 n) :
    l = Nat.toDigits 10 n ∨ value l ≤ n / 10 := by
  induction n using Nat.strongRecOn with
  | _ n ih =>
    rcases Nat.lt_or_ge n 10 with hn | hn
    · -- one digit: nothing of it is left, or all
      rw [Nat.toDigits_of_lt_base hn] at h ⊢
      rcases List.prefix_cons_iff.mp h with rfl | ⟨t, rfl, ht⟩
      · exact .inr (Nat.zero_le _)
      · exact .inl (by rw [List.prefix_nil.mp ht])
    · rw [toDigits_eq_append hn] at h ⊢
      rcases List.prefix_concat_iff.mp h with he | hp
      · exact .inl he
      · refine .inr ?_
        rcases ih (n / 10) (by omega) hp with rfl | hv
        · exact Nat.le_of_eq (value_toDigits _)
        · omega

theorem value_prefix_le {l : List Char} {n : ℕ} (h : l <+: Nat.toDigits 10 n) : value l ≤ n := by
  rcases value_prefix n h with rfl | hv
  · exact Nat.le_of_eq (value_toDigits n)
  · omega

/-- A part of a numeral that stands for the same number is all of it. -/
theorem eq_of_value_prefix {l : List Char} {n : ℕ} (h : l <+: Nat.toDigits 10 n) (hne : l ≠ [])
    (hv : value l = n) : l = Nat.toDigits 10 n := by
  rcases value_prefix n h with he | hle
  · exact he
  · -- then `n` is zero, whose numeral has one digit
    obtain rfl : n = 0 := by omega
    rw [Nat.toDigits_zero] at h ⊢
    rcases List.prefix_cons_iff.mp h with he | ⟨t, rfl, ht⟩
    · exact absurd he hne
    · rw [List.prefix_nil.mp ht]

/-! ### Fields -/

variable {α : Type} {x : α}

/-- Split at the separator, fields that have it behind them come out again, and then the rest. -/
theorem splitOn_flatMap [BEq α] [LawfulBEq α] {fields : List (List α)} {last : List α}
    (hx : ∀ l ∈ fields, x ∉ l) (hlast : x ∉ last) :
    (fields.flatMap (· ++ [x]) ++ last).splitOn x = fields ++ [last] := by
  induction fields with
  | nil => exact List.splitOn_eq_singleton hlast
  | cons l ls ih =>
    have hl : x ∉ l := hx l List.mem_cons_self
    rw [List.flatMap_cons, List.append_assoc, List.append_assoc, List.singleton_append,
      List.splitOn_append_cons_self_of_not_mem hl,
      ih fun l h => hx l (List.mem_cons_of_mem _ h), List.cons_append]

/-- What is in the text is the separator, or in a field. -/
theorem mem_intercalate {fields : List (List α)} {c : α} (h : c ∈ [x].intercalate fields) :
    c = x ∨ ∃ l ∈ fields, c ∈ l := by
  induction fields with
  | nil => cases h
  | cons l ls ih =>
    cases ls with
    | nil => exact .inr ⟨l, List.mem_cons_self, by rwa [List.intercalate_singleton] at h⟩
    | cons l' ls =>
      rw [List.intercalate_cons_cons, List.mem_append, List.mem_append] at h
      rcases h with (h | h) | h
      · exact .inr ⟨l, List.mem_cons_self, h⟩
      · exact .inl (List.mem_singleton.mp h)
      · rcases ih h with hx | ⟨m, hm, hc⟩
        · exact .inl hx
        · exact .inr ⟨m, List.mem_cons_of_mem _ hm, hc⟩

/-- A part `p` of the text of `fields`: the fields of `before` with the separator `x` behind
each, and then a part `last` of the next one, `field`. -/
structure Cut (x : α) (fields : List (List α)) (p : List α) (before : List (List α))
    (last field : List α) (after : List (List α)) : Prop where
  fields_eq : fields = before ++ field :: after
  eq : p = before.flatMap (· ++ [x]) ++ last
  isPrefix : last <+: field
  /-- it is all of the text, or something is missing -/
  whole : p = [x].intercalate fields ∨ last ≠ field ∨ after ≠ []

/-- The cut is in the first field, or behind its separator. -/
theorem prefix_append_cons {l m p : List α} (h : p <+: l ++ x :: m) :
    p <+: l ∨ ∃ q, p = l ++ x :: q ∧ q <+: m := by
  rcases List.prefix_or_prefix_of_prefix h (List.prefix_append l _) with hp | ⟨q, rfl⟩
  · exact .inl hp
  · have hq := (List.prefix_append_right_inj l).mp h
    rcases List.prefix_cons_iff.mp hq with rfl | ⟨q', rfl, hq'⟩
    · exact .inl (by simp)
    · exact .inr ⟨q', rfl, hq'⟩

/-- **Every part of a text is such a cut.** -/
theorem exists_cut {fields : List (List α)} {p : List α} (hne : fields ≠ [])
    (h : p <+: [x].intercalate fields) :
    ∃ before last field after, Cut x fields p before last field after := by
  induction fields generalizing p with
  | nil => exact absurd rfl hne
  | cons l ls ih =>
    cases ls with
    | nil =>
      rw [List.intercalate_singleton] at h
      refine ⟨[], p, l, [], rfl, rfl, h, ?_⟩
      by_cases he : p = l
      · exact .inl (by rw [he, List.intercalate_singleton])
      · exact .inr (.inl he)
    | cons l' ls =>
      rw [List.intercalate_cons_cons, List.append_assoc, List.singleton_append] at h
      rcases prefix_append_cons h with hp | ⟨q, rfl, hq⟩
      · exact ⟨[], p, l, l' :: ls, rfl, rfl, hp, .inr (.inr (by simp))⟩
      · obtain ⟨before, last, field, after, hc⟩ := ih (by simp) hq
        refine ⟨l :: before, last, field, after, ?_, ?_, hc.isPrefix, ?_⟩
        · rw [hc.fields_eq, List.cons_append]
        · rw [hc.eq, List.flatMap_cons, List.append_assoc, List.append_assoc,
            List.singleton_append]
        · rcases hc.whole with hw | hw
          · exact .inl (by rw [hw, List.intercalate_cons_cons, List.append_assoc,
              List.singleton_append])
          · exact .inr hw

end Text
