import RseqRs.Proof.Cpus
import RseqRs.Spec.CpuList

/-!
# The parser accepts the language of CPU lists

One production of the grammar after the other: `parse::<u32>` and numerals, one turn of the
loop and items, the loop and lists, `trim` and the white space around them.
-/

namespace RseqRs

namespace Cpus

theorem splitOnce_eq_some {sep : Char} {s lo hi : List Char} (h : splitOnce sep s = some (lo, hi)) :
    s = lo ++ sep :: hi := by
  unfold splitOnce at h
  rw [List.span_eq_takeWhile_dropWhile] at h
  have hs := List.takeWhile_append_dropWhile (p := fun c => decide (c ≠ sep)) (l := s)
  generalize s.takeWhile (fun c => decide (c ≠ sep)) = front at h hs
  cases hback : s.dropWhile (fun c => decide (c ≠ sep)) with
  | nil =>
    rw [hback] at h
    cases h
  | cons c back =>
    rw [hback] at h hs
    cases h
    -- what is left begins with the separator
    have hc := List.head_dropWhile_not (fun c => decide (c ≠ sep)) (l := s) (by rw [hback]; nofun)
    simp only [hback, List.head_cons, decide_eq_false_iff_not, not_not] at hc
    rw [← hs, hc]

theorem unsigned_cases (s : List Char) : unsigned s = s ∨ s = '+' :: unsigned s := by
  unfold unsigned
  split
  · exact Or.inr rfl
  · exact Or.inl rfl

/-- White space before a text is trimmed. -/
theorem trim_of_blank {front s : List Char} (h : ∀ c ∈ front, isWhitespace c = true) :
    trim (front ++ s) = trim s := by
  rw [trim, List.dropWhile_append_of_pos h]
  rfl

/-- What is trimmed is white space. -/
theorem exists_trim (s : List Char) : ∃ front back, s = front ++ trim s ++ back ∧
    (∀ c ∈ front, isWhitespace c = true) ∧ ∀ c ∈ back, isWhitespace c = true := by
  refine ⟨s.takeWhile isWhitespace, (s.dropWhile isWhitespace).rtakeWhile isWhitespace, ?_,
    fun c hc => List.mem_takeWhile_imp hc, fun c hc => List.mem_rtakeWhile_imp hc⟩
  rw [trim, List.append_assoc, List.rdropWhile_append_rtakeWhile, List.takeWhile_append_dropWhile]

theorem not_isWhitespace_of_isDigit {c : Char} (h : c.isDigit = true) : isWhitespace c = false := by
  obtain ⟨hlo, hhi⟩ := Char.isDigit_iff_toNat.mp h
  change 48 ≤ c.toNat at hlo
  change c.toNat ≤ 57 at hhi
  simp [isWhitespace]
  omega

theorem max_toNat {a b : U32} : (Cpus.max a b).toNat = Nat.max a.toNat b.toNat :=
  Nat.le_antisymm (max_le.mpr ⟨Nat.le_max_left _ _, Nat.le_max_right _ _⟩)
    (Nat.max_le.mpr (max_le.mp le_rfl))

end Cpus

namespace CpuList

/-! ### Numbers -/

theorem Numeral.parseU32 {s : List Char} {n : ℕ} (h : Numeral s n) :
    ∃ v, Cpus.parseU32 s = some v ∧ v.toNat = n := by
  cases h with
  | digits hne hd hv =>
    exact ⟨_, Cpus.parseU32_digits hne hd hv, Nat.mod_eq_of_lt hv⟩
  | @plus s hne hd hv =>
    exact ⟨_, if_pos ⟨hne, List.all_eq_true.mpr hd, hv⟩, Nat.mod_eq_of_lt hv⟩

theorem numeral_of_parseU32 {s : List Char} {v : U32} (h : Cpus.parseU32 s = some v) :
    Numeral s v.toNat := by
  replace h : (if Cpus.unsigned s ≠ [] ∧ (Cpus.unsigned s).all Char.isDigit = true ∧
      Text.value (Cpus.unsigned s) < 2 ^ 32 then
    some (BitVec.ofNat 32 (Text.value (Cpus.unsigned s))) else none) = some v := h
  split at h
  · next hs =>
    obtain ⟨hne, hd, hv⟩ := hs
    cases h
    have hnat : (BitVec.ofNat 32 (Text.value (Cpus.unsigned s))).toNat =
        Text.value (Cpus.unsigned s) := Nat.mod_eq_of_lt hv
    rw [hnat]
    -- with a sign before the digits, or without
    rcases Cpus.unsigned_cases s with he | he
    · rw [he] at hne hd hv ⊢
      exact .digits hne (List.all_eq_true.mp hd) hv
    · generalize Cpus.unsigned s = t at he hne hd hv
      subst he
      exact .plus hne (List.all_eq_true.mp hd) hv
  · cases h

theorem Numeral.mem {s : List Char} {n : ℕ} (h : Numeral s n) {c : Char} (hc : c ∈ s) :
    c.isDigit = true ∨ c = '+' := by
  cases h with
  | digits _ hd _ => exact Or.inl (hd c hc)
  | plus _ hd _ =>
    rcases List.mem_cons.mp hc with rfl | hc
    · exact Or.inr rfl
    · exact Or.inl (hd c hc)

theorem Numeral.ne_nil {s : List Char} {n : ℕ} (h : Numeral s n) : s ≠ [] := by
  cases h with
  | digits hne _ _ => exact hne
  | plus _ _ _ => exact List.cons_ne_nil _ _

theorem Numeral.notMem {s : List Char} {n : ℕ} (h : Numeral s n) {c : Char}
    (hd : c.isDigit = false) (hp : c ≠ '+') : c ∉ s := by
  intro hc
  rcases h.mem hc with h | h
  · rw [hd] at h
    cases h
  · exact hp h

/-! ### Items -/

theorem Item.partHi {s : List Char} {n : ℕ} (h : Item s n) :
    ∃ v, Cpus.partHi s = some v ∧ v.toNat = n := by
  cases h with
  | single hs =>
    obtain ⟨v, hv, hn⟩ := hs.parseU32
    refine ⟨v, ?_, hn⟩
    -- a numeral has no dash
    rw [Cpus.partHi, Cpus.splitOnce_of_notMem (hs.notMem rfl (by decide))]
    exact hv
  | range hlo hhi =>
    obtain ⟨_, hu, _⟩ := hlo.parseU32
    obtain ⟨v, hv, hn⟩ := hhi.parseU32
    refine ⟨v, ?_, hn⟩
    -- the first dash is the one behind the lower end
    rw [Cpus.partHi, Cpus.splitOnce_append (hlo.notMem rfl (by decide))]
    show (Cpus.parseU32 _).bind (fun _ => Cpus.parseU32 _) = _
    rw [hu]
    exact hv

theorem item_of_partHi {s : List Char} {v : U32} (h : Cpus.partHi s = some v) :
    Item s v.toNat := by
  unfold Cpus.partHi at h
  split at h
  · next lo hi hs =>
    obtain ⟨_, hlo, hhi⟩ := Option.bind_eq_some_iff.mp h
    obtain rfl := Cpus.splitOnce_eq_some hs
    exact .range (numeral_of_parseU32 hlo) (numeral_of_parseU32 hhi)
  · exact .single (numeral_of_parseU32 h)

/-- The characters of an item. -/
theorem Item.mem {s : List Char} {n : ℕ} (h : Item s n) {c : Char} (hc : c ∈ s) :
    c.isDigit = true ∨ c = '+' ∨ c = '-' := by
  cases h with
  | single hs => exact (hs.mem hc).imp_right Or.inl
  | range hlo hhi =>
    rcases List.mem_append.mp hc with hc | hc
    · exact (hlo.mem hc).imp_right Or.inl
    rcases List.mem_cons.mp hc with rfl | hc
    · exact Or.inr (Or.inr rfl)
    · exact (hhi.mem hc).imp_right Or.inl

theorem Item.comma_notMem {s : List Char} {n : ℕ} (h : Item s n) : ',' ∉ s := by
  intro hc
  rcases h.mem hc with h | h | h
  · exact absurd h (by decide)
  · exact absurd h (by decide)
  · exact absurd h (by decide)

theorem Item.ne_nil {s : List Char} {n : ℕ} (h : Item s n) : s ≠ [] := by
  cases h with
  | single hs => exact hs.ne_nil
  | range hlo _ => exact List.append_ne_nil_of_left_ne_nil hlo.ne_nil _

/-! ### Lists -/

theorem Items.ne_nil {l : List Char} {n : ℕ} (h : Items l n) : l ≠ [] := by
  cases h with
  | last hs => exact hs.ne_nil
  | more hs _ => exact List.append_ne_nil_of_left_ne_nil hs.ne_nil _

/-- There is no white space in a list. -/
theorem Items.not_blank {l : List Char} {n : ℕ} (h : Items l n) :
    ∀ c ∈ l, Cpus.isWhitespace c = false := by
  have hitem {s : List Char} {n : ℕ} (h : Item s n) : ∀ c ∈ s, Cpus.isWhitespace c = false := by
    intro c hc
    rcases h.mem hc with hd | rfl | rfl
    · exact Cpus.not_isWhitespace_of_isDigit hd
    · decide
    · decide
  induction h with
  | last hs => exact hitem hs
  | more hs _ ih =>
    intro c hc
    rcases List.mem_append.mp hc with hc | hc
    · exact hitem hs c hc
    rcases List.mem_cons.mp hc with rfl | hc
    · decide
    · exact ih c hc

/-- **The loop** over a list ends with its greatest number and what it began with. -/
theorem Items.foldlM {l : List Char} {n : ℕ} (h : Items l n) (a : U32) :
    ∃ v, (l.splitOn ',').foldlM Cpus.maxHi a = some v ∧ v.toNat = Nat.max a.toNat n := by
  induction h generalizing a with
  | last hs =>
    obtain ⟨v, hv, rfl⟩ := hs.partHi
    refine ⟨Cpus.max a v, ?_, Cpus.max_toNat⟩
    -- the one item of the list
    rw [List.splitOn_eq_singleton hs.comma_notMem, List.foldlM_cons, Cpus.maxHi_eq hv]
    rfl
  | @more s l n m hs _ ih =>
    obtain ⟨v, hv, rfl⟩ := hs.partHi
    obtain ⟨w, hw, hmax⟩ := ih (Cpus.max a v)
    refine ⟨w, ?_, ?_⟩
    · rw [List.splitOn_append_cons_self_of_not_mem hs.comma_notMem, List.foldlM_cons,
        Cpus.maxHi_eq hv]
      exact hw
    · rw [hmax, Cpus.max_toNat]
      exact Nat.max_assoc ..

/-- Items with commas between them are a list. -/
theorem items_intercalate {parts : List (List Char)} (hne : parts ≠ [])
    (h : ∀ part ∈ parts, ∃ n, Item part n) : ∃ n, Items ([','].intercalate parts) n := by
  induction parts with
  | nil => exact absurd rfl hne
  | cons part parts ih =>
    obtain ⟨n, hn⟩ := h part List.mem_cons_self
    cases parts with
    | nil => exact ⟨n, by simpa using Items.last hn⟩
    | cons part' parts =>
      obtain ⟨m, hm⟩ := ih nofun fun p hp => h p (List.mem_cons_of_mem _ hp)
      refine ⟨Nat.max n m, ?_⟩
      rw [List.intercalate_cons_cons, List.append_assoc]
      exact .more hn hm

/-! ### The file -/

theorem items_of_parse {l : List Char} {n : U32} (h : Cpus.parse l = some n) :
    ∃ m, Items l m ∧ n.toNat = m + 1 := by
  -- every part between commas is an item, and the parts make up the list
  obtain ⟨hne, hparts⟩ := Cpus.parse_isSome.mp (Option.isSome_of_eq_some h)
  obtain ⟨m, hm⟩ := items_intercalate (List.splitOn_ne_nil ',' l) fun part hp => by
    obtain ⟨hi, hhi, _⟩ := hparts part hp
    exact ⟨_, item_of_partHi hhi⟩
  rw [List.intercalate_splitOn] at hm
  refine ⟨m, hm, ?_⟩
  obtain ⟨v, hv, hmax⟩ := hm.foldlM 0
  have hvm : v.toNat = m := hmax.trans (Nat.zero_max m)
  rw [Cpus.parse_eq hne, hv, Option.bind_some] at h
  -- the greatest number is below `u32::MAX`, or there would be no count
  have hle := Cpus.checkedSucc_isSome.mp (Option.isSome_of_eq_some h)
  obtain ⟨n', hn', hsucc⟩ := Cpus.checkedSucc_eq (a := v) (by omega)
  rw [h] at hn'
  cases hn'
  rw [hsucc, hvm]

theorem Items.parse {l : List Char} {m : ℕ} {n : U32} (h : Items l m) (hn : n.toNat = m + 1) :
    Cpus.parse l = some n := by
  obtain ⟨v, hv, hmax⟩ := h.foldlM 0
  have hvm : v.toNat = m := hmax.trans (Nat.zero_max m)
  have hlt := n.isLt
  obtain ⟨n', hn', hsucc⟩ := Cpus.checkedSucc_eq (a := v) (by omega)
  rw [Cpus.parse_eq h.ne_nil, hv, Option.bind_some, hn']
  exact congrArg some (BitVec.eq_of_toNat_eq (by omega))

end CpuList

/-- **`Cpus::possible` finds a count just in the files that hold a list**, and the count is one
more than the greatest number in it. -/
theorem possible_eq_some (file : Option (List UInt8)) (n : U32) :
    Cpus.possible file = some n ↔ ∃ m, CpuList.Holds file m ∧ n.toNat = m + 1 := by
  constructor
  · intro h
    obtain ⟨content, rfl, h⟩ := Option.bind_eq_some_iff.mp h
    obtain ⟨raw, hraw, h⟩ := Option.bind_eq_some_iff.mp h
    obtain ⟨m, hm, hn⟩ := CpuList.items_of_parse h
    -- the list is what is left when the white space is trimmed
    obtain ⟨front, back, he, hfront, hback⟩ := Cpus.exists_trim raw
    exact ⟨m, ⟨content, front, _, back, rfl, he ▸ hraw, hfront, hm, hback⟩, hn⟩
  · rintro ⟨m, ⟨content, front, list, back, rfl, hraw, hfront, hm, hback⟩, hn⟩
    rw [Cpus.possible_some, hraw, Option.bind_some, List.append_assoc, Cpus.trim_of_blank hfront,
      Cpus.trim_append hm.not_blank hback]
    exact hm.parse hn

end RseqRs
