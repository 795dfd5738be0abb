import RseqRs.Model.Cpus

/-!
# Which ids the count covers

The parser on the part of the kernel's list that the buffer holds.
-/

namespace RseqRs

namespace Cpus

/-! ### Text -/

/-- `from_utf8` of ASCII bytes. -/
theorem fromUtf8_ascii {l : List Char} (h : ∀ c ∈ l, c.toNat < 128) :
    fromUtf8 (l.map Char.toUInt8) = some l := by
  have henc : l.utf8Encode = (l.map Char.toUInt8).toByteArray := by
    unfold List.utf8Encode
    rw [List.map_eq_flatMap]
    congr 1
    refine List.flatMap_congr fun c hc => String.utf8EncodeChar_eq_singleton ?_
    exact Char.utf8Size_eq_one_iff.mpr (Nat.le_of_lt_succ (h c hc))
  rw [fromUtf8, ← henc, List.utf8Decode?_utf8Encode, Option.map_some]

theorem possible_some (content : List UInt8) : possible (some content) =
    (fromUtf8 (content.take bufLen)).bind fun raw => parse (trim raw) := rfl

/-- Nothing is trimmed from a text without white space but the white space behind it. -/
theorem trim_append {l s : List Char} (h : ∀ c ∈ l, isWhitespace c = false)
    (hs : ∀ c ∈ s, isWhitespace c = true) : trim (l ++ s) = l := by
  -- at the front of `l` there is nothing to drop; if there is no `l`, all goes there
  have hfront : (l ++ s).dropWhile isWhitespace = l ++ s ∨ l = [] := by
    cases l with
    | nil => exact .inr rfl
    | cons c l =>
      have hc := h c List.mem_cons_self
      exact .inl (by rw [List.cons_append, List.dropWhile_cons_of_neg (by simp [hc])])
  rcases hfront with hfront | rfl
  · have hback : l.reverse.dropWhile isWhitespace = l.reverse := by
      rw [List.dropWhile_eq_self_iff]
      intro hl
      simpa using h _ (List.mem_reverse.mp (List.getElem_mem hl))
    rw [trim, hfront, List.rdropWhile, List.reverse_append,
      List.dropWhile_append_of_pos fun c hc => hs c (List.mem_reverse.mp hc), hback,
      List.reverse_reverse]
  · rw [trim, List.nil_append, List.dropWhile_eq_nil_iff.mpr hs, List.rdropWhile_nil]

theorem splitOnce_of_notMem {sep : Char} {s : List Char} (h : sep ∉ s) :
    splitOnce sep s = none := by
  -- no character of `s` ends the span
  have hp : ∀ c ∈ s, decide (c ≠ sep) = true := fun c hc =>
    decide_eq_true fun he => h (he ▸ hc)
  rw [splitOnce, List.span_eq_takeWhile_dropWhile, List.dropWhile_eq_nil_iff.mpr hp]

theorem splitOnce_append {sep : Char} {lo hi : List Char} (h : sep ∉ lo) :
    splitOnce sep (lo ++ sep :: hi) = some (lo, hi) := by
  have hp : ∀ c ∈ lo, decide (c ≠ sep) = true := fun c hc =>
    decide_eq_true fun he => h (he ▸ hc)
  rw [splitOnce, List.span_eq_takeWhile_dropWhile, List.takeWhile_append_of_pos hp,
    List.dropWhile_append_of_pos hp, List.dropWhile_cons_of_neg (by simp),
    List.takeWhile_cons_of_neg (by simp), List.append_nil]

theorem parseU32_nil : parseU32 [] = none := rfl

/-- Digits have no sign before them. -/
theorem unsigned_digits {l : List Char} (hd : ∀ c ∈ l, c.isDigit = true) : unsigned l = l := by
  unfold unsigned
  split
  · next rest => exact absurd (hd '+' List.mem_cons_self) (by decide)
  · rfl

theorem parseU32_digits {l : List Char} (hne : l ≠ []) (hd : ∀ c ∈ l, c.isDigit = true)
    (hv : Text.value l < 2 ^ 32) : parseU32 l = some (BitVec.ofNat 32 (Text.value l)) := by
  unfold parseU32
  rw [unsigned_digits hd]
  exact if_pos ⟨hne, List.all_eq_true.mpr hd, hv⟩

/-- A part of a numeral reads as a number that is smaller, unless it is all of the numeral. -/
theorem parseU32_prefix {n : ℕ} {q : List Char} (h : q <+: Nat.toDigits 10 n) (hq : q ≠ [])
    (hn : n < 2 ^ 32) :
    ∃ v, parseU32 q = some v ∧ v.toNat ≤ n ∧ (v.toNat = n → q = Nat.toDigits 10 n) := by
  have hv := Text.value_prefix_le h
  have hlt : Text.value q < 2 ^ 32 := hv.trans_lt hn
  have hd : ∀ c ∈ q, c.isDigit = true := fun c hc => Text.isDigit_of_mem (h.mem hc)
  refine ⟨_, parseU32_digits hq hd hlt, ?_⟩
  rw [BitVec.toNat_ofNat, Nat.mod_eq_of_lt hlt]
  exact ⟨hv, Text.eq_of_value_prefix h hq⟩

theorem parseU32_numeral {n : ℕ} (hn : n < 2 ^ 32) :
    parseU32 (Nat.toDigits 10 n) = some (BitVec.ofNat 32 n) := by
  have h := parseU32_digits (l := Nat.toDigits 10 n) Nat.toDigits_ne_nil
    (fun c hc => Text.isDigit_of_mem hc)
  rw [Text.value_toDigits] at h
  exact h hn

/-- A numeral that is not a `u32` does not parse. -/
theorem parseU32_overflow {n : ℕ} (hn : 2 ^ 32 ≤ n) : parseU32 (Nat.toDigits 10 n) = none := by
  unfold parseU32
  rw [unsigned_digits fun c hc => Text.isDigit_of_mem hc]
  refine if_neg fun h => ?_
  rw [Text.value_toDigits] at h
  exact absurd h.2.2 (Nat.not_lt.mpr hn)

theorem max_le {a b : U32} {c : ℕ} :
    (Cpus.max a b).toNat ≤ c ↔ a.toNat ≤ c ∧ b.toNat ≤ c := by
  unfold Cpus.max
  split
  · next h =>
    rw [BitVec.le_def] at h
    omega
  · next h =>
    rw [BitVec.le_def] at h
    omega

theorem maxHi_eq {m v : U32} {part : List Char} (h : partHi part = some v) :
    maxHi m part = some (Cpus.max m v) := by
  rw [maxHi, h]
  rfl

theorem maxHi_none {m : U32} {part : List Char} (h : partHi part = none) :
    maxHi m part = none := by
  rw [maxHi, h]
  rfl

/-- **The loop**: if every part parses, it ends with the greatest `hi` and what it began with. -/
theorem foldlM_maxHi {parts : List (List Char)} (hp : ∀ part ∈ parts, (partHi part).isSome)
    (m : U32) :
    ∃ m', parts.foldlM maxHi m = some m' ∧ ∀ b, m'.toNat ≤ b ↔
      m.toNat ≤ b ∧ ∀ part ∈ parts, ∀ hi, partHi part = some hi → hi.toNat ≤ b := by
  induction parts generalizing m with
  | nil => exact ⟨m, rfl, by simp⟩
  | cons part parts ih =>
    obtain ⟨hi, hhi⟩ := Option.isSome_iff_exists.mp (hp part List.mem_cons_self)
    obtain ⟨m', hm', hb⟩ := ih (fun q hq => hp q (List.mem_cons_of_mem _ hq)) (Cpus.max m hi)
    refine ⟨m', ?_, fun b => ?_⟩
    · rw [List.foldlM_cons, maxHi_eq hhi]
      exact hm'
    · rw [hb b, max_le, List.forall_mem_cons, and_assoc, hhi]
      simp only [Option.some.injEq, forall_eq']

/-- The loop ends at the first part that does not parse. -/
theorem foldlM_maxHi_none {parts : List (List Char)} {part : List Char} (hp : part ∈ parts)
    (h : partHi part = none) (m : U32) : parts.foldlM maxHi m = none := by
  induction parts generalizing m with
  | nil => cases hp
  | cons q parts ih =>
    rw [List.foldlM_cons]
    rcases List.mem_cons.mp hp with rfl | hp
    · rw [maxHi_none h]
      rfl
    · cases hq : maxHi m q with
      | none => rfl
      | some m' => exact ih hp m'

theorem parse_eq {raw : List Char} (h : raw ≠ []) :
    parse raw = ((raw.splitOn ',').foldlM maxHi 0).bind checkedSucc :=
  if_neg h

theorem checkedSucc_isSome {a : U32} :
    (checkedSucc a).isSome ↔ a.toNat ≤ 2 ^ 32 - 2 := by
  unfold checkedSucc
  split
  · exact iff_of_true rfl (by omega)
  · exact iff_of_false nofun (by omega)

theorem checkedSucc_eq {a : U32} (h : a.toNat + 1 < 2 ^ 32) :
    ∃ n, checkedSucc a = some n ∧ n.toNat = a.toNat + 1 := by
  refine ⟨a + 1, if_pos h, ?_⟩
  rw [BitVec.toNat_add]
  exact Nat.mod_eq_of_lt h

/-- **A text gives a count** if it is not empty and each of its parts has a `hi` below
`u32::MAX`. -/
theorem parse_isSome {raw : List Char} : (parse raw).isSome ↔ raw ≠ [] ∧
    ∀ part ∈ raw.splitOn ',', ∃ hi, partHi part = some hi ∧ hi.toNat ≤ 2 ^ 32 - 2 := by
  by_cases hne : raw = []
  · rw [hne]
    exact iff_of_false nofun fun h => h.1 rfl
  rw [parse_eq hne]
  -- the loop ends with the greatest `hi`, which must have a successor
  by_cases hp : ∀ part ∈ raw.splitOn ',', (partHi part).isSome
  · obtain ⟨m, hm, hb⟩ := foldlM_maxHi hp 0
    rw [hm, Option.bind_some, checkedSucc_isSome, hb]
    constructor
    · rintro ⟨_, h⟩
      refine ⟨hne, fun part hpart => ?_⟩
      obtain ⟨hi, hhi⟩ := Option.isSome_iff_exists.mp (hp part hpart)
      exact ⟨hi, hhi, h part hpart hi hhi⟩
    · rintro ⟨_, h⟩
      refine ⟨by decide, fun part hpart hi hhi => ?_⟩
      obtain ⟨hi', hhi', hle⟩ := h part hpart
      cases hhi.symm.trans hhi'
      exact hle
  · -- a part that does not parse
    push Not at hp
    obtain ⟨part, hpart, hnone⟩ := hp
    rw [foldlM_maxHi_none hpart (Option.not_isSome_iff_eq_none.mp hnone)]
    refine iff_of_false nofun fun h => ?_
    obtain ⟨hi, hhi, _⟩ := h.2 part hpart
    exact hnone (Option.isSome_iff_exists.mpr ⟨hi, hhi⟩)

/-- **`Cpus::possible` finds a count** in the files it can read, and in no other. -/
theorem possible_isSome {file : Option (List UInt8)} :
    (possible file).isSome ↔ Readable file := by
  cases file with
  | none => exact iff_of_false nofun fun ⟨_, _, h, _⟩ => nomatch h
  | some content =>
    rw [possible_some]
    cases hraw : fromUtf8 (content.take bufLen) with
    | none =>
      refine iff_of_false nofun fun ⟨_, _, hc, hu, _⟩ => ?_
      cases hc
      cases hraw.symm.trans hu
    | some raw =>
      rw [Option.bind_some, parse_isSome]
      constructor
      · intro h
        exact ⟨content, raw, rfl, hraw, h⟩
      · rintro ⟨_, _, hc, hu, h⟩
        cases hc
        cases hraw.symm.trans hu
        exact h

end Cpus

/-! ### The kernel's list, cut -/

namespace CpuList

theorem mem_runText {r : Span} {c : Char} (h : c ∈ runText r) : c.isDigit = true ∨ c = '-' := by
  unfold runText at h
  split at h
  · exact .inl (Text.isDigit_of_mem h)
  · rcases List.mem_append.mp h with h | h
    · exact .inl (Text.isDigit_of_mem h)
    · rcases List.mem_cons.mp h with h | h
      · exact .inr h
      · exact .inl (Text.isDigit_of_mem h)

theorem runText_ne_nil (r : Span) : runText r ≠ [] := by
  unfold runText
  split
  · exact Nat.toDigits_ne_nil
  · exact List.append_ne_nil_of_left_ne_nil Nat.toDigits_ne_nil _

theorem comma_notMem {r : Span} : ',' ∉ runText r := by
  intro h
  rcases mem_runText h with h | h
  · exact absurd h (by decide)
  · exact absurd h (by decide)

theorem mem_runs {S : Finset ℕ} {c : Char} (h : c ∈ runs S) :
    c.isDigit = true ∨ c = '-' ∨ c = ',' := by
  rcases Text.mem_intercalate h with h | ⟨l, hl, hc⟩
  · exact .inr (.inr h)
  · obtain ⟨r, _, rfl⟩ := List.mem_map.mp hl
    rcases mem_runText hc with h | h
    · exact .inl h
    · exact .inr (.inl h)

theorem mem_ids {S : Finset ℕ} {i : ℕ} : i ∈ ids S ↔ i ∈ S := by
  unfold ids
  rw [List.mem_filter, List.mem_range, decide_eq_true_iff]
  exact ⟨fun h => h.2, fun h => ⟨Nat.lt_succ_of_le (Finset.le_sup (f := id) h), h⟩⟩

theorem ids_ascend (S : Finset ℕ) : (ids S).Pairwise (· < ·) :=
  List.pairwise_lt_range.filter _

/-- What is left of a run's text: of its only numeral, of its first one, or of its second. -/
theorem prefix_runText {r : Span} {q : List Char} (h : q <+: runText r) :
    runText r = Nat.toDigits 10 r.hi ∧ q <+: Nat.toDigits 10 r.hi ∨
    r.lo < r.hi ∧ q <+: Nat.toDigits 10 r.lo ∨
    runText r = Nat.toDigits 10 r.lo ++ '-' :: Nat.toDigits 10 r.hi ∧
      ∃ q', q = Nat.toDigits 10 r.lo ++ '-' :: q' ∧ q' <+: Nat.toDigits 10 r.hi := by
  unfold runText at h ⊢
  split at h
  · next he => exact .inl ⟨by rw [if_pos he, he], by rwa [he] at h⟩
  · next he =>
    rcases Text.prefix_append_cons h with h | hq
    · exact .inr (.inl ⟨Nat.lt_of_le_of_ne r.le he, h⟩)
    · exact .inr (.inr ⟨if_neg he, hq⟩)

theorem dash_notMem {n : ℕ} {q : List Char} (h : q <+: Nat.toDigits 10 n) : '-' ∉ q := fun hc =>
  absurd (Text.isDigit_of_mem (h.mem hc)) (by decide)

theorem partHi_numeral {n : ℕ} {q : List Char} (h : q <+: Nat.toDigits 10 n) :
    Cpus.partHi q = Cpus.parseU32 q := by
  rw [Cpus.partHi, Cpus.splitOnce_of_notMem (dash_notMem h)]

theorem partHi_range {r : Span} (hr : r.hi < 2 ^ 32) (q : List Char) :
    Cpus.partHi (Nat.toDigits 10 r.lo ++ '-' :: q) = Cpus.parseU32 q := by
  rw [Cpus.partHi, Cpus.splitOnce_append (dash_notMem (List.prefix_refl _))]
  change (Cpus.parseU32 (Nat.toDigits 10 r.lo)).bind (fun _ => Cpus.parseU32 q) = _
  rw [Cpus.parseU32_numeral (r.le.trans_lt hr), Option.bind_some]

/-- **A run cut to nothing, or behind its dash, does not parse.** -/
theorem partHi_none {r : Span} {q : List Char} (h : q <+: runText r) (hr : r.hi < 2 ^ 32)
    (hq : q = [] ∨ q.getLast? = some '-') : Cpus.partHi q = none := by
  rcases hq with rfl | hq
  · rfl
  · have hmem := List.mem_of_getLast? hq
    rcases prefix_runText h with ⟨_, hp⟩ | ⟨_, hp⟩ | ⟨_, q', rfl, hp⟩
    · exact absurd hmem (dash_notMem hp)
    · exact absurd hmem (dash_notMem hp)
    · -- the second numeral has no dash, so nothing of it is there
      have hnil : q' = [] := by
        by_contra hne
        rw [List.getLast?_append_of_ne_nil _ (List.cons_ne_nil _ _),
          List.getLast?_cons_of_ne_nil hne] at hq
        exact dash_notMem hp (List.mem_of_getLast? hq)
      rw [partHi_range hr, hnil, Cpus.parseU32_nil]

/-- **A run cut behind a digit reads as a smaller number**, unless it is all there. -/
theorem partHi_some {r : Span} {q : List Char} (h : q <+: runText r) (hr : r.hi < 2 ^ 32)
    (hne : q ≠ []) (hq : q.getLast? ≠ some '-') :
    ∃ v, Cpus.partHi q = some v ∧ v.toNat ≤ r.hi ∧ (v.toNat = r.hi → q = runText r) := by
  rcases prefix_runText h with ⟨he, hp⟩ | ⟨hlt, hp⟩ | ⟨he, q', rfl, hp⟩
  · rw [partHi_numeral hp, he]
    exact Cpus.parseU32_prefix hp hne hr
  · -- the first id of the run, or less
    obtain ⟨v, hv, hle, _⟩ := Cpus.parseU32_prefix hp hne (hlt.trans hr)
    refine ⟨v, by rw [partHi_numeral hp, hv], hle.trans hlt.le, fun hhi => ?_⟩
    omega
  · have hne' : q' ≠ [] := by
      rintro rfl
      exact hq (by simp)
    obtain ⟨v, hv, hle, heq⟩ := Cpus.parseU32_prefix hp hne' hr
    refine ⟨v, by rw [partHi_range hr, hv], hle, fun hhi => ?_⟩
    rw [he, heq hhi]

/-- A whole run reads as its last id. -/
theorem partHi_runText {r : Span} (hr : r.hi < 2 ^ 32) :
    Cpus.partHi (runText r) = some (BitVec.ofNat 32 r.hi) := by
  rcases prefix_runText (List.prefix_refl (runText r)) with ⟨he, hp⟩ | ⟨hlt, hp⟩ | ⟨he, _⟩
  · rw [he, partHi_numeral (List.prefix_refl _), Cpus.parseU32_numeral hr]
  · -- the text of a longer run has a dash
    refine absurd ?_ (dash_notMem hp)
    rw [runText, if_neg hlt.ne]
    exact List.mem_append_right _ List.mem_cons_self
  · rw [he, partHi_range hr, Cpus.parseU32_numeral hr]

/-- A run whose last id is not a `u32` does not parse. -/
theorem partHi_overflow {r : Span} (hr : 2 ^ 32 ≤ r.hi) : Cpus.partHi (runText r) = none := by
  unfold runText
  split
  · next he =>
    rw [partHi_numeral (List.prefix_refl _), he, Cpus.parseU32_overflow hr]
  · rw [Cpus.partHi, Cpus.splitOnce_append (dash_notMem (List.prefix_refl _))]
    change (Cpus.parseU32 (Nat.toDigits 10 r.lo)).bind (fun _ =>
      Cpus.parseU32 (Nat.toDigits 10 r.hi)) = none
    rw [Cpus.parseU32_overflow hr, Option.bind_fun_none]

/-- The loop over whole runs ends with the greatest of their ids and what it began with. -/
theorem foldlM_runText {rs : List Span} (hrs : ∀ r ∈ rs, r.hi < 2 ^ 32) (m : U32) :
    ∃ m', (rs.map runText).foldlM Cpus.maxHi m = some m' ∧
      ∀ b, m'.toNat ≤ b ↔ m.toNat ≤ b ∧ ∀ r ∈ rs, r.hi ≤ b := by
  -- each run parses, to its last id
  have hhi : ∀ r ∈ rs, Cpus.partHi (runText r) = some (BitVec.ofNat 32 r.hi) :=
    fun r hr => partHi_runText (hrs r hr)
  have hval : ∀ r ∈ rs, (BitVec.ofNat 32 r.hi).toNat = r.hi := fun r hr => by
    rw [BitVec.toNat_ofNat, Nat.mod_eq_of_lt (hrs r hr)]
  obtain ⟨m', hm', hb⟩ := Cpus.foldlM_maxHi (fun part hpart => by
    obtain ⟨r, hr, rfl⟩ := List.mem_map.mp hpart
    rw [hhi r hr]
    rfl) m
  refine ⟨m', hm', fun b => (hb b).trans (and_congr_right fun _ => ?_)⟩
  rw [List.forall_mem_map]
  constructor
  · intro h r hr
    rw [← hval r hr]
    exact h r hr _ (hhi r hr)
  · intro h r hr hi hpart
    cases (hhi r hr).symm.trans hpart
    rw [hval r hr]
    exact h r hr

/-! ### The whole file, and a part of it -/

theorem mem_text_ascii {S : Finset ℕ} {c : Char} (h : c ∈ text S) : c.toNat < 128 := by
  rcases List.mem_append.mp h with h | h
  · rcases mem_runs h with h | rfl | rfl
    · exact (Char.isDigit_iff_toNat.mp h).2.trans_lt (by decide)
    · decide
    · decide
  · rw [List.mem_singleton.mp h]
    decide

theorem mem_runs_trim {S : Finset ℕ} {c : Char} (h : c ∈ runs S) :
    Cpus.isWhitespace c = false := by
  rcases mem_runs h with h | rfl | rfl
  · obtain ⟨hlo, hhi⟩ := Char.isDigit_iff_toNat.mp h
    change 48 ≤ c.toNat at hlo
    change c.toNat ≤ 57 at hhi
    simp [Cpus.isWhitespace]
    omega
  · decide
  · decide

/-- **What is parsed is the first 256 characters of the runs**: the newline is trimmed, or it
is not read. -/
theorem possible_file (S : Finset ℕ) :
    Cpus.possible (some (file S)) = Cpus.parse ((runs S).take Cpus.bufLen) := by
  have hutf : Cpus.fromUtf8 ((file S).take Cpus.bufLen) = some ((text S).take Cpus.bufLen) := by
    rw [file, ← List.map_take]
    exact Cpus.fromUtf8_ascii fun c hc => mem_text_ascii (List.mem_of_mem_take hc)
  have htrim : Cpus.trim ((text S).take Cpus.bufLen) = (runs S).take Cpus.bufLen := by
    rw [text, List.take_append]
    refine Cpus.trim_append (fun c hc => mem_runs_trim (List.mem_of_mem_take hc)) fun c hc => ?_
    rw [List.mem_singleton.mp (List.mem_of_mem_take hc)]
    decide
  rw [Cpus.possible_some, hutf, Option.bind_some, htrim]

/-- A part `p` of the runs: the runs of `before` and a part `q` of the text of the next. -/
structure RunCut (S : Finset ℕ) (p : List Char) (before : List Span) (r : Span)
    (after : List Span) (q : List Char) : Prop where
  spans_eq : spans (ids S) = before ++ r :: after
  split : p.splitOn ',' = before.map runText ++ [q]
  isPrefix : q <+: runText r
  /-- the last character of the part -/
  last : q = [] ∧ (p = [] ∨ p.getLast? = some ',') ∨ q ≠ [] ∧ p.getLast? = q.getLast?
  whole : p = runs S ∨ q ≠ runText r ∨ after ≠ []

theorem spans_ids_ne_nil {S : Finset ℕ} (hS : S.Nonempty) : spans (ids S) ≠ [] := by
  obtain ⟨i, hi⟩ := hS
  exact spans_ne_nil (List.ne_nil_of_mem (mem_ids.mpr hi))

theorem exists_runCut {S : Finset ℕ} {p : List Char} (hS : S.Nonempty) (h : p <+: runs S) :
    ∃ before r after q, RunCut S p before r after q := by
  have hne : (spans (ids S)).map runText ≠ [] := by
    simpa using spans_ids_ne_nil hS
  obtain ⟨_, q, _, _, hfields, hp, hq, hwhole⟩ := Text.exists_cut hne h
  obtain ⟨before, rest, hspans, rfl, hrest⟩ := List.map_eq_append_iff.mp hfields
  obtain ⟨r, after, rfl, rfl, rfl⟩ := List.map_eq_cons_iff.mp hrest
  refine ⟨before, r, after, q, hspans, ?_, hq, ?_, ?_⟩
  · rw [hp]
    refine Text.splitOn_flatMap (fun l hl => ?_) fun hc => comma_notMem (hq.mem hc)
    obtain ⟨s, _, rfl⟩ := List.mem_map.mp hl
    exact comma_notMem
  · by_cases hnil : q = []
    · refine .inl ⟨hnil, ?_⟩
      rw [hp, hnil, List.append_nil]
      rcases List.eq_nil_or_concat before with rfl | ⟨l, s, rfl⟩
      · exact .inl rfl
      · exact .inr (by simp [← List.append_assoc])
    · refine .inr ⟨hnil, ?_⟩
      rw [hp, List.getLast?_append_of_ne_nil _ hnil]
  · rcases hwhole with hw | hw | hw
    · exact .inl hw
    · exact .inr (.inl hw)
    · exact .inr (.inr (by simpa using hw))

section Count

variable {S : Finset ℕ}

theorem hi_mem_set {r : Span} (hr : r ∈ spans (ids S)) : r.hi ∈ S :=
  mem_ids.mp (exists_mem_spans.mp ⟨r, hr, r.hi_mem⟩)

theorem lo_mem_set {r : Span} (hr : r ∈ spans (ids S)) : r.lo ∈ S :=
  mem_ids.mp (exists_mem_spans.mp ⟨r, hr, r.lo_mem⟩)

theorem exists_span {i : ℕ} (hi : i ∈ S) : ∃ r ∈ spans (ids S), i ≤ r.hi := by
  obtain ⟨r, hr, _, hle⟩ := exists_mem_spans.mpr (mem_ids.mpr hi)
  exact ⟨r, hr, hle⟩

/-- Split at the commas, the runs come out. -/
theorem splitOn_runs (hS : S.Nonempty) :
    (runs S).splitOn ',' = (spans (ids S)).map runText := by
  refine List.splitOn_intercalate ',' (fun l hl => ?_) (by simpa using spans_ids_ne_nil hS)
  obtain ⟨r, _, rfl⟩ := List.mem_map.mp hl
  exact comma_notMem

theorem runs_ne_nil (hS : S.Nonempty) : runs S ≠ [] := by
  intro h
  have hsplit := splitOn_runs hS
  rw [h, List.splitOn_nil] at hsplit
  -- then there is one run, of no character
  obtain ⟨r, _, hr⟩ := List.mem_map.mp (hsplit ▸ List.mem_singleton.mpr rfl)
  exact runText_ne_nil r hr

theorem hi_le_max (hS : S.Nonempty) {r : Span} (hr : r ∈ spans (ids S)) : r.hi ≤ S.max' hS :=
  S.le_max' _ (hi_mem_set hr)

/-- The loop over the whole list ends with the greatest id, if all are `u32`s. -/
theorem foldlM_runs (hS : S.Nonempty) (hmax : S.max' hS < 2 ^ 32) :
    ∃ m, ((runs S).splitOn ',').foldlM Cpus.maxHi 0 = some m ∧ m.toNat = S.max' hS := by
  obtain ⟨m, hm, hb⟩ := foldlM_runText (fun r hr => (hi_le_max hS hr).trans_lt hmax) 0
  refine ⟨m, by rw [splitOn_runs hS, hm], Nat.le_antisymm ?_ ?_⟩
  · exact (hb _).mpr ⟨Nat.zero_le _, fun r hr => hi_le_max hS hr⟩
  · obtain ⟨r, hr, hle⟩ := exists_span (S.max'_mem hS)
    exact hle.trans (((hb _).mp le_rfl).2 r hr)

/-- **The whole list gives the count**: one more than the greatest id. -/
theorem parse_runs (hS : S.Nonempty) (hmax : S.max' hS < 2 ^ 32 - 1) :
    ∃ n, Cpus.parse (runs S) = some n ∧ n.toNat = S.max' hS + 1 := by
  obtain ⟨m, hm, hval⟩ := foldlM_runs hS (hmax.trans (by decide))
  obtain ⟨n, hn, hsucc⟩ := Cpus.checkedSucc_eq (a := m) (by omega)
  refine ⟨n, ?_, by rw [hsucc, hval]⟩
  rw [Cpus.parse_eq (runs_ne_nil hS), hm, Option.bind_some, hn]

/-- **A list that goes beyond the `u32`s, or up to the last of them, gives no count.** -/
theorem parse_runs_none (hS : S.Nonempty) (hmax : 2 ^ 32 - 1 ≤ S.max' hS) :
    Cpus.parse (runs S) = none := by
  rw [Cpus.parse_eq (runs_ne_nil hS)]
  by_cases hlt : S.max' hS < 2 ^ 32
  · -- the number parses, but it has no successor
    obtain ⟨m, hm, hval⟩ := foldlM_runs hS hlt
    rw [hm, Option.bind_some]
    exact if_neg (by omega)
  · -- the run of the greatest id does not parse
    obtain ⟨r, hr, hle⟩ := exists_span (S.max'_mem hS)
    have hnone := partHi_overflow ((Nat.not_lt.mp hlt).trans hle)
    rw [splitOn_runs hS, Cpus.foldlM_maxHi_none (List.mem_map_of_mem hr) hnone,
      Option.bind_none]

variable (hlt : ∀ i ∈ S, i < 2 ^ 32 - 1)
include hlt

theorem hi_lt {r : Span} (hr : r ∈ spans (ids S)) : r.hi < 2 ^ 32 - 1 := hlt _ (hi_mem_set hr)

variable {p : List Char} {before after : List Span} {r : Span} {q : List Char}
  (hc : RunCut S p before r after q)
include hc

omit hlt in
theorem RunCut.mem_run : r ∈ spans (ids S) := by
  rw [hc.spans_eq]
  exact List.mem_append_right _ List.mem_cons_self

/-- The loop over a part of the list comes to the run that is cut. -/
theorem RunCut.foldlM :
    ∃ m, (p.splitOn ',').foldlM Cpus.maxHi 0 = Cpus.maxHi m q ∧
      ∀ b, (∀ s ∈ before, s.hi ≤ b) → m.toNat ≤ b := by
  have hmem : ∀ s ∈ before, s ∈ spans (ids S) := fun s hs => by
    rw [hc.spans_eq]
    exact List.mem_append_left _ hs
  obtain ⟨m, hm, hb⟩ := foldlM_runText
    (fun s hs => (hi_lt hlt (hmem s hs)).trans (by decide)) 0
  refine ⟨m, ?_, fun b h => (hb b).mpr ⟨Nat.zero_le b, h⟩⟩
  rw [hc.split, List.foldlM_append, hm]
  exact Option.bind_fun_some _

/-- **A list cut behind a separator does not parse.** -/
theorem RunCut.parse_none (hne : p ≠ [])
    (hlast : p.getLast? = some ',' ∨ p.getLast? = some '-') : Cpus.parse p = none := by
  have hq : q = [] ∨ q.getLast? = some '-' := by
    rcases hc.last with ⟨hnil, _⟩ | ⟨_, heq⟩
    · exact .inl hnil
    · rw [heq] at hlast
      refine .inr (hlast.resolve_left fun h => ?_)
      exact comma_notMem (hc.isPrefix.mem (List.mem_of_getLast? h))
  have hnone := partHi_none hc.isPrefix ((hi_lt hlt hc.mem_run).trans (by decide)) hq
  obtain ⟨m, hm, _⟩ := hc.foldlM hlt
  rw [Cpus.parse_eq hne, hm, Cpus.maxHi_none hnone, Option.bind_none]

/-- **A list cut behind a digit gives a count that is too small**, for its last id at least. -/
theorem RunCut.parse_some (hne : p ≠ []) (hcut : p ≠ runs S)
    (hlast : ¬(p.getLast? = some ',' ∨ p.getLast? = some '-')) :
    ∃ n, Cpus.parse p = some n ∧ ∃ i ∈ S, n.toNat ≤ i := by
  -- the text behind the last comma is part of a run, and ends with a digit
  have hq : q ≠ [] ∧ p.getLast? = q.getLast? :=
    hc.last.resolve_left fun h => h.2.elim hne fun h => hlast (.inl h)
  have hhi := hi_lt hlt hc.mem_run
  obtain ⟨v, hv, hle, hwhole⟩ := partHi_some hc.isPrefix (hhi.trans (by decide)) hq.1
    fun h => hlast (.inr (hq.2.trans h))
  obtain ⟨m, hm, hb⟩ := hc.foldlM hlt
  -- the runs before the one that is cut end below it, those after it begin above it
  have hasc := spans_ascend (ids_ascend S)
  rw [hc.spans_eq, List.pairwise_append, List.pairwise_cons] at hasc
  obtain ⟨_, ⟨hafter, _⟩, hbefore⟩ := hasc
  have hlo := r.le
  have hmlt : m.toNat ≤ r.hi - 1 := hb _ fun s hs => by
    have := hbefore s hs r List.mem_cons_self
    omega
  have hmax : (Cpus.max m v).toNat ≤ r.hi := Cpus.max_le.mpr ⟨by omega, hle⟩
  obtain ⟨n, hn, hval⟩ := Cpus.checkedSucc_eq (a := Cpus.max m v) (by omega)
  refine ⟨n, by rw [Cpus.parse_eq hne, hm, Cpus.maxHi_eq hv, Option.bind_some, hn], ?_⟩
  by_cases hvr : v.toNat = r.hi
  · -- the run is all there, so another one is not
    have hmore : after ≠ [] :=
      (hc.whole.resolve_left hcut).resolve_left fun h => h (hwhole hvr)
    obtain ⟨s, hs⟩ := List.exists_mem_of_ne_nil after hmore
    have := hafter s hs
    refine ⟨s.lo, lo_mem_set ?_, by omega⟩
    rw [hc.spans_eq]
    exact List.mem_append_right _ (List.mem_cons_of_mem _ hs)
  · refine ⟨r.hi, hi_mem_set hc.mem_run, ?_⟩
    have : (Cpus.max m v).toNat ≤ r.hi - 1 := Cpus.max_le.mpr ⟨hmlt, by omega⟩
    have : 0 < r.hi := by omega
    omega

end Count

end CpuList

/-! ### The ids the count covers -/

/-- The checks of `Words::get` and `Rseq::fence` ask no more than that the ids are counted. -/
theorem everyIdCounted_of {S : Finset ℕ}
    (h : ∀ n, Cpus.possible (some (CpuList.file S)) = some n → ∀ i ∈ S, i < n.toNat) :
    EveryIdCounted S := by
  intro n hn
  refine ⟨h n hn, fun cpu hcpu => ?_⟩
  have hlt : cpu.id < n := BitVec.lt_def.mpr (h n hn _ hcpu)
  refine ⟨fun w mmap ws hws => Region.Words.get_isSome.mpr ?_, hlt⟩
  rw [Region.Words.cpus_of_new hws]
  exact hlt

/-- A buffer that is not long enough ends with the character at its last place. -/
theorem getLast?_take_runs {S : Finset ℕ} (h : Cpus.bufLen < (CpuList.runs S).length) :
    ((CpuList.runs S).take Cpus.bufLen).getLast? = (CpuList.text S)[Cpus.bufLen - 1]? := by
  rw [List.getLast?_eq_getElem?, List.length_take_of_le h.le,
    List.getElem?_take_of_lt (Nat.sub_one_lt (by decide)), CpuList.text,
    List.getElem?_append_left ((Nat.sub_le _ 1).trans_lt h)]

theorem length_file (S : Finset ℕ) : (CpuList.file S).length = (CpuList.runs S).length + 1 := by
  rw [CpuList.file, List.length_map, CpuList.text, List.length_append, List.length_singleton]

/-- **A count is too small** for a list that is longer than the buffer, if the buffer does not
end with a comma or a dash. -/
theorem not_everyIdCounted {S : Finset ℕ} (hS : S.Nonempty) (hlt : ∀ i ∈ S, i < 2 ^ 32 - 1)
    (hlen : Cpus.bufLen < (CpuList.runs S).length)
    (hlast : ¬((CpuList.text S)[Cpus.bufLen - 1]? = some ',' ∨
      (CpuList.text S)[Cpus.bufLen - 1]? = some '-')) : ¬EveryIdCounted S := by
  intro h
  obtain ⟨before, r, after, q, hc⟩ := CpuList.exists_runCut hS (List.take_prefix Cpus.bufLen _)
  rw [← getLast?_take_runs hlen] at hlast
  have hcut : (CpuList.runs S).take Cpus.bufLen ≠ CpuList.runs S := fun he => by
    have := congrArg List.length he
    rw [List.length_take_of_le hlen.le] at this
    omega
  have hne : (CpuList.runs S).take Cpus.bufLen ≠ [] := by
    rw [← List.length_pos_iff, List.length_take_of_le hlen.le]
    decide
  obtain ⟨n, hn, i, hi, hle⟩ := hc.parse_some hlt hne hcut hlast
  have := (h n (by rw [CpuList.possible_file, hn])).1 i hi
  omega

/-- **Every possible CPU has a slot** if and only if the buffer holds all of the kernel's list,
but for the newline perhaps, or is cut behind a comma or a dash, where nothing is counted. -/
theorem everyIdCounted_iff {S : Finset ℕ} (hS : S.Nonempty) (hlt : ∀ i ∈ S, i < 2 ^ 32 - 1) :
    EveryIdCounted S ↔ (CpuList.file S).length ≤ Cpus.bufLen + 1 ∨
      (CpuList.text S)[Cpus.bufLen - 1]? = some ',' ∨
      (CpuList.text S)[Cpus.bufLen - 1]? = some '-' := by
  rw [length_file, Nat.add_le_add_iff_right]
  constructor
  · intro h
    by_contra hnot
    rw [not_or, Nat.not_le] at hnot
    exact not_everyIdCounted hS hlt hnot.1 hnot.2 h
  · intro h
    refine everyIdCounted_of fun n hn => ?_
    rw [CpuList.possible_file] at hn
    by_cases hlen : (CpuList.runs S).length ≤ Cpus.bufLen
    · -- all runs are read
      obtain ⟨n', hn', hcount⟩ := CpuList.parse_runs hS (hlt _ (S.max'_mem hS))
      rw [List.take_of_length_le hlen, hn'] at hn
      cases hn
      intro i hi
      rw [hcount]
      exact Nat.lt_succ_of_le (S.le_max' i hi)
    · -- a separator is the last that is read
      have hlast := h.resolve_left hlen
      rw [Nat.not_le] at hlen
      obtain ⟨before, r, after, q, hc⟩ :=
        CpuList.exists_runCut hS (List.take_prefix Cpus.bufLen _)
      rw [← getLast?_take_runs hlen] at hlast
      have hne : (CpuList.runs S).take Cpus.bufLen ≠ [] := by
        rw [← List.length_pos_iff, List.length_take_of_le hlen.le]
        decide
      rw [hc.parse_none hlt hne hlast] at hn
      cases hn

/-- The even ids up to `2 * n`. -/
def evenIds (n : ℕ) : Finset ℕ := (Finset.range (2 * n + 1)).filter (· % 2 = 0)

theorem evenIds_lt {n i : ℕ} (hi : i ∈ evenIds n) : i < 2 * n + 1 :=
  Finset.mem_range.mp (Finset.mem_filter.mp hi).1

/-- The list of the even ids up to 154 has 257 bytes: the buffer holds all but the newline. -/
theorem everyIdCounted_iff_evenIds : EveryIdCounted (evenIds 77) :=
  (everyIdCounted_iff ⟨0, by decide⟩ fun i hi => (evenIds_lt hi).trans (by decide)).mpr
    (.inl (by decide +kernel))

/-- **The count can be too small**: of the even ids up to 156 the buffer has those up to 154. -/
theorem not_everyIdCounted_evenIds :
    ¬∀ S : Finset ℕ, S.Nonempty → (∀ i ∈ S, i < 2 ^ 32 - 1) → EveryIdCounted S := by
  intro h
  have hlt : ∀ i ∈ evenIds 78, i < 2 ^ 32 - 1 := fun i hi => (evenIds_lt hi).trans (by decide)
  exact not_everyIdCounted ⟨0, by decide⟩ hlt (by decide +kernel) (by decide +kernel)
    (h _ ⟨0, by decide⟩ hlt)

/-! ### The parser inverts the printer -/

/-- **A list that fits the buffer is read back**: its greatest id and one, or `None` where that
is not a `u32`. -/
theorem possible_file_fits {S : Finset ℕ} (hS : S.Nonempty)
    (hlen : (CpuList.file S).length ≤ 256) :
    ((∀ i ∈ S, i < 2 ^ 32 - 1) →
      ∃ n, Cpus.possible (some (CpuList.file S)) = some n ∧ n.toNat = 1 + S.max' hS) ∧
    (2 ^ 32 - 1 ≤ S.max' hS → Cpus.possible (some (CpuList.file S)) = none) := by
  have hruns : (CpuList.runs S).length ≤ Cpus.bufLen := by
    rw [length_file] at hlen
    exact (Nat.le_succ _).trans hlen
  rw [CpuList.possible_file, List.take_of_length_le hruns]
  constructor
  · intro hlt
    obtain ⟨n, hn, hval⟩ := CpuList.parse_runs hS (hlt _ (S.max'_mem hS))
    exact ⟨n, hn, by omega⟩
  · intro hmax
    exact CpuList.parse_runs_none hS hmax

/-- The bitmap is scanned upwards. -/
theorem CpuList.ids_eq {S : Finset ℕ} {l : List ℕ} (hl : l.Pairwise (· < ·))
    (h : ∀ i, i ∈ l ↔ i ∈ S) : CpuList.ids S = l :=
  (ids_ascend S).eq_of_mem_iff hl fun i => mem_ids.trans (h i).symm

/-- CPUs `0-3,8,10-11` are counted up to the last; a list that ends with the last `u32` has no
count. -/
theorem possible_file_fits_gaps :
    (∃ n, Cpus.possible (some (CpuList.file {0, 1, 2, 3, 8, 10, 11})) = some n ∧ n.toNat = 12) ∧
    Cpus.possible (some (CpuList.file {0, 2 ^ 32 - 1})) = none := by
  constructor
  · have hlen : (CpuList.file {0, 1, 2, 3, 8, 10, 11}).length ≤ 256 := by decide +kernel
    have hne : ({0, 1, 2, 3, 8, 10, 11} : Finset ℕ).Nonempty := ⟨0, by decide⟩
    obtain ⟨n, hn, hval⟩ := (possible_file_fits hne hlen).1 (by decide)
    exact ⟨n, hn, hval⟩
  · have hids : CpuList.ids {0, 2 ^ 32 - 1} = [0, 2 ^ 32 - 1] :=
      CpuList.ids_eq (by decide) fun i => by simp
    have hlen : (CpuList.file {0, 2 ^ 32 - 1}).length ≤ 256 := by
      rw [length_file, CpuList.runs, hids]
      decide +kernel
    refine (possible_file_fits (Finset.insert_nonempty _ _) hlen).2 ?_
    exact Finset.le_max' _ _ (by decide)

end RseqRs
