import RseqRs.Model.Region

/-!
# The words of a region

`Region::map` computes its length with checks, `Region::word` its address without. What the
checks have let through bounds every product the unchecked arithmetic forms: an id below the
count, times the size of a word, is inside the mapping or the slice. Below, every machine number
is read as a natural one as soon as its bound is known.
-/

namespace RseqRs

variable {w : ℕ}

/-! ### Checked arithmetic -/

theorem checkedMul_eq_some {a b c : BitVec w} :
    checkedMul a b = some c ↔ a.toNat * b.toNat < 2 ^ w ∧ c.toNat = a.toNat * b.toNat := by
  unfold checkedMul
  split
  · next h =>
    have hval : (a * b).toNat = a.toNat * b.toNat := by
      rw [BitVec.toNat_mul, Nat.mod_eq_of_lt h]
    constructor
    · intro he
      cases he
      exact ⟨h, hval⟩
    · rintro ⟨_, hc⟩
      exact congrArg some (BitVec.eq_of_toNat_eq (hval.trans hc.symm))
  · next h => exact iff_of_false nofun fun hc => h hc.1

/-- **`div_ceil` is the least quotient that reaches**: it does not wrap. -/
theorem divCeil_le_iff {a b : BitVec w} (hb : 1 < b.toNat) (k : ℕ) :
    (divCeil a b).toNat ≤ k ↔ a.toNat ≤ k * b.toNat := by
  have hpos : 0 < b.toNat := Nat.zero_lt_of_lt hb
  unfold divCeil
  split
  · next h =>
    -- the quotient is exact
    have hmod : a.toNat % b.toNat = 0 := by
      rw [← BitVec.toNat_umod, h]
      rfl
    rw [BitVec.toNat_udiv, ← Nat.mul_le_mul_right_iff hpos,
      Nat.div_mul_cancel (Nat.dvd_of_mod_eq_zero hmod)]
  · next h =>
    have hmod : a.toNat % b.toNat ≠ 0 := fun h0 =>
      h (BitVec.eq_of_toNat_eq (by rw [BitVec.toNat_umod, h0]; rfl))
    have ha : 0 < a.toNat := Nat.pos_of_ne_zero fun h0 => hmod (by rw [h0, Nat.zero_mod])
    have hlt : a.toNat / b.toNat < a.toNat := Nat.div_lt_self ha hb
    have hval : (a / b + 1).toNat = a.toNat / b.toNat + 1 := by
      have hone : (1 : BitVec w).toNat = 1 := by
        change (BitVec.ofNat w 1).toNat = 1
        rw [BitVec.toNat_ofNat, Nat.mod_eq_of_lt (hb.trans b.isLt)]
      rw [BitVec.toNat_add, BitVec.toNat_udiv, hone]
      exact Nat.mod_eq_of_lt (Nat.lt_of_le_of_lt hlt a.isLt)
    rw [hval, Nat.succ_le_iff, Nat.div_lt_iff_lt_mul hpos]
    constructor
    · exact le_of_lt
    · intro hle
      refine lt_of_le_of_ne hle fun he => hmod ?_
      rw [he, Nat.mul_mod_left]

/-- What a check against `0` lets through is the value itself. -/
theorem nonZero_eq_some {p : BitVec w} {q : { p : BitVec w // p ≠ 0 }} :
    (if h : p = 0 then none else some (⟨p, h⟩ : { p : BitVec w // p ≠ 0 })) = some q ↔
      p = q.val := by
  split
  · next h => exact iff_of_false nofun fun he => q.property (he.symm.trans h)
  · next h =>
    rw [Option.some_inj]
    exact Subtype.ext_iff

theorem NonZeroUsize.new_eq_some {n : BitVec w} {m : NonZeroUsize w} :
    new n = some m ↔ n = m.val := nonZero_eq_some

theorem NonNull.new_eq_some {p : BitVec w} {q : NonNull w} : new p = some q ↔ p = q.val :=
  nonZero_eq_some

namespace Region

namespace PtrWidth

variable (hw : PtrWidth w)
include hw

theorem page_toNat : (page w).toNat = 4096 := by
  rcases hw with rfl | rfl <;> rfl

theorem sizeOfWord_toNat : (sizeOfWord w).toNat = w / 8 := by
  rcases hw with rfl | rfl <;> rfl

theorem size_dvd_page : w / 8 ∣ 4096 := by
  rcases hw with rfl | rfl <;> decide

theorem size_pos : 0 < w / 8 := by
  rcases hw with rfl | rfl <;> decide

theorem u32_lt (n : U32) : n.toNat < 2 ^ w := by
  have := n.isLt
  rcases hw with rfl | rfl <;> omega

theorem setWidth_toNat (n : U32) : (n.setWidth w).toNat = n.toNat := by
  rw [BitVec.toNat_setWidth, Nat.mod_eq_of_lt (hw.u32_lt n)]

end PtrWidth

/-! ### The length of the mapping -/

section Map

variable (hw : PtrWidth w) {cpus : U32} {len : NonZeroUsize w}
include hw

/-- The length that is asked for is the exact number of pages. -/
theorem mapLen_pages (h : mapLen w cpus = some len) :
    ∃ pages : ℕ, len.val.toNat = pages * 4096 ∧
      ∀ k, pages ≤ k ↔ cpus.toNat * (w / 8) ≤ k * 4096 := by
  simp only [mapLen, Option.bind_eq_bind, Option.bind_eq_some_iff] at h
  obtain ⟨n, hn, bytes, hbytes, rounded, hrounded, hnew⟩ := h
  -- the count, as a `usize`
  have hcpus : n.toNat = cpus.toNat := by
    rw [usizeTryFrom, if_pos (hw.u32_lt cpus)] at hn
    rw [← Option.some.inj hn, hw.setWidth_toNat]
  have hbytes := (checkedMul_eq_some.mp hbytes).2
  have hrounded := (checkedMul_eq_some.mp hrounded).2
  rw [hcpus, hw.sizeOfWord_toNat] at hbytes
  rw [hw.page_toNat, NonZeroUsize.new_eq_some.mp hnew] at hrounded
  refine ⟨_, hrounded, fun k => ?_⟩
  rw [divCeil_le_iff (by rw [hw.page_toNat]; decide), hbytes, hw.page_toNat]

/-- **The length is the least positive multiple of a page that holds the words.** -/
theorem mapLen_isLeast (h : mapLen w cpus = some len) :
    IsLeast { k : ℕ | 0 < k ∧ 4096 ∣ k ∧ cpus.toNat * (w / 8) ≤ k } len.val.toNat := by
  obtain ⟨pages, hlen, hle⟩ := mapLen_pages hw h
  have hpos : 0 < len.val.toNat := Nat.pos_of_ne_zero fun h0 =>
    len.property (BitVec.eq_of_toNat_eq h0)
  rw [hlen] at hpos ⊢
  refine ⟨⟨hpos, Nat.dvd_mul_left .., (hle pages).mp le_rfl⟩, ?_⟩
  rintro k ⟨_, ⟨j, rfl⟩, hk⟩
  rw [Nat.mul_comm 4096 j] at hk ⊢
  exact Nat.mul_le_mul_right 4096 ((hle j).mpr hk)

theorem asksLeast (cpus : U32) : AsksLeast w cpus := by
  cases h : mapLen w cpus with
  | none =>
    refine .inl fun mmap => ?_
    rw [map, h]
    rfl
  | some len =>
    refine .inr ⟨len, mapLen_isLeast hw h, fun mmap => ?_⟩
    rw [map, h]
    change (if mmap len = mapFailed w then none else _) = _
    cases hp : NonNull.new (mmap len) <;> rfl

end Map

/-! ### The words -/

section Get

variable {ws : Region.Words w} {base : NonNull w} {bytes : ℕ}

theorem map_eq_some {mmap : NonZeroUsize w → BitVec w} {cpus : U32} {len : NonZeroUsize w}
    (h : map mmap cpus = some (.mapped base len)) :
    mapLen w cpus = some len ∧ mmap len ≠ mapFailed w ∧ mmap len = base.val := by
  simp only [map, Option.bind_eq_bind, Option.bind_eq_some_iff] at h
  obtain ⟨len', hlen, h⟩ := h
  split at h
  · cases h
  · next hfail =>
    obtain ⟨base', hbase, h⟩ := Option.bind_eq_some_iff.mp h
    cases h
    exact ⟨hlen, hfail, NonNull.new_eq_some.mp hbase⟩

theorem Words.region_of_new {mmap : NonZeroUsize w → BitVec w} {cpus : U32}
    (h : Words.new mmap cpus = some ws) : map mmap cpus = some ws.region := by
  unfold Words.new at h
  split at h
  · cases h
  · obtain ⟨r, hr, h⟩ := Option.bind_eq_some_iff.mp h
    cases h
    exact hr

/-- A slice becomes a `Words` if it has a word, and no more than a `u32` counts. -/
theorem Words.fromStatic_eq_some {words : StaticSlice w} :
    Words.fromStatic words = some ws ↔
      words.len.toNat ≠ 0 ∧ words.len.toNat < 2 ^ 32 ∧
        ws = ⟨.raw words.ptr, words.len.setWidth 32⟩ := by
  unfold Words.fromStatic u32TryFrom
  -- a length that a `u32` cannot count is refused first
  by_cases hlt : words.len.toNat < 2 ^ 32
  · have hzero : words.len.setWidth 32 = 0 ↔ words.len.toNat = 0 := by
      rw [← BitVec.toNat_inj, BitVec.toNat_setWidth, Nat.mod_eq_of_lt hlt]
      rfl
    rw [if_pos hlt]
    change (if words.len.setWidth 32 = 0 then none else some _) = some ws ↔ _
    by_cases h0 : words.len.toNat = 0
    · rw [if_pos (hzero.mpr h0)]
      exact iff_of_false nofun fun h => h.1 h0
    · rw [if_neg fun h => h0 (hzero.mp h), Option.some_inj]
      exact ⟨fun h => ⟨h0, hlt, h.symm⟩, fun h => h.2.2.symm⟩
  · rw [if_neg hlt]
    exact iff_of_false nofun fun h => hlt h.2.1

/-- What the construction has checked: the words fit the bytes, which are aligned and do not
wrap around. -/
structure Fits (ws : Region.Words w) (base : NonNull w) (bytes : ℕ) : Prop where
  base_eq : ws.region.base = base
  count : ws.cpus.toNat * (w / 8) ≤ bytes
  aligned : w / 8 ∣ base.val.toNat
  room : base.val.toNat + bytes ≤ 2 ^ w

theorem fits_of_built (hw : PtrWidth w) (h : Built ws base bytes) : Fits ws base bytes := by
  cases h with
  | @new mmap cpus _ _ len hok hnew hregion =>
    -- a mapping: the length that was asked for holds the words
    have hmap := Words.region_of_new hnew
    rw [hregion] at hmap
    obtain ⟨hlen, hfail, hbase⟩ := map_eq_some hmap
    obtain ⟨hpage, hroom⟩ := (hok len).resolve_left hfail
    rw [hbase] at hpage hroom
    refine ⟨by rw [hregion]; rfl, ?_, hw.size_dvd_page.trans hpage, hroom⟩
    rw [Words.cpus_of_new hnew]
    exact (mapLen_isLeast hw hlen).1.2.2
  | @fromStatic words _ hstatic =>
    -- a slice: its length is the count
    obtain ⟨_, hlt, rfl⟩ := Words.fromStatic_eq_some.mp hstatic
    refine ⟨rfl, ?_, words.aligned, words.fits⟩
    rw [BitVec.toNat_setWidth, Nat.mod_eq_of_lt hlt]

namespace Fits

variable (hw : PtrWidth w) (h : Fits ws base bytes)
include hw h

omit hw in
/-- A word of the count ends inside the bytes. -/
theorem end_le {cpu : U32} (hcpu : cpu.toNat < ws.cpus.toNat) :
    cpu.toNat * (w / 8) + w / 8 ≤ bytes := by
  calc
    cpu.toNat * (w / 8) + w / 8 = (cpu.toNat + 1) * (w / 8) := (Nat.succ_mul ..).symm
    _ ≤ ws.cpus.toNat * (w / 8) := Nat.mul_le_mul_right _ hcpu
    _ ≤ bytes := h.count

theorem offset {cpu : U32} (hcpu : cpu.toNat < ws.cpus.toNat) :
    (cpu.setWidth w * sizeOfWord w).toNat = cpu.toNat * (w / 8) := by
  -- the product is inside the bytes, and they do not wrap
  have hend := h.end_le hcpu
  have hroom := h.room
  have hsize := hw.size_pos
  rw [BitVec.toNat_mul, hw.setWidth_toNat, hw.sizeOfWord_toNat]
  exact Nat.mod_eq_of_lt (by omega)

theorem word {cpu : U32} (hcpu : cpu.toNat < ws.cpus.toNat) :
    (ws.region.word cpu).toNat = base.val.toNat + cpu.toNat * (w / 8) := by
  have hend := h.end_le hcpu
  have hroom := h.room
  have hsize := hw.size_pos
  rw [Region.word, BitVec.toNat_add, h.offset hw hcpu, h.base_eq]
  exact Nat.mod_eq_of_lt (by omega)

omit hw h in
theorem get_eq_some {K : Index} {key : K.Key} {p : BitVec w × K.Key}
    (hp : ws.get K key = some p) :
    (K.get key).toNat < ws.cpus.toNat ∧ p = (ws.region.word (K.get key), key) := by
  unfold Words.get at hp
  split at hp
  · cases hp
  · next hlt =>
    cases hp
    exact ⟨BitVec.lt_def.mp (BitVec.not_le.mp hlt), rfl⟩

/-- The words of two ids lie one behind the other. -/
theorem disjoint {cpu cpu' : U32} (hcpu : cpu.toNat < ws.cpus.toNat)
    (hcpu' : cpu'.toNat < ws.cpus.toNat) (hlt : cpu.toNat < cpu'.toNat) :
    (ws.region.word cpu).toNat + w / 8 ≤ (ws.region.word cpu').toNat := by
  have hmul : (cpu.toNat + 1) * (w / 8) ≤ cpu'.toNat * (w / 8) := Nat.mul_le_mul_right _ hlt
  rw [Nat.succ_mul] at hmul
  rw [h.word hw hcpu, h.word hw hcpu']
  omega

/-- **The words are in bounds, aligned and disjoint.** -/
theorem inBounds : InBounds ws base bytes where
  isSome K key := Words.get_isSome.trans BitVec.lt_def
  offset cpu hcpu := h.offset hw hcpu
  address K key p hp := by
    obtain ⟨hlt, rfl⟩ := get_eq_some hp
    exact ⟨h.word hw hlt, rfl⟩
  inside K key p hp := by
    obtain ⟨hlt, rfl⟩ := get_eq_some hp
    have hend := h.end_le hlt
    rw [h.word hw hlt]
    omega
  aligned K key p hp := by
    obtain ⟨hlt, rfl⟩ := get_eq_some hp
    rw [h.word hw hlt]
    exact Nat.dvd_add h.aligned (Nat.dvd_mul_left ..)
  disjoint K K' key key' p p' hp hp' hne byte hge hlow hother := by
    obtain ⟨hlt, rfl⟩ := get_eq_some hp
    obtain ⟨hlt', rfl⟩ := get_eq_some hp'
    -- the lower of the two ends where the other begins, or before
    rcases Nat.lt_or_gt_of_ne fun he => hne (BitVec.eq_of_toNat_eq he) with hid | hid
    · exact (hlow.trans_le (h.disjoint hw hlt hlt' hid)).not_ge hother.1
    · exact (hother.2.trans_le (h.disjoint hw hlt' hlt hid)).not_ge hge
  same K K' key key' p p' hp hp' he := by
    obtain ⟨_, rfl⟩ := get_eq_some hp
    obtain ⟨_, rfl⟩ := get_eq_some hp'
    exact congrArg ws.region.word he

end Fits

end Get

/-- **`Words` hands out words in bounds, aligned and disjoint**, on either pointer width: the
length that is mapped is the least that holds them, a slice that is not empty and no longer than
a `u32` counts is accepted, and the address arithmetic does not wrap. -/
theorem words_sound (hw : PtrWidth w) :
    (∀ cpus : U32, AsksLeast w cpus) ∧
    (∀ words : StaticSlice w, (Words.fromStatic words).isSome ↔
      words.len.toNat ≠ 0 ∧ words.len.toNat ≤ 2 ^ 32 - 1) ∧
    ∀ (ws : Region.Words w) (base : NonNull w) (bytes : ℕ), Built ws base bytes →
      InBounds ws base bytes := by
  refine ⟨asksLeast hw, fun words => ?_, fun ws base bytes hb => (fits_of_built hw hb).inBounds hw⟩
  rw [Option.isSome_iff_exists]
  constructor
  · rintro ⟨ws, hws⟩
    obtain ⟨h0, hlt, _⟩ := Words.fromStatic_eq_some.mp hws
    exact ⟨h0, Nat.le_pred_of_lt hlt⟩
  · rintro ⟨h0, hle⟩
    exact ⟨_, Words.fromStatic_eq_some.mpr ⟨h0, by omega, rfl⟩⟩

/-- A kernel that maps two pages at `0x10000`, and nothing else. -/
def twoPagesMmap (len : NonZeroUsize 64) : BitVec 64 :=
  if len.val = 8192 then 0x10000 else mapFailed 64

/-- What `Words::new` makes there for 513 CPUs. -/
def twoPages : Region.Words 64 :=
  ⟨.mapped ⟨0x10000, by decide⟩ ⟨8192, by decide⟩, 513⟩

theorem twoPages_built : Built twoPages ⟨0x10000, by decide⟩ 8192 := by
  have hok : MmapOk twoPagesMmap := by
    intro len
    unfold twoPagesMmap
    split
    · next h => exact .inr ⟨by decide, by rw [h]; decide⟩
    · exact .inl rfl
  have hnew : Words.new twoPagesMmap 513 = some twoPages := rfl
  exact .new hok hnew rfl

/-- The last word of the first page, and the word of the second one. -/
theorem words_sound_two_pages :
    Built twoPages ⟨0x10000, by decide⟩ 8192 ∧
    ∃ p q, twoPages.get .cpuId ⟨511, by decide, by decide⟩ = some p ∧
      twoPages.get .cid ⟨512⟩ = some q ∧ p.1.toNat + 8 = 0x11000 ∧
      q.1.toNat = 0x11000 ∧ q.1.toNat + 8 ≤ 0x10000 + 8192 := by
  obtain ⟨_, _, hbuilt⟩ := words_sound (w := 64) (.inr rfl)
  have hin := hbuilt _ _ _ twoPages_built
  -- both ids are below the count
  obtain ⟨p, hp⟩ := Option.isSome_iff_exists.mp
    ((hin.isSome .cpuId ⟨511, by decide, by decide⟩).mpr (by decide))
  obtain ⟨q, hq⟩ := Option.isSome_iff_exists.mp ((hin.isSome .cid ⟨512⟩).mpr (by decide))
  obtain ⟨hpa, _⟩ := hin.address _ _ _ hp
  obtain ⟨hqa, _⟩ := hin.address _ _ _ hq
  obtain ⟨_, hqin⟩ := hin.inside _ _ _ hq
  exact ⟨twoPages_built, p, q, hp, hq, by rw [hpa]; rfl, hqa, hqin⟩

end Region

end RseqRs
