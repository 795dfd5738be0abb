import RseqRs.Model.Machine
import RseqRs.Proof.Blocks

/-!
# Ranges and the kernel's rule

The kernel's unsigned test `ip - start_ip < post_commit_offset` is membership in
`[start_ip, post_commit_ip)`, and an address in a block lies in the range of no
other block. So a descriptor, however stale, can only divert the section it
describes.
-/

namespace RseqRs

/-- The kernel's test is a membership test. -/
theorem sub_lt_sub_iff {a b c : Usize} (h : b ≤ c) : a - b < c - b ↔ b ≤ a ∧ a < c := by
  bv_omega

namespace Image

variable {img : Image} {s s' : img.Site} {i j : ℕ} {a : Usize}

theorem ip_lt_ip (h : i < j) (hj : j ≤ (img.block s).len) : img.ip s i < img.ip s j :=
  img.ip_lt s i j h hj

theorem ip_le (h : i ≤ j) (hj : j ≤ (img.block s).len) : img.ip s i ≤ img.ip s j := by
  rcases Nat.eq_or_lt_of_le h with rfl | h
  · exact BitVec.le_refl _
  · exact BitVec.le_of_lt (ip_lt_ip h hj)

theorem block_order (s : img.Site) :
    0 < (img.block s).abort ∧ (img.block s).abort < (img.block s).start ∧
      (img.block s).start < (img.block s).post ∧ (img.block s).post < (img.block s).len :=
  Section.block_order _ _

theorem ip_inj (hi : i ≤ (img.block s).len) (hj : j ≤ (img.block s).len)
    (h : img.ip s i = img.ip s j) : i = j := by
  rcases Nat.lt_trichotomy i j with hlt | heq | hlt
  · exact absurd h (BitVec.ne_of_lt (ip_lt_ip hlt hj))
  · exact heq
  · exact absurd h.symm (BitVec.ne_of_lt (ip_lt_ip hlt hi))

/-- Slot `i` of a block lies in a range if and only if it is the block's own and
`i` is one of its slots. -/
theorem inRange_ip (hi : i ≤ (img.block s).len) :
    img.InRange s' (img.ip s i) ↔ s' = s ∧ (img.block s).start ≤ i ∧ i < (img.block s).post := by
  obtain ⟨ha, hs, hp, hl⟩ := img.block_order s
  obtain ⟨ha', hs', hp', hl'⟩ := img.block_order s'
  constructor
  · rintro ⟨hlo, hhi⟩
    have hss : s' = s := by
      -- two blocks do not overlap
      by_contra hne
      rcases img.apart s' s hne with hap | hap
      · -- the other block ends before this one begins
        have h₁ : img.ip s' (img.block s').post ≤ img.ip s' (img.block s').len :=
          ip_le hl'.le le_rfl
        have h₂ : img.ip s 0 ≤ img.ip s i := ip_le (Nat.zero_le i) hi
        have h₃ := BitVec.le_trans (BitVec.le_trans h₁ hap) h₂
        exact absurd hhi (BitVec.not_lt.mpr h₃)
      · -- the other block begins after this one ends
        have h₁ : img.ip s i ≤ img.ip s (img.block s).len := ip_le hi le_rfl
        have h₂ : img.ip s' 0 < img.ip s' (img.block s').start :=
          ip_lt_ip (by omega) (by omega)
        have h₃ := BitVec.le_trans h₁ hap
        exact absurd (BitVec.le_trans hlo h₃) (BitVec.not_le.mpr h₂)
    subst hss
    refine ⟨rfl, ?_, ?_⟩
    · -- addresses grow with the slots
      by_contra hlt
      have h : img.ip s' i < img.ip s' (img.block s').start := ip_lt_ip (by omega) (by omega)
      exact absurd hlo (BitVec.not_le.mpr h)
    · by_contra hge
      have h : img.ip s' (img.block s').post ≤ img.ip s' i := ip_le (by omega) hi
      exact absurd hhi (BitVec.not_lt.mpr h)
  · rintro ⟨rfl, hlo, hhi⟩
    exact ⟨ip_le hlo hi, ip_lt_ip hhi hl'.le⟩

/-- Caller code lies in no range. -/
theorem Outside.not_inRange (h : img.Outside a) (s : img.Site) : ¬ img.InRange s a := by
  rintro ⟨hlo, hhi⟩
  obtain ⟨_, _, _, hl⟩ := img.block_order s
  rcases h s with hlt | hge
  · have h₁ : img.ip s 0 ≤ img.ip s (img.block s).start :=
      ip_le (Nat.zero_le _) (by omega)
    exact absurd (BitVec.le_trans h₁ hlo) (BitVec.not_le.mpr hlt)
  · have h₁ : img.ip s (img.block s).post ≤ img.ip s (img.block s).len := ip_le hl.le le_rfl
    exact absurd hhi (BitVec.not_lt.mpr (BitVec.le_trans h₁ hge))

theorem fixup_zero : img.fixup 0 a = a := by
  simp only [fixup, img.deref_zero]

/-- With the descriptor of `s` armed, the rule diverts to the abort label from
the range of `s`, and nowhere else. -/
theorem fixup_desc_of_inRange (h : img.InRange s a) :
    img.fixup (img.desc s) a = img.ip s (img.block s).abort := by
  obtain ⟨_, _, hp, hl⟩ := img.block_order s
  have hle : img.ip s (img.block s).start ≤ img.ip s (img.block s).post := ip_le hp.le hl.le
  simp only [fixup, img.deref_desc]
  exact if_pos ((sub_lt_sub_iff hle).mpr h)

theorem fixup_desc_of_not_inRange (h : ¬ img.InRange s a) : img.fixup (img.desc s) a = a := by
  obtain ⟨_, _, hp, hl⟩ := img.block_order s
  have hle : img.ip s (img.block s).start ≤ img.ip s (img.block s).post := ip_le hp.le hl.le
  simp only [fixup, img.deref_desc]
  exact if_neg fun hlt => h ((sub_lt_sub_iff hle).mp hlt)

end Image

/-! ### A layout -/

theorem Section.len_lt (arch : Arch) (s : Section) : (s.block arch).len < 64 := by
  cases arch <;> cases s <;> exact Nat.le_of_ble_eq_true rfl

section OfSites

variable (arch : Arch) {n : ℕ} (sect : Fin n → Section)

/-- Site `s` in `ofSites`: 256 bytes from `256 * (s + 1)`, and every slot has four. -/
def Image.siteIp (s : Fin n) (i : ℕ) : Usize := BitVec.ofNat 64 (256 * (s + 1) + 4 * i)

theorem Image.siteIp_toNat (hn : n < 2 ^ 32) (s : Fin n) {i : ℕ} (hi : i < 64) :
    (Image.siteIp s i).toNat = 256 * (s + 1) + 4 * i := by
  have hs := s.isLt
  rw [siteIp, BitVec.toNat_ofNat, Nat.mod_eq_of_lt (by omega)]

/-- An image of `n` call sites, one after the other. -/
def Image.ofSites (hn : n < 2 ^ 32) : Image where
  arch := arch
  Site := Fin n
  sect := sect
  ip := siteIp
  locate a :=
    if h : 0 < a.toNat / 256 ∧ a.toNat / 256 ≤ n then
      let s : Fin n := ⟨a.toNat / 256 - 1, by omega⟩
      let i := a.toNat % 256 / 4
      if a.toNat % 4 = 0 ∧ i < ((sect s).block arch).len then some (s, i) else none
    else none
  desc s := BitVec.ofNat 64 (s + 1)
  deref a :=
    if h : 0 < a.toNat ∧ a.toNat ≤ n then
      let s : Fin n := ⟨a.toNat - 1, by omega⟩
      some
        { startIp := siteIp s ((sect s).block arch).start
          postCommitOffset :=
            siteIp s ((sect s).block arch).post - siteIp s ((sect s).block arch).start
          abortIp := siteIp s ((sect s).block arch).abort }
    else none
  ip_sig s i _ := by
    show BitVec.ofNat 64 (256 * (s + 1) + 4 * (i + 1)) =
      BitVec.ofNat 64 (256 * (s + 1) + 4 * i) + BitVec.ofNat 64 4
    rw [← BitVec.ofNat_add]
    rfl
  ip_lt s i j hij hj := by
    have hlen := Section.len_lt arch (sect s)
    rw [BitVec.lt_def, siteIp_toNat hn s (by omega), siteIp_toNat hn s (by omega)]
    omega
  apart s s' hne := by
    have hlen := Section.len_lt arch (sect s)
    have hlen' := Section.len_lt arch (sect s')
    have hval : (s : ℕ) ≠ s' := fun h => hne (Fin.ext h)
    simp only [BitVec.le_def]
    rw [siteIp_toNat hn s hlen, siteIp_toNat hn s' hlen', siteIp_toNat hn s (by omega),
      siteIp_toNat hn s' (by omega)]
    omega
  locate_ip s i hi := by
    have hlen := Section.len_lt arch (sect s)
    have hs := s.isLt
    have hip := siteIp_toNat hn s (i := i) (by omega)
    have hdiv : (siteIp s i).toNat / 256 = s + 1 := by omega
    have hmod : (siteIp s i).toNat % 256 / 4 = i := by omega
    have hslot : (siteIp s i).toNat % 4 = 0 := by omega
    simp only [hdiv, hmod, Nat.add_sub_cancel]
    rw [dif_pos ⟨by omega, by omega⟩, if_pos ⟨hslot, hi⟩]
  ip_locate a s i h := by
    split at h
    · next hk =>
      dsimp only at h
      split at h
      · next hi =>
        obtain ⟨rfl, rfl⟩ := Prod.mk.inj (Option.some_inj.mp h)
        refine ⟨?_, hi.2⟩
        apply BitVec.eq_of_toNat_eq
        rw [siteIp_toNat hn _ (by omega)]
        show a.toNat = 256 * (a.toNat / 256 - 1 + 1) + 4 * (a.toNat % 256 / 4)
        omega
      · cases h
    · cases h
  deref_zero := dif_neg fun h => absurd h.1 (by decide)
  deref_desc s := by
    have hs := s.isLt
    have hd : (BitVec.ofNat 64 (s + 1)).toNat = s + 1 := by
      rw [BitVec.toNat_ofNat, Nat.mod_eq_of_lt (by omega)]
    simp only [hd, Nat.add_sub_cancel]
    rw [dif_pos ⟨by omega, by omega⟩]

/-- Address zero lies before every site. -/
theorem Image.ofSites_outside_zero (hn : n < 2 ^ 32) : (Image.ofSites arch sect hn).Outside 0 := by
  intro s
  refine Or.inl ?_
  show (0 : Usize) < siteIp s 0
  rw [BitVec.lt_def, siteIp_toNat hn s (by omega)]
  show 0 < _
  omega

/-- A machine with these call sites and one CPU. -/
def Machine.ofSites (Tid : Type) (hn : n < 2 ^ 32) : Machine Tid where
  img := Image.ofSites arch sect hn
  cpus := 1
  areaPtr _ := 0x10000

instance (Tid : Type) (hn : n < 2 ^ 32) :
    DecidableEq (Machine.ofSites arch sect Tid hn).img.Site :=
  inferInstanceAs (DecidableEq (Fin n))

theorem Machine.ofSites_initial {Tid : Type} (hn : n < 2 ^ 32) (m : Mem) :
    (Machine.ofSites arch sect Tid hn).Initial ((Machine.ofSites arch sect Tid hn).boot m) :=
  boot_initial _ m (Image.ofSites_outside_zero arch sect hn)

end OfSites

/-- The word for CPU 0 at an address. -/
def cpu0Word (a : Usize) : Word .cpuId := ⟨a, ⟨0, by decide, by decide⟩⟩

/-- The call site of an image that has one. -/
def soleSite : Fin 1 := 0

theorem one_site : 1 < 2 ^ 32 := by decide

/-- One thread, and one call site of `compare_exchange` with a CPU key. -/
def casMachine : Machine Unit :=
  .ofSites .x86 (fun _ : Fin 1 => .compareExchange cpuIdOff) Unit one_site

instance : DecidableEq casMachine.img.Site := inferInstanceAs (DecidableEq (Fin 1))

theorem casMachine_outside_zero : casMachine.img.Outside 0 :=
  Image.ofSites_outside_zero .x86 _ (by decide)

theorem casMachine_initial (m : Mem) : casMachine.Initial (casMachine.boot m) :=
  Machine.ofSites_initial _ _ _ m

/-- `compare_exchange(word, 0, 1)`. -/
def casCall : Call := ⟨.cpuId, .compareExchange (cpu0Word 0x8000) 0 1⟩

/-- Two threads, and one call site. -/
def pairMachine (arch : Arch) (s : Section) : Machine Bool where
  img := Image.ofSites arch (fun _ : Fin 1 => s) one_site
  cpus := 2
  areaPtr t := if t then 0x20000 else 0x10000

instance (arch : Arch) (s : Section) : DecidableEq (pairMachine arch s).img.Site :=
  inferInstanceAs (DecidableEq (Fin 1))

theorem pairMachine_initial (arch : Arch) (s : Section) (m : Mem) :
    (pairMachine arch s).Initial ((pairMachine arch s).boot m) :=
  (pairMachine arch s).boot_initial m (Image.ofSites_outside_zero _ _ one_site)

/-- The CPU of a thread. -/
def pairCpu (t : Bool) : U32 := if t then 1 else 0

theorem pairCpu_valid (t : Bool) : pairCpu t ≠ cpuUninit ∧ pairCpu t ≠ cpuRegFailed := by
  cases t <;> exact ⟨by decide, by decide⟩

/-- The CPU of a thread, as a key. -/
def pairCpuId (t : Bool) : CpuId := ⟨pairCpu t, (pairCpu_valid t).1, (pairCpu_valid t).2⟩

end RseqRs
