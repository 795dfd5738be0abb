import Mathlib.Order.Bounds.Basic
import RseqRs.Model.FreeList

/-!
# Word regions (`src/region.rs`, `src/words.rs`)

The page-rounded mapping of one word for each CPU, and the address of a CPU's word in it.
A `usize` has `w` bits here, on either pointer width; what `mmap` answers is a parameter.
-/

namespace RseqRs

variable {w : ℕ}

/-- `core::ptr::NonNull`. -/
def NonNull (w : ℕ) : Type := { p : BitVec w // p ≠ 0 }

/-- `NonNull::new`. -/
def NonNull.new (p : BitVec w) : Option (NonNull w) :=
  if h : p = 0 then none else some ⟨p, h⟩

/-- `core::num::NonZeroUsize`. -/
def NonZeroUsize (w : ℕ) : Type := { n : BitVec w // n ≠ 0 }

/-- `NonZeroUsize::new`. -/
def NonZeroUsize.new (n : BitVec w) : Option (NonZeroUsize w) :=
  if h : n = 0 then none else some ⟨n, h⟩

/-- `usize::checked_mul`. -/
def checkedMul (a b : BitVec w) : Option (BitVec w) :=
  if a.toNat * b.toNat < 2 ^ w then some (a * b) else none

/-- `usize::div_ceil`. -/
def divCeil (a b : BitVec w) : BitVec w := if a % b = 0 then a / b else a / b + 1

/-- `usize::try_from` of a `u32`. -/
def usizeTryFrom (w : ℕ) (n : U32) : Option (BitVec w) :=
  if n.toNat < 2 ^ w then some (n.setWidth w) else none

/-- `u32::try_from` of a `usize`. -/
def u32TryFrom (n : BitVec w) : Option U32 :=
  if n.toNat < 2 ^ 32 then some (n.setWidth 32) else none

/-- `size_of::<AtomicUsize>()`. -/
def sizeOfWord (w : ℕ) : BitVec w := BitVec.ofNat w (w / 8)

/-- `PAGE`. -/
def page (w : ℕ) : BitVec w := 4096

/-- `MAP_FAILED`. -/
def mapFailed (w : ℕ) : BitVec w := BitVec.allOnes w

/-- `region::Region`. -/
inductive Region (w : ℕ) where
  | mapped (base : NonNull w) (len : NonZeroUsize w)
  | raw (base : NonNull w)

namespace Region

/-- The length `Region::map` asks `mmap` for. -/
def mapLen (w : ℕ) (cpus : U32) : Option (NonZeroUsize w) := do
  -- bytes for the words, then whole pages; each product is checked
  let bytes ← checkedMul (← usizeTryFrom w cpus) (sizeOfWord w)
  NonZeroUsize.new (← checkedMul (divCeil bytes (page w)) (page w))

/-- `Region::map`. -/
def map (mmap : NonZeroUsize w → BitVec w) (cpus : U32) : Option (Region w) := do
  let len ← mapLen w cpus
  if mmap len = mapFailed w then none
  else return .mapped (← NonNull.new (mmap len)) len

/-- `Region::base`. -/
def base : Region w → NonNull w
  | .mapped base _ | .raw base => base

/-- `Region::word`, by wrapping arithmetic. -/
def word (r : Region w) (cpu : U32) : BitVec w :=
  r.base.val + cpu.setWidth w * sizeOfWord w

/-- A `&'static [AtomicUsize]`: aligned words that do not wrap around the address space. -/
structure StaticSlice (w : ℕ) where
  ptr : NonNull w
  len : BitVec w
  aligned : w / 8 ∣ ptr.val.toNat
  fits : ptr.val.toNat + len.toNat * (w / 8) ≤ 2 ^ w

/-- `words::Words`, over a region. -/
structure Words (w : ℕ) where
  region : Region w
  cpus : U32

namespace Words

/-- `Words::new`, and `Rseq::words` for the count the `Rseq` holds. -/
def new (mmap : NonZeroUsize w → BitVec w) (cpus : U32) : Option (Region.Words w) :=
  if cpus = 0 then none
  else do return ⟨← Region.map mmap cpus, cpus⟩

/-- `Words::from_static`. -/
def fromStatic (words : StaticSlice w) : Option (Region.Words w) := do
  -- a longer slice is refused
  let cpus ← u32TryFrom words.len
  if cpus = 0 then none else return ⟨.raw words.ptr, cpus⟩

/-- `Words::get`: the address of the word, and the key it is picked with. -/
def get (ws : Region.Words w) (K : Index) (key : K.Key) : Option (BitVec w × K.Key) :=
  if ws.cpus ≤ K.get key then none else some (ws.region.word (K.get key), key)

/-- A region keeps the count it was made with. -/
theorem cpus_of_new {mmap : NonZeroUsize w → BitVec w} {cpus : U32} {ws : Region.Words w}
    (h : new mmap cpus = some ws) : ws.cpus = cpus := by
  unfold new at h
  split at h
  · cases h
  · cases hr : Region.map mmap cpus with
    | none => rw [hr] at h; cases h
    | some r => rw [hr] at h; cases h; rfl

theorem get_isSome {ws : Region.Words w} {K : Index} {key : K.Key} :
    (ws.get K key).isSome ↔ K.get key < ws.cpus := by
  unfold get
  split
  · next h => exact iff_of_false (by simp) (BitVec.not_lt.mpr h)
  · next h => exact iff_of_true rfl (BitVec.not_le.mp h)

/-- The region of the word ops, on a 64-bit target. -/
def flat (ws : Region.Words 64) : RseqRs.Words := ⟨ws.region.base.val, ws.cpus⟩

/-- Its words are the ones this region gives. -/
theorem flat_get (ws : Region.Words 64) (K : Index) (key : K.Key) :
    ws.flat.get key = (ws.get K key).map fun p => (⟨p.1, p.2⟩ : Word K) := by
  unfold get RseqRs.Words.get
  by_cases h : K.get key < ws.cpus
  · rw [if_neg (BitVec.not_le.mpr h)]
    exact if_pos h
  · rw [if_pos (BitVec.not_lt.mp h)]
    exact if_neg h

end Words

/-! ### What the caller is promised -/

/-- The two widths of a `usize`. -/
def PtrWidth (w : ℕ) : Prop := w = 32 ∨ w = 64

/-- What `mmap` gives unless it fails: a page-aligned block that does not wrap around. -/
def MmapOk (mmap : NonZeroUsize w → BitVec w) : Prop :=
  ∀ len, mmap len = mapFailed w ∨
    4096 ∣ (mmap len).toNat ∧ (mmap len).toNat + len.val.toNat ≤ 2 ^ w

/-- `Region::map` gives up by itself, or asks `mmap` for the least positive multiple of a page
that holds the words. -/
def AsksLeast (w : ℕ) (cpus : U32) : Prop :=
  (∀ mmap : NonZeroUsize w → BitVec w, map mmap cpus = none) ∨
  ∃ len : NonZeroUsize w,
    IsLeast { k : ℕ | 0 < k ∧ 4096 ∣ k ∧ cpus.toNat * (w / 8) ≤ k } len.val.toNat ∧
    ∀ mmap : NonZeroUsize w → BitVec w, map mmap cpus =
      if mmap len = mapFailed w then none
      else (NonNull.new (mmap len)).map fun base => .mapped base len

/-- A `Words` that the crate has built, and the bytes it has: those of the mapping, or of the
caller's slice. -/
inductive Built : Region.Words w → NonNull w → ℕ → Prop
  | new {mmap : NonZeroUsize w → BitVec w} {cpus : U32} {ws : Region.Words w}
      {base : NonNull w} {len : NonZeroUsize w} : MmapOk mmap →
      Words.new mmap cpus = some ws → ws.region = .mapped base len →
      Built ws base len.val.toNat
  | fromStatic {words : StaticSlice w} {ws : Region.Words w} :
      Words.fromStatic words = some ws → Built ws words.ptr (words.len.toNat * (w / 8))

/-- The words are in bounds, aligned and disjoint. -/
structure InBounds (ws : Region.Words w) (base : NonNull w) (bytes : ℕ) : Prop where
  isSome : ∀ (K : Index) (key : K.Key),
    (ws.get K key).isSome ↔ (K.get key).toNat < ws.cpus.toNat
  /-- the offset of `Region::word` does not wrap -/
  offset : ∀ cpu : U32, cpu.toNat < ws.cpus.toNat →
    (cpu.setWidth w * sizeOfWord w).toNat = cpu.toNat * (w / 8)
  /-- nor does the address -/
  address : ∀ (K : Index) (key : K.Key) (p : BitVec w × K.Key), ws.get K key = some p →
    p.1.toNat = base.val.toNat + (K.get key).toNat * (w / 8) ∧ p.2 = key
  inside : ∀ (K : Index) (key : K.Key) (p : BitVec w × K.Key), ws.get K key = some p →
    base.val.toNat ≤ p.1.toNat ∧ p.1.toNat + w / 8 ≤ base.val.toNat + bytes
  aligned : ∀ (K : Index) (key : K.Key) (p : BitVec w × K.Key), ws.get K key = some p →
    w / 8 ∣ p.1.toNat
  /-- no byte is in the words of two ids -/
  disjoint : ∀ (K K' : Index) (key : K.Key) (key' : K'.Key) (p : BitVec w × K.Key)
    (p' : BitVec w × K'.Key), ws.get K key = some p → ws.get K' key' = some p' →
    K.get key ≠ K'.get key' → ∀ byte : ℕ, p.1.toNat ≤ byte → byte < p.1.toNat + w / 8 →
    ¬(p'.1.toNat ≤ byte ∧ byte < p'.1.toNat + w / 8)
  /-- an id of either kind picks the same word -/
  same : ∀ (K K' : Index) (key : K.Key) (key' : K'.Key) (p : BitVec w × K.Key)
    (p' : BitVec w × K'.Key), ws.get K key = some p → ws.get K' key' = some p' →
    K.get key = K'.get key' → p.1 = p'.1

end Region

end RseqRs
