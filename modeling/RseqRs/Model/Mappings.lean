import Mathlib.Data.Set.Lattice
import Mathlib.Logic.Function.Basic
import Mathlib.Order.CompletePartialOrder
import Mathlib.Order.Interval.Set.Basic
import RseqRs.Model.Region

/-!
# The life of a region (`Region::map`, `Drop for Region`)

A process makes and drops its `Words`, any number of them. `mmap` is called when a `Words` is
made, `munmap` when it is dropped, and a region over a static slice calls neither. What the
kernel maps, and what the rest of the process does to its own memory, are left open.
-/

namespace RseqRs

namespace Region

variable {w : ℕ}

/-- The arguments of `munmap`. -/
structure Mapping (w : ℕ) where
  base : BitVec w
  len : BitVec w
deriving DecidableEq

/-- The bytes of a mapping, if there is one. -/
def span : Option (Mapping w) → Set ℕ
  | some m => Set.Ico m.base.toNat (m.base.toNat + m.len.toNat)
  | none => ∅

/-- `Drop for Region`: the call of `munmap`. -/
def drop : Region w → Option (Mapping w)
  | .mapped base len => some ⟨base.val, len.val⟩
  | .raw _ => none

/-- The bytes of a static slice. -/
def StaticSlice.bytes (words : StaticSlice w) : Set ℕ :=
  Set.Ico words.ptr.val.toNat (words.ptr.val.toNat + words.len.toNat * (w / 8))

/-- The bytes of a word. -/
def wordBytes (p : BitVec w) : Set ℕ := Set.Ico p.toNat (p.toNat + w / 8)

/-- What `mmap` has mapped when `Words::new` returns, whatever it returns. -/
def Words.mapping (mmap : NonZeroUsize w → BitVec w) (cpus : U32) : Option (Mapping w) :=
  if cpus = 0 then none
  else
    match mapLen w cpus with
    | some len => if mmap len = mapFailed w then none else some ⟨mmap len, len.val⟩
    | none => none

/-- The memory of a process, and its `Words`. -/
structure Space (w : ℕ) (Id : Type) where
  /-- the bytes that are mapped -/
  mapped : Set ℕ
  /-- those that are borrowed for `'static` -/
  pinned : Set ℕ
  live : Id → Option (Region.Words w)

/-- The mapping that a `Words` owns. -/
def Space.owns {Id : Type} (s : Space w Id) (id : Id) : Option (Mapping w) :=
  (s.live id).bind fun ws => ws.region.drop

/-- What the rest of the process leaves mapped. -/
def Space.kept {Id : Type} (s : Space w Id) : Set ℕ := s.pinned ∪ ⋃ id, span (s.owns id)

/-- **The kernel's answer to `mmap`**: whole pages that are not mapped, never at `0`, or
`MAP_FAILED`. -/
def Fresh (mapped : Set ℕ) (mmap : NonZeroUsize w → BitVec w) : Prop :=
  ∀ len, mmap len = mapFailed w ∨
    (mmap len ≠ 0 ∧ 4096 ∣ (mmap len).toNat ∧ (mmap len).toNat + len.val.toNat ≤ 2 ^ w) ∧
      Disjoint (span (some ⟨mmap len, len.val⟩)) mapped

/-- What a step has done: the mappings that `mmap` made and that `munmap` is called with. -/
inductive Event (w : ℕ) (Id : Type) where
  | new (id : Id) (m : Option (Mapping w))
  | fromStatic (id : Id)
  | drop (id : Id) (m : Option (Mapping w))
  | other

/-- The step has mapped `m`. -/
def Event.maps {Id : Type} (m : Mapping w) : Event w Id → Bool
  | .new _ m' => decide (m' = some m)
  | _ => false

/-- The step has unmapped `m`. -/
def Event.unmaps {Id : Type} (m : Mapping w) : Event w Id → Bool
  | .drop _ m' => decide (m' = some m)
  | _ => false

/-- One step of the process. -/
inductive Step {Id : Type} [DecidableEq Id] : Space w Id → Event w Id → Space w Id → Prop
  /-- `Words::new` -/
  | new {s : Space w Id} (id : Id) (mmap : NonZeroUsize w → BitVec w) (cpus : U32) :
      s.live id = none → Fresh s.mapped mmap →
      Step s (.new id (Words.mapping mmap cpus))
        { s with
          mapped := s.mapped ∪ span (Words.mapping mmap cpus)
          live := Function.update s.live id (Words.new mmap cpus) }
  /-- `Words::from_static` -/
  | fromStatic {s : Space w Id} (id : Id) (words : StaticSlice w) :
      s.live id = none → words.bytes ⊆ s.mapped →
      Step s (.fromStatic id)
        { s with
          pinned := s.pinned ∪ words.bytes
          live := Function.update s.live id (Words.fromStatic words) }
  /-- a `Words` is dropped, none of whose words is borrowed for `'static` -/
  | drop {s : Space w Id} (id : Id) (ws : Region.Words w) :
      s.live id = some ws → Disjoint (span ws.region.drop) s.pinned →
      Step s (.drop id ws.region.drop)
        { s with
          mapped := s.mapped \ span ws.region.drop
          live := Function.update s.live id none }
  /-- the rest of the process maps and unmaps, and leaks references -/
  | other {s : Space w Id} (mapped pinned : Set ℕ) : s.kept ⊆ mapped → s.pinned ⊆ pinned →
      pinned ⊆ mapped → Step s .other { s with mapped := mapped, pinned := pinned }

/-- A process that has made no `Words`. -/
structure Space.Initial {Id : Type} (s : Space w Id) : Prop where
  live : ∀ id, s.live id = none
  pinned : s.pinned ⊆ s.mapped

/-- **Regions are sound**, in the state `s` after the steps `h`. -/
structure Sound {Id : Type} (h : List (Event w Id)) (s : Space w Id) : Prop where
  /-- every word that `Words::get` gives is mapped -/
  mapped : ∀ id ws (K : Index) (key : K.Key) p, s.live id = some ws → ws.get K key = some p →
    wordBytes p.1 ⊆ s.mapped
  /-- no word is in the mappings of two -/
  apart : ∀ id id' ws ws' (K K' : Index) (key : K.Key) (key' : K'.Key) p p', id ≠ id' →
    s.live id = some ws → s.live id' = some ws' → (s.owns id).isSome → (s.owns id').isSome →
    ws.get K key = some p → ws'.get K' key' = some p' → Disjoint (wordBytes p.1) (wordBytes p'.1)
  /-- a mapping is unmapped as often as it was mapped, but for the one that is alive -/
  alive : ∀ id m, s.owns id = some m →
    h.countP (Event.maps m) = h.countP (Event.unmaps m) + 1
  gone : ∀ m, (∀ id, s.owns id ≠ some m) → h.countP (Event.maps m) = h.countP (Event.unmaps m)

end Region

end RseqRs
