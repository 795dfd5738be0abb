import RseqRs.Model.Abi

/-!
# Keys, words and word ops (`src/thread.rs`, `src/words.rs`)

The safe surface of the six word ops: the two index kinds and the ids their keys
can hold, the words an op is called with, and what each op does around its
`asm!` block: the key comparison before it and the reading of its outcome after.
-/

namespace RseqRs

/-- `thread::Error`. -/
inductive Error where
  | miss (seen : Usize)
  | abort
deriving DecidableEq

/-- `CpuId`: never one of the two sentinels, as `CpuId::new` checks. -/
structure CpuId where
  id : U32
  ne_uninit : id ≠ cpuUninit
  ne_regFailed : id ≠ cpuRegFailed
deriving DecidableEq

/-- `CpuId::new`. -/
def CpuId.new (id : U32) : Option CpuId :=
  if h : id = cpuUninit ∨ id = cpuRegFailed then none
  else some ⟨id, fun e => h (.inl e), fun e => h (.inr e)⟩

/-- `Cid`: any `u32`. -/
structure Cid where
  id : U32
deriving DecidableEq

/-- The sealed trait `Index`, by its two implementors. -/
inductive Index where
  | cpuId
  | cid
deriving DecidableEq

namespace Index

/-- The type that implements the index kind. -/
def Key : Index → Type
  | .cpuId => CpuId
  | .cid => Cid

instance (K : Index) : DecidableEq K.Key :=
  match K with
  | .cpuId => inferInstanceAs (DecidableEq CpuId)
  | .cid => inferInstanceAs (DecidableEq Cid)

/-- `Sealed::OFF`. -/
def off : Index → ℕ
  | .cpuId => cpuIdOff
  | .cid => mmCidOff

/-- `Sealed::get`. -/
def get : (K : Index) → K.Key → U32
  | .cpuId, k => CpuId.id k
  | .cid, k => Cid.id k

end Index

/-- The field of the area that confirms a key of kind `K`. -/
def Area.index (a : Area) (K : Index) : U32 := a.load32 K.off

@[simp] theorem Area.index_cpuId (a : Area) : a.index .cpuId = a.cpuId := rfl

@[simp] theorem Area.index_cid (a : Area) : a.index .cid = a.mmCid := rfl

/-- `words::Word`: the address of the borrowed atomic and the key it was picked with. -/
structure Word (K : Index) where
  word : Usize
  key : K.Key

/-- A key with its kind: what a section is confirmed by. -/
abbrev Tag := Index × U32

/-- The tag of a word. -/
def Word.tag {K : Index} (w : Word K) : Tag := (K, K.get w.key)

/-- A call of one of the six word ops of `Thread`. -/
inductive Op (K : Index) where
  | compareExchange (word : Word K) (expect new : Usize)
  | compareExchangeIf (word : Word K) (expect new : Usize) (other : Word K) (otherExpect : Usize)
  | fetchAdd (word : Word K) (count : Usize)
  | loadIfNe (word : Word K) (expectNot offset : Usize)
  | fetchAddAt (ptr : Word K) (offset count : Usize)
  | storeIf (word : Word K) (expect new : Usize) (side : Word K) (sideNew : Usize)

namespace Op

variable {K : Index}

/-- The word whose key the section confirms. -/
def word : Op K → Word K
  | .compareExchange w _ _ | .compareExchangeIf w _ _ _ _ | .fetchAdd w _
  | .loadIfNe w _ _ | .fetchAddAt w _ _ | .storeIf w _ _ _ _ => w

/-- The scratch cell of `store_if`. -/
def side : Op K → Option (Word K)
  | .storeIf _ _ _ s _ => some s
  | _ => none

/-- The comparison `compare_exchange_if` and `store_if` make before the section. -/
def keysAgree : Op K → Bool
  | .compareExchangeIf w _ _ o _ => o.key = w.key
  | .storeIf w _ _ s _ => s.key = w.key
  | _ => true

/-- The reading of the block's outcome: `fetch_add` and `fetch_add_at` know no miss. -/
def finish : Op K → Attempt → Except Error Usize
  | .fetchAdd _ _, .ok prev | .fetchAddAt _ _ _, .ok prev => .ok prev
  -- their blocks report no miss; the source maps it to an abort with the rest
  | .fetchAdd _ _, _ | .fetchAddAt _ _ _, _ => .error .abort
  | _, .ok old => .ok old
  | _, .miss current => .error (.miss current)
  | _, .abort => .error .abort

end Op

/-- A call with its index kind. -/
structure Call where
  K : Index
  op : Op K

namespace Call

/-- The tag the call is confirmed by. -/
def tag (c : Call) : Tag := c.op.word.tag

/-- The id the section compares the index with. -/
def key (c : Call) : U32 := c.K.get c.op.word.key

/-- The address of the scratch cell, for `store_if`. -/
def sideAddr (c : Call) : Option Usize := c.op.side.map Word.word

end Call

end RseqRs
