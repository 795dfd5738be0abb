import Mathlib.Data.Finset.Lattice.Fold
import Mathlib.Data.List.DropRight
import Mathlib.Order.Lattice.Nat
import RseqRs.Lib.Spans
import RseqRs.Lib.Text
import RseqRs.Model.Membarrier
import RseqRs.Model.Region

/-!
# The count of possible CPUs (`src/cpus.rs`)

`/sys/devices/system/cpu/possible` as the kernel prints it for a set of CPU ids, and
`Cpus::possible`, which reads at most 256 bytes of it. A string is the list of its characters.
-/

namespace RseqRs

/-! ### The kernel's list -/

namespace CpuList

/-- The ids of the kernel's bitmap, scanned upwards. -/
def ids (S : Finset ℕ) : List ℕ := (List.range (S.sup id + 1)).filter (· ∈ S)

/-- A run of ids: `a`, or `a-b`. -/
def runText (r : Span) : List Char :=
  if r.lo = r.hi then Nat.toDigits 10 r.lo
  else Nat.toDigits 10 r.lo ++ '-' :: Nat.toDigits 10 r.hi

/-- The runs with commas between them. -/
def runs (S : Finset ℕ) : List Char := [','].intercalate ((spans (ids S)).map runText)

/-- The text of the file. -/
def text (S : Finset ℕ) : List Char := runs S ++ ['\n']

/-- Its bytes; the text is ASCII. -/
def file (S : Finset ℕ) : List UInt8 := (text S).map Char.toUInt8

end CpuList

/-! ### `Cpus::possible` -/

namespace Cpus

/-- `core::str::from_utf8`. -/
def fromUtf8 (bytes : List UInt8) : Option (List Char) :=
  bytes.toByteArray.utf8Decode?.map Array.toList

/-- `char::is_whitespace`: the Unicode property `White_Space`. -/
def isWhitespace (c : Char) : Bool :=
  let n := c.toNat
  (9 ≤ n && n ≤ 13) || n == 0x20 || n == 0x85 || n == 0xA0 || n == 0x1680 ||
    (0x2000 ≤ n && n ≤ 0x200A) || n == 0x2028 || n == 0x2029 || n == 0x202F || n == 0x205F ||
    n == 0x3000

/-- `str::trim`. -/
def trim (s : List Char) : List Char := (s.dropWhile isWhitespace).rdropWhile isWhitespace

/-- `str::split_once`. -/
def splitOnce (sep : Char) (s : List Char) : Option (List Char × List Char) :=
  match s.span (· ≠ sep) with
  | (_, []) => none
  | (lo, _ :: hi) => some (lo, hi)

/-- The digits of a number: one `+` may stand before them. -/
def unsigned : List Char → List Char
  | '+' :: rest => rest
  | s => s

/-- `str::parse::<u32>`: at least one digit, and no overflow. -/
def parseU32 (s : List Char) : Option U32 :=
  let digits := unsigned s
  if digits ≠ [] ∧ digits.all Char.isDigit ∧ Text.value digits < 2 ^ 32 then
    some (BitVec.ofNat 32 (Text.value digits))
  else none

/-- The `hi` of one part of the list; the `lo` of a range must be a number too. -/
def partHi (part : List Char) : Option U32 :=
  match splitOnce '-' part with
  | some (lo, hi) => do
    -- `lo` is parsed for its errors only
    let _ ← parseU32 lo
    parseU32 hi
  | none => parseU32 part

/-- `Ord::max`. -/
def max (a b : U32) : U32 := if a ≤ b then b else a

/-- One turn of the loop over the parts. -/
def maxHi (max : U32) (part : List Char) : Option U32 := do
  let hi ← partHi part
  return Cpus.max max hi

/-- `u32::checked_add(1)`. -/
def checkedSucc (a : U32) : Option U32 := if a.toNat + 1 < 2 ^ 32 then some (a + 1) else none

/-- What `Cpus::possible` does with the text it has read. -/
def parse (raw : List Char) : Option U32 := do
  if raw = [] then none
  -- the count is one more than the highest id
  else checkedSucc (← (raw.splitOn ',').foldlM maxHi 0)

/-- The size of the buffer. -/
def bufLen : ℕ := 256

/-- `Cpus::possible`, where `file` is what the file holds, or `none` if it cannot be opened
or read: one `read` fills the buffer as far as the file goes. -/
def possible (file : Option (List UInt8)) : Option U32 := do
  let content ← file
  -- a file that is longer than the buffer is cut
  let raw ← fromUtf8 (content.take bufLen)
  parse (trim raw)

/-- The file can be read, and what the buffer holds of it is UTF-8, not blank, and a list of
numbers and ranges, each with a `hi` below `u32::MAX`. -/
def Readable (file : Option (List UInt8)) : Prop :=
  ∃ content raw, file = some content ∧ fromUtf8 (content.take bufLen) = some raw ∧
    trim raw ≠ [] ∧
    ∀ part ∈ (trim raw).splitOn ',', ∃ hi, partHi part = some hi ∧ hi.toNat ≤ 2 ^ 32 - 2

end Cpus

/-- Every id of the set has a slot: it is below the count that `Cpus::possible` finds, if it
finds one, and so a `CpuId` with that id passes the check of `Words::get` on a region mapped
for this count, and that of `Rseq::fence`. -/
def EveryIdCounted (S : Finset ℕ) : Prop :=
  ∀ n, Cpus.possible (some (CpuList.file S)) = some n →
    (∀ i ∈ S, i < n.toNat) ∧
    ∀ cpu : CpuId, cpu.id.toNat ∈ S →
      (∀ (w : ℕ) (mmap : NonZeroUsize w → BitVec w) (ws : Region.Words w),
        Region.Words.new mmap n = some ws → (ws.get .cpuId cpu).isSome) ∧
      (FenceCall.fence cpu).Counted n

end RseqRs
