import Mathlib.Data.Nat.Bitwise
import Mathlib.Tactic.Common

/-!
# `libgralloc/allocator.cpp`: `SimpleBestFitAllocator`

The heap is cut into chunks, kept in a doubly linked list in the order of their places.  Places
and sizes are counted in units of `kMemoryAlign` bytes.  `alloc` takes the smallest free chunk
that holds the request behind the next page boundary, and splits it into the slack before the
boundary, the allocation, and the rest; `dealloc` joins the chunk with its free neighbours.

The linked list is the list of its nodes, and a pointer into it is a place in the list.  A
`size_t` is a natural number below `2 ^ 32`; sums that could pass that bound are reduced where
the code makes them, and so are sizes stored in the 28 bits of `chunk_t::size`.
-/

namespace EmevBsp
namespace Gralloc

/-- `kMemoryAlign` -/
abbrev memoryAlign : ℕ := 32

/-- `getpagesize ()`, a power of two that is a multiple of `kMemoryAlign`. -/
structure PageSize where
  shift : ℕ
  align : 5 ≤ shift
  word : shift < 32

def PageSize.bytes (P : PageSize) : ℕ := 2 ^ P.shift

/-- `pagesize / kMemoryAlign` -/
def PageSize.units (P : PageSize) : ℕ := P.bytes / memoryAlign

/-- `chunk_t` without its links. -/
structure Chunk where
  start : ℕ
  size : ℕ
  free : Bool
  deriving DecidableEq

/-- `chunk_t (start, size)`; `size` has 28 bits. -/
def newChunk (start size : ℕ) : Chunk := ⟨start, size % 2 ^ 28, true⟩

/-- The error codes. -/
inductive Errno where
  | einval
  | enomem
  | enoent
  deriving DecidableEq

/-- `mList` and `mHeapSize`. -/
structure Allocator where
  list : List Chunk
  heapSize : ℕ

/-- `setSize`, on an allocator whose heap is not set yet.  Clearing the low bits of a sum takes
them away. -/
def setSize (P : PageSize) (size : ℕ) : Allocator :=
  let sum := (size + P.bytes - 1) % 2 ^ 32
  let heapSize := sum - (sum &&& (P.bytes - 1))
  ⟨[newChunk 0 (heapSize / memoryAlign)], heapSize⟩

/-! ## `alloc` -/

/-- `-start & ((pagesize / kMemoryAlign) - 1)` -/
def extra (P : PageSize) (start : ℕ) : ℕ := (2 ^ 32 - start) % 2 ^ 32 &&& (P.units - 1)

/-- A free chunk with room for `size` units behind the next page boundary. -/
def Fits (P : PageSize) (size : ℕ) (c : Chunk) : Prop :=
  c.free = true ∧ size + extra P c.start ≤ c.size

instance (P : PageSize) (size : ℕ) (c : Chunk) : Decidable (Fits P size c) :=
  inferInstanceAs (Decidable (_ ∧ _))

/-- The best chunk so far, after the chunk `cur` at place `i` was found to fit. -/
def better (i : ℕ) (cur : Chunk) : Option (ℕ × Chunk) → ℕ × Chunk
  | none => (i, cur)
  | some b => if cur.size < b.2.size then (i, cur) else b

/-- The search: the rest of the list, the place of its head, and the best chunk so far. -/
def findFit (P : PageSize) (size : ℕ) :
    List Chunk → ℕ → Option (ℕ × Chunk) → Option (ℕ × Chunk)
  | [], _, best => best
  | cur :: rest, i, best =>
    if Fits P size cur then
      if cur.size = size then some (better i cur best)
      else findFit P size rest (i + 1) (some (better i cur best))
    else findFit P size rest (i + 1) best

/-- What a chunk that was chosen is split into, and the new start of the allocation. -/
def splitChunk (P : PageSize) (size : ℕ) (c : Chunk) : List Chunk × ℕ :=
  let allocated : Chunk := { c with free := false, size := size % 2 ^ 28 }
  if c.size > size then
    let ex := extra P c.start
    let slack := if ex ≠ 0 then [newChunk c.start ex] else []
    let allocated := { allocated with start := c.start + ex }
    let tailFree := c.size - (size + ex)
    let tail := if tailFree > 0 then [newChunk (allocated.start + allocated.size) tailFree] else []
    (slack ++ allocated :: tail, allocated.start)
  else ([allocated], c.start)

/-- `alloc`, for a size that is not 0. -/
def alloc (P : PageSize) (l : List Chunk) (size : ℕ) : Except Errno ℕ × List Chunk :=
  let size := (size + memoryAlign - 1) % 2 ^ 32 / memoryAlign
  match findFit P size l 0 none with
  | none => (.error .enomem, l)
  | some (i, c) =>
    let (pieces, start) := splitChunk P size c
    (.ok (start * memoryAlign % 2 ^ 32), l.take i ++ (pieces ++ l.drop (i + 1)))

def allocate (P : PageSize) (a : Allocator) (size : ℕ) : Except Errno ℕ × Allocator :=
  if a.heapSize = 0 then (.error .einval, a)
  else if size = 0 then (.ok 0, a)
  else
    let (res, list) := alloc P a.list size
    (res, { a with list := list })

/-! ## `dealloc` -/

/-- One turn of the loop that merges: `cur` goes into the chunk before it, if that one is free
(or `cur` empty).  The chunks before `cur` are given nearest first. -/
def mergePrev : (before : List Chunk) → (cur : Chunk) → List Chunk
  | [], cur => [cur]
  | p :: before, cur =>
    if p.free ∨ cur.size = 0 then { p with size := (p.size + cur.size) % 2 ^ 28 } :: before
    else cur :: p :: before

/-- The loop, which goes on while the next chunk is free. -/
def mergeFreed : (before : List Chunk) → (cur : Chunk) → (after : List Chunk) → List Chunk
  | before, cur, [] => (mergePrev before cur).reverse
  | before, cur, n :: after =>
    if n.free then mergeFreed (mergePrev before cur) n after
    else (mergePrev before cur).reverse ++ n :: after

/-- The walk to the chunk at `start`. -/
def deallocFrom (start : ℕ) : (before after : List Chunk) → Option (List Chunk)
  | _, [] => none
  | before, cur :: after =>
    if cur.start = start then some (mergeFreed before { cur with free := true } after)
    else deallocFrom start (cur :: before) after

def deallocate (a : Allocator) (offset : ℕ) : Except Errno ℕ × Allocator :=
  if a.heapSize = 0 then (.error .einval, a)
  else match deallocFrom (offset / memoryAlign) [] a.list with
    | some list => (.ok 0, { a with list := list })
    | none => (.error .enoent, a)

/-! ## What the callers get -/

/-- The value of an error code. -/
def Errno.code : Errno → ℤ
  | .einval => 22
  | .enomem => 12
  | .enoent => 2

/-- The `ssize_t` that is returned: an offset as a signed word, or a negated error code. -/
def ssize : Except Errno ℕ → ℤ
  | .ok n => if n < 2 ^ 31 then n else n - 2 ^ 32
  | .error e => -e.code

end Gralloc
end EmevBsp
