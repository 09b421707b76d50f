import Mathlib.Data.BitVec
import Mathlib.Logic.Function.Basic
import Mathlib.Order.CompletePartialOrder

/-!
# The logical memory blocks of lib_generic/lmb.c

Before a kernel is started the boot loader keeps two tables of address ranges: the memory
there is, and what of it is reserved.  A table has a count and an array of nine places, of
which at most `MAX_LMB_REGIONS` are used; addresses and sizes are 32 bits wide and every sum
wraps.

The array is a function from places to regions.  Places from `cnt` on keep what was last
written there (before `lmb_init`, anything), and there are tables that are read beyond
`cnt`: freeing the only region leaves `cnt = 0`, and then `rgn->cnt - 1` is the largest
number of 32 bits.
-/

namespace EmevBsp

/-- `phys_addr_t` and `phys_size_t`. -/
abbrev PhysAddr := BitVec 32

/-- `MAX_LMB_REGIONS`; the array has one place more. -/
def maxLmbRegions : ℕ := 8

/-- `struct lmb_property`. -/
structure LmbProperty where
  base : PhysAddr
  size : PhysAddr
deriving DecidableEq

/-- `struct lmb_region`. -/
structure LmbRegion where
  cnt : BitVec 32
  size : PhysAddr
  region : ℕ → LmbProperty

/-- `struct lmb`. -/
structure Lmb where
  memory : LmbRegion
  reserved : LmbRegion

namespace Lmb

/-- A region of the array is written. -/
def setRegion (rgn : LmbRegion) (i : ℕ) (p : LmbProperty) : LmbRegion :=
  { rgn with region := Function.update rgn.region i p }

/-! ## Ranges -/

def lmbAddrsOverlap (base1 size1 base2 size2 : PhysAddr) : Bool :=
  base1 < base2 + size2 && base2 < base1 + size1

def lmbAddrsAdjacent (base1 size1 base2 size2 : PhysAddr) : ℤ :=
  if base2 = base1 + size1 then 1
  else if base1 = base2 + size2 then -1
  else 0

def lmbRegionsAdjacent (rgn : LmbRegion) (r1 r2 : ℕ) : ℤ :=
  lmbAddrsAdjacent (rgn.region r1).base (rgn.region r1).size (rgn.region r2).base
    (rgn.region r2).size

/-! ## One table -/

/-- The loop of `lmb_remove_region`, `n` rounds from place `i` on. -/
def lmbShiftDown (region : ℕ → LmbProperty) (i : ℕ) : ℕ → ℕ → LmbProperty
  | 0 => region
  | n + 1 => lmbShiftDown (Function.update region i (region (i + 1))) (i + 1) n

/-- `lmb_remove_region`.  The last place read is `cnt - 1`; with `cnt = 0` the loop runs
out of the array. -/
def lmbRemoveRegion (rgn : LmbRegion) (r : ℕ) : Option LmbRegion :=
  if r < (rgn.cnt - 1).toNat ∧ maxLmbRegions < (rgn.cnt - 1).toNat then none
  else some { rgn with
    region := lmbShiftDown rgn.region r ((rgn.cnt - 1).toNat - r)
    cnt := rgn.cnt - 1 }

def lmbCoalesceRegions (rgn : LmbRegion) (r1 r2 : ℕ) : Option LmbRegion :=
  lmbRemoveRegion
    (setRegion rgn r1 ⟨(rgn.region r1).base, (rgn.region r1).size + (rgn.region r2).size⟩) r2

/-- Where the first loop of `lmb_add_region` stops: at a region that is the one to add, or
that touches it. -/
def lmbAddStop (rgn : LmbRegion) (base size : PhysAddr) : Option ℕ :=
  (List.range rgn.cnt.toNat).find? fun i =>
    decide (rgn.region i = ⟨base, size⟩ ∨
      lmbAddrsAdjacent base size (rgn.region i).base (rgn.region i).size ≠ 0)

/-- The region `p` once `[base, base + size)` is joined to it, as that loop does. -/
def lmbGrow (base size : PhysAddr) (p : LmbProperty) : LmbProperty :=
  if 0 < lmbAddrsAdjacent base size p.base p.size then ⟨p.base - size, p.size + size⟩
  else ⟨p.base, p.size + size⟩

/-- The second loop of `lmb_add_region`, over the places below `n` downwards. -/
def lmbInsertLoop (base size : PhysAddr) : ℕ → (ℕ → LmbProperty) → ℕ → LmbProperty
  | 0, region => region
  | i + 1, region =>
    if base < (region i).base then
      lmbInsertLoop base size i (Function.update region (i + 1) (region i))
    else Function.update region (i + 1) ⟨base, size⟩

/-- The part of `lmb_add_region` that adds an entry to the table. -/
def lmbInsert (rgn : LmbRegion) (base size : PhysAddr) : LmbRegion :=
  let region := lmbInsertLoop base size rgn.cnt.toNat rgn.region
  { rgn with
    region :=
      if base < (region 0).base then Function.update region 0 ⟨base, size⟩ else region
    cnt := rgn.cnt + 1 }

/-- The end of `lmb_add_region`, after its first loop stopped at `i` having joined
`coalesced` regions. -/
def lmbAddFinish (rgn : LmbRegion) (base size : PhysAddr) (i coalesced : ℕ) :
    Option (ℤ × LmbRegion) :=
  if i < (rgn.cnt - 1).toNat ∧ lmbRegionsAdjacent rgn i (i + 1) ≠ 0 then
    (lmbCoalesceRegions rgn i (i + 1)).map fun rgn' => (coalesced + 1, rgn')
  else if coalesced ≠ 0 then some (coalesced, rgn)
  else if maxLmbRegions ≤ rgn.cnt.toNat then some (-1, rgn)
  else some (0, lmbInsert rgn base size)

/-- `lmb_add_region`: its result and the table. -/
def lmbAddRegion (rgn : LmbRegion) (base size : PhysAddr) : Option (ℤ × LmbRegion) :=
  if rgn.cnt = 1 ∧ (rgn.region 0).size = 0 then some (0, setRegion rgn 0 ⟨base, size⟩)
  else
    match lmbAddStop rgn base size with
    | some i =>
      -- Already have this region, so we're done
      if rgn.region i = ⟨base, size⟩ then some (0, rgn)
      else lmbAddFinish (setRegion rgn i (lmbGrow base size (rgn.region i))) base size i 1
    | none => lmbAddFinish rgn base size rgn.cnt.toNat 0

/-! ## Both tables -/

/-- The dummy region of size zero that `lmb_init` writes. -/
def initRegion (rgn : LmbRegion) : LmbRegion :=
  { setRegion rgn 0 ⟨0, 0⟩ with cnt := 1, size := 0 }

def lmbInit (lmb : Lmb) : Lmb :=
  ⟨initRegion lmb.memory, initRegion lmb.reserved⟩

def lmbAdd (lmb : Lmb) (base size : PhysAddr) : Option (ℤ × Lmb) :=
  (lmbAddRegion lmb.memory base size).map fun (ret, rgn) => (ret, { lmb with memory := rgn })

def lmbReserve (lmb : Lmb) (base size : PhysAddr) : Option (ℤ × Lmb) :=
  (lmbAddRegion lmb.reserved base size).map fun (ret, rgn) => (ret, { lmb with reserved := rgn })

/-- The loop of `lmb_free`: the region that `[base, end)` belongs to. -/
def lmbFreeFind (rgn : LmbRegion) (base «end» : PhysAddr) : Option ℕ :=
  (List.range rgn.cnt.toNat).find? fun i =>
    decide ((rgn.region i).base ≤ base ∧ «end» ≤ (rgn.region i).base + (rgn.region i).size)

/-- What `lmb_free` does with the region it found. -/
def lmbFreeRegion (rgn : LmbRegion) (base size : PhysAddr) (i : ℕ) : Option (ℤ × LmbRegion) :=
  let «end» := base + size
  let rgnbegin := (rgn.region i).base
  let rgnend := rgnbegin + (rgn.region i).size
  -- Check to see if we are removing entire region
  if rgnbegin = base ∧ rgnend = «end» then
    (lmbRemoveRegion rgn i).map fun rgn' => (0, rgn')
  -- Check to see if region is matching at the front
  else if rgnbegin = base then
    some (0, setRegion rgn i ⟨«end», (rgn.region i).size - size⟩)
  -- Check to see if the region is matching at the end
  else if rgnend = «end» then
    some (0, setRegion rgn i ⟨rgnbegin, (rgn.region i).size - size⟩)
  -- We need to split the entry
  else
    lmbAddRegion (setRegion rgn i ⟨rgnbegin, base - rgnbegin⟩) «end» (rgnend - «end»)

def lmbFree (lmb : Lmb) (base size : PhysAddr) : Option (ℤ × Lmb) :=
  match lmbFreeFind lmb.reserved base (base + size) with
  | none => some (-1, lmb)
  | some i =>
    (lmbFreeRegion lmb.reserved base size i).map fun (ret, rgn) =>
      (ret, { lmb with reserved := rgn })

end Lmb
end EmevBsp
