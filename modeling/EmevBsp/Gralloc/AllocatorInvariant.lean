import EmevBsp.Gralloc.Allocator
import EmevBsp.Library.Tiling
import EmevBsp.Library.TransitionSystem
import Mathlib.Data.List.Chain
import Mathlib.Data.Nat.ModEq

/-!
# What holds of `SimpleBestFitAllocator` after any calls

The chunk list is a tiling of the heap without two free neighbours, and the chunks in use are
the allocations that are live, one for one.

The three edits of the list are proved one by one: a search only finds a chunk that fits
(`findFit_spec`), a split replaces the chunk by a tiling of its place (`splitChunk_eq`,
`tiles_splitPieces`), and a merge joins neighbours (`tiles_mergeFreed`).  That no free chunk
has a free neighbour only depends on which chunks are free, so it is stated of the list of the
`free` flags (`Merged`).
-/

namespace EmevBsp
namespace Gralloc

variable {P : PageSize}

/-! ## Page boundaries -/

theorem PageSize.units_eq (P : PageSize) : P.units = 2 ^ (P.shift - 5) := by
  have h : P.shift = P.shift - 5 + 5 := by
    have h5 := P.align
    omega
  rw [PageSize.units, PageSize.bytes, h, Nat.pow_add, Nat.add_sub_cancel]
  exact Nat.mul_div_cancel _ (by decide)

theorem PageSize.bytes_eq (P : PageSize) : P.bytes = memoryAlign * P.units := by
  rw [P.units_eq, PageSize.bytes]
  have h5 := P.align
  calc 2 ^ P.shift = 2 ^ (5 + (P.shift - 5)) := by congr 1; omega
    _ = memoryAlign * 2 ^ (P.shift - 5) := Nat.pow_add 2 5 _

theorem PageSize.units_pos (P : PageSize) : 0 < P.units := by
  rw [P.units_eq]
  exact Nat.two_pow_pos _

theorem PageSize.units_dvd (P : PageSize) : P.units ∣ 2 ^ 32 := by
  rw [P.units_eq]
  have h := P.word
  exact Nat.pow_dvd_pow 2 (by omega)

/-- **`extra` reaches the next page boundary.** -/
theorem extra_spec {start : ℕ} (h : start < 2 ^ 32) :
    extra P start < P.units ∧ P.units ∣ start + extra P start := by
  have hextra : extra P start = (2 ^ 32 - start) % P.units := by
    rw [extra, P.units_eq, Nat.and_two_pow_sub_one_eq_mod, ← P.units_eq]
    exact Nat.mod_mod_of_dvd _ P.units_dvd
  refine ⟨by rw [hextra]; exact Nat.mod_lt _ P.units_pos, ?_⟩
  have hsum : start + extra P start = 2 ^ 32 - (2 ^ 32 - start - (2 ^ 32 - start) % P.units) := by
    have hle := Nat.mod_le (2 ^ 32 - start) P.units
    rw [hextra]
    omega
  rw [hsum]
  exact Nat.dvd_sub P.units_dvd (Nat.dvd_sub_mod _)

theorem extra_le {start a : ℕ} (h : start < 2 ^ 32) (ha : P.units ∣ a) (hle : start ≤ a) :
    start + extra P start ≤ a := by
  obtain ⟨hlt, hdvd⟩ := extra_spec (P := P) h
  by_contra hgt
  have hsub := Nat.dvd_sub hdvd ha
  have hle' := Nat.le_of_dvd (by omega) hsub
  omega

/-! ## The search -/

theorem better_cases (i : ℕ) (cur : Chunk) (best : Option (ℕ × Chunk)) :
    best = some (better i cur best) ∨ better i cur best = (i, cur) := by
  cases best with
  | none => exact Or.inr rfl
  | some b =>
    rw [better]
    split_ifs
    · exact Or.inr rfl
    · exact Or.inl rfl

theorem findFit_eq_some {size : ℕ} {l : List Chunk} {i : ℕ} {best : Option (ℕ × Chunk)}
    {b : ℕ × Chunk} (h : findFit P size l i best = some b) :
    best = some b ∨ ∃ k, b.1 = i + k ∧ l[k]? = some b.2 ∧ Fits P size b.2 := by
  induction l generalizing i best with
  | nil => exact Or.inl h
  | cons cur l ih =>
    -- what is found behind `cur`
    have hrest : ∀ best', findFit P size l (i + 1) best' = some b →
        best' = some b ∨ ∃ k, b.1 = i + k ∧ (cur :: l)[k]? = some b.2 ∧ Fits P size b.2 := by
      intro best' h
      rcases ih h with hb | ⟨k, hk, hget, hfits⟩
      · exact Or.inl hb
      · exact Or.inr ⟨k + 1, by omega, hget, hfits⟩
    simp only [findFit] at h
    split_ifs at h with hfit hsize
    · obtain rfl := Option.some.inj h
      rcases better_cases i cur best with hb | hb
      · exact Or.inl hb
      · exact Or.inr ⟨0, by rw [hb]; rfl, by rw [hb]; rfl, by rw [hb]; exact hfit⟩
    · rcases hrest _ h with hb | hb
      · obtain rfl := Option.some.inj hb
        rcases better_cases i cur best with hb | hb
        · exact Or.inl hb
        · exact Or.inr ⟨0, by rw [hb]; rfl, by rw [hb]; rfl, by rw [hb]; exact hfit⟩
      · exact Or.inr hb
    · exact hrest best h

theorem findFit_eq_none {size : ℕ} {l : List Chunk} {i : ℕ} {best : Option (ℕ × Chunk)}
    (h : findFit P size l i best = none) : best = none ∧ ∀ c ∈ l, ¬ Fits P size c := by
  induction l generalizing i best with
  | nil => exact ⟨h, fun c hc => absurd hc (by simp)⟩
  | cons cur l ih =>
    simp only [findFit] at h
    split_ifs at h with hfit hsize
    · exact absurd (ih h).1 (by simp)
    · obtain ⟨hbest, hl⟩ := ih h
      refine ⟨hbest, fun c hc => ?_⟩
      rcases List.mem_cons.mp hc with rfl | hc
      · exact hfit
      · exact hl c hc

/-! ## The split -/

/-- A free chunk of `k` units at `a`, none if there are no units. -/
def freePiece (a k : ℕ) : List Chunk := if k = 0 then [] else [⟨a, k, true⟩]

/-- The pieces of a chunk: the slack, the allocation, and the rest. -/
def splitPieces (start ex size rest : ℕ) : List Chunk :=
  freePiece start ex ++ ⟨start + ex, size, false⟩ :: freePiece (start + ex + size) rest

theorem splitChunk_eq {size : ℕ} {c : Chunk} (hfit : Fits P size c) (hsize : c.size < 2 ^ 28) :
    splitChunk P size c = (splitPieces c.start (extra P c.start) size
      (c.size - (size + extra P c.start)), c.start + extra P c.start) := by
  have hle := hfit.2
  have hmod : size % 2 ^ 28 = size := Nat.mod_eq_of_lt (by omega)
  have hex : extra P c.start % 2 ^ 28 = extra P c.start := Nat.mod_eq_of_lt (by omega)
  have hrest : (c.size - (size + extra P c.start)) % 2 ^ 28 =
      c.size - (size + extra P c.start) := Nat.mod_eq_of_lt (by omega)
  unfold splitChunk
  by_cases hgt : c.size > size
  · simp only [hgt, if_true, hmod, newChunk, hex, hrest, splitPieces, freePiece,
      ne_eq, ite_not, gt_iff_lt, Nat.pos_iff_ne_zero]
  · -- the chunk is filled: it starts on a page boundary and nothing is left
    have hex0 : extra P c.start = 0 := by omega
    have hrest0 : c.size - (size + 0) = 0 := by omega
    rw [if_neg hgt, hex0, hmod, hrest0]
    rfl

theorem tiles_freePiece (a k : ℕ) : Tiles Chunk.start Chunk.size a (freePiece a k) (a + k) := by
  unfold freePiece
  split_ifs with h
  · simp [h]
  · exact ⟨rfl, Nat.pos_of_ne_zero h, rfl⟩

theorem tiles_splitPieces {start ex size rest : ℕ} (hsize : 0 < size) :
    Tiles Chunk.start Chunk.size start (splitPieces start ex size rest)
      (start + (ex + size + rest)) := by
  have hend : start + (ex + size + rest) = start + ex + size + rest := by omega
  rw [hend]
  exact tiles_append.mpr ⟨start + ex, tiles_freePiece start ex, rfl, hsize,
    tiles_freePiece (start + ex + size) rest⟩

/-- The chunks in use. -/
def used (l : List Chunk) : List Chunk := l.filter fun c => !c.free

@[simp] theorem mem_used {l : List Chunk} {c : Chunk} : c ∈ used l ↔ c ∈ l ∧ c.free = false := by
  simp [used]

@[simp] theorem used_append (l r : List Chunk) : used (l ++ r) = used l ++ used r :=
  List.filter_append ..

theorem used_cons_free {c : Chunk} (h : c.free = true) (l : List Chunk) :
    used (c :: l) = used l := by
  simp [used, h]

theorem used_cons_used {c : Chunk} (h : c.free = false) (l : List Chunk) :
    used (c :: l) = c :: used l := by
  simp [used, h]

@[simp] theorem used_freePiece (a k : ℕ) : used (freePiece a k) = [] := by
  unfold freePiece
  split_ifs <;> rfl

@[simp] theorem used_splitPieces (start ex size rest : ℕ) :
    used (splitPieces start ex size rest) = [⟨start + ex, size, false⟩] := by
  rw [splitPieces, used_append, used_freePiece, used_cons_used rfl, used_freePiece]
  rfl

/-! ## No two free neighbours -/

/-- Two neighbours are not both free. -/
abbrev NotBothFree (a b : Bool) : Prop := a = false ∨ b = false

/-- No free chunk has a free neighbour. -/
def Merged (l : List Chunk) : Prop := (l.map Chunk.free).IsChain NotBothFree

theorem isChain_concat_false {l : List Bool} (h : l.IsChain NotBothFree) :
    (l ++ [false]).IsChain NotBothFree := by
  refine List.isChain_append.mpr ⟨h, List.isChain_singleton _, fun a _ b hb => Or.inr ?_⟩
  simpa using hb.symm

theorem isChain_cons_false {l : List Bool} (h : l.IsChain NotBothFree) :
    (false :: l).IsChain NotBothFree :=
  List.isChain_cons.mpr ⟨fun _ _ => Or.inl rfl, h⟩

theorem free_freePiece (a k : ℕ) :
    (freePiece a k).map Chunk.free = [] ∨ (freePiece a k).map Chunk.free = [true] := by
  unfold freePiece
  split_ifs
  · exact Or.inl rfl
  · exact Or.inr rfl

theorem Merged.splitPieces {l r : List Chunk} {c : Chunk} (hc : c.free = true)
    (h : Merged (l ++ c :: r)) (start ex size rest : ℕ) :
    Merged (l ++ (splitPieces start ex size rest ++ r)) := by
  rw [Merged, List.map_append, List.map_cons, hc, List.isChain_split] at h
  obtain ⟨hl, hr⟩ := h
  have hl' := (List.isChain_append.mp hl).1
  have hr' : (r.map Chunk.free).IsChain NotBothFree := (List.isChain_cons.mp hr).2
  have hleft : (l.map Chunk.free ++ (freePiece start ex).map Chunk.free ++ [false]).IsChain
      NotBothFree := by
    refine isChain_concat_false ?_
    rcases free_freePiece start ex with hs | hs
    · rw [hs, List.append_nil]
      exact hl'
    · rw [hs]
      exact hl
  have hright : (false :: ((freePiece (start + ex + size) rest).map Chunk.free ++
      r.map Chunk.free)).IsChain NotBothFree := by
    refine isChain_cons_false ?_
    rcases free_freePiece (start + ex + size) rest with ht | ht
    · rw [ht]
      exact hr'
    · rw [ht]
      exact hr
  have hboth := List.isChain_split.mpr ⟨hleft, hright⟩
  rw [Merged, Gralloc.splitPieces]
  simpa using hboth

/-! ## The merge -/

theorem tiles_mergePrev {before : List Chunk} {cur : Chunk}
    (h : Tiles Chunk.start Chunk.size 0 before.reverse cur.start) (hpos : 0 < cur.size)
    (hend : cur.start + cur.size < 2 ^ 28) :
    Tiles Chunk.start Chunk.size 0 (mergePrev before cur).reverse (cur.start + cur.size) := by
  cases before with
  | nil =>
    have h0 : 0 = cur.start := h
    rw [mergePrev]
    exact ⟨h0.symm, hpos, by rw [h0]; rfl⟩
  | cons p before =>
    rw [List.reverse_cons] at h
    obtain ⟨m, hm, hstart, hppos, hcur⟩ := tiles_append.mp h
    have hcur' : m + p.size = cur.start := hcur
    rw [mergePrev]
    split_ifs
    · have hmod : (p.size + cur.size) % 2 ^ 28 = p.size + cur.size := Nat.mod_eq_of_lt (by omega)
      rw [List.reverse_cons, hmod]
      refine tiles_append.mpr ⟨m, hm, hstart, Nat.add_pos_left hppos _, ?_⟩
      show m + (p.size + cur.size) = cur.start + cur.size
      omega
    · rw [List.reverse_cons, List.reverse_cons]
      exact tiles_append.mpr ⟨cur.start, h, rfl, hpos, rfl⟩

theorem tiles_mergeFreed {before after : List Chunk} {cur : Chunk} {n : ℕ} (hn : n < 2 ^ 28)
    (h : Tiles Chunk.start Chunk.size 0 (before.reverse ++ cur :: after) n) :
    Tiles Chunk.start Chunk.size 0 (mergeFreed before cur after) n := by
  induction after generalizing before cur with
  | nil =>
    obtain ⟨hbefore, hpos, hend⟩ := h.of_split
    have hend' : cur.start + cur.size = n := hend
    have hmerge := tiles_mergePrev hbefore hpos (by omega)
    rw [hend'] at hmerge
    rwa [mergeFreed]
  | cons d after ih =>
    obtain ⟨hbefore, hpos, hafter⟩ := h.of_split
    have hmerge := tiles_mergePrev hbefore hpos (lt_of_le_of_lt hafter.le hn)
    have hall := tiles_append.mpr ⟨_, hmerge, hafter⟩
    rw [mergeFreed]
    split_ifs
    · exact ih hall
    · exact hall

theorem merged_mergePrev {before : List Chunk} (cur : Chunk) (h : Merged before.reverse) :
    Merged (mergePrev before cur).reverse := by
  cases before with
  | nil => exact List.isChain_singleton _
  | cons p before =>
    rw [mergePrev]
    split_ifs with hp
    · rw [Merged, List.reverse_cons, List.map_append] at h ⊢
      exact h
    · have hpfree : p.free = false := by
        cases hf : p.free with
        | false => rfl
        | true => exact absurd (Or.inl hf) hp
      rw [Merged, List.reverse_cons, List.map_append]
      refine List.isChain_append.mpr ⟨h, List.isChain_singleton _, fun a ha b _ => Or.inl ?_⟩
      simpa [hpfree] using ha.symm

theorem merged_mergeFreed {before after : List Chunk} {cur : Chunk}
    (hbefore : Merged before.reverse) (hafter : Merged after) :
    Merged (mergeFreed before cur after) := by
  induction after generalizing before cur with
  | nil => exact merged_mergePrev cur hbefore
  | cons d after ih =>
    have hmerge := merged_mergePrev cur hbefore
    rw [mergeFreed]
    split_ifs with hd
    · exact ih hmerge (List.isChain_cons.mp hafter).2
    · have hdfree : d.free = false := by simpa using hd
      rw [Merged, List.map_append]
      refine List.isChain_append.mpr ⟨hmerge, hafter, fun a _ b hb => Or.inr ?_⟩
      simpa [hdfree] using hb.symm

theorem used_mergePrev {before : List Chunk} {cur : Chunk} (hcur : cur.free = true)
    (hpos : 0 < cur.size) : used (mergePrev before cur).reverse = used before.reverse := by
  cases before with
  | nil => simp [mergePrev, used, hcur]
  | cons p before =>
    rw [mergePrev]
    split_ifs with hp
    · have hpfree : p.free = true := hp.resolve_right hpos.ne'
      simp [used, hpfree]
    · rw [List.reverse_cons, used_append, used_cons_free hcur]
      exact List.append_nil _

theorem used_mergeFreed {before after : List Chunk} {cur : Chunk} (hcur : cur.free = true)
    (hpos : ∀ c ∈ cur :: after, 0 < c.size) :
    used (mergeFreed before cur after) = used before.reverse ++ used after := by
  induction after generalizing before cur with
  | nil =>
    rw [mergeFreed, used_mergePrev hcur (hpos cur List.mem_cons_self)]
    simp [used]
  | cons d after ih =>
    have hprev : used (mergePrev before cur).reverse = used before.reverse :=
      used_mergePrev hcur (hpos cur List.mem_cons_self)
    rw [mergeFreed]
    split_ifs with hd
    · rw [ih hd fun c hc => hpos c (List.mem_cons_of_mem cur hc), hprev, used_cons_free hd]
    · rw [used_append, hprev]

theorem deallocFrom_append {l r : List Chunk} {c : Chunk} (hl : ∀ d ∈ l, d.start ≠ c.start)
    (before : List Chunk) :
    deallocFrom c.start before (l ++ c :: r) =
      some (mergeFreed (l.reverse ++ before) { c with free := true } r) := by
  induction l generalizing before with
  | nil => simp [deallocFrom]
  | cons d l ih =>
    rw [List.cons_append, deallocFrom, if_neg (hl d List.mem_cons_self),
      ih fun e he => hl e (List.mem_cons_of_mem d he)]
    simp

/-! ## The allocator and its live allocations -/

/-- The allocator and, which no code keeps, the offsets and sizes of the live allocations. -/
structure State where
  alloc : Allocator
  live : List (ℕ × ℕ)

inductive Call where
  | allocate (size : ℕ)
  | deallocate (offset : ℕ)

/-- The calls: sizes between 1 and that of the heap, offsets that are live. -/
inductive Step (P : PageSize) : State → Call → State → Prop where
  | allocate (a a' : Allocator) (live : List (ℕ × ℕ)) (size offset : ℕ) :
    1 ≤ size → size ≤ a.heapSize → allocate P a size = (.ok offset, a') →
    Step P ⟨a, live⟩ (.allocate size) ⟨a', (offset, size) :: live⟩
  | allocateError (a a' : Allocator) (live : List (ℕ × ℕ)) (size : ℕ) (e : Errno) :
    1 ≤ size → size ≤ a.heapSize → allocate P a size = (.error e, a') →
    Step P ⟨a, live⟩ (.allocate size) ⟨a', live⟩
  | deallocate (a : Allocator) (live : List (ℕ × ℕ)) (offset : ℕ) :
    offset ∈ live.map Prod.fst →
    Step P ⟨a, live⟩ (.deallocate offset)
      ⟨(deallocate a offset).2, live.filter fun e => e.1 ≠ offset⟩

/-- The runs start with an allocator whose heap was set, to a size that is not 0. -/
def allocatorSystem (P : PageSize) : TransitionSystem State Call where
  init s := ∃ size < 2 ^ 32, s = ⟨setSize P size, []⟩ ∧ (setSize P size).heapSize ≠ 0
  step := Step P

/-- The heap in units. -/
def Allocator.units (a : Allocator) : ℕ := a.heapSize / memoryAlign

/-- The chunk list is in order. -/
structure ListInv (P : PageSize) (a : Allocator) : Prop where
  heap : a.heapSize ≠ 0
  word : a.heapSize < 2 ^ 32
  page : P.bytes ∣ a.heapSize
  tiles : Tiles Chunk.start Chunk.size 0 a.list a.units
  merged : Merged a.list
  aligned : ∀ c ∈ used a.list, P.units ∣ c.start

/-- The live allocations are the chunks in use. -/
structure LiveInv (l : List Chunk) (live : List (ℕ × ℕ)) : Prop where
  chunk : ∀ e ∈ live, ∃ c ∈ used l, e.1 = memoryAlign * c.start ∧ e.2 ≤ memoryAlign * c.size
  entry : ∀ c ∈ used l, ∃ e ∈ live, e.1 = memoryAlign * c.start
  nodup : (live.map Prod.fst).Nodup

theorem ListInv.heapSize_eq {a : Allocator} (h : ListInv P a) :
    a.heapSize = memoryAlign * a.units := by
  have hdvd : memoryAlign ∣ a.heapSize :=
    (P.bytes_eq ▸ Nat.dvd_mul_right memoryAlign P.units).trans h.page
  exact (Nat.mul_div_cancel' hdvd).symm

theorem ListInv.units_lt {a : Allocator} (h : ListInv P a) : a.units < 2 ^ 27 := by
  have hword := h.word
  have heq : a.heapSize = 32 * a.units := h.heapSize_eq
  omega

theorem request_eq {size : ℕ} (hlt : size + 31 < 2 ^ 32) :
    (size + memoryAlign - 1) % 2 ^ 32 / memoryAlign = (size + 31) / 32 := by
  show (size + 32 - 1) % 2 ^ 32 / 32 = _
  rw [Nat.mod_eq_of_lt (by omega)]
  congr 1

theorem allocate_cases_of_lt {a : Allocator} (h : ListInv P a) {size : ℕ} (hpos : 1 ≤ size)
    (hlt : size + 31 < 2 ^ 32) :
    (allocate P a size = (.error .enomem, a) ∧
        ∀ c ∈ a.list, ¬ Fits P ((size + 31) / 32) c) ∨
      ∃ l c r, a.list = l ++ c :: r ∧ Fits P ((size + 31) / 32) c ∧
        allocate P a size = (.ok (memoryAlign * (c.start + extra P c.start)),
          { a with list := l ++ (splitPieces c.start (extra P c.start) ((size + 31) / 32)
            (c.size - ((size + 31) / 32 + extra P c.start)) ++ r) }) := by
  have hsize : size ≠ 0 := by omega
  have halloc : allocate P a size =
      ((alloc P a.list size).1, { a with list := (alloc P a.list size).2 }) := by
    rw [allocate, if_neg h.heap, if_neg hsize]
  rw [halloc]
  simp only [alloc, request_eq hlt]
  cases hfind : findFit P ((size + 31) / 32) a.list 0 none with
  | none => exact Or.inl ⟨rfl, (findFit_eq_none hfind).2⟩
  | some b =>
    obtain ⟨i, c⟩ := b
    right
    obtain ⟨k, hk, hget, hfit⟩ := (findFit_eq_some hfind).resolve_left (by simp)
    obtain rfl : i = k := by simpa using hk
    obtain ⟨hlt, hci⟩ := List.getElem?_eq_some_iff.mp hget
    have hlist : a.list = a.list.take i ++ c :: a.list.drop (i + 1) := by
      have hcons : a.list.drop i = c :: a.list.drop (i + 1) := by
        rw [List.drop_eq_getElem_cons hlt]
        exact congrArg (· :: _) hci
      rw [← hcons, List.take_append_drop]
    have hbounds := h.tiles.mem_bounds (c := c) (by rw [hlist]; simp)
    have hunits := h.units_lt
    have hfits : (size + 31) / 32 + extra P c.start ≤ c.size := hfit.2
    have hoffset : (c.start + extra P c.start) * memoryAlign % 2 ^ 32 =
        memoryAlign * (c.start + extra P c.start) := by
      rw [Nat.mul_comm, Nat.mod_eq_of_lt]
      show 32 * _ < _
      omega
    refine ⟨_, c, _, hlist, hfit, ?_⟩
    simp only [splitChunk_eq hfit (show c.size < 2 ^ 28 by omega), hoffset]

theorem allocate_cases {a : Allocator} (h : ListInv P a) {size : ℕ} (hpos : 1 ≤ size)
    (hle : size ≤ a.heapSize) :
    (allocate P a size = (.error .enomem, a) ∧
        ∀ c ∈ a.list, ¬ Fits P ((size + 31) / 32) c) ∨
      ∃ l c r, a.list = l ++ c :: r ∧ Fits P ((size + 31) / 32) c ∧
        allocate P a size = (.ok (memoryAlign * (c.start + extra P c.start)),
          { a with list := l ++ (splitPieces c.start (extra P c.start) ((size + 31) / 32)
            (c.size - ((size + 31) / 32 + extra P c.start)) ++ r) }) := by
  have hlt := h.units_lt
  have heq : a.heapSize = 32 * a.units := h.heapSize_eq
  exact allocate_cases_of_lt h hpos (by omega)

theorem deallocate_eq {a : Allocator} (h : ListInv P a) {l r : List Chunk} {c : Chunk}
    (hlist : a.list = l ++ c :: r) :
    deallocate a (memoryAlign * c.start) =
      (.ok 0, { a with list := mergeFreed l.reverse { c with free := true } r }) := by
  have hne : ∀ d ∈ l, d.start ≠ c.start := by
    intro d hd
    have htiles := h.tiles
    rw [hlist] at htiles
    have hbounds := htiles.of_split.1.mem_bounds hd
    omega
  have hdiv : memoryAlign * c.start / memoryAlign = c.start :=
    Nat.mul_div_cancel_left _ (by decide)
  rw [deallocate, if_neg h.heap, hdiv, hlist, deallocFrom_append hne, List.append_nil]

/-! ## The steps -/

theorem listInv_setSize {size : ℕ} (hheap : (setSize P size).heapSize ≠ 0) :
    ListInv P (setSize P size) := by
  have hmask : ∀ x, x &&& (P.bytes - 1) = x % P.bytes := fun x =>
    Nat.and_two_pow_sub_one_eq_mod x P.shift
  have hword : (setSize P size).heapSize < 2 ^ 32 :=
    lt_of_le_of_lt (Nat.sub_le _ _) (Nat.mod_lt _ (by decide))
  have hpage : P.bytes ∣ (setSize P size).heapSize := by
    show P.bytes ∣ _ - (_ &&& (P.bytes - 1))
    rw [hmask]
    exact Nat.dvd_sub_mod _
  have hdvd : memoryAlign ∣ (setSize P size).heapSize :=
    (P.bytes_eq ▸ Nat.dvd_mul_right memoryAlign P.units).trans hpage
  have hunits : 0 < (setSize P size).units ∧ (setSize P size).units < 2 ^ 28 := by
    have heq : (setSize P size).heapSize = 32 * (setSize P size).units :=
      (Nat.mul_div_cancel' hdvd).symm
    omega
  have hlist : (setSize P size).list = [⟨0, (setSize P size).units, true⟩] := by
    show [newChunk 0 (setSize P size).units] = _
    rw [newChunk, Nat.mod_eq_of_lt hunits.2]
  refine ⟨hheap, hword, hpage, ?_, ?_, ?_⟩
  · rw [hlist]
    exact ⟨rfl, hunits.1, Nat.zero_add _⟩
  · rw [hlist]
    exact List.isChain_singleton _
  · rw [hlist]
    intro c hc
    simp [used] at hc

theorem listInv_allocate {a : Allocator} (h : ListInv P a) {l r : List Chunk} {c : Chunk}
    {u : ℕ} (hlist : a.list = l ++ c :: r) (hfit : Fits P u c) (hu : 0 < u) :
    ListInv P { a with list := l ++ (splitPieces c.start (extra P c.start) u
      (c.size - (u + extra P c.start)) ++ r) } := by
  have htiles := h.tiles
  have hmerged := h.merged
  have haligned := h.aligned
  have hbounds := htiles.mem_bounds (c := c) (by rw [hlist]; simp)
  have hlt := h.units_lt
  rw [hlist] at htiles hmerged haligned
  refine ⟨h.heap, h.word, h.page, ?_, ?_, ?_⟩
  · refine htiles.replace ?_
    have hsplit : Tiles Chunk.start Chunk.size c.start
        (splitPieces c.start (extra P c.start) u (c.size - (u + extra P c.start)))
        (c.start + (extra P c.start + u + (c.size - (u + extra P c.start)))) :=
      tiles_splitPieces hu
    have hfits := hfit.2
    have hsum : extra P c.start + u + (c.size - (u + extra P c.start)) = c.size := by omega
    rwa [hsum] at hsplit
  · exact hmerged.splitPieces hfit.1 _ _ _ _
  · intro d hd
    rw [used_append, used_append, used_splitPieces] at hd
    rw [used_append, used_cons_free hfit.1] at haligned
    rcases List.mem_append.mp hd with hd | hd
    · exact haligned d (List.mem_append_left _ hd)
    · rcases List.mem_cons.mp hd with rfl | hd
      · exact (extra_spec (by omega)).2
      · exact haligned d (List.mem_append_right _ hd)

theorem used_deallocate {a : Allocator} (h : ListInv P a) {l r : List Chunk} {c : Chunk}
    (hlist : a.list = l ++ c :: r) :
    used (mergeFreed l.reverse { c with free := true } r) = used l ++ used r := by
  have htiles := h.tiles
  rw [hlist] at htiles
  have hpos : ∀ d ∈ { c with free := true } :: r, 0 < d.size := by
    intro d hd
    rcases List.mem_cons.mp hd with rfl | hd
    · exact htiles.of_split.2.1
    · exact (htiles.of_split.2.2.mem_bounds hd).2.1
  rw [used_mergeFreed rfl hpos, List.reverse_reverse]

theorem listInv_deallocate {a : Allocator} (h : ListInv P a) {l r : List Chunk} {c : Chunk}
    (hlist : a.list = l ++ c :: r) :
    ListInv P { a with list := mergeFreed l.reverse { c with free := true } r } := by
  have htiles := h.tiles
  have hmerged := h.merged
  have haligned := h.aligned
  have hlt := h.units_lt
  rw [hlist] at htiles hmerged haligned
  refine ⟨h.heap, h.word, h.page, ?_, ?_, ?_⟩
  · refine tiles_mergeFreed (by show a.units < _; omega) ?_
    obtain ⟨hl, hpos, hr⟩ := htiles.of_split
    rw [List.reverse_reverse]
    exact tiles_append.mpr ⟨c.start, hl, rfl, hpos, hr⟩
  · rw [Merged, List.map_append, List.map_cons] at hmerged
    obtain ⟨hl, hr, -⟩ := List.isChain_append.mp hmerged
    refine merged_mergeFreed ?_ (List.isChain_cons.mp hr).2
    rwa [List.reverse_reverse]
  · intro d hd
    have hd' : d ∈ used l ++ used r := by rwa [← used_deallocate h hlist]
    refine haligned d ?_
    rw [used_append]
    rcases List.mem_append.mp hd' with hd' | hd'
    · exact List.mem_append_left _ hd'
    · rw [mem_used] at hd'
      exact List.mem_append_right _ (mem_used.mpr ⟨List.mem_cons_of_mem _ hd'.1, hd'.2⟩)

theorem start_lt_of_split {a : Allocator} (h : ListInv P a) {l r : List Chunk} {c : Chunk}
    (hlist : a.list = l ++ c :: r) :
    (∀ d ∈ l, d.start < c.start) ∧ ∀ d ∈ r, c.start + c.size ≤ d.start := by
  have htiles := h.tiles
  rw [hlist] at htiles
  obtain ⟨hl, -, hr⟩ := htiles.of_split
  refine ⟨fun d hd => ?_, fun d hd => (hr.mem_bounds hd).1⟩
  have hbounds := hl.mem_bounds hd
  omega

theorem liveInv_allocate {a : Allocator} (h : ListInv P a) {live : List (ℕ × ℕ)}
    (hlive : LiveInv a.list live) {l r : List Chunk} {c : Chunk} {size : ℕ}
    (hlist : a.list = l ++ c :: r) (hfit : Fits P ((size + 31) / 32) c) (hpos : 1 ≤ size)
    (rest : ℕ) :
    LiveInv (l ++ (splitPieces c.start (extra P c.start) ((size + 31) / 32) rest ++ r))
      ((memoryAlign * (c.start + extra P c.start), size) :: live) := by
  have hold : used a.list = used l ++ used r := by
    rw [hlist, used_append, used_cons_free hfit.1]
  have hmem : ∀ d, d ∈ used (l ++ (splitPieces c.start (extra P c.start) ((size + 31) / 32) rest
      ++ r)) ↔ d ∈ used a.list ∨ d = ⟨c.start + extra P c.start, (size + 31) / 32, false⟩ := by
    intro d
    rw [hold, used_append, used_append, used_splitPieces]
    simp only [List.mem_append, List.mem_singleton]
    tauto
  refine ⟨fun e he => ?_, fun d hd => ?_, ?_⟩
  · rcases List.mem_cons.mp he with rfl | he
    · refine ⟨_, (hmem _).mpr (Or.inr rfl), rfl, ?_⟩
      show size ≤ 32 * ((size + 31) / 32)
      omega
    · obtain ⟨d, hd, hoffset, hcover⟩ := hlive.chunk e he
      exact ⟨d, (hmem d).mpr (Or.inl hd), hoffset, hcover⟩
  · rcases (hmem d).mp hd with hd | rfl
    · obtain ⟨e, he, hoffset⟩ := hlive.entry d hd
      exact ⟨e, List.mem_cons_of_mem _ he, hoffset⟩
    · exact ⟨_, List.mem_cons_self, rfl⟩
  · rw [List.map_cons, List.nodup_cons]
    refine ⟨fun hin => ?_, hlive.nodup⟩
    -- an old chunk does not start inside the chunk that was split
    obtain ⟨e, he, hoffset⟩ := List.mem_map.mp hin
    obtain ⟨d, hd, hstart, -⟩ := hlive.chunk e he
    have heq : d.start = c.start + extra P c.start := by
      have h32 : 32 * d.start = 32 * (c.start + extra P c.start) := hstart.symm.trans hoffset
      omega
    obtain ⟨hbefore, hafter⟩ := start_lt_of_split h hlist
    have hfits : (size + 31) / 32 + extra P c.start ≤ c.size := hfit.2
    rw [hold, List.mem_append, mem_used, mem_used] at hd
    rcases hd with hd | hd
    · have hlt := hbefore d hd.1
      omega
    · have hle := hafter d hd.1
      omega

theorem liveInv_deallocate {a : Allocator} (h : ListInv P a) {live : List (ℕ × ℕ)}
    (hlive : LiveInv a.list live) {l r : List Chunk} {c : Chunk} (hlist : a.list = l ++ c :: r)
    (hc : c.free = false) :
    LiveInv (mergeFreed l.reverse { c with free := true } r)
      (live.filter fun e => e.1 ≠ memoryAlign * c.start) := by
  have hold : used a.list = used l ++ c :: used r := by
    rw [hlist, used_append, used_cons_used hc]
  have hne : ∀ d ∈ used l ++ used r, d.start ≠ c.start := by
    obtain ⟨hbefore, hafter⟩ := start_lt_of_split h hlist
    have hpos : 0 < c.size := (h.tiles.mem_bounds (by rw [hlist]; simp)).2.1
    intro d hd
    rw [List.mem_append, mem_used, mem_used] at hd
    rcases hd with hd | hd
    · have hlt := hbefore d hd.1
      omega
    · have hle := hafter d hd.1
      omega
  refine ⟨fun e he => ?_, fun d hd => ?_, ?_⟩
  · obtain ⟨he, hoff⟩ := List.mem_filter.mp he
    obtain ⟨d, hd, hoffset, hcover⟩ := hlive.chunk e he
    refine ⟨d, ?_, hoffset, hcover⟩
    rw [used_deallocate h hlist]
    rw [hold, List.mem_append, List.mem_cons] at hd
    rcases hd with hd | rfl | hd
    · exact List.mem_append_left _ hd
    · exact absurd hoffset (by simpa using hoff)
    · exact List.mem_append_right _ hd
  · rw [used_deallocate h hlist] at hd
    have hd' : d ∈ used a.list := by
      rw [hold]
      rcases List.mem_append.mp hd with hd | hd
      · exact List.mem_append_left _ hd
      · exact List.mem_append_right _ (List.mem_cons_of_mem c hd)
    obtain ⟨e, he, hoffset⟩ := hlive.entry d hd'
    refine ⟨e, List.mem_filter.mpr ⟨he, ?_⟩, hoffset⟩
    have hstart := hne d hd
    have hoff : e.1 ≠ memoryAlign * c.start := by
      rw [hoffset]
      show 32 * d.start ≠ 32 * c.start
      omega
    simpa using hoff
  · exact (List.filter_sublist.map Prod.fst).nodup hlive.nodup

structure Inv (P : PageSize) (s : State) : Prop where
  list : ListInv P s.alloc
  live : LiveInv s.alloc.list s.live

theorem Inv.exists_chunk {s : State} (hs : Inv P s) {offset : ℕ}
    (h : offset ∈ s.live.map Prod.fst) :
    ∃ l c r, s.alloc.list = l ++ c :: r ∧ c.free = false ∧ offset = memoryAlign * c.start := by
  obtain ⟨e, he, rfl⟩ := List.mem_map.mp h
  obtain ⟨c, hc, hoffset, -⟩ := hs.live.chunk e he
  rw [mem_used] at hc
  obtain ⟨l, r, hlist⟩ := List.append_of_mem hc.1
  exact ⟨l, c, r, hlist, hc.2, hoffset⟩

theorem inv_step {s t : State} {call : Call} (hs : Inv P s) (hstep : Step P s call t) :
    Inv P t := by
  cases hstep with
  | allocate a a' live size offset hpos hle hcall =>
    have hlist : ListInv P a := hs.list
    rcases allocate_cases hlist hpos hle with ⟨hres, -⟩ | ⟨l, c, r, hsplit, hfit, hres⟩
    · rw [hres] at hcall
      exact absurd (Prod.mk.inj hcall).1 (by simp)
    · rw [hres] at hcall
      obtain ⟨hoffset, rfl⟩ := Prod.mk.inj hcall
      obtain rfl := Except.ok.inj hoffset
      exact ⟨listInv_allocate hlist hsplit hfit (by omega),
        liveInv_allocate hlist hs.live hsplit hfit hpos _⟩
  | allocateError a a' live size e hpos hle hcall =>
    have hlist : ListInv P a := hs.list
    rcases allocate_cases hlist hpos hle with ⟨hres, -⟩ | ⟨l, c, r, hsplit, hfit, hres⟩
    · rw [hres] at hcall
      obtain ⟨-, rfl⟩ := Prod.mk.inj hcall
      exact ⟨hlist, hs.live⟩
    · rw [hres] at hcall
      exact absurd (Prod.mk.inj hcall).1 (by simp)
  | deallocate a live offset hoffset =>
    have hlist : ListInv P a := hs.list
    obtain ⟨l, c, r, hsplit, hc, rfl⟩ := hs.exists_chunk hoffset
    rw [deallocate_eq hlist hsplit]
    exact ⟨listInv_deallocate hlist hsplit, liveInv_deallocate hlist hs.live hsplit hc⟩

theorem inv_of_reachable {s : State} (h : (allocatorSystem P).Reachable s) : Inv P s := by
  refine TransitionSystem.Reachable.invariant (I := Inv P) (fun s hinit => ?_)
    (fun _ _ _ hs hstep => inv_step hs hstep) h
  obtain ⟨size, -, rfl, hheap⟩ := hinit
  have hlist := listInv_setSize hheap
  refine ⟨hlist, fun e he => absurd he (by simp), fun c hc => ?_, List.nodup_nil⟩
  simp [used, setSize, newChunk] at hc

/-! ## What the callers see -/

/-- A free chunk in which `size` bytes fit at a page boundary. -/
def CanHold (P : PageSize) (size : ℕ) (c : Chunk) : Prop :=
  c.free = true ∧ ∃ x, P.bytes ∣ x ∧ memoryAlign * c.start ≤ x ∧
    x + size ≤ memoryAlign * (c.start + c.size)

theorem fits_of_canHold {size : ℕ} {c : Chunk} (hword : c.start < 2 ^ 32)
    (h : CanHold P size c) : Fits P ((size + 31) / 32) c := by
  obtain ⟨hfree, x, ⟨k, rfl⟩, hlo, hhi⟩ := h
  refine ⟨hfree, ?_⟩
  have hx : P.bytes * k = 32 * (P.units * k) := by
    rw [P.bytes_eq, Nat.mul_assoc]
  have hlo' : 32 * c.start ≤ P.bytes * k := hlo
  have hhi' : P.bytes * k + size ≤ 32 * (c.start + c.size) := hhi
  have hextra := extra_le hword (Nat.dvd_mul_right P.units k) (by omega)
  omega

/-- The bytes of two live allocations. -/
def DisjointRanges (e f : ℕ × ℕ) : Prop := e.1 + e.2 ≤ f.1 ∨ f.1 + f.2 ≤ e.1

theorem pairwise_disjoint {a : Allocator} (hlist : ListInv P a) {live : List (ℕ × ℕ)}
    (hlive : LiveInv a.list live) : live.Pairwise DisjointRanges := by
  refine (List.pairwise_map.mp hlive.nodup).imp_of_mem fun {e f} he hf hne => ?_
  obtain ⟨c, hc, hce, hcsize⟩ := hlive.chunk e he
  obtain ⟨d, hd, hdf, hdsize⟩ := hlive.chunk f hf
  have hce' : e.1 = 32 * c.start := hce
  have hdf' : f.1 = 32 * d.start := hdf
  have hcsize' : e.2 ≤ 32 * c.size := hcsize
  have hdsize' : f.2 ≤ 32 * d.size := hdsize
  rcases hlist.tiles.eq_or_disjoint (mem_used.mp hc).1 (mem_used.mp hd).1 with rfl | hlt | hlt
  · exact absurd (hce.trans hdf.symm) hne
  · exact Or.inl (by omega)
  · exact Or.inr (by omega)

theorem ssize_ne {n : ℕ} (h : memoryAlign ∣ n) (e : Errno) :
    ssize (.ok n) ≠ ssize (.error e) := by
  obtain ⟨k, rfl⟩ := h
  show (if 32 * k < 2 ^ 31 then ((32 * k : ℕ) : ℤ) else ((32 * k : ℕ) : ℤ) - 2 ^ 32) ≠ -e.code
  cases e <;> simp only [Errno.code] <;> split_ifs <;> push_cast <;> omega

theorem isChain_of_merged {l : List Chunk} (h : Merged l) :
    l.IsChain fun c d => ¬ (c.free = true ∧ d.free = true) := by
  refine ((List.isChain_map _).mp h).imp fun c d hcd => ?_
  rcases hcd with hc | hd
  · simp [hc]
  · simp [hd]

theorem eq_singleton_of_used_eq_nil {l : List Chunk} {n : ℕ} (hpos : 0 < n)
    (htiles : Tiles Chunk.start Chunk.size 0 l n) (hmerged : Merged l) (hused : used l = []) :
    l = [⟨0, n, true⟩] := by
  have hfree : ∀ c ∈ l, c.free = true := by
    intro c hc
    cases hf : c.free with
    | true => rfl
    | false =>
      have hmem : c ∈ used l := mem_used.mpr ⟨hc, hf⟩
      rw [hused] at hmem
      exact absurd hmem (by simp)
  match l with
  | [] => exact absurd htiles hpos.ne
  | [c] =>
    obtain ⟨hstart, -, hend⟩ := htiles
    have hcfree := hfree c List.mem_cons_self
    have hsize : c.size = n := by
      have hend' : 0 + c.size = n := hend
      omega
    cases c
    simp_all
  | c :: d :: l =>
    have hneighbours := (List.isChain_cons_cons.mp hmerged).1
    simp [hfree c, hfree d] at hneighbours

/-- **The representation invariant of the allocator**, after every sequence of calls: the chunks
partition the heap, without two free neighbours; every live allocation starts on a page boundary
and has a chunk in use that covers it; live allocations are disjoint; live offsets can be
deallocated; an allocation fails only if no free chunk can hold it; and when nothing is live the
heap is one free chunk. -/
theorem allocator_correct (P : PageSize) {s : State} (h : (allocatorSystem P).Reachable s) :
    (memoryAlign * s.alloc.units = s.alloc.heapSize ∧
      Tiles Chunk.start Chunk.size 0 s.alloc.list s.alloc.units) ∧
    s.alloc.list.IsChain (fun c d => ¬ (c.free = true ∧ d.free = true)) ∧
    (∀ e ∈ s.live, P.bytes ∣ e.1 ∧ ∃ c ∈ s.alloc.list, c.free = false ∧
      e.1 = memoryAlign * c.start ∧ e.2 ≤ memoryAlign * c.size) ∧
    s.live.Pairwise DisjointRanges ∧
    (∀ e ∈ s.live, (deallocate s.alloc e.1).1 = .ok 0) ∧
    (∀ size e, 1 ≤ size → size ≤ s.alloc.heapSize →
      ssize (allocate P s.alloc size).1 = ssize (.error e) →
      ∀ c ∈ s.alloc.list, ¬ CanHold P size c) ∧
    (s.live = [] → s.alloc.list = [⟨0, s.alloc.units, true⟩]) := by
  obtain ⟨hlist, hlive⟩ := inv_of_reachable h
  have hunits : 0 < s.alloc.units := by
    have hheap := hlist.heap
    rw [hlist.heapSize_eq] at hheap
    exact Nat.pos_of_ne_zero fun h0 => hheap (by rw [h0, Nat.mul_zero])
  refine ⟨⟨hlist.heapSize_eq.symm, hlist.tiles⟩, isChain_of_merged hlist.merged, ?_, ?_, ?_, ?_,
    ?_⟩
  · intro e he
    obtain ⟨c, hc, hoffset, hcover⟩ := hlive.chunk e he
    refine ⟨?_, c, (mem_used.mp hc).1, (mem_used.mp hc).2, hoffset, hcover⟩
    rw [hoffset, P.bytes_eq]
    exact Nat.mul_dvd_mul_left memoryAlign (hlist.aligned c hc)
  · exact pairwise_disjoint hlist hlive
  · intro e he
    obtain ⟨l, c, r, hsplit, -, hoffset⟩ :=
      (Inv.mk hlist hlive).exists_chunk (List.mem_map_of_mem he)
    rw [hoffset, deallocate_eq hlist hsplit]
  · intro size e hpos hle herr c hc hcan
    rcases allocate_cases hlist hpos hle with ⟨-, hnone⟩ | ⟨l, d, r, -, -, hres⟩
    · have hbounds := hlist.tiles.mem_bounds hc
      have hlt := hlist.units_lt
      exact hnone c hc (fits_of_canHold (by omega) hcan)
    · rw [hres] at herr
      exact ssize_ne (Nat.dvd_mul_right memoryAlign _) e herr
  · intro hnone
    refine eq_singleton_of_used_eq_nil hunits hlist.tiles hlist.merged ?_
    refine List.eq_nil_iff_forall_not_mem.mpr fun c hc => ?_
    obtain ⟨e, he, -⟩ := hlive.entry c hc
    rw [hnone] at he
    exact absurd he (by simp)

/-! ### A heap of two pages -/

/-- Pages of 4096 bytes. -/
def page4096 : PageSize := ⟨12, by decide, by decide⟩

/-- The rule applies to one allocation of 100 bytes. -/
theorem allocator_correct_page4096 :
    Tiles Chunk.start Chunk.size 0 [⟨0, 4, false⟩, ⟨4, 252, true⟩] 256 := by
  have hinit : (allocatorSystem page4096).Reachable ⟨setSize page4096 8000, []⟩ :=
    .init ⟨8000, by decide, rfl, by decide⟩
  have hstep : Step page4096 ⟨setSize page4096 8000, []⟩ (.allocate 100)
      ⟨⟨[⟨0, 4, false⟩, ⟨4, 252, true⟩], 8192⟩, [(0, 100)]⟩ :=
    Step.allocate _ _ _ _ _ (by decide) (by decide) (by rfl)
  exact (allocator_correct page4096 (hinit.step hstep)).1.2

end Gralloc
end EmevBsp
