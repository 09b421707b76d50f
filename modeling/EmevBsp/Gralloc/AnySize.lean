import EmevBsp.Gralloc.AllocatorInvariant

/-!
# `SimpleBestFitAllocator` with requests of any size

A request of no bytes is answered with offset 0, whatever stands there, and takes no chunk.  For a
request of the last 31 sizes the sum that rounds it to units wraps to a request of no units.  So
two kinds of calls reach a defect: a request of these last sizes that some free chunk is found
for, and a deallocation of an empty allocation while a live allocation stands at 0.

The live allocations are all the ones that a request returned, also the empty ones.  The checks of
`LOG_FATAL_IF` are not part of the code, as in a release build.
-/

namespace EmevBsp
namespace Gralloc

variable {P : PageSize}

/-! ## The calls -/

inductive SizeCall where
  | allocate (size : ℕ)
  | deallocate (e : ℕ × ℕ)

/-- The calls: sizes of any word, and allocations that are live. -/
inductive SizeStep (P : PageSize) : State → SizeCall → State → Prop where
  | allocate (a a' : Allocator) (live : List (ℕ × ℕ)) (size offset : ℕ) :
    size < 2 ^ 32 → allocate P a size = (.ok offset, a') →
    SizeStep P ⟨a, live⟩ (.allocate size) ⟨a', (offset, size) :: live⟩
  | allocateError (a a' : Allocator) (live : List (ℕ × ℕ)) (size : ℕ) (e : Errno) :
    size < 2 ^ 32 → allocate P a size = (.error e, a') →
    SizeStep P ⟨a, live⟩ (.allocate size) ⟨a', live⟩
  | deallocate (a : Allocator) (before after : List (ℕ × ℕ)) (e : ℕ × ℕ) :
    SizeStep P ⟨a, before ++ e :: after⟩ (.deallocate e)
      ⟨(deallocate a e.1).2, before ++ after⟩

/-- The runs start with an allocator whose heap was set, to a size that is not 0. -/
def anySizeSystem (P : PageSize) : TransitionSystem State SizeCall where
  init s := ∃ size < 2 ^ 32, s = ⟨setSize P size, []⟩ ∧ (setSize P size).heapSize ≠ 0
  step := SizeStep P

/-- An allocation that takes a chunk. -/
def Taken (e : ℕ × ℕ) : Prop := e.2 ≠ 0

instance (e : ℕ × ℕ) : Decidable (Taken e) := inferInstanceAs (Decidable (e.2 ≠ 0))

/-- The calls that do not reach the defect: a request whose sum with 31 does not wrap, or for which
no free chunk is found; and an allocation that takes a chunk, or an empty one while none that
takes a chunk stands at its offset. -/
def SizeOk (P : PageSize) (s : State) : SizeCall → Prop
  | .allocate size => size + 31 < 2 ^ 32 ∨ ∀ c ∈ s.alloc.list, ¬Fits P 0 c
  | .deallocate e => Taken e ∨ ∀ f ∈ s.live, Taken f → f.1 ≠ e.1

/-! ## The invariant -/

/-- The live allocations that take a chunk. -/
def taken (live : List (ℕ × ℕ)) : List (ℕ × ℕ) := live.filter fun e => Taken e

theorem mem_taken {live : List (ℕ × ℕ)} {e : ℕ × ℕ} : e ∈ taken live ↔ e ∈ live ∧ Taken e := by
  rw [taken, List.mem_filter, decide_eq_true_iff]

theorem taken_cons_of_pos {e : ℕ × ℕ} (h : Taken e) (live : List (ℕ × ℕ)) :
    taken (e :: live) = e :: taken live :=
  List.filter_cons_of_pos (decide_eq_true h)

theorem taken_cons_of_neg {e : ℕ × ℕ} (h : ¬Taken e) (live : List (ℕ × ℕ)) :
    taken (e :: live) = taken live :=
  List.filter_cons_of_neg fun ht => h (of_decide_eq_true ht)

theorem taken_append (l r : List (ℕ × ℕ)) : taken (l ++ r) = taken l ++ taken r :=
  List.filter_append ..

/-- The chunks in use are the allocations that take one, and the empty ones are at 0. -/
structure SizeInv (P : PageSize) (s : State) : Prop where
  list : ListInv P s.alloc
  live : LiveInv s.alloc.list (taken s.live)
  empty : ∀ e ∈ s.live, ¬Taken e → e.1 = 0

theorem allocate_zero {a : Allocator} (h : ListInv P a) : allocate P a 0 = (.ok 0, a) := by
  rw [allocate, if_neg h.heap, if_pos rfl]

theorem allocate_wrapped {a : Allocator} (h : ListInv P a) {size : ℕ} (hsize : size < 2 ^ 32)
    (hwrap : ¬size + 31 < 2 ^ 32) (hnone : ∀ c ∈ a.list, ¬Fits P 0 c) :
    allocate P a size = (.error .enomem, a) := by
  have hunits : (size + memoryAlign - 1) % 2 ^ 32 / memoryAlign = 0 := by
    show (size + 32 - 1) % 2 ^ 32 / 32 = 0
    omega
  have hfind : findFit P 0 a.list 0 none = none := by
    cases hfind : findFit P 0 a.list 0 none with
    | none => rfl
    | some b =>
      obtain ⟨k, -, hget, hfit⟩ := (findFit_eq_some hfind).resolve_left (Option.some_ne_none b).symm
      exact absurd hfit (hnone b.2 (List.mem_of_getElem? hget))
  rw [allocate, if_neg h.heap, if_neg (by omega)]
  simp only [alloc, hunits, hfind]

theorem deallocate_zero {a : Allocator} (h : ListInv P a)
    (hfree : ∀ c ∈ used a.list, c.start ≠ 0) : deallocate a 0 = (.ok 0, a) := by
  have htiles := h.tiles
  have hmerged := h.merged
  cases hlist : a.list with
  | nil =>
    rw [hlist] at htiles
    have hheap := h.heap
    have hunits : 0 = a.units := htiles
    rw [h.heapSize_eq, ← hunits] at hheap
    exact absurd rfl hheap
  | cons c r =>
    rw [hlist] at htiles hmerged
    have hstart : c.start = 0 := htiles.1
    have hc : c.free = true := by
      by_contra hused
      rw [Bool.not_eq_true] at hused
      exact hfree c (mem_used.mpr ⟨hlist ▸ List.mem_cons_self, hused⟩) hstart
    have hsame : { c with free := true } = c := by
      rw [← hc]
    have hmerge : mergeFreed [] c r = c :: r := by
      cases r with
      | nil => rfl
      | cons d r =>
        have hd : d.free = false :=
          (List.isChain_cons_cons.mp hmerged).1.resolve_left (ne_of_eq_of_ne hc Bool.true_eq_false.mp)
        rw [mergeFreed, hd]
        rfl
    have hplace : (0 : ℕ) = memoryAlign * c.start := by rw [hstart, Nat.mul_zero]
    have heq := deallocate_eq h (l := []) hlist
    rw [← hplace, List.reverse_nil, hsame, hmerge, ← hlist] at heq
    exact heq

theorem filter_fst_ne {before after : List (ℕ × ℕ)} {e : ℕ × ℕ}
    (h : ((before ++ e :: after).map Prod.fst).Nodup) :
    (before ++ e :: after).filter (fun f => f.1 ≠ e.1) = before ++ after := by
  rw [List.map_append, List.map_cons, List.nodup_append, List.nodup_cons] at h
  obtain ⟨-, ⟨hafter, -⟩, hbefore⟩ := h
  have hkeep {l : List (ℕ × ℕ)} (hl : ∀ f ∈ l, f.1 ≠ e.1) :
      l.filter (fun f => f.1 ≠ e.1) = l :=
    List.filter_eq_self.mpr fun f hf => decide_eq_true (hl f hf)
  have hdrop : (e :: after).filter (fun f => f.1 ≠ e.1) = after.filter fun f => f.1 ≠ e.1 :=
    List.filter_cons_of_neg fun hne => (of_decide_eq_true hne) rfl
  rw [List.filter_append, hdrop,
    hkeep fun f hf => hbefore _ (List.mem_map_of_mem hf) _ List.mem_cons_self,
    hkeep fun f hf heq => hafter (heq ▸ List.mem_map_of_mem hf)]

theorem SizeInv.exists_chunk {s : State} (hs : SizeInv P s) {e : ℕ × ℕ} (he : e ∈ s.live)
    (htaken : Taken e) :
    ∃ l c r, s.alloc.list = l ++ c :: r ∧ c.free = false ∧ e.1 = memoryAlign * c.start ∧
      e.2 ≤ memoryAlign * c.size := by
  obtain ⟨c, hc, hoffset, hcover⟩ := hs.live.chunk e (mem_taken.mpr ⟨he, htaken⟩)
  rw [mem_used] at hc
  obtain ⟨l, r, hlist⟩ := List.append_of_mem hc.1
  exact ⟨l, c, r, hlist, hc.2, hoffset, hcover⟩

theorem SizeInv.start_ne_zero {s : State} (hs : SizeInv P s)
    (h : ∀ f ∈ s.live, Taken f → f.1 ≠ 0) : ∀ c ∈ used s.alloc.list, c.start ≠ 0 := by
  intro c hc hstart
  obtain ⟨f, hf, hoffset⟩ := hs.live.entry c hc
  obtain ⟨hlive, htaken⟩ := mem_taken.mp hf
  exact h f hlive htaken (by rw [hoffset, hstart, Nat.mul_zero])

theorem anySize_inv_step {s t : State} {call : SizeCall} (hs : SizeInv P s)
    (hok : SizeOk P s call) (hstep : SizeStep P s call t) : SizeInv P t := by
  cases hstep with
  | allocate a a' live size offset hsize hcall =>
    have hlist : ListInv P a := hs.list
    by_cases hzero : size = 0
    · subst hzero
      rw [allocate_zero hlist] at hcall
      obtain ⟨hoffset, rfl⟩ := Prod.mk.inj hcall
      obtain rfl := Except.ok.inj hoffset
      have hempty : ¬Taken (0, 0) := not_not.mpr rfl
      refine ⟨hlist, ?_, fun e he hne => ?_⟩
      · rw [taken_cons_of_neg hempty]
        exact hs.live
      · rcases List.mem_cons.mp he with rfl | he
        · rfl
        · exact hs.empty e he hne
    · have hpos : 1 ≤ size := Nat.one_le_iff_ne_zero.mpr hzero
      by_cases hlt : size + 31 < 2 ^ 32
      · rcases allocate_cases_of_lt hlist hpos hlt with ⟨hres, -⟩ | ⟨l, c, r, hsplit, hfit, hres⟩
        · rw [hres] at hcall
          exact absurd (Prod.mk.inj hcall).1 (by simp)
        · rw [hres] at hcall
          obtain ⟨hoffset, rfl⟩ := Prod.mk.inj hcall
          obtain rfl := Except.ok.inj hoffset
          refine ⟨listInv_allocate hlist hsplit hfit (by omega), ?_, fun e he hne => ?_⟩
          · have htaken : Taken (memoryAlign * (c.start + extra P c.start), size) := hzero
            rw [taken_cons_of_pos htaken]
            exact liveInv_allocate hlist hs.live hsplit hfit hpos _
          · rcases List.mem_cons.mp he with rfl | he
            · exact absurd hzero hne
            · exact hs.empty e he hne
      · rw [allocate_wrapped hlist hsize hlt (hok.resolve_left hlt)] at hcall
        exact absurd (Prod.mk.inj hcall).1 (by simp)
  | allocateError a a' live size e hsize hcall =>
    have hlist : ListInv P a := hs.list
    by_cases hzero : size = 0
    · subst hzero
      rw [allocate_zero hlist] at hcall
      exact absurd (Prod.mk.inj hcall).1 (by simp)
    · have hpos : 1 ≤ size := Nat.one_le_iff_ne_zero.mpr hzero
      have hsame : a' = a := by
        by_cases hlt : size + 31 < 2 ^ 32
        · rcases allocate_cases_of_lt hlist hpos hlt with ⟨hres, -⟩ | ⟨l, c, r, -, -, hres⟩
          · rw [hres] at hcall
            exact (Prod.mk.inj hcall).2.symm
          · rw [hres] at hcall
            exact absurd (Prod.mk.inj hcall).1 (by simp)
        · rw [allocate_wrapped hlist hsize hlt (hok.resolve_left hlt)] at hcall
          exact (Prod.mk.inj hcall).2.symm
      rw [hsame]
      exact hs
  | deallocate a before after e =>
    have hlist : ListInv P a := hs.list
    have hmem : e ∈ before ++ e :: after := List.mem_append_right _ List.mem_cons_self
    have hempty : ∀ f ∈ before ++ after, ¬Taken f → f.1 = 0 := fun f hf => hs.empty f <| by
      rcases List.mem_append.mp hf with hf | hf
      · exact List.mem_append_left _ hf
      · exact List.mem_append_right _ (List.mem_cons_of_mem e hf)
    have hlive := hs.live
    by_cases htaken : Taken e
    · obtain ⟨l, c, r, hsplit, hc, hoffset, -⟩ := hs.exists_chunk hmem htaken
      rw [taken_append, taken_cons_of_pos htaken] at hlive
      have hrest := liveInv_deallocate hlist hlive hsplit hc
      rw [← hoffset, filter_fst_ne hlive.nodup, ← taken_append] at hrest
      rw [hoffset, deallocate_eq hlist hsplit]
      exact ⟨listInv_deallocate hlist hsplit, hrest, hempty⟩
    · have hzero : e.1 = 0 := hs.empty e hmem htaken
      rw [taken_append, taken_cons_of_neg htaken, ← taken_append] at hlive
      have hother := hok.resolve_left htaken
      rw [hzero] at hother ⊢
      rw [deallocate_zero hlist (hs.start_ne_zero hother)]
      exact ⟨hlist, hlive, hempty⟩

theorem sizeInv_of_reachable {s : State}
    (h : ((anySizeSystem P).restrict (SizeOk P)).Reachable s) : SizeInv P s := by
  refine TransitionSystem.Reachable.invariant_restrict (I := SizeInv P) (fun s hinit => ?_)
    (fun _ _ _ hs hok hstep => anySize_inv_step hs hok hstep) h
  obtain ⟨size, -, rfl, hheap⟩ := hinit
  refine ⟨listInv_setSize hheap, ⟨fun e he => absurd he List.not_mem_nil, fun c hc => ?_,
    List.nodup_nil⟩, fun e he => absurd he List.not_mem_nil⟩
  simp [used, setSize, newChunk] at hc

/-! ## What the callers see -/

/-- What a deallocation releases: the chunk of an allocation that takes one, and nothing for an
empty one. -/
def Released (s : State) (e : ℕ × ℕ) : Prop :=
  (deallocate s.alloc e.1).1 = .ok 0 ∧
    if Taken e then
      ∃ c l r, used s.alloc.list = l ++ c :: r ∧ e.1 = memoryAlign * c.start ∧
        e.2 ≤ memoryAlign * c.size ∧ used (deallocate s.alloc e.1).2.list = l ++ r
    else used (deallocate s.alloc e.1).2.list = used s.alloc.list

/-- **Requests of any size.**  In every run whose calls do not reach the defect, every live range
lies inside the heap and apart from the other ones, and a deallocation that does not reach it
releases exactly the chunk of its allocation. -/
theorem anySize_correct (P : PageSize) {s : State}
    (h : ((anySizeSystem P).restrict (SizeOk P)).Reachable s) :
    (∀ e ∈ s.live, e.1 + e.2 ≤ s.alloc.heapSize) ∧
    s.live.Pairwise DisjointRanges ∧
    ∀ e ∈ s.live, SizeOk P s (.deallocate e) → Released s e := by
  have hs := sizeInv_of_reachable h
  have hlist := hs.list
  refine ⟨fun e he => ?_, ?_, fun e he hok => ?_⟩
  · by_cases htaken : Taken e
    · obtain ⟨l, c, r, hsplit, -, hoffset, hcover⟩ := hs.exists_chunk he htaken
      have hbounds := hlist.tiles.mem_bounds (c := c) (by rw [hsplit]; simp)
      have hoffset' : e.1 = 32 * c.start := hoffset
      have hcover' : e.2 ≤ 32 * c.size := hcover
      rw [hlist.heapSize_eq]
      show e.1 + e.2 ≤ 32 * s.alloc.units
      omega
    · have hzero := hs.empty e he htaken
      have hsize : e.2 = 0 := not_not.mp htaken
      rw [hzero, hsize]
      exact Nat.zero_le _
  · -- an empty range is apart from every other one
    refine (List.pairwise_filter.mp (pairwise_disjoint hlist hs.live)).imp_of_mem
      fun {e f} he hf hdisjoint => ?_
    by_cases htaken : Taken e ∧ Taken f
    · exact hdisjoint (decide_eq_true htaken.1) (decide_eq_true htaken.2)
    · rcases not_and_or.mp htaken with hempty | hempty
      · have hzero := hs.empty e he hempty
        have hsize : e.2 = 0 := not_not.mp hempty
        exact .inl (by omega)
      · have hzero := hs.empty f hf hempty
        have hsize : f.2 = 0 := not_not.mp hempty
        exact .inr (by omega)
  · by_cases htaken : Taken e
    · obtain ⟨l, c, r, hsplit, hc, hoffset, hcover⟩ := hs.exists_chunk he htaken
      rw [Released, if_pos htaken, hoffset, deallocate_eq hlist hsplit]
      refine ⟨rfl, c, used l, used r, ?_, rfl, hcover, used_deallocate hlist hsplit⟩
      rw [hsplit, used_append, used_cons_used hc]
    · have hzero := hs.empty e he htaken
      have hother := hok.resolve_left htaken
      rw [hzero] at hother
      rw [Released, if_neg htaken, hzero, deallocate_zero hlist (hs.start_ne_zero hother)]
      exact ⟨rfl, rfl⟩

/-- An empty allocation beside one of 100 bytes, which is then released. -/
theorem anySize_correct_page4096 :
    Released ⟨⟨[⟨0, 4, false⟩, ⟨4, 252, true⟩], 8192⟩, [(0, 0), (0, 100)]⟩ (0, 100) := by
  have hinit : ((anySizeSystem page4096).restrict (SizeOk page4096)).Reachable
      ⟨setSize page4096 8000, []⟩ := .init ⟨8000, by decide, rfl, by decide⟩
  have hfirst : SizeStep page4096 ⟨setSize page4096 8000, []⟩ (.allocate 100)
      ⟨⟨[⟨0, 4, false⟩, ⟨4, 252, true⟩], 8192⟩, [(0, 100)]⟩ :=
    .allocate _ _ _ _ _ (by decide) (by rfl)
  have hempty : SizeStep page4096 ⟨⟨[⟨0, 4, false⟩, ⟨4, 252, true⟩], 8192⟩, [(0, 100)]⟩ (.allocate 0)
      ⟨⟨[⟨0, 4, false⟩, ⟨4, 252, true⟩], 8192⟩, [(0, 0), (0, 100)]⟩ :=
    .allocate _ _ _ _ _ (by decide) (by rfl)
  have hok (s : State) {size : ℕ} (hlt : size + 31 < 2 ^ 32) :
      SizeOk page4096 s (.allocate size) := Or.inl hlt
  have hrun := (hinit.step ⟨hok _ (by decide), hfirst⟩).step ⟨hok _ (by decide), hempty⟩
  exact (anySize_correct page4096 hrun).2.2 (0, 100) (by decide) (Or.inl (by decide))

/-- **A request of the last size** is answered with a range that leaves the heap. -/
theorem not_anySize_correct : ¬∀ (P : PageSize) (s : State), (anySizeSystem P).Reachable s →
    (∀ e ∈ s.live, e.1 + e.2 ≤ s.alloc.heapSize) ∧
    s.live.Pairwise DisjointRanges ∧
    ∀ e ∈ s.live, Released s e := by
  intro hall
  have hinit : (anySizeSystem page4096).Reachable ⟨setSize page4096 8000, []⟩ :=
    .init ⟨8000, by decide, rfl, by decide⟩
  have hstep : SizeStep page4096 ⟨setSize page4096 8000, []⟩ (.allocate 0xffffffff)
      ⟨⟨[⟨0, 0, false⟩, ⟨0, 256, true⟩], 8192⟩, [(0, 0xffffffff)]⟩ :=
    .allocate _ _ _ _ _ (by decide) (by rfl)
  have hinside := (hall page4096 _ (hinit.step hstep)).1 (0, 0xffffffff) List.mem_cons_self
  exact absurd hinside (by decide)

end Gralloc
end EmevBsp
