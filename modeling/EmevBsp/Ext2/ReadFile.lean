import EmevBsp.Ext2.Blocks
import EmevBsp.Library.TransitionSystem

/-!
# What is read of a file

A file is read block by block, the first and the last one in part.

What goes wrong: a zero pointer to a block of pointers is followed; a hole in the last block is
filled up to the end of the block, beyond the buffer; and two reads of the device may fail without
an error, the one of the indirect block and the one of a last piece that is shorter than a sector.
-/

namespace EmevBsp
namespace Ext2

variable {v : Volume} {e : Env} {inode : Inode} {pos len : ℕ}

/-! ## One block -/

/-- A block of the file of which something is read. -/
def Touched (v : Volume) (pos len i : ℕ) : Prop :=
  pos / v.ext2BlockSize ≤ i ∧ i * v.ext2BlockSize < pos + len

/-- Where in a block the first byte is that is read. -/
def skipfirst (v : Volume) (pos i : ℕ) : ℕ :=
  if i = pos / v.ext2BlockSize then pos % v.ext2BlockSize else 0

/-- Where in a block the last byte ends that is read. -/
def blockend (v : Volume) (pos len i : ℕ) : ℕ :=
  min v.ext2BlockSize (pos + len - i * v.ext2BlockSize)

/-- What is needed to read a block of the file: it can be found; a hole is filled within the buffer;
and the read of a short piece does not fail. -/
structure Readable (v : Volume) (e : Env) (inode : Inode) (pos len i : ℕ) : Prop
    extends Findable v e inode i where
  hole : fileBlock v inode i = 0 → blockend v pos len i = v.ext2BlockSize
  short : fileBlock v inode i ≠ 0 → ∀ s,
    ShortSector (fileBlock v inode i <<< v.log2Ext2BlockSize) (skipfirst v pos i)
      (blockend v pos len i - skipfirst v pos i) s → ∀ t, e.fails t (v.start + s) 1 = false

section Sizes

variable {i n : ℕ}

theorem ext2BlockSize_pos (v : Volume) : 0 < v.ext2BlockSize := Nat.two_pow_pos _

/-- The loop has `n` blocks to read from block `i` on. -/
def Left (v : Volume) (pos len i n : ℕ) : Prop :=
  pos / v.ext2BlockSize ≤ i ∧ ∀ j, i ≤ j → (j < i + n ↔ j * v.ext2BlockSize < pos + len)

theorem Left.touched (h : Left v pos len i (n + 1)) : Touched v pos len i :=
  ⟨h.1, (h.2 i (Nat.le_refl i)).mp (by omega)⟩

theorem Left.next (h : Left v pos len i (n + 1)) : Left v pos len (i + 1) n :=
  ⟨Nat.le_succ_of_le h.1, fun j hj => by rw [← h.2 j (by omega)]; omega⟩

theorem skipfirst_lt : skipfirst v pos i < v.ext2BlockSize := by
  rw [skipfirst]
  split_ifs
  · exact Nat.mod_lt _ (ext2BlockSize_pos v)
  · exact ext2BlockSize_pos v

theorem add_skipfirst (h : pos / v.ext2BlockSize ≤ i) :
    i * v.ext2BlockSize + skipfirst v pos i = pos + (i * v.ext2BlockSize - pos) := by
  have hsplit := Nat.div_add_mod pos v.ext2BlockSize
  rw [Nat.mul_comm] at hsplit
  rw [skipfirst]
  split_ifs with hfirst
  · rw [hfirst]
    omega
  · have hlt := Nat.mul_le_mul_right v.ext2BlockSize (show pos / v.ext2BlockSize + 1 ≤ i by omega)
    have hmod := Nat.mod_lt pos (ext2BlockSize_pos v)
    rw [Nat.succ_mul] at hlt
    omega

theorem blockend_eq (h : Left v pos len i (n + 1)) :
    (if n = 0 then
      if (len + pos) % v.ext2BlockSize = 0 then v.ext2BlockSize
        else (len + pos) % v.ext2BlockSize
      else v.ext2BlockSize) = blockend v pos len i := by
  have hbelow := h.touched.2
  have hnext := h.2 (i + 1) (Nat.le_succ i)
  rw [Nat.succ_mul] at hnext
  rw [blockend]
  split_ifs with hlast hwhole
  · obtain ⟨q, hq⟩ := Nat.dvd_of_mod_eq_zero hwhole
    have hend : i + 1 ≤ q := by
      refine Nat.lt_of_mul_lt_mul_right (a := v.ext2BlockSize) ?_
      rw [Nat.mul_comm q, ← hq, Nat.add_comm]
      exact hbelow
    have hle := Nat.mul_le_mul_right v.ext2BlockSize hend
    rw [Nat.succ_mul, Nat.mul_comm q, ← hq] at hle
    omega
  · have hquot : (len + pos) / v.ext2BlockSize = i := by
      refine Nat.div_eq_of_lt_le (by omega) ?_
      have hne : len + pos ≠ (i + 1) * v.ext2BlockSize := fun heq =>
        hwhole (by rw [heq, Nat.mul_mod_left])
      rw [Nat.succ_mul] at hne ⊢
      omega
    have hsplit := Nat.div_add_mod (len + pos) v.ext2BlockSize
    rw [hquot, Nat.mul_comm] at hsplit
    have hmod := Nat.mod_lt (len + pos) (ext2BlockSize_pos v)
    omega
  · omega

theorem add_blockend (h : Left v pos len i (n + 1)) :
    skipfirst v pos i ≤ blockend v pos len i ∧
      i * v.ext2BlockSize + blockend v pos len i = min ((i + 1) * v.ext2BlockSize) (pos + len) := by
  have hbelow := h.touched.2
  have hskip : skipfirst v pos i < v.ext2BlockSize := skipfirst_lt
  have hadd := add_skipfirst h.1
  rw [blockend, Nat.succ_mul]
  omega

theorem next_buf (h : pos / v.ext2BlockSize ≤ i) :
    i * v.ext2BlockSize - pos + (v.ext2BlockSize - skipfirst v pos i) =
      (i + 1) * v.ext2BlockSize - pos := by
  have hskip : skipfirst v pos i < v.ext2BlockSize := skipfirst_lt
  have hadd := add_skipfirst h
  rw [Nat.succ_mul]
  omega

end Sizes

/-! ## The bytes of a block -/

theorem fileByte_eq {i y : ℕ} (hy : y < v.ext2BlockSize) :
    fileByte v inode (i * v.ext2BlockSize + y) =
      if fileBlock v inode i = 0 then 0
      else v.part (v.ext2BlockSize * (fileBlock v inode i).toNat + y) := by
  have hdiv : (i * v.ext2BlockSize + y) / v.ext2BlockSize = i := by
    rw [Nat.mul_comm, Nat.mul_add_div (ext2BlockSize_pos v), Nat.div_eq_of_lt hy, Nat.add_zero]
  have hmod : (i * v.ext2BlockSize + y) % v.ext2BlockSize = y := by
    rw [Nat.mul_comm, Nat.mul_add_mod, Nat.mod_eq_of_lt hy]
  rw [fileByte, hdiv, hmod]

theorem stretch_of_block {i y n : ℕ} (hlow : (fileBlock v inode i).toNat * v.sectors < 2 ^ 31)
    (hne : fileBlock v inode i ≠ 0) (hy : y + n ≤ v.ext2BlockSize) :
    stretch v.part (512 * (fileBlock v inode i <<< v.log2Ext2BlockSize).toNat + y) n =
      stretch (fileByte v inode) (i * v.ext2BlockSize + y) n := by
  refine stretch_congr fun k hk => ?_
  have hsector : 512 * ((fileBlock v inode i).toNat * v.sectors) =
      v.ext2BlockSize * (fileBlock v inode i).toNat := by
    rw [v.ext2BlockSize_eq, Nat.mul_assoc, Nat.mul_comm v.sectors]
  rw [Nat.add_assoc (i * v.ext2BlockSize), fileByte_eq (by omega), if_neg hne, toNat_sector hlow,
    hsector, Nat.add_assoc]

theorem replicate_of_hole {i y n : ℕ} (hhole : fileBlock v inode i = 0)
    (hy : y + n ≤ v.ext2BlockSize) :
    List.replicate n 0 = stretch (fileByte v inode) (i * v.ext2BlockSize + y) n := by
  refine List.ext_getElem? fun k => ?_
  by_cases hk : k < n
  · rw [getElem?_stretch hk, List.getElem?_replicate, if_pos hk, Nat.add_assoc,
      fileByte_eq (by omega), if_pos hhole]
  · rw [List.getElem?_eq_none (by simpa using hk),
      List.getElem?_eq_none (by rw [length_stretch]; omega)]

/-! ## The loop -/

/-- What a loop over the blocks leaves: all is read, or a read of the device has failed. -/
def Copies (v : Volume) (inode : Inode) (pos len : ℕ) (s : State) (mem : ℕ → UInt8)
    (r : State × (ℕ → UInt8) × Bool) : Prop :=
  ∃ l, r.1.log = s.log ++ l ∧ CacheOk v r.1.indir1 ∧ (∀ x, len ≤ x → r.2.1 x = mem x) ∧
    ((false ∉ l ∧ r.2.2 = true ∧ ∀ x < len, r.2.1 x = fileByte v inode (pos + x)) ∨
      (false ∈ l ∧ r.2.2 = false))

theorem Copies.after {s s' : State} {mem mem' : ℕ → UInt8} {r : State × (ℕ → UInt8) × Bool}
    {l : List Bool} (h : Copies v inode pos len s' mem' r) (hlog : s'.log = s.log ++ l)
    (hnot : false ∉ l) (hbeyond : ∀ x, len ≤ x → mem' x = mem x) :
    Copies v inode pos len s mem r := by
  obtain ⟨l', hlog', hcache, hbeyond', hdone⟩ := h
  refine ⟨l ++ l', ?_, hcache, fun x hx => (hbeyond' x hx).trans (hbeyond x hx), ?_⟩
  · rw [hlog', hlog, List.append_assoc]
  · rcases hdone with ⟨hnot', hok, hall⟩ | ⟨hmem, hfailed⟩
    · exact .inl ⟨fun hin => (List.mem_append.mp hin).elim hnot hnot', hok, hall⟩
    · exact .inr ⟨List.mem_append_right l hmem, hfailed⟩

theorem splice_block {buf n : ℕ} {mem : ℕ → UInt8}
    (hmem : ∀ x < buf, mem x = fileByte v inode (pos + x)) :
    ∀ x < buf + n, splice mem buf (stretch (fileByte v inode) (pos + buf) n) x =
      fileByte v inode (pos + x) := by
  intro x hx
  by_cases hbefore : x < buf
  · rw [splice_of_lt hbefore, hmem x hbefore]
  · obtain ⟨k, rfl⟩ := Nat.exists_eq_add_of_le (Nat.le_of_not_lt hbefore)
    rw [splice_add (getElem?_stretch (by omega)), Nat.add_assoc]

theorem readLoop_spec (hfits : v.Fits) (hlog2 : v.log2BlockSize ≤ 6)
    (hsize : pos + len ≤ (indirectBlocks + v.perblock * (v.perblock + 1)) * v.ext2BlockSize)
    (hreadable : ∀ i, Touched v pos len i → Readable v e inode pos len i) {n i : ℕ}
    (hleft : Left v pos len i n) {s : State} (hcache : CacheOk v s.indir1)
    (hdouble : ∀ j, Touched v pos len j → i ≤ j → indirectBlocks + v.perblock ≤ j →
      DoubleSafe v e inode i s.indir1) {mem : ℕ → UInt8}
    (hmem : ∀ x < len, x < i * v.ext2BlockSize - pos → mem x = fileByte v inode (pos + x)) :
    Copies v inode pos len s mem
      (readLoop v e inode pos len n i (i * v.ext2BlockSize - pos) s mem) := by
  induction n generalizing i s mem with
  | zero =>
    refine ⟨[], (List.append_nil _).symm, hcache, fun _ _ => rfl,
      .inl ⟨List.not_mem_nil, rfl, fun x hx => hmem x hx ?_⟩⟩
    have hend := hleft.2 i (Nat.le_refl i)
    omega
  | succ n ih =>
    have htouched := hleft.touched
    have hr := hreadable i htouched
    have hhi : i < indirectBlocks + v.perblock * (v.perblock + 1) :=
      Nat.lt_of_mul_lt_mul_right (htouched.2.trans_le hsize)
    obtain ⟨l, hlog, hcache', hfound⟩ := readBlock_spec hfits hlog2 hcache hr.toFindable hhi
      (hdouble i htouched (Nat.le_refl i))
    have hlow := hr.low _ List.mem_cons_self
    rw [readLoop]
    dsimp only
    rw [blockend_eq hleft, ← skipfirst, next_buf hleft.1]
    generalize readBlock v e inode i s = r at hlog hcache' hfound
    obtain ⟨hskip, hend⟩ := add_blockend hleft
    have hadd := add_skipfirst hleft.1
    rw [Nat.succ_mul] at hend
    rcases hfound with ⟨hnot, hblock, hdsector⟩ | ⟨hmemFalse, herror⟩
    swap
    · rw [herror, if_pos (by decide)]
      exact ⟨l, hlog, hcache', fun _ _ => rfl, .inr ⟨hmemFalse, rfl⟩⟩
    have hmsb : (fileBlock v inode i).msb = false := by
      rw [BitVec.msb_eq_false_iff_two_mul_lt]
      have hsectors := Nat.le_mul_of_pos_right (fileBlock v inode i).toNat v.sectors_pos
      omega
    rw [hblock, hmsb, if_neg (by simp)]
    have hbefore : ∀ x < i * v.ext2BlockSize - pos, mem x = fileByte v inode (pos + x) :=
      fun x hx => hmem x (by omega) hx
    have hpiece := splice_block (n := blockend v pos len i - skipfirst v pos i) hbefore
    -- what is left to do once the block was copied
    have hrest : ∀ s' : State, s'.indir1 = r.1.indir1 → ∀ l', s'.log = r.1.log ++ l' → false ∉ l' →
        Copies v inode pos len s mem (readLoop v e inode pos len n (i + 1)
          ((i + 1) * v.ext2BlockSize - pos) s' (splice mem (i * v.ext2BlockSize - pos)
            (stretch (fileByte v inode) (pos + (i * v.ext2BlockSize - pos))
              (blockend v pos len i - skipfirst v pos i)))) := by
      intro s' hindir l' hlog' hnot'
      have hdouble' : ∀ j, Touched v pos len j → i + 1 ≤ j → indirectBlocks + v.perblock ≤ j →
          DoubleSafe v e inode (i + 1) s'.indir1 := by
        intro j hj hij hdj
        rw [hindir]
        rcases hdouble j hj (by omega) hdj with hreads | ⟨hlo, -⟩
        · exact .inl hreads
        · exact .inr ⟨by omega, .inr (hdsector hlo)⟩
      have hcopies := ih hleft.next (hindir ▸ hcache') hdouble'
        fun x hx hbefore => hpiece x (by rw [Nat.succ_mul] at hbefore; omega)
      refine (hcopies.after hlog' hnot' fun x hx => splice_of_le ?_).after hlog hnot fun x _ => rfl
      rw [length_stretch]
      omega
    by_cases hhole : fileBlock v inode i = 0
    · have hzero : (0 : BitVec 32) <<< v.log2Ext2BlockSize = 0 := BitVec.zero_shiftLeft _
      have hwhole := hr.hole hhole
      have hfill := replicate_of_hole (y := skipfirst v pos i)
        (n := v.ext2BlockSize - skipfirst v pos i) hhole (by omega)
      rw [hadd] at hfill
      rw [hwhole] at hrest
      rw [hhole, hzero, if_neg (not_not_intro rfl), hfill]
      exact hrest r.1 rfl [] (List.append_nil _).symm List.not_mem_nil
    · have hin := hr.stored.inside _ List.mem_cons_self hhole
      have hbs := v.ext2BlockSize_eq
      have hpos := ext2BlockSize_pos v
      have hsmall : v.ext2BlockSize ≤ 2 ^ 16 :=
        Nat.pow_le_pow_right (Nat.succ_pos 1) (Nat.add_le_add_right hlog2 10)
      have hbelow := htouched.2
      rw [Nat.succ_mul] at hin
      have hin' : 512 * (fileBlock v inode i <<< v.log2Ext2BlockSize).toNat +
          (skipfirst v pos i + (blockend v pos len i - skipfirst v pos i)) ≤
            512 * v.size.toNat := by
        rw [toNat_sector hlow]
        omega
      have hread := devread_spec (e := e) hfits (by omega) (by rw [toNat_sector hlow]; exact hlow)
        hin' (by omega) (hr.short hhole) r.1.log
      rw [stretch_of_block hlow hhole (by omega), hadd] at hread
      rw [if_pos (sector_ne_zero hlow hhole)]
      generalize devread v e r.1.log (fileBlock v inode i <<< v.log2Ext2BlockSize)
        (skipfirst v pos i) (blockend v pos len i - skipfirst v pos i) = d at hread
      obtain ⟨l', hlog', ⟨hok, hnot', hbytes⟩ | ⟨hok, hmem', hlen⟩⟩ := hread
      · rw [hok, if_neg (by simp), hbytes]
        exact hrest { r.1 with log := d.log } rfl l' hlog' hnot'
      · rw [hok, if_pos rfl]
        refine ⟨l ++ l', ?_, hcache', fun x hx => ?_, .inr ⟨List.mem_append_right l hmem', rfl⟩⟩
        · rw [hlog', hlog, List.append_assoc]
        · rw [length_stretch] at hlen
          exact splice_of_le (by omega)

/-! ## One call -/

/-- What a call should do: without a failed read of the device it returns `len`, and the bytes of
the file are in the buffer; with one it returns an error; and nothing is written beyond `len`. -/
structure Right (v : Volume) (inode : Inode) (pos len : ℕ) (mem : ℕ → UInt8)
    (r : State × (ℕ → UInt8) × ℤ) : Prop where
  reads : false ∉ r.1.log → r.2.2 = len ∧ ∀ x < len, r.2.1 x = fileByte v inode (pos + x)
  fails : false ∈ r.1.log → r.2.2 = -1
  beyond : ∀ x, len ≤ x → r.2.1 x = mem x

/-- A call on a well-formed inode, within the file; the position is an `int`. -/
structure Request (v : Volume) (inode : Inode) (pos len : ℕ) : Prop where
  wellFormed : WellFormed v inode
  pos_lt : pos < 2 ^ 31
  inside : pos + len ≤ inode.size.toNat

/-- The branches that go wrong are not taken. -/
structure Safe (v : Volume) (g : Globals) (e : Env) (inode : Inode) (pos len : ℕ) : Prop where
  unsigned : pos + len + v.ext2BlockSize ≤ 2 ^ 32
  signed : len < 2 ^ 31
  readable : ∀ i, Touched v pos len i → Readable v e inode pos len i
  double : ∀ i, Touched v pos len i → indirectBlocks + v.perblock ≤ i →
    DoubleSafe v e inode (pos / v.ext2BlockSize) g.indir1

theorem left_of_unsigned (h : pos + len + v.ext2BlockSize ≤ 2 ^ 32) :
    Left v pos len (pos / v.ext2BlockSize)
      ((len + pos + v.ext2BlockSize - 1) % 2 ^ 32 / v.ext2BlockSize - pos / v.ext2BlockSize) := by
  have hpos := ext2BlockSize_pos v
  refine ⟨Nat.le_refl _, fun j hj => ?_⟩
  have hlt : j < (len + pos + v.ext2BlockSize - 1) / v.ext2BlockSize ↔
      j * v.ext2BlockSize < pos + len := by
    rw [Nat.lt_iff_add_one_le, Nat.le_div_iff_mul_le hpos, Nat.succ_mul]
    omega
  rw [Nat.mod_eq_of_lt (by omega), ← hlt]
  omega

theorem readFile_spec {g : Globals} (hcache : CacheOk v g.indir1) (hreq : Request v inode pos len)
    (hsafe : Safe v g e inode pos len) (mem : ℕ → UInt8) :
    Right v inode pos len mem (readFile v e inode pos len g mem) ∧
      CacheOk v (readFile v e inode pos len g mem).1.indir1 := by
  obtain ⟨hwf, -, hinside⟩ := hreq
  have hstart : pos / v.ext2BlockSize * v.ext2BlockSize - pos = 0 :=
    Nat.sub_eq_zero_of_le (Nat.div_mul_le_self _ _)
  have hmem : ∀ x < len, x < pos / v.ext2BlockSize * v.ext2BlockSize - pos →
      mem x = fileByte v inode (pos + x) := fun x _ hx => by omega
  have hcopies := readLoop_spec hwf.fits hwf.log2_le (hinside.trans hwf.size_le) hsafe.readable
    (left_of_unsigned hsafe.unsigned) (s := ⟨g, []⟩) hcache
    (fun j hj _ hdj => hsafe.double j hj hdj) hmem
  have hint : (BitVec.ofNat 32 len).toInt = len := by
    have hsigned := hsafe.signed
    have hnat : (BitVec.ofNat 32 len).toNat = len := Nat.mod_eq_of_lt (by omega)
    rw [BitVec.toInt_eq_toNat_of_lt (by omega), hnat]
  rw [hstart] at hcopies
  rw [readFile]
  dsimp only
  rw [if_neg (by omega)]
  obtain ⟨l, hlog, hcache', hbeyond, hdone⟩ := hcopies
  rw [List.nil_append] at hlog
  refine ⟨⟨fun hnot => ?_, fun hmem => ?_, hbeyond⟩, hcache'⟩
  · rw [hlog] at hnot
    rcases hdone with ⟨-, hok, hall⟩ | ⟨hmem, -⟩
    · rw [hok, if_pos rfl]
      exact ⟨hint, hall⟩
    · exact absurd hmem hnot
  · rw [hlog] at hmem
    rcases hdone with ⟨hnot, -⟩ | ⟨-, hfailed⟩
    · exact absurd hmem hnot
    · rw [hfailed, if_neg Bool.false_ne_true]

/-! ## Calls one after another -/

/-- What is done: a file is read; or the volume is closed and another one is mounted. -/
inductive Call
  | read (e : Env) (inode : Inode) (pos len : ℕ) (mem : ℕ → UInt8)
  | mount (v : Volume)

/-- The volume and the globals; the buffers stay from one call to the next. -/
def calls : TransitionSystem (Volume × Globals) Call where
  init s := s.2 = noBlocks
  step s a t :=
    match a with
    | .read e inode pos len mem =>
      t = (s.1, (readFile s.1 e inode pos len s.2 mem).1.toGlobals)
    | .mount v => t = (v, noBlocks)

/-- The calls within a file that take none of the branches that go wrong. -/
def CallOk (s : Volume × Globals) : Call → Prop
  | .read e inode pos len _ => Request s.1 inode pos len ∧ Safe s.1 s.2 e inode pos len
  | .mount _ => True

theorem cacheOk_of_reachable {s : Volume × Globals} (hs : (calls.restrict CallOk).Reachable s) :
    CacheOk s.1 s.2.indir1 := by
  have hempty : ∀ v, CacheOk v noBlocks.indir1 := fun v hsome => absurd hsome (by decide)
  refine TransitionSystem.Reachable.invariant_restrict (I := fun s => CacheOk s.1 s.2.indir1)
    ?_ ?_ hs
  · intro s hinit
    rw [show s.2 = noBlocks from hinit]
    exact hempty s.1
  · intro s a t hcache hok hstep
    cases a with
    | read e inode pos len mem =>
      obtain rfl := hstep
      exact (readFile_spec hcache hok.1 hok.2 mem).2
    | mount v =>
      obtain rfl := hstep
      exact hempty v

/-- **Every call of a run reads the file**, when none of its calls takes a branch that goes
wrong. -/
theorem readFile_right {s : Volume × Globals} (hs : (calls.restrict CallOk).Reachable s)
    {e : Env} {inode : Inode} {pos len : ℕ} (mem : ℕ → UInt8) (hreq : Request s.1 inode pos len)
    (hsafe : Safe s.1 s.2 e inode pos len) :
    Right s.1 inode pos len mem (readFile s.1 e inode pos len s.2 mem) :=
  (readFile_spec (cacheOk_of_reachable hs) hreq hsafe mem).1

/-! ## A hole in the last block -/

/-- Four blocks of 1 KiB, in which each byte is 7. -/
def sevens : Volume := ⟨0, 8, fun _ => 7, 0⟩

/-- No read fails. -/
def allReads : Env := ⟨fun _ _ _ => false, fun _ _ => 0, fun _ => some fun _ => 0⟩

/-- A file of one byte. -/
def oneByte (block : UInt8) : Inode := ⟨1, fun x => if x = 0 then block else 0⟩

theorem request_oneByte {block : UInt8} (hblock : (fileBlock sevens (oneByte block) 0).toNat ≤ 3) :
    Request sevens (oneByte block) 0 1 := by
  have hfits : 0 + 8 ≤ 2 ^ 32 := by decide
  have hsize : 1 ≤ (indirectBlocks + sevens.perblock * (sevens.perblock + 1)) *
      sevens.ext2BlockSize := by decide
  refine ⟨⟨hfits, Nat.zero_le 6, hsize, fun i hi => ?_⟩, by decide, Nat.le_refl 1⟩
  have hzero : i = 0 := by
    have hlt : i * 1024 < 1 := hi
    omega
  rw [hzero]
  refine ⟨fun b hb _ => ?_, fun _ => List.Pairwise.nil⟩
  rw [List.mem_singleton.mp hb]
  exact (Nat.mul_le_mul_right 2 (Nat.succ_le_succ hblock)).trans (Nat.le_refl 8)

/-- A file of 1500 bytes, in blocks 1 and 2. -/
def twoBlocks : Inode := ⟨1500, fun x => if x = 0 then 1 else if x = 4 then 2 else 0⟩

theorem twoBlocks_block {i : ℕ} (hi : i < 2) :
    BlockStored sevens twoBlocks i ∧ fileBlock sevens twoBlocks i ≠ 0 ∧
      indirects sevens twoBlocks i = [] ∧ (fileBlock sevens twoBlocks i).toNat ≤ 2 := by
  have hdirect : indirects sevens twoBlocks i = [] := if_pos (by change i < 12; omega)
  have hblock : fileBlock sevens twoBlocks i ≠ 0 ∧ (fileBlock sevens twoBlocks i).toNat ≤ 2 := by
    rcases Nat.lt_succ_iff_lt_or_eq.mp hi with hlt | rfl
    · obtain rfl := Nat.lt_one_iff.mp hlt
      decide +kernel
    · decide +kernel
  refine ⟨⟨fun b hb _ => ?_, fun _ => hdirect ▸ List.Pairwise.nil⟩, hblock.1, hdirect, hblock.2⟩
  rw [hdirect, List.mem_singleton] at hb
  rw [hb]
  exact (Nat.mul_le_mul_right 2 (Nat.succ_le_succ hblock.2)).trans (by decide)

/-- The last bytes of a block and the first ones of the next. -/
theorem readFile_right_twoBlocks :
    Right sevens twoBlocks 1000 100 (fun _ => 1)
      (readFile sevens allReads twoBlocks 1000 100 noBlocks fun _ => 1) := by
  have hfits : 0 + 8 ≤ 2 ^ 32 := by decide
  have hsize : 1500 ≤ (indirectBlocks + sevens.perblock * (sevens.perblock + 1)) *
      sevens.ext2BlockSize := by decide
  have hreq : Request sevens twoBlocks 1000 100 := by
    refine ⟨⟨hfits, Nat.zero_le 6, hsize, fun i hi => ?_⟩, by decide, by decide⟩
    have hlt : i * 1024 < 1500 := hi
    exact (twoBlocks_block (by omega)).1
  have htouched : ∀ i, Touched sevens 1000 100 i → i < 2 := by
    rintro i ⟨-, hi⟩
    have hlt : i * 1024 < 1000 + 100 := hi
    omega
  refine readFile_right (s := (sevens, noBlocks)) (.init rfl) _ hreq
    ⟨by decide, by decide, fun i hi => ?_, fun i hi hlo => ?_⟩
  · obtain ⟨hstored, hne, hdirect, hle⟩ := twoBlocks_block (htouched i hi)
    refine ⟨⟨hstored, fun b hb => ?_, hdirect ▸ List.not_mem_nil, fun _ _ => rfl,
      fun _ _ _ => rfl⟩, fun hhole => absurd hhole hne, fun _ _ _ _ => rfl⟩
    rw [hdirect, List.mem_singleton] at hb
    rw [hb]
    exact (Nat.mul_le_mul_right 2 hle).trans_lt (by decide)
  · have hlt := htouched i hi
    have hlo' : 12 + 256 ≤ i := hlo
    omega

/-- **A hole is filled beyond the buffer.** -/
theorem not_readFile_right :
    ¬ ∀ s, calls.Reachable s → ∀ (e : Env) (inode : Inode) (pos len : ℕ) (mem : ℕ → UInt8),
      (∀ t, (e.malloc t).isSome = true) → Request s.1 inode pos len →
        Right s.1 inode pos len mem (readFile s.1 e inode pos len s.2 mem) := by
  intro hright
  have hreq : Request sevens (oneByte 0) 0 1 := request_oneByte (by decide +kernel)
  have hbeyond := (hright (sevens, noBlocks) (.init rfl) allReads (oneByte 0) 0 1 (fun _ => 1)
    (fun _ => rfl) hreq).beyond 1 (Nat.le_refl 1)
  revert hbeyond
  decide +kernel

end Ext2
end EmevBsp
