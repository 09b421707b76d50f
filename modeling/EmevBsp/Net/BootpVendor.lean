import EmevBsp.Net.DhcpRuns
import Mathlib.Data.List.GetD

/-!
# `net/bootp.c`: the order of the vendor options

`BootpVendorFieldProcess` sets at most one variable for an option, and no two options have a
variable in common.  So one would think that their order does not matter.  But it first sets the
size of the boot file to zero, whatever the option is, and the option of that size is forgotten when
another one follows.

* `bootpVendorField_eq`: what the handler does, from the code and the value of the option alone.
* `bootpVendor_fields`: **all the other variables** come out the same in any order.
* `bootpVendor_iff`: **the size of the boot file comes out right, in any order, exactly when** it is
  zero, or its option is the only one and the size fits its variable, or there is none.
-/

namespace EmevBsp
namespace Net

open OptionField

/-! ## What an option does -/

/-- The number that some bytes stand for, the first one the highest. -/
def optNumber (value : List UInt8) : ℕ := value.foldl (fun n b => 256 * n + b.toNat) 0

/-- The address at the start of a value. -/
def optIp (value : List UInt8) : IPaddr := BitVec.ofNat 32 (optNumber (value.take 4))

/-- A variable that options of the given code set, unless it is set already. -/
def setBy {α : Type*} (code : UInt8) (unset : α → Bool) (o : UInt8 × List UInt8)
    (value old : α) : α :=
  if o.1 = code ∧ unset old = true then value else old

def unsetIp (ip : IPaddr) : Bool := ip = 0

def unsetText (text : List UInt8) : Bool := text.headD 0 = 0

/-- `BootpVendorFieldProcess`, from the code and the value. -/
def applyOption (s : Dhcp) (o : UInt8 × List UInt8) : Dhcp :=
  { s with
    netOurSubnetMask := setBy 1 unsetIp o (optIp o.2) s.netOurSubnetMask
    netOurGatewayIp := setBy 3 unsetIp o (optIp o.2) s.netOurGatewayIp
    netOurDnsIp := setBy 6 unsetIp o (optIp o.2) s.netOurDnsIp
    netOurHostName := setBy 12 unsetText o (o.2.take (truncateSz 32 o.2.length)) s.netOurHostName
    netOurRootPath := setBy 17 unsetText o (o.2.take (truncateSz 64 o.2.length)) s.netOurRootPath
    netOurNisDomain := setBy 40 unsetText o (o.2.take (truncateSz 32 o.2.length)) s.netOurNisDomain
    netBootFileSize := if o.1 = 13 then BitVec.ofNat 16 (optNumber o.2) else 0 }

/-- The options are as long as their values must be: an address has four bytes, and the size of the
boot file two or four. -/
def WellFormed (opts : List (UInt8 × List UInt8)) : Prop :=
  ∀ o ∈ opts, ((o.1 = 1 ∨ o.1 = 3 ∨ o.1 = 6) → 4 ≤ o.2.length) ∧
    (o.1 = 13 → o.2.length = 2 ∨ o.2.length = 4)

variable {pkt pkt' : BootpPkt} {p : ℕ} {items : List Item} {s : Dhcp}

/-! ## Reading a value -/

theorem bytesAt_take {value : List UInt8} {i n : ℕ} (h : HoldsAt pkt i value)
    (hn : n ≤ value.length) : bytesAt pkt i n = value.take n := by
  have hparts := h
  rw [← List.take_append_drop n value, holdsAt_append] at hparts
  have hread := hparts.1.map_range
  rwa [List.length_take, Nat.min_eq_left hn] at hread

theorem netReadIp_eq (i : ℕ) :
    netReadIp pkt i = BitVec.ofNat 32 (optNumber (bytesAt pkt i 4)) := by
  have hread : bytesAt pkt i 4 = [pkt i, pkt (i + 1), pkt (i + 2), pkt (i + 3)] := rfl
  rw [hread, netReadIp, optNumber]
  simp only [List.foldl_cons, List.foldl_nil]
  congr 1
  omega

theorem get16_eq (i : ℕ) : get16 pkt i = optNumber (bytesAt pkt i 2) := by
  have hread : bytesAt pkt i 2 = [pkt i, pkt (i + 1)] := rfl
  rw [hread, get16, ntohs, optNumber]
  simp only [List.foldl_cons, List.foldl_nil]
  omega

theorem truncateSz_le (maxlen curlen : ℕ) : truncateSz maxlen curlen ≤ curlen := by
  rw [truncateSz]
  split <;> omega

theorem bootpVendorField_eq {o : Opt} (h : HoldsAt pkt p (encode (.opt o :: items)))
    (hwell : WellFormed [(o.code, o.value)]) (s : Dhcp) :
    bootpVendorField pkt s p = applyOption s (o.code, o.value) := by
  obtain ⟨hcode, hlen, hvalue, -⟩ := holdsAt_opt h
  obtain ⟨haddr, hsize⟩ := hwell _ (List.mem_singleton_self _)
  have hip (hcodes : o.code = 1 ∨ o.code = 3 ∨ o.code = 6) :
      netReadIp pkt (p + 2) = optIp o.value := by
    rw [netReadIp_eq, bytesAt_take hvalue (haddr hcodes), optIp]
  have htext (maxlen : ℕ) :
      optionText pkt p maxlen = o.value.take (truncateSz maxlen o.value.length) := by
    rw [optionText, hlen, bytesAt_take hvalue (truncateSz_le _ _)]
  have hnumber (hcodes : o.code = 13) :
      (if pkt (p + 1) = 2 then BitVec.ofNat 16 (get16 pkt (p + 2))
        else if pkt (p + 1) = 4 then BitVec.ofNat 16 (netReadIp pkt (p + 2)).toNat else 0) =
      BitVec.ofNat 16 (optNumber o.value) := by
    rcases hsize hcodes with h2 | h4
    · have hbyte : pkt (p + 1) = 2 := UInt8.toNat_inj.mp (hlen.trans h2)
      rw [if_pos hbyte, get16_eq, bytesAt_take hvalue (Nat.le_of_eq h2.symm),
        List.take_of_length_le (Nat.le_of_eq h2)]
    · have hbyte : pkt (p + 1) = 4 := UInt8.toNat_inj.mp (hlen.trans h4)
      rw [if_neg (by rw [hbyte]; decide), if_pos hbyte, netReadIp_eq,
        bytesAt_take hvalue (Nat.le_of_eq h4.symm), List.take_of_length_le (Nat.le_of_eq h4),
        BitVec.toNat_ofNat]
      apply BitVec.eq_of_toNat_eq
      rw [BitVec.toNat_ofNat, BitVec.toNat_ofNat]
      exact Nat.mod_mod_of_dvd _ (by decide)
  unfold bootpVendorField applyOption setBy
  simp only [hcode]
  by_cases h1 : o.code = 1
  · simp [h1, hip (.inl h1), unsetIp]
  by_cases h3 : o.code = 3
  · simp [h3, hip (.inr (.inl h3)), unsetIp]
  by_cases h6 : o.code = 6
  · simp [h6, hip (.inr (.inr h6)), unsetIp]
  by_cases h12 : o.code = 12
  · simp [h12, htext, unsetText]
  by_cases h13 : o.code = 13
  · have hnum := hnumber h13
    simpa [h13] using hnum
  by_cases h17 : o.code = 17
  · simp [h17, htext, unsetText]
  by_cases h40 : o.code = 40
  · simp [h40, htext, unsetText]
  simp [h1, h3, h6, h12, h13, h17, h40]

theorem bootpVendorFrom_eq {endp : ℕ} (h : HoldsAt pkt p (encode items))
    (hsize : p + (encode items).length ≤ endp) (hwell : WellFormed (options items)) (s : Dhcp) :
    bootpVendorFrom pkt s p endp = (options items).foldl applyOption s := by
  induction items generalizing p s with
  | nil => rw [bootpVendorFrom, if_neg fun hp => hp.2 (holdsAt_end h), options, List.foldl_nil]
  | cons item items ih =>
    have hlen : (encode (item :: items)).length = item.bytes.length + (encode items).length :=
      List.length_append
    cases item with
    | pad =>
      obtain ⟨hpad, hrest⟩ := holdsAt_pad h
      have hone : Item.pad.bytes.length = 1 := rfl
      rw [bootpVendorFrom, if_pos ⟨by omega, by rw [hpad]; decide⟩, if_pos hpad]
      exact ih hrest (by omega) hwell s
    | opt o =>
      obtain ⟨hcode, hcount, -, hrest⟩ := holdsAt_opt h
      have hbytes : (Item.opt o).bytes.length = o.value.length + 2 := rfl
      have hnext : p + (o.value.length + 2) ≤ endp := by omega
      have hhere : WellFormed [(o.code, o.value)] := fun x hx =>
        hwell x (List.mem_singleton.mp hx ▸ List.mem_cons_self)
      rw [bootpVendorFrom, if_pos ⟨by omega, by rw [hcode]; exact o.code_ne_end⟩,
        if_neg (by rw [hcode]; exact o.code_ne_pad)]
      simp only [hcount, if_pos hnext]
      rw [bootpVendorField_eq h hhere, options, List.foldl_cons]
      exact ih hrest (by omega) (fun x hx => hwell x (List.mem_cons_of_mem _ hx)) _

/-! ## Changing the order -/

theorem setBy_of_ne {α : Type*} {code : UInt8} {unset : α → Bool} {o : UInt8 × List UInt8}
    (h : o.1 ≠ code) (v old : α) : setBy code unset o v old = old :=
  if_neg fun hc => h hc.1

theorem setBy_comm {α : Type*} {code : UInt8} {unset : α → Bool} {o o' : UInt8 × List UInt8}
    (h : o.1 ≠ o'.1) (v v' old : α) :
    setBy code unset o' v' (setBy code unset o v old) =
      setBy code unset o v (setBy code unset o' v' old) := by
  by_cases ho : o.1 = code
  · have ho' : o'.1 ≠ code := fun heq => h (ho.trans heq.symm)
    rw [setBy_of_ne ho', setBy_of_ne ho']
  · rw [setBy_of_ne ho, setBy_of_ne ho]

/-- All the variables but the size of the boot file. -/
def otherFields (s : Dhcp) : Dhcp := { s with netBootFileSize := 0 }

theorem otherFields_applyOption_comm {o o' : UInt8 × List UInt8} (h : o.1 ≠ o'.1) (s : Dhcp) :
    otherFields (applyOption (otherFields (applyOption s o)) o') =
      otherFields (applyOption (otherFields (applyOption s o')) o) := by
  simp only [otherFields, applyOption]
  congr 1 <;> exact setBy_comm h _ _ _

theorem otherFields_applyOption (s : Dhcp) (o : UInt8 × List UInt8) :
    otherFields (applyOption s o) = otherFields (applyOption (otherFields s) o) := rfl

theorem otherFields_foldl (opts : List (UInt8 × List UInt8)) (s : Dhcp) :
    otherFields (opts.foldl applyOption s) =
      opts.foldl (fun s o => otherFields (applyOption s o)) (otherFields s) := by
  induction opts generalizing s with
  | nil => rfl
  | cons o opts ih => rw [List.foldl_cons, ih, List.foldl_cons, ← otherFields_applyOption]

theorem otherFields_foldl_perm {opts opts' : List (UInt8 × List UInt8)} (hperm : opts.Perm opts')
    (hdistinct : (opts.map Prod.fst).Nodup) (s : Dhcp) :
    otherFields (opts.foldl applyOption s) = otherFields (opts'.foldl applyOption s) := by
  rw [otherFields_foldl, otherFields_foldl]
  refine hperm.foldl_eq' (fun o ho o' ho' t => ?_) _
  by_cases hcode : o.1 = o'.1
  · rw [List.inj_on_of_nodup_map hdistinct ho ho' hcode]
  · exact otherFields_applyOption_comm hcode t

theorem netBootFileSize_concat (opts : List (UInt8 × List UInt8)) (o : UInt8 × List UInt8)
    (s : Dhcp) : ((opts ++ [o]).foldl applyOption s).netBootFileSize =
      if o.1 = 13 then BitVec.ofNat 16 (optNumber o.2) else 0 := by
  rw [List.foldl_append, List.foldl_cons, List.foldl_nil, applyOption]

theorem netBootFileSize_eq_zero {opts : List (UInt8 × List UInt8)} (hne : opts ≠ [])
    (hzero : ∀ o ∈ opts, o.1 = 13 → optNumber o.2 = 0) (s : Dhcp) :
    (opts.foldl applyOption s).netBootFileSize = 0 := by
  obtain ⟨init, o, rfl⟩ := List.eq_nil_or_concat' opts |>.resolve_left hne
  rw [netBootFileSize_concat]
  split
  · next hcode =>
    rw [hzero o (List.mem_append_right _ (List.mem_singleton_self o)) hcode]
    rfl
  · rfl

/-! ## Fields with the options in another order -/

theorem options_append (items items' : List Item) :
    options (items ++ items') = options items ++ options items' := by
  induction items with
  | nil => rfl
  | cons item items ih =>
    cases item with
    | pad => exact ih
    | opt o => rw [List.cons_append, options, ih, options, List.cons_append]

theorem exists_item {o : UInt8 × List UInt8} (h : o ∈ options items) :
    ∃ pre post opt, items = pre ++ .opt opt :: post ∧ (opt.code, opt.value) = o := by
  induction items with
  | nil => exact absurd h List.not_mem_nil
  | cons item items ih =>
    cases item with
    | pad =>
      obtain ⟨pre, post, opt, hitems, hopt⟩ := ih h
      exact ⟨.pad :: pre, post, opt, by rw [hitems, List.cons_append], hopt⟩
    | opt opt =>
      rcases List.mem_cons.mp h with hhead | htail
      · exact ⟨[], items, opt, rfl, hhead.symm⟩
      · obtain ⟨pre, post, opt', hitems, hopt⟩ := ih htail
        exact ⟨.opt opt :: pre, post, opt', by rw [hitems, List.cons_append], hopt⟩

theorem holdsAt_getD (pre l : List UInt8) :
    HoldsAt (fun i => (pre ++ l).getD i 0) pre.length l := by
  induction l generalizing pre with
  | nil => trivial
  | cons b l ih =>
    refine ⟨?_, ?_⟩
    · change (pre ++ b :: l).getD pre.length 0 = b
      rw [List.getD_append_right _ _ _ _ (Nat.le_refl _), Nat.sub_self, List.getD_cons_zero]
    · have hrest := ih (pre ++ [b])
      rwa [List.append_assoc, List.singleton_append, List.length_append,
        List.length_singleton] at hrest

theorem bootpVendorProcess_encode (items : List Item) (hwell : WellFormed (options items))
    (s : Dhcp) : bootpVendorProcess (fun i => (encode items).getD i 0) s 0 (encode items).length =
      (options items).foldl applyOption s :=
  bootpVendorFrom_eq (holdsAt_getD [] (encode items)) (Nat.le_refl _) hwell s

theorem WellFormed.perm {opts opts' : List (UInt8 × List UInt8)} (h : WellFormed opts)
    (hperm : opts'.Perm opts) : WellFormed opts' :=
  fun o ho => h o (hperm.mem_iff.mp ho)

/-! ## The size of the boot file -/

/-- `BootpVendorProcess` reads a field with the given options, in their order. -/
def ReadsField (pkt : BootpPkt) (ext size : ℕ) (items : List Item) : Prop :=
  HoldsAt pkt ext (encode items) ∧ (encode items).length ≤ size

/-- The variables after the walk are the same for every field with the same options, in whatever
order, and the size of the boot file is the value of its option if there is one. -/
def OrderIndependent (pkt : BootpPkt) (ext size : ℕ) (items : List Item) (s : Dhcp) : Prop :=
  (∀ pkt' ext' size' items', ReadsField pkt' ext' size' items' →
    (options items').Perm (options items) →
      bootpVendorProcess pkt' s ext' size' = bootpVendorProcess pkt s ext size) ∧
  ∀ value, (13, value) ∈ options items →
    (bootpVendorProcess pkt s ext size).netBootFileSize.toNat = optNumber value

theorem bootpVendor_fields {ext ext' size size' : ℕ} {items' : List Item}
    (hread : ReadsField pkt ext size items) (hread' : ReadsField pkt' ext' size' items')
    (hperm : (options items').Perm (options items)) (hwell : WellFormed (options items))
    (hdistinct : ((options items).map Prod.fst).Nodup) (s : Dhcp) :
    otherFields (bootpVendorProcess pkt' s ext' size') =
      otherFields (bootpVendorProcess pkt s ext size) := by
  rw [bootpVendorProcess, bootpVendorProcess,
    bootpVendorFrom_eq hread'.1 (Nat.add_le_add_left hread'.2 _) (hwell.perm hperm),
    bootpVendorFrom_eq hread.1 (Nat.add_le_add_left hread.2 _) hwell]
  exact (otherFields_foldl_perm hperm.symm hdistinct s).symm

theorem eq_of_otherFields {s t : Dhcp} (h : otherFields s = otherFields t)
    (hsize : s.netBootFileSize = t.netBootFileSize) : s = t := by
  have hs : s = { otherFields s with netBootFileSize := s.netBootFileSize } := rfl
  rw [hs, h, hsize]
  rfl

/-- **When the order of the options does not matter.**  For every field of distinct options, each as
long as it must be, and all earlier values of the variables: exactly when the option of the size of
the boot file has the value zero, or is the only option and fits in sixteen bits, or is missing. -/
theorem bootpVendor_iff (pkt : BootpPkt) (ext size : ℕ) (items : List Item) (s : Dhcp)
    (hread : ReadsField pkt ext size items) (hwell : WellFormed (options items))
    (hdistinct : ((options items).map Prod.fst).Nodup) :
    OrderIndependent pkt ext size items s ↔
      ∀ value, (13, value) ∈ options items →
        optNumber value = 0 ∨ (options items = [(13, value)] ∧ optNumber value < 2 ^ 16) := by
  have hwalk : bootpVendorProcess pkt s ext size = (options items).foldl applyOption s :=
    bootpVendorFrom_eq hread.1 (Nat.add_le_add_left hread.2 _) hwell s
  constructor
  · rintro ⟨hsame, hvalue⟩ value hmem
    have hnumber := hvalue value hmem
    obtain ⟨pre, post, opt, rfl, hopt⟩ := exists_item hmem
    have hsplit : options (pre ++ .opt opt :: post) =
        options pre ++ (13, value) :: options post := by
      rw [options_append, options, hopt]
    by_cases hrest : options (pre ++ post) = []
    · -- the only option
      rw [options_append, List.append_eq_nil_iff] at hrest
      refine .inr ?_
      rw [hsplit, hrest.1, hrest.2, List.nil_append]
      refine ⟨rfl, ?_⟩
      rw [← hnumber]
      exact BitVec.isLt _
    · -- its option goes first, and another one is the last
      refine .inl ?_
      have hperm : (options (.opt opt :: (pre ++ post))).Perm
          (options (pre ++ .opt opt :: post)) := by
        rw [hsplit, options, options_append, hopt]
        exact List.perm_middle.symm
      have hmoved := hsame _ 0 _ (.opt opt :: (pre ++ post))
        ⟨holdsAt_getD [] (encode (.opt opt :: (pre ++ post))), Nat.le_refl _⟩ hperm
      have hfirst := bootpVendorProcess_encode _ (hwell.perm hperm) s
      have hdistinct' := (hperm.map Prod.fst).nodup_iff.mpr hdistinct
      rw [options, hopt, List.map_cons, List.nodup_cons] at hdistinct'
      rw [options, hopt, List.foldl_cons] at hfirst
      have hzero := netBootFileSize_eq_zero hrest (fun o ho hcode =>
        absurd (List.mem_map.mpr ⟨o, ho, hcode⟩) hdistinct'.1) (applyOption s (13, value))
      rw [← hnumber, ← hmoved]
      exact congrArg BitVec.toNat ((congrArg Dhcp.netBootFileSize hfirst).trans hzero)
  · intro hcond
    refine ⟨fun pkt' ext' size' items' hread' hperm => ?_, fun value hmem => ?_⟩
    · refine eq_of_otherFields (bootpVendor_fields hread hread' hperm hwell hdistinct s) ?_
      rw [hwalk, bootpVendorProcess,
        bootpVendorFrom_eq hread'.1 (Nat.add_le_add_left hread'.2 _) (hwell.perm hperm)]
      by_cases hone : ∃ value, options items = [(13, value)]
      · obtain ⟨value, hitems⟩ := hone
        rw [hitems, List.perm_singleton] at hperm
        rw [hperm, hitems]
      · have hzero : ∀ o ∈ options items, o.1 = 13 → optNumber o.2 = 0 := fun o ho hcode =>
          (hcond o.2 (hcode ▸ ho)).resolve_right fun h => hone ⟨o.2, h.1⟩
        by_cases hnil : options items = []
        · rw [hnil, List.perm_nil] at hperm
          rw [hperm, hnil]
        · have hnil' : options items' ≠ [] := fun h => hnil (List.perm_nil.mp (h ▸ hperm.symm))
          rw [netBootFileSize_eq_zero hnil hzero,
            netBootFileSize_eq_zero hnil' fun o ho => hzero o (hperm.mem_iff.mp ho)]
    · rw [hwalk]
      rcases hcond value hmem with hzero | ⟨hitems, hlt⟩
      · have hall : ∀ o ∈ options items, o.1 = 13 → optNumber o.2 = 0 := fun o ho hcode => by
          rw [List.inj_on_of_nodup_map hdistinct ho hmem hcode]
          exact hzero
        rw [netBootFileSize_eq_zero (List.ne_nil_of_mem hmem) hall, hzero]
        rfl
      · rw [hitems, ← List.nil_append [(13, value)], netBootFileSize_concat, if_pos rfl,
          BitVec.toNat_ofNat]
        exact Nat.mod_eq_of_lt hlt

/-- The option of the size of the boot file: a hundred blocks. -/
def bootFileSizeItem : Item := .opt ⟨13, [0, 100], by decide, by decide, by decide⟩

/-- The packet that is only a field. -/
def fieldPkt (items : List Item) : BootpPkt := fun i => (encode items).getD i 0

theorem wellFormed_pair : WellFormed (options [bootFileSizeItem, maskItem]) := by
  intro o ho
  rcases List.mem_pair.mp ho with rfl | rfl <;> exact ⟨by decide, by decide⟩

/-- Two options, behind a pad: the size of the boot file and the subnet mask. -/
theorem bootpVendor_iff_pair :
    ¬ OrderIndependent (fieldPkt [.pad, bootFileSizeItem, maskItem]) 0 12
      [.pad, bootFileSizeItem, maskItem] exampleDhcp := by
  have hmem : (13, [0, 100]) ∈ options [.pad, bootFileSizeItem, maskItem] := List.mem_cons_self
  have hiff := bootpVendor_iff (fieldPkt [.pad, bootFileSizeItem, maskItem]) 0 12
    [.pad, bootFileSizeItem, maskItem] exampleDhcp ⟨by decide, by decide⟩ wellFormed_pair (by decide)
  rw [hiff]
  exact fun hall => absurd (hall [0, 100] hmem) (by decide)

/-- **A subnet mask behind it wipes out the size of the boot file.** -/
theorem not_bootpVendor_orderIndependent :
    ¬∀ pkt ext size items s, ReadsField pkt ext size items → WellFormed (options items) →
      ((options items).map Prod.fst).Nodup → OrderIndependent pkt ext size items s := by
  intro hall
  have hread : ReadsField (fieldPkt [bootFileSizeItem, maskItem]) 0 11
      [bootFileSizeItem, maskItem] := ⟨by decide, by decide⟩
  have hsize := (hall _ 0 11 [bootFileSizeItem, maskItem] exampleDhcp hread wellFormed_pair
    (by decide)).2 [0, 100] List.mem_cons_self
  rw [bootpVendorProcess, bootpVendorFrom_eq hread.1 (by decide) wellFormed_pair] at hsize
  exact absurd hsize (by decide)

end Net
end EmevBsp
