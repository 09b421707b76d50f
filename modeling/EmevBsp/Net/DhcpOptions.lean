import EmevBsp.Net.Dhcp

/-!
# `net/bootp.c`: the three walks over the options

`DhcpOptionsProcess`, `DhcpMessageType` and `BootpVendorProcess` go through the same option field.
The last one steps over a pad by one byte.  The other two have no case for a pad: they take it for
an option, whose length is the byte behind it.  `DhcpOptionsProcess` ends 548 bytes behind the
first option, wherever the packet ends.
-/

namespace EmevBsp
namespace Net

open OptionField

/-! ## The places that are visited -/

/-- The places at which `DhcpOptionsProcess` looks at an option. -/
def dhcpVisited (pkt : BootpPkt) (popt endp : ℕ) : List ℕ :=
  if popt < endp ∧ pkt popt ≠ 255 then
    popt :: dhcpVisited pkt (popt + (pkt (popt + 1)).toNat + 2) endp
  else []
termination_by endp - popt

/-- The places at which `BootpVendorProcess` calls `BootpVendorFieldProcess`. -/
def bootpVisited (pkt : BootpPkt) (ext endp : ℕ) : List ℕ :=
  if ext < endp ∧ pkt ext ≠ 255 then
    if pkt ext = 0 then bootpVisited pkt (ext + 1) endp
    else
      let next := ext + ((pkt (ext + 1)).toNat + 2)
      if next ≤ endp then ext :: bootpVisited pkt next endp else bootpVisited pkt next endp
  else []
termination_by endp - ext

/-- The codes and the values at some places. -/
def visitedOptions (pkt : BootpPkt) (places : List ℕ) : List (UInt8 × List UInt8) :=
  places.map fun p => (pkt p, bytesAt pkt (p + 2) (pkt (p + 1)).toNat)

variable {pkt pkt' : BootpPkt} {s : Dhcp} {p n : ℕ} {items : List Item}

theorem dhcpVisited_of_ge (h : n ≤ p) : dhcpVisited pkt p n = [] := by
  rw [dhcpVisited, if_neg fun hp => absurd hp.1 (Nat.not_lt.mpr h)]

theorem dhcpVisited_end (h : pkt p = 255) : dhcpVisited pkt p n = [] := by
  rw [dhcpVisited, if_neg fun hp => hp.2 h]

theorem dhcpVisited_of_lt (hp : p < n) (h : pkt p ≠ 255) :
    dhcpVisited pkt p n = p :: dhcpVisited pkt (p + (pkt (p + 1)).toNat + 2) n := by
  rw [dhcpVisited, if_pos ⟨hp, h⟩]

theorem dhcpVisited_congr (h : ∀ j, p ≤ j → pkt j = pkt' j) :
    dhcpVisited pkt p n = dhcpVisited pkt' p n := by
  induction p using dhcpVisited.induct pkt n with
  | case1 p hp ih =>
    have hnext := ih fun j hj => h j (by omega)
    rw [dhcpVisited_of_lt hp.1 hp.2, hnext, h (p + 1) (Nat.le_succ p),
      dhcpVisited_of_lt hp.1 (h p (Nat.le_refl p) ▸ hp.2)]
  | case2 p hp =>
    rw [dhcpVisited, if_neg hp, dhcpVisited, if_neg (h p (Nat.le_refl p) ▸ hp)]

/-! ## What a walk does -/

theorem length_bytesAt (pkt : Buf) (i n : ℕ) : (bytesAt pkt i n).length = n := by
  rw [bytesAt, List.length_map, List.length_range]

theorem truncateSz_lt {maxlen : ℕ} (curlen : ℕ) (h : 0 < maxlen) :
    truncateSz maxlen curlen < maxlen := by
  rw [truncateSz]
  split <;> omega

theorem dhcpOption_of_ge (s : Dhcp × BootpPkt) (popt : ℕ) {j : ℕ} (hj : bpVend ≤ j) :
    (dhcpOption s popt).2 j = s.2 j := by
  have hname : (optionText s.2 popt bpFileSize ++ [0]).length ≤ 128 := by
    rw [List.length_append, optionText, length_bytesAt, List.length_singleton]
    exact truncateSz_lt _ (by decide)
  have hfile : bpFile + 128 = bpVend := rfl
  have hvendor : vendorBootFile s.2 popt j = s.2 j := by
    rw [vendorBootFile]
    split
    · exact put_of_ge (by omega)
    · rfl
  rw [dhcpOption]
  simp only [apply_ite Prod.snd]
  by_cases hboot : s.2 popt = 67
  · -- option 67 is none of those before it in the switch
    rw [hboot, if_neg (by decide), if_neg (by decide), if_neg (by decide), if_neg (by decide),
      if_neg (by decide), if_neg (by decide), if_neg (by decide), if_pos rfl]
    exact hvendor
  · simp only [if_neg hboot, ite_self]

/-- **`DhcpOptionsProcess` is its switch at each place that it visits.** -/
theorem dhcpOptionsFrom_eq_foldl (s : Dhcp × BootpPkt) (hp : bpVend ≤ p) :
    dhcpOptionsFrom s p n = (dhcpVisited s.2 p n).foldl dhcpOption s := by
  induction s, p using dhcpOptionsFrom.induct n with
  | case1 s p hgo ih =>
    have hsame : dhcpVisited (dhcpOption s p).2 (p + (s.2 (p + 1)).toNat + 2) n =
        dhcpVisited s.2 (p + (s.2 (p + 1)).toNat + 2) n :=
      dhcpVisited_congr fun j hj => dhcpOption_of_ge s p (by omega)
    rw [dhcpOptionsFrom, if_pos hgo, ih (by omega), hsame, dhcpVisited_of_lt hgo.1 hgo.2,
      List.foldl_cons]
  | case2 s p hstop => rw [dhcpOptionsFrom, if_neg hstop, dhcpVisited, if_neg hstop, List.foldl_nil]

theorem bootpVendorFrom_eq_foldl (s : Dhcp) :
    bootpVendorFrom pkt s p n = (bootpVisited pkt p n).foldl (bootpVendorField pkt) s := by
  induction s, p using bootpVendorFrom.induct pkt n with
  | case1 s p hgo hpad ih =>
    rw [bootpVendorFrom, if_pos hgo, if_pos hpad, ih, bootpVisited.eq_def pkt p, if_pos hgo,
      if_pos hpad]
  | case2 s p hgo hpad next ih =>
    rw [bootpVendorFrom, if_pos hgo, if_neg hpad, bootpVisited.eq_def pkt p, if_pos hgo, if_neg hpad]
    show bootpVendorFrom pkt (if next ≤ n then bootpVendorField pkt s p else s) next n =
      (if next ≤ n then p :: bootpVisited pkt next n else bootpVisited pkt next n).foldl
        (bootpVendorField pkt) s
    by_cases hnext : next ≤ n
    · rw [dif_pos hnext] at ih
      rw [if_pos hnext, if_pos hnext, ih, List.foldl_cons]
    · rw [dif_neg hnext] at ih
      rw [if_neg hnext, if_neg hnext, ih]
  | case3 s p hstop => rw [bootpVendorFrom, if_neg hstop, bootpVisited, if_neg hstop, List.foldl_nil]

/-! ## The options of a field -/

theorem visited_opt {o : Opt} (h : HoldsAt pkt p (encode (.opt o :: items))) :
    (pkt p, bytesAt pkt (p + 2) (pkt (p + 1)).toNat) = (o.code, o.value) := by
  obtain ⟨hcode, hlen, hvalue, -⟩ := holdsAt_opt h
  rw [hcode, hlen, bytesAt, hvalue.map_range]

theorem visited_bootp (h : HoldsAt pkt p (encode items)) (hn : p + (encode items).length ≤ n) :
    visitedOptions pkt (bootpVisited pkt p n) = options items := by
  induction items generalizing p with
  | nil => rw [bootpVisited, if_neg fun hp => hp.2 (holdsAt_end h)]; rfl
  | cons item items ih =>
    have hlen : (encode (item :: items)).length = item.bytes.length + (encode items).length :=
      List.length_append
    cases item with
    | pad =>
      obtain ⟨hpad, hrest⟩ := holdsAt_pad h
      have hone : Item.pad.bytes.length = 1 := rfl
      rw [bootpVisited, if_pos ⟨by omega, by rw [hpad]; decide⟩, if_pos hpad]
      exact ih hrest (by omega)
    | opt o =>
      obtain ⟨hcode, hsize, -, hrest⟩ := holdsAt_opt h
      have hbytes : (Item.opt o).bytes.length = o.value.length + 2 := rfl
      have hnext : p + (o.value.length + 2) ≤ n := by omega
      rw [bootpVisited, if_pos ⟨by omega, by rw [hcode]; exact o.code_ne_end⟩,
        if_neg (by rw [hcode]; exact o.code_ne_pad)]
      simp only [hsize, if_pos hnext]
      rw [visitedOptions, List.map_cons, visited_opt h]
      exact congrArg _ (ih hrest (by omega))

/-- **What `DhcpOptionsProcess` visits** are the options of the field exactly when these begin
before the end and the pads do not. -/
theorem visited_dhcp_iff (h : HoldsAt pkt p (encode items)) :
    visitedOptions pkt (dhcpVisited pkt p n) = options items ↔ StopsAt n p items := by
  induction items generalizing p with
  | nil =>
    rw [dhcpVisited_end (holdsAt_end h)]
    exact iff_of_true rfl trivial
  | cons item items ih =>
    cases item with
    | pad =>
      obtain ⟨hpad, hrest⟩ := holdsAt_pad h
      by_cases hp : p < n
      · -- the pad is visited, and no option has its code
        refine iff_of_false (fun hvisited => ?_) fun hstops => absurd hstops.1 (Nat.not_le.mpr hp)
        rw [dhcpVisited_of_lt hp (by rw [hpad]; decide), visitedOptions, List.map_cons] at hvisited
        have hmem := List.mem_cons_self (a := (pkt p, bytesAt pkt (p + 2) (pkt (p + 1)).toNat))
          (l := visitedOptions pkt (dhcpVisited pkt (p + (pkt (p + 1)).toNat + 2) n))
        rw [visitedOptions, hvisited] at hmem
        have hmem : _ ∈ options items := hmem
        exact code_ne_pad_of_mem hmem hpad
      · have hp : n ≤ p := Nat.not_lt.mp hp
        have hrest := ih hrest
        rw [dhcpVisited_of_ge (Nat.le_succ_of_le hp)] at hrest
        rw [dhcpVisited_of_ge hp, StopsAt, and_iff_right hp]
        exact hrest
    | opt o =>
      obtain ⟨hcode, hsize, -, hrest⟩ := holdsAt_opt h
      by_cases hp : p < n
      · rw [dhcpVisited_of_lt hp (by rw [hcode]; exact o.code_ne_end), visitedOptions, List.map_cons,
          visited_opt h, hsize, StopsAt, and_iff_right hp, options, List.cons_eq_cons,
          and_iff_right rfl]
        exact ih hrest
      · refine iff_of_false (fun hvisited => ?_) fun hstops => absurd hstops.1 hp
        rw [dhcpVisited_of_ge (Nat.not_lt.mp hp)] at hvisited
        exact absurd hvisited.symm (List.cons_ne_nil _ _)

/-! ## The message type -/

/-- The value of the message-type option. -/
def messageType (items : List Item) : Option (List UInt8) := (options items).lookup 53

theorem dhcpMessageTypeFrom_eq {v : UInt8} {rest : List UInt8} {fuel : ℕ}
    (h : HoldsAt pkt p (encode items)) (hstops : StopsAt n p items)
    (htype : messageType items = some (v :: rest)) (hfuel : n - p < fuel) :
    dhcpMessageTypeFrom pkt fuel p = some (v.toNat : ℤ) := by
  induction items generalizing p fuel with
  | nil => exact absurd htype.symm (Option.some_ne_none _)
  | cons item items ih =>
    cases item with
    | pad =>
      -- no option follows a pad
      have hnil : options (.pad :: items) = [] := options_eq_nil_of_le hstops hstops.1
      rw [messageType, hnil] at htype
      exact absurd htype.symm (Option.some_ne_none _)
    | opt o =>
      obtain ⟨hcode, hsize, hvalue, hrest⟩ := holdsAt_opt h
      cases fuel with
      | zero => exact absurd hfuel (Nat.not_lt_zero _)
      | succ fuel =>
        rw [dhcpMessageTypeFrom, if_neg (by rw [hcode]; exact o.code_ne_end), hcode]
        by_cases h53 : o.code = 53
        · rw [messageType, options, List.lookup_cons, h53, beq_self_eq_true] at htype
          have hv : o.value = v :: rest := Option.some.inj htype
          rw [hv] at hvalue
          rw [if_pos h53, hvalue.1]
        · have hne : ((53 : UInt8) == o.code) = false := beq_false_of_ne (Ne.symm h53)
          rw [messageType, options, List.lookup_cons, hne] at htype
          have hlt := hstops.1
          rw [if_neg h53, hsize]
          exact ih hrest hstops.2 htype (by omega)

/-! ## The three walks agree -/

/-- The walks read the field `items` of a packet: `DhcpOptionsProcess` applies its options, each
once, `BootpVendorProcess` the same ones, and `DhcpMessageType` returns the value of the
message-type option. -/
structure ReadsOptions (pkt : BootpPkt) (size : ℕ) (items : List Item) : Prop where
  applied : visitedOptions pkt (dhcpVisited pkt (bpVend + 4) (bpVend + 4 + bootpHdrSize)) =
    options items
  same : visitedOptions pkt (bootpVisited pkt (bpVend + 4) (bpVend + 4 + size)) =
    visitedOptions pkt (dhcpVisited pkt (bpVend + 4) (bpVend + 4 + bootpHdrSize))
  messageType : ∀ v rest, messageType items = some (v :: rest) →
    dhcpMessageType pkt bpVend = some (v.toNat : ℤ)

/-- **When the walks read the options.**  For every option field behind the magic cookie, whatever
lies behind it in the buffer, and every size that covers it: exactly when every option begins
within the first 548 bytes and no pad does.  What the first two walks do is their switch at each
place that they visit. -/
theorem dhcpOptions_iff (pkt : BootpPkt) (size : ℕ) (items : List Item)
    (hmagic : HoldsAt pkt bpVend bootpVendorMagic) (hfield : HoldsAt pkt (bpVend + 4) (encode items))
    (hsize : (encode items).length ≤ size) :
    (ReadsOptions pkt size items ↔
      StopsAt (bpVend + 4 + bootpHdrSize) (bpVend + 4) items) ∧
    (∀ s, dhcpOptionsProcess (s, pkt) (bpVend + 4) =
      (dhcpVisited pkt (bpVend + 4) (bpVend + 4 + bootpHdrSize)).foldl dhcpOption (s, pkt)) ∧
    ∀ s, bootpVendorProcess pkt s (bpVend + 4) size =
      (bootpVisited pkt (bpVend + 4) (bpVend + 4 + size)).foldl (bootpVendorField pkt) s := by
  have hcookie : bytesAt pkt bpVend 4 = bootpVendorMagic := hmagic.map_range
  have hbootp : visitedOptions pkt (bootpVisited pkt (bpVend + 4) (bpVend + 4 + size)) =
      options items := visited_bootp hfield (Nat.add_le_add_left hsize _)
  refine ⟨⟨fun hreads => (visited_dhcp_iff hfield).mp hreads.applied, fun hstops => ?_⟩,
    fun s => dhcpOptionsFrom_eq_foldl (s, pkt) (Nat.le_add_right _ _),
    fun s => bootpVendorFrom_eq_foldl s⟩
  have happlied := (visited_dhcp_iff hfield).mpr hstops
  refine ⟨happlied, hbootp.trans happlied.symm, fun v rest htype => ?_⟩
  rw [dhcpMessageType, if_neg (not_not.mpr hcookie)]
  refine dhcpMessageTypeFrom_eq hfield hstops htype ?_
  rw [Nat.add_sub_cancel_left, bootpHdrSize]
  decide

/-- The subnet mask 255.255.255.0, and the message type ACK. -/
def maskItem : Item :=
  .opt ⟨1, [255, 255, 255, 0], by decide, by decide, by decide⟩

def ackItem : Item := .opt ⟨53, [5], by decide, by decide, by decide⟩

/-- A packet with a vendor area, zero elsewhere. -/
def vendorPkt (vend : List UInt8) : BootpPkt := fun i =>
  if i < bpVend then 0 else vend.getD (i - bpVend) 0

theorem dhcpOptions_iff_mask :
    (ReadsOptions (vendorPkt (bootpVendorMagic ++ encode [maskItem, ackItem])) 300
        [maskItem, ackItem] ↔
      StopsAt (bpVend + 4 + bootpHdrSize) (bpVend + 4) [maskItem, ackItem]) ∧
    (∀ s, dhcpOptionsProcess (s, vendorPkt (bootpVendorMagic ++ encode [maskItem, ackItem]))
        (bpVend + 4) =
      (dhcpVisited (vendorPkt (bootpVendorMagic ++ encode [maskItem, ackItem])) (bpVend + 4)
        (bpVend + 4 + bootpHdrSize)).foldl dhcpOption
          (s, vendorPkt (bootpVendorMagic ++ encode [maskItem, ackItem]))) ∧
    ∀ s, bootpVendorProcess (vendorPkt (bootpVendorMagic ++ encode [maskItem, ackItem])) s
        (bpVend + 4) 300 =
      (bootpVisited (vendorPkt (bootpVendorMagic ++ encode [maskItem, ackItem])) (bpVend + 4)
        (bpVend + 4 + 300)).foldl
          (bootpVendorField (vendorPkt (bootpVendorMagic ++ encode [maskItem, ackItem]))) s :=
  dhcpOptions_iff _ 300 [maskItem, ackItem] (by decide) (by decide) (by decide)

/-- **Pads are not read as pads**: one before the message type is applied as an option. -/
theorem not_readsOptions :
    ¬∀ (pkt : BootpPkt) (size : ℕ) (items : List Item), HoldsAt pkt bpVend bootpVendorMagic →
      HoldsAt pkt (bpVend + 4) (encode items) → (encode items).length ≤ size →
        ReadsOptions pkt size items := by
  intro hall
  have hfield : HoldsAt (vendorPkt (bootpVendorMagic ++ encode [.pad, ackItem])) (bpVend + 4)
      (encode [.pad, ackItem]) := by decide
  have hreads := hall _ 300 [.pad, ackItem] (by decide) hfield (by decide)
  have hstops := (visited_dhcp_iff hfield).mp hreads.applied
  exact absurd hstops.1 (by decide)

end Net
end EmevBsp
