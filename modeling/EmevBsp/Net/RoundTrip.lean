import EmevBsp.Net.Receive
import EmevBsp.Library.InternetChecksum
import Mathlib.Data.List.GetD

/-!
# `net/net.c`: what `NetSetIP` builds, `NetReceive` takes

A frame is built by `NetSetEther` and `NetSetIP` around a payload that lies behind the headers.
A peer with the same VLAN finds the link header again (`linkHeader_udpFrame`), the checksum of
the IP header verifies (`netCksumOk_netSetIp`), and the handler is called with the ports and the
length that were sent.
-/

namespace EmevBsp
namespace Net

/-! ## Reading what was written -/

variable {b b' : Buf} {i k len : ℕ}

theorem get16_put {l : List UInt8} (h : k + 1 < l.length) :
    get16 (put b i l) (i + k) = ntohs l[k] l[k + 1] := by
  rw [get16, put_add (Nat.lt_of_succ_lt h), Nat.add_assoc, put_add h]
  rfl

theorem get16_congr (h₀ : b i = b' i) (h₁ : b (i + 1) = b' (i + 1)) : get16 b i = get16 b' i := by
  rw [get16, get16, h₀, h₁]

theorem netReadIp_ipBytes {ip : IPaddr}
    (h : ∀ j (hj : j < 4), b (i + j) = (ipBytes ip).get ⟨j, hj⟩) :
    netReadIp b i = ip := by
  have h0 := h 0 (by decide)
  have h1 := h 1 (by decide)
  have h2 := h 2 (by decide)
  have h3 := h 3 (by decide)
  have hlt := ip.isLt
  rw [netReadIp, ← Nat.add_zero i, h0, Nat.add_zero, h1, h2, h3]
  apply BitVec.eq_of_toNat_eq
  simp only [ipBytes, List.get_eq_getElem, List.getElem_cons_zero, List.getElem_cons_succ,
    UInt8.toNat_ofNat', BitVec.toNat_ofNat]
  omega

/-! ## The checksum of a header -/

theorem cksumFold_eq (x : ℕ) : cksumFold x = OnesComplement.foldCarry (2 ^ 16) x := rfl

theorem getShort_lt : getShort b i < 2 ^ 16 := by
  have h₀ := (b i).toNat_lt
  have h₁ := (b (i + 1)).toNat_lt
  rw [getShort]
  omega

theorem cksumSum_le : cksumSum b i len ≤ len * (2 ^ 16 - 1) := by
  induction len generalizing i with
  | zero => exact Nat.le_of_eq (Nat.zero_mul _).symm
  | succ len ih =>
    have hshort : getShort b i < 2 ^ 16 := getShort_lt
    have hrest := ih (i := i + 2)
    rw [cksumSum, Nat.succ_mul]
    omega

theorem cksumSum_congr (h : ∀ j, i ≤ j → j < i + 2 * len → b j = b' j) :
    cksumSum b i len = cksumSum b' i len := by
  induction len generalizing i with
  | zero => rfl
  | succ len ih =>
    rw [cksumSum, cksumSum, getShort, getShort, h i (Nat.le_refl i) (by omega),
      h (i + 1) (by omega) (by omega), ih fun j h₁ h₂ => h j (by omega) (by omega)]

theorem cksumSum_add (m n : ℕ) :
    cksumSum b i (m + n) = cksumSum b i m + cksumSum b (i + 2 * m) n := by
  induction m generalizing i with
  | zero => rw [Nat.zero_add, Nat.mul_zero, Nat.add_zero, cksumSum, Nat.zero_add]
  | succ m ih =>
    have hstart : i + 2 + 2 * m = i + 2 * (m + 1) := by omega
    rw [Nat.succ_add, cksumSum, cksumSum, ih, hstart, Nat.add_assoc]

theorem cksumSum_put_short {lo hi : UInt8} (m n : ℕ) (hzero : getShort b (i + 2 * m) = 0) :
    cksumSum (put b (i + 2 * m) [lo, hi]) i (m + (n + 1)) =
      cksumSum b i (m + (n + 1)) + (lo.toNat + 256 * hi.toNat) := by
  have hlo : put b (i + 2 * m) [lo, hi] (i + 2 * m) = lo :=
    put_add (k := 0) (l := [lo, hi]) (Nat.zero_lt_succ 1)
  have hhi : put b (i + 2 * m) [lo, hi] (i + 2 * m + 1) = hi :=
    put_add (Nat.lt_succ_self 1)
  have hbefore : cksumSum (put b (i + 2 * m) [lo, hi]) i m = cksumSum b i m :=
    cksumSum_congr fun j _ hj => put_of_lt hj
  have hafter : cksumSum (put b (i + 2 * m) [lo, hi]) (i + 2 * m + 2) n =
      cksumSum b (i + 2 * m + 2) n :=
    cksumSum_congr fun j hj _ => put_of_ge hj
  have hsplit (c : Buf) : cksumSum c i (m + (n + 1)) =
      cksumSum c i m + (getShort c (i + 2 * m) + cksumSum c (i + 2 * m + 2) n) :=
    cksumSum_add m (n + 1)
  have hshort : getShort (put b (i + 2 * m) [lo, hi]) (i + 2 * m) = lo.toNat + 256 * hi.toNat := by
    rw [getShort, hhi, hlo]
  rw [hsplit, hsplit, hbefore, hafter, hzero, hshort]
  omega

theorem netCksum_eq (hlen : len ≤ 2 ^ 15) :
    netCksum b i len =
      OnesComplement.foldCarry (2 ^ 16) (OnesComplement.foldCarry (2 ^ 16) (cksumSum b i len)) := by
  have hle : cksumSum b i len ≤ len * (2 ^ 16 - 1) := cksumSum_le
  have hmul : len * (2 ^ 16 - 1) ≤ 2 ^ 15 * (2 ^ 16 - 1) := Nat.mul_le_mul_right _ hlen
  have hlt := OnesComplement.foldCarry_twice_lt (B := 2 ^ 16) (x := cksumSum b i len) (by omega)
  rw [netCksum, cksumFold_eq, cksumFold_eq, Nat.mod_eq_of_lt (by omega : _ < 2 ^ 32),
    Nat.mod_eq_of_lt hlt]

theorem cksumSum_put_cksum (m n : ℕ) (hzero : getShort b (i + 2 * m) = 0) :
    cksumSum (put b (i + 2 * m) (cksumBytes (netCksum b i (m + (n + 1))))) i (m + (n + 1)) =
      cksumSum b i (m + (n + 1)) + (2 ^ 16 - 1 - netCksum b i (m + (n + 1))) := by
  have hshort : (UInt8.ofNat (0xffff - netCksum b i (m + (n + 1)))).toNat +
      256 * (UInt8.ofNat ((0xffff - netCksum b i (m + (n + 1))) / 256)).toNat =
        2 ^ 16 - 1 - netCksum b i (m + (n + 1)) := by
    rw [UInt8.toNat_ofNat', UInt8.toNat_ofNat']
    omega
  rw [cksumBytes, cksumSum_put_short m n hzero, hshort]

/-- **The checksum verifies**: the complement of the checksum, put where a zero was, makes the
header of `len` shorts one that `NetCksumOk` accepts. -/
theorem netCksumOk_put (m n : ℕ) (hzero : getShort b (i + 2 * m) = 0)
    (hpos : 0 < cksumSum b i (m + (n + 1)))
    (hlen : m + (n + 1) ≤ 2 ^ 15) :
    netCksumOk (put b (i + 2 * m) (cksumBytes (netCksum b i (m + (n + 1))))) i
      (m + (n + 1)) = true := by
  have hle : cksumSum b i (m + (n + 1)) ≤ (m + (n + 1)) * (2 ^ 16 - 1) := cksumSum_le
  have hmul : (m + (n + 1)) * (2 ^ 16 - 1) ≤ 2 ^ 15 * (2 ^ 16 - 1) := Nat.mul_le_mul_right _ hlen
  have hverify := OnesComplement.complement_verifies (B := 2 ^ 16) hpos (by omega)
  have hones : netCksum (put b (i + 2 * m) (cksumBytes (netCksum b i (m + (n + 1))))) i
      (m + (n + 1)) = 2 ^ 16 - 1 := by
    rw [netCksum_eq hlen, cksumSum_put_cksum m n hzero, netCksum_eq hlen, hverify]
  rw [netCksumOk, hones]
  rfl

/-! ## The bytes of the frame -/

/-- The frame that `NetSetEther` and `NetSetIP` build around a payload of `len` bytes. -/
def udpFrame (n : NetIf) (pkt : Buf) (addr : EtherAddr) (dest : IPaddr) (dport sport len : ℕ) :
    Buf :=
  let et := netSetEther n pkt addr protIp
  (netSetIp n et.1 et.2 dest dport sport len).2

section Frame

variable {n : NetIf} {pkt : Buf} {addr : EtherAddr} {dest : IPaddr} {dport sport xip : ℕ}

theorem ipHeader_eq : ipHeader n dest dport sport len =
    [0x45, 0, UInt8.ofNat ((ipHdrSize + len) / 256), UInt8.ofNat (ipHdrSize + len),
      UInt8.ofNat (n.netIpId / 256), UInt8.ofNat n.netIpId,
      UInt8.ofNat (0x4000 / 256), UInt8.ofNat 0x4000, 255, 17, 0, 0] ++
    (ipBytes n.netOurIp ++ (ipBytes dest ++
      [UInt8.ofNat (sport / 256), UInt8.ofNat sport, UInt8.ofNat (dport / 256), UInt8.ofNat dport,
        UInt8.ofNat ((8 + len) / 256), UInt8.ofNat (8 + len), 0, 0])) := by
  simp only [ipHeader, htons, List.cons_append, List.nil_append, List.append_assoc]

theorem length_ipHeader : (ipHeader n dest dport sport len).length = ipHdrSize := by
  rw [ipHeader_eq]
  rfl

theorem ipHeader_version : (ipHeader n dest dport sport len).getD 0 0 = 0x45 := by
  rw [ipHeader_eq]
  rfl

theorem ipHeader_protocol : (ipHeader n dest dport sport len).getD 9 0 = 17 := by
  rw [ipHeader_eq]
  rfl

theorem put_ipHeader {c : Buf} (hk : k < ipHdrSize) :
    put c xip (ipHeader n dest dport sport len) (xip + k) =
      (ipHeader n dest dport sport len).getD k 0 := by
  have hlt : k < (ipHeader n dest dport sport len).length := by rwa [length_ipHeader]
  exact (put_add hlt).trans (List.getD_eq_getElem _ _ hlt).symm

theorem netSetEther_size {prot : ℕ} : (netSetEther n pkt addr prot).2 = netEthHdrSize n := by
  rw [netSetEther, netEthHdrSize]
  split <;> rfl

theorem netSetEther_of_ge {prot j : ℕ} (h : netEthHdrSize n ≤ j) :
    (netSetEther n pkt addr prot).1 j = pkt j := by
  have haddr : addr.toList.length = 6 := addr.length_toList
  have hour : n.netOurEther.toList.length = 6 := n.netOurEther.length_toList
  rw [netEthHdrSize] at h
  rw [netSetEther]
  split at h
  · next htag =>
    simp only [htag, if_true]
    have hj : 14 ≤ j := h
    rw [put_of_ge hj, put_of_ge (by omega), put_of_ge (by omega)]
  · next htag =>
    simp only [htag, if_false, Bool.false_eq_true]
    have hj : 18 ≤ j := h
    rw [put_of_ge hj, put_of_ge (by omega), put_of_ge (by omega)]

theorem netSetIp_of_lt {j : ℕ} (h : j < xip) :
    (netSetIp n b xip dest dport sport len).2 j = b j := by
  rw [netSetIp]
  simp only
  rw [put_of_lt (by omega), put_of_lt h]
  split
  · exact put_of_lt (by omega)
  · rfl

theorem netSetIp_payload (hk : k < len) :
    (netSetIp n b xip dest dport sport len).2 (xip + ipHdrSize + k) = b (xip + ipHdrSize + k) := by
  have hsize : ipHdrSize = 28 := rfl
  rw [netSetIp]
  simp only
  rw [put_of_ge (by rw [cksumBytes, List.length_cons, List.length_singleton]; omega),
    put_of_ge (by rw [length_ipHeader]; omega)]
  split
  · exact put_of_lt (by omega)
  · rfl

theorem netSetIp_header (hk : k < ipHdrSize) (hsum : k < 10 ∨ 12 ≤ k) :
    (netSetIp n b xip dest dport sport len).2 (xip + k) =
      (ipHeader n dest dport sport len).getD k 0 := by
  rw [netSetIp]
  simp only
  rcases hsum with hlow | hhigh
  · rw [put_of_lt (by omega), put_ipHeader hk]
  · rw [put_of_ge (by rw [cksumBytes, List.length_cons, List.length_singleton]; omega), put_ipHeader hk]

/-- **`NetCksumOk` holds for the header that `NetSetIP` builds.** -/
theorem netCksumOk_netSetIp :
    netCksumOk (netSetIp n b xip dest dport sport len).2 xip (ipHdrSizeNoUdp / 2) = true := by
  rw [netSetIp]
  simp only
  generalize (if len % 2 = 1 then put b (xip + ipHdrSize + len) [0] else b) = c
  have hfirst : put c xip (ipHeader n dest dport sport len) xip = 0x45 :=
    (put_ipHeader (k := 0) (by decide)).trans ipHeader_version
  refine netCksumOk_put 5 4 ?_ ?_ (by decide)
  · have hlo : put c xip (ipHeader n dest dport sport len) (xip + 10) = 0 := by
      rw [put_ipHeader (by decide), ipHeader_eq]
      rfl
    have hhi : put c xip (ipHeader n dest dport sport len) (xip + 11) = 0 := by
      rw [put_ipHeader (by decide), ipHeader_eq]
      rfl
    rw [getShort, hlo, hhi]
    rfl
  · rw [cksumSum, getShort, hfirst]
    exact Nat.add_pos_left (Nat.add_pos_left (by decide) _) _

/-! ## The link header -/

/-- The tag of the frames of a VLAN. -/
def NetIf.linkVlan (n : NetIf) : ℕ :=
  if n.untagged then vlanNone else vlanId n.netOurVlan &&& vlanIdMask

theorem netSetEther_untagged (htag : n.untagged = true) {prot : ℕ} :
    get16 (netSetEther n pkt addr prot).1 12 = prot % 2 ^ 16 := by
  rw [netSetEther]
  simp only [htag, if_true]
  exact (get16_put (k := 0) (l := htons prot) (Nat.lt_succ_self 1)).trans (ntohs_htons prot)

theorem netSetEther_tagged (htag : ¬n.untagged = true) {prot : ℕ} :
    get16 (netSetEther n pkt addr prot).1 12 = protVlan ∧
      get16 (netSetEther n pkt addr prot).1 14 = vlanId n.netOurVlan &&& vlanIdMask ∧
      get16 (netSetEther n pkt addr prot).1 16 = prot % 2 ^ 16 := by
  have hmask : vlanId n.netOurVlan &&& vlanIdMask < 2 ^ 16 :=
    Nat.lt_of_le_of_lt Nat.and_le_right (by decide)
  rw [netSetEther]
  simp only [htag, if_false, Bool.false_eq_true]
  have hlen : (htons protVlan ++ htons (vlanId n.netOurVlan &&& vlanIdMask) ++ htons prot).length = 6 :=
    rfl
  refine ⟨?_, ?_, ?_⟩
  · exact (get16_put (k := 0) (by rw [hlen]; decide)).trans (ntohs_htons protVlan)
  · exact (get16_put (k := 2) (by rw [hlen]; decide)).trans
      ((ntohs_htons _).trans (Nat.mod_eq_of_lt hmask))
  · exact (get16_put (k := 4) (by rw [hlen]; decide)).trans (ntohs_htons prot)

/-! ## The receiver -/

variable {n' : NetIf} {inpkt : Buf}

/-- What the receiver has got of the frame. -/
def Receives (inpkt frame : Buf) (size : ℕ) : Prop := ∀ j < size, inpkt j = frame j

theorem Receives.get16_eq {frame : Buf} {size : ℕ} (h : Receives inpkt frame size) {j : ℕ}
    (hj : j + 1 < size) : get16 inpkt j = get16 frame j :=
  get16_congr (h j (Nat.lt_of_succ_lt hj)) (h (j + 1) hj)

theorem vlanId_of_tagged (htag : ¬n.untagged = true) : vlanId n.netOurVlan = n.netOurVlan.toNat := by
  rw [vlanId]
  refine if_neg fun hv => htag ?_
  rw [NetIf.untagged, vlanId, if_pos hv]
  rfl

theorem linkHeader_udpFrame {len : ℤ} (hvlan : n'.netOurVlan = n.netOurVlan)
    (hrecv : Receives inpkt (netSetEther n pkt addr protIp).1 (netEthHdrSize n))
    (hlen : (netEthHdrSize n : ℤ) ≤ len) :
    linkHeader n' inpkt len = some ⟨netEthHdrSize n, protIp, n.linkVlan⟩ := by
  rw [linkHeader]
  rw [netEthHdrSize] at hrecv hlen ⊢
  by_cases htag : n.untagged = true
  · rw [if_pos htag] at hrecv hlen ⊢
    have hprot : get16 inpkt 12 = protIp :=
      (hrecv.get16_eq (by decide)).trans (netSetEther_untagged htag)
    rw [if_neg (not_lt.mpr hlen), hprot, if_neg (by decide), if_pos (by decide), NetIf.linkVlan,
      if_pos htag]
  · rw [if_neg htag] at hrecv hlen ⊢
    obtain ⟨htype, hvid, hprot⟩ : get16 (netSetEther n pkt addr protIp).1 12 = protVlan ∧
        get16 (netSetEther n pkt addr protIp).1 14 = vlanId n.netOurVlan &&& vlanIdMask ∧
        get16 (netSetEther n pkt addr protIp).1 16 = protIp := netSetEther_tagged htag
    have hmin : ¬len < etherHdrSize := by
      have h₁ : (vlanEtherHdrSize : ℤ) = etherHdrSize + 4 := rfl
      omega
    have hours : ¬n'.netOurVlan.toNat &&& vlanIdMask = vlanNone := by
      rw [hvlan, ← vlanId_of_tagged htag]
      exact fun h => htag (decide_eq_true h)
    have htag' : vlanId n.netOurVlan &&& vlanIdMask &&& vlanIdMask =
        vlanId n.netOurVlan &&& vlanIdMask := by
      rw [Nat.and_assoc, Nat.and_self]
    rw [if_neg hmin, (hrecv.get16_eq (by decide)).trans htype, if_neg (by decide),
      if_neg (by decide), if_neg (not_lt.mpr hlen), if_neg hours,
      (hrecv.get16_eq (by decide)).trans hvid, (hrecv.get16_eq (by decide)).trans hprot, htag',
      NetIf.linkVlan, if_neg htag]

theorem vlanMatches_udpFrame (hvlan : n'.netOurVlan = n.netOurVlan) :
    vlanMatches n' n.linkVlan = true := by
  have huntagged : n'.untagged = n.untagged := by rw [NetIf.untagged, NetIf.untagged, hvlan]
  rw [vlanMatches, NetIf.linkVlan, huntagged, hvlan]
  by_cases htag : n.untagged = true
  · simp [htag]
  · have hvid : ¬vlanId n.netOurVlan &&& vlanIdMask = vlanNone := fun h => htag (decide_eq_true h)
    simp [htag, hvid]

/-! ## The IP header -/

theorem Receives.ip_byte {size : ℕ}
    (h : Receives inpkt (netSetIp n b xip dest dport sport len).2 size) (hsize : xip + ipHdrSize ≤ size)
    (hk : k < ipHdrSize) (hsum : k < 10 ∨ 12 ≤ k) :
    inpkt (xip + k) = (ipHeader n dest dport sport len).getD k 0 :=
  (h (xip + k) (by omega)).trans (netSetIp_header hk hsum)

theorem Receives.ip_get16 {size : ℕ}
    (h : Receives inpkt (netSetIp n b xip dest dport sport len).2 size) (hsize : xip + ipHdrSize ≤ size)
    (hk : k + 1 < ipHdrSize) (hsum : k < 9 ∨ 12 ≤ k) :
    get16 inpkt (xip + k) = ntohs ((ipHeader n dest dport sport len).getD k 0)
      ((ipHeader n dest dport sport len).getD (k + 1) 0) := by
  rw [get16, Nat.add_assoc, h.ip_byte hsize (Nat.lt_of_succ_lt hk) (by omega),
    h.ip_byte hsize hk (by omega)]

theorem ipHeaderOk_netSetIp {len' : ℤ} (hip : n'.netOurIp = dest ∨ dest = 0xffffffff)
    (hrecv : Receives inpkt (netSetIp n b xip dest dport sport len).2 (xip + ipHdrSize + len))
    (hlen : (ipHdrSize + len : ℕ) ≤ len') (hint : len' < 2 ^ 31) :
    ipHeaderOk n' inpkt xip len' = true := by
  have hsize : ipHdrSize = 28 := rfl
  have hfits : xip + ipHdrSize ≤ xip + ipHdrSize + len := Nat.le_add_right _ _
  have hversion : inpkt xip = 0x45 :=
    (hrecv.ip_byte hfits (k := 0) (by decide) (by decide)).trans ipHeader_version
  have htotal : get16 inpkt (xip + 2) = (ipHdrSize + len) % 2 ^ 16 := by
    rw [hrecv.ip_get16 hfits (by decide) (by decide), ipHeader_eq]
    exact ntohs_htons (ipHdrSize + len)
  have hoff : get16 inpkt (xip + 6) = 0x4000 % 2 ^ 16 := by
    rw [hrecv.ip_get16 hfits (by decide) (by decide), ipHeader_eq]
    exact ntohs_htons 0x4000
  have hdst : netReadIp inpkt (xip + 16) = dest := netReadIp_ipBytes fun j hj => by
    rw [Nat.add_assoc, hrecv.ip_byte hfits (by omega) (by omega), ipHeader_eq]
    obtain rfl | rfl | rfl | rfl : j = 0 ∨ j = 1 ∨ j = 2 ∨ j = 3 := by omega
    all_goals rfl
  have hcksum : netCksumOk inpkt xip (ipHdrSizeNoUdp / 2) = true := by
    have hnoUdp : 2 * (ipHdrSizeNoUdp / 2) = 20 := rfl
    have hsum : cksumSum inpkt xip (ipHdrSizeNoUdp / 2) =
        cksumSum (netSetIp n b xip dest dport sport len).2 xip (ipHdrSizeNoUdp / 2) :=
      cksumSum_congr fun j _ hj => hrecv j (by omega)
    rw [netCksumOk, netCksum, hsum]
    exact netCksumOk_netSetIp
  have hulong : ¬ulongOf len' < ipHdrSize := by
    rw [ulongOf]
    omega
  have hle : (ipHdrSize + len) % 2 ^ 16 ≤ ipHdrSize + len := Nat.mod_le _ _
  unfold ipHeaderOk
  rw [htotal, hoff, hversion, hdst]
  refine decide_eq_true ⟨hulong, by omega, by decide, by decide, by decide, hcksum, ?_⟩
  rcases hip with hours | hbroadcast
  · exact .inr (.inl hours.symm)
  · exact .inr (.inr hbroadcast)

theorem udpEvent_netSetIp
    (hrecv : Receives inpkt (netSetIp n b xip dest dport sport len).2 (xip + ipHdrSize + len)) :
    udpEvent inpkt xip = .udp (xip + ipHdrSize) (dport % 2 ^ 16) (sport % 2 ^ 16)
      (((8 + len) % 2 ^ 16 : ℕ) - 8) := by
  have hsize : ipHdrSize = 28 := rfl
  have hfits : xip + ipHdrSize ≤ xip + ipHdrSize + len := Nat.le_add_right _ _
  have hsrc : get16 inpkt (xip + 20) = sport % 2 ^ 16 := by
    rw [hrecv.ip_get16 hfits (by decide) (by decide), ipHeader_eq]
    exact ntohs_htons sport
  have hdst : get16 inpkt (xip + 22) = dport % 2 ^ 16 := by
    rw [hrecv.ip_get16 hfits (by decide) (by decide), ipHeader_eq]
    exact ntohs_htons dport
  have hlen : get16 inpkt (xip + 24) = (8 + len) % 2 ^ 16 := by
    rw [hrecv.ip_get16 hfits (by decide) (by decide), ipHeader_eq]
    exact ntohs_htons (8 + len)
  rw [udpEvent, hsrc, hdst, hlen]

/-! ## The round trip -/

theorem udpFrame_eq : udpFrame n pkt addr dest dport sport len =
    (netSetIp n (netSetEther n pkt addr protIp).1 (netEthHdrSize n) dest dport sport len).2 := by
  rw [udpFrame, netSetEther_size]

theorem netReceive_udpFrame_event {len' : ℤ} (hvlan : n'.netOurVlan = n.netOurVlan)
    (hip : n'.netOurIp = dest ∨ dest = 0xffffffff)
    (hrecv : Receives inpkt (udpFrame n pkt addr dest dport sport len)
      (netEthHdrSize n + ipHdrSize + len))
    (hlen : (netEthHdrSize n + ipHdrSize + len : ℕ) ≤ len') (hint : len' < 2 ^ 31) :
    netReceive n' inpkt len' =
      (n', [.udp (netEthHdrSize n + ipHdrSize) (dport % 2 ^ 16) (sport % 2 ^ 16)
        (((8 + len) % 2 ^ 16 : ℕ) - 8)]) := by
  rw [udpFrame_eq] at hrecv
  have hether : Receives inpkt (netSetEther n pkt addr protIp).1 (netEthHdrSize n) := fun j hj =>
    (hrecv j (by omega)).trans (netSetIp_of_lt hj)
  have hlink : linkHeader n' inpkt len' = some ⟨netEthHdrSize n, protIp, n.linkVlan⟩ :=
    linkHeader_udpFrame hvlan hether (by omega)
  have hok : ipHeaderOk n' inpkt (netEthHdrSize n) (len' - netEthHdrSize n) = true :=
    ipHeaderOk_netSetIp hip hrecv (by omega) (by omega)
  have hudp : inpkt (netEthHdrSize n + 9) = 17 :=
    (hrecv.ip_byte (Nat.le_add_right _ _) (by decide) (by decide)).trans ipHeader_protocol
  rw [netReceive, hlink]
  simp only
  rw [if_pos (vlanMatches_udpFrame hvlan), if_neg (by decide), if_neg (by decide), if_true,
    receiveIp, if_pos hok, hudp, if_neg (by decide), if_pos rfl, udpEvent_netSetIp hrecv]

theorem bytesAt_udpFrame {payload : List UInt8}
    (hpay : bytesAt pkt (netEthHdrSize n + ipHdrSize) payload.length = payload)
    (hrecv : Receives inpkt (udpFrame n pkt addr dest dport sport payload.length)
      (netEthHdrSize n + ipHdrSize + payload.length)) :
    bytesAt inpkt (netEthHdrSize n + ipHdrSize) payload.length = payload := by
  rw [udpFrame_eq] at hrecv
  refine Eq.trans (List.map_congr_left fun k hk => ?_) hpay
  have hk : k < payload.length := List.mem_range.mp hk
  rw [hrecv _ (by omega), netSetIp_payload hk, netSetEther_of_ge (by omega)]

end Frame

/-- **The round trip of a datagram.**  The frame that `NetSetEther` and `NetSetIP` build around a
payload of at most 65527 bytes reaches the handler of a peer with the same VLAN, when it is sent
to the address of the peer or to all.  The ports are those that were sent, in sixteen bits, the
length is that of the payload, and the payload is unchanged.  The link may have padded the frame. -/
theorem netReceive_udpFrame (n n' : NetIf) (pkt inpkt : Buf) (addr : EtherAddr) (dest : IPaddr)
    (dport sport : ℕ) (payload : List UInt8) (len : ℤ) (hmax : payload.length ≤ 65527)
    (hpay : bytesAt pkt (netEthHdrSize n + ipHdrSize) payload.length = payload)
    (hvlan : n'.netOurVlan = n.netOurVlan) (hip : n'.netOurIp = dest ∨ dest = 0xffffffff)
    (hrecv : Receives inpkt (udpFrame n pkt addr dest dport sport payload.length)
      (netEthHdrSize n + ipHdrSize + payload.length))
    (hlen : (netEthHdrSize n + ipHdrSize + payload.length : ℕ) ≤ len) (hint : len < 2 ^ 31) :
    netReceive n' inpkt len =
        (n', [.udp (netEthHdrSize n + ipHdrSize) (dport % 2 ^ 16) (sport % 2 ^ 16)
          payload.length]) ∧
      bytesAt inpkt (netEthHdrSize n + ipHdrSize) payload.length = payload ∧
      netCksumOk (udpFrame n pkt addr dest dport sport payload.length) (netEthHdrSize n)
        (ipHdrSizeNoUdp / 2) = true := by
  have hlength : (((8 + payload.length) % 2 ^ 16 : ℕ) - 8 : ℤ) = payload.length := by
    rw [Nat.mod_eq_of_lt (by omega)]
    omega
  refine ⟨?_, bytesAt_udpFrame hpay hrecv, ?_⟩
  · rw [netReceive_udpFrame_event hvlan hip hrecv hlen hint, hlength]
  · rw [udpFrame_eq]
    exact netCksumOk_netSetIp

theorem netReceive_udpFrame_three :
    netReceive exampleIf (udpFrame exampleIf (fun i => UInt8.ofNat i) #v[2, 0, 0, 0, 0, 1]
        0x0a000002 69 1000 3) 45 =
      (exampleIf, [.udp 42 69 1000 3]) ∧
    bytesAt (udpFrame exampleIf (fun i => UInt8.ofNat i) #v[2, 0, 0, 0, 0, 1] 0x0a000002 69 1000 3)
      42 3 = [42, 43, 44] ∧
    netCksumOk (udpFrame exampleIf (fun i => UInt8.ofNat i) #v[2, 0, 0, 0, 0, 1] 0x0a000002 69
      1000 3) 14 10 = true :=
  netReceive_udpFrame exampleIf exampleIf (fun i => UInt8.ofNat i) _ #v[2, 0, 0, 0, 0, 1] 0x0a000002
    69 1000 [42, 43, 44] 45 (by decide) rfl rfl (.inl rfl) (fun _ _ => rfl) (by decide) (by decide)

/-- **The length field wraps**: the handler of the peer is told of minus eight bytes when the
payload has 65528. -/
theorem not_netReceive_udpFrame :
    ¬∀ (n n' : NetIf) (pkt inpkt : Buf) (addr : EtherAddr) (dest : IPaddr) (dport sport : ℕ)
      (payload : List UInt8) (len : ℤ),
      bytesAt pkt (netEthHdrSize n + ipHdrSize) payload.length = payload →
      n'.netOurVlan = n.netOurVlan → (n'.netOurIp = dest ∨ dest = 0xffffffff) →
      Receives inpkt (udpFrame n pkt addr dest dport sport payload.length)
        (netEthHdrSize n + ipHdrSize + payload.length) →
      (netEthHdrSize n + ipHdrSize + payload.length : ℕ) ≤ len → len < 2 ^ 31 →
      netReceive n' inpkt len =
          (n', [.udp (netEthHdrSize n + ipHdrSize) (dport % 2 ^ 16) (sport % 2 ^ 16)
            payload.length]) ∧
        bytesAt inpkt (netEthHdrSize n + ipHdrSize) payload.length = payload ∧
        netCksumOk (udpFrame n pkt addr dest dport sport payload.length) (netEthHdrSize n)
          (ipHdrSizeNoUdp / 2) = true := by
  intro hall
  have hsize : netEthHdrSize exampleIf + ipHdrSize = 42 := rfl
  have hlength : (List.replicate 65528 (0 : UInt8)).length = 65528 := List.length_replicate
  have hpay : bytesAt (fun _ => 0) (netEthHdrSize exampleIf + ipHdrSize)
      (List.replicate 65528 (0 : UInt8)).length = List.replicate 65528 0 := by
    rw [hlength, bytesAt, List.map_const', List.length_range]
  have hfits : (netEthHdrSize exampleIf + ipHdrSize +
      (List.replicate 65528 (0 : UInt8)).length : ℕ) ≤ (65570 : ℤ) := by
    rw [hsize, hlength]
    decide
  have hwanted := (hall exampleIf exampleIf (fun _ => 0) _ #v[2, 0, 0, 0, 0, 1] 0x0a000002 69 1000
    (List.replicate 65528 0) 65570 hpay rfl (.inl rfl) (fun _ _ => rfl) hfits (by decide)).1
  have hreal : netReceive exampleIf (udpFrame exampleIf (fun _ => 0) #v[2, 0, 0, 0, 0, 1]
      0x0a000002 69 1000 (List.replicate 65528 (0 : UInt8)).length) 65570 =
        (exampleIf, [.udp (netEthHdrSize exampleIf + ipHdrSize) (69 % 2 ^ 16) (1000 % 2 ^ 16)
          (((8 + (List.replicate 65528 (0 : UInt8)).length) % 2 ^ 16 : ℕ) - 8)]) :=
    netReceive_udpFrame_event rfl (.inl rfl) (fun _ _ => rfl) hfits (by decide)
  rw [hlength] at hwanted hreal
  injection hreal.symm.trans hwanted with _ hevents
  injection List.head_eq_of_cons_eq hevents with _ _ _ hlen
  exact absurd hlen (by decide)

end Net
end EmevBsp
