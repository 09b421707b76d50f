import EmevBsp.Library.InternetChecksum
import EmevBsp.Net.RoundTrip

/-!
# `net/net.c`: the reply to an ICMP echo request

The reply is made of the request, in its buffer.  The addresses change places, the IP header gets
its checksum, and so does the ICMP message; but that one is taken of whole shorts only, and nothing
is put behind an odd last byte, as `NetSetIP` does.  The frame that is sent has the size of an
Ethernet header and the datagram, whatever link header is in front of it.
-/

namespace EmevBsp
namespace Net

open OnesComplement

/-! ## The frame that is sent -/

/-- The request with the addresses of the reply, and no IP checksum. -/
def echoAddressed (n : NetIf) (et : Buf) (ip : ℕ) : Buf :=
  let et := put et 0 (bytesAt et 6 6)
  let et := put et 6 n.netOurEther.toList
  let et := put et (ip + 10) [0, 0]
  let et := put et (ip + 6) [0, 0]
  let et := put et (ip + 16) (bytesAt et (ip + 12) 4)
  put et (ip + 12) (ipBytes n.netOurIp)

/-- The same with its IP checksum. -/
def echoHeader (n : NetIf) (et : Buf) (ip : ℕ) : Buf :=
  put (echoAddressed n et ip) (ip + 10) (cksumBytes (netCksum (echoAddressed n et ip) ip 10))

/-- The same as a reply, with no ICMP checksum. -/
def echoMessage (n : NetIf) (et : Buf) (ip : ℕ) : Buf :=
  put (put (echoHeader n et ip) (ip + 20) [0]) (ip + 22) [0, 0]

/-- The reply. -/
def echoBuf (n : NetIf) (et : Buf) (ip len : ℕ) : Buf :=
  put (echoMessage n et ip) (ip + 22)
    (cksumBytes (netCksum (echoMessage n et ip) (ip + 20) ((2 ^ 32 + len - 20) % 2 ^ 32 / 2)))

theorem receiveEchoRequest_eq (n : NetIf) (et : Buf) (ip len : ℕ) :
    receiveEchoRequest n et ip len =
      [.ethSend (bytesAt (echoBuf n et ip len) 0 (etherHdrSize + len))] := rfl

/-- An ICMP echo request for us lies behind the link header `h`, with the eight bytes of its own
header at least. -/
def CarriesEcho (n : NetIf) (et : Buf) (len : ℤ) (h : LinkHeader) : Prop :=
  linkHeader n et len = some h ∧ vlanMatches n h.vlan = true ∧ h.prot = protIp ∧
    ipHeaderOk n et h.size (len - h.size) = true ∧ et (h.size + 9) = 1 ∧ et (h.size + 20) = 8 ∧
    28 ≤ get16 et (h.size + 2)

theorem netReceive_echo {n : NetIf} {et : Buf} {len : ℤ} {h : LinkHeader}
    (hreq : CarriesEcho n et len h) :
    (netReceive n et len).2 = receiveEchoRequest n et h.size (get16 et (h.size + 2)) := by
  obtain ⟨hlink, hvlan, hprot, hok, hicmp, htype, -⟩ := hreq
  have harp : ¬protIp = protArp := by decide
  have hrarp : ¬protIp = protRarp := by decide
  rw [netReceive, hlink]
  simp only
  rw [if_pos hvlan, hprot, if_neg harp, if_neg hrarp, if_pos rfl, receiveIp, if_pos hok,
    if_pos hicmp]
  simp only
  rw [receiveIcmp, htype, if_neg (by decide), if_pos rfl]

/-! ## Bytes that a write sets or leaves -/

variable {b : Buf} {i k m : ℕ} {l : List UInt8}

theorem length_bytesOf (b : Buf) (i k : ℕ) : (bytesAt b i k).length = k := by
  rw [bytesAt, List.length_map, List.length_range]

theorem bytesAt_congr {b' : Buf} (h : ∀ j, j < k → b (i + j) = b' (i + j)) :
    bytesAt b i k = bytesAt b' i k :=
  List.map_congr_left fun j hj => h j (List.mem_range.mp hj)

theorem bytesAt_put (b : Buf) (i : ℕ) (l : List UInt8) : bytesAt (put b i l) i l.length = l := by
  refine List.ext_getElem (length_bytesOf _ _ _) fun j hj hj' => ?_
  simp only [bytesAt, List.getElem_map, List.getElem_range]
  exact put_add hj'

theorem bytesAt_put_of_disjoint (h : m + k ≤ i ∨ i + l.length ≤ m) :
    bytesAt (put b i l) m k = bytesAt b m k := by
  refine bytesAt_congr fun j hj => ?_
  rcases h with h | h
  · exact put_of_lt (by omega)
  · exact put_of_ge (by omega)

theorem take_drop_bytesAt (h : i + k ≤ m) : ((bytesAt b 0 m).drop i).take k = bytesAt b i k := by
  refine List.ext_getElem ?_ fun j hj hj' => ?_
  · rw [List.length_take, List.length_drop, length_bytesOf, length_bytesOf]
    omega
  · rw [length_bytesOf] at hj'
    simp only [bytesAt, List.getElem_take, List.getElem_drop, List.getElem_map, List.getElem_range,
      Nat.zero_add]

theorem bytesAt_succ (b : Buf) (i k : ℕ) : bytesAt b i (k + 1) = bytesAt b i k ++ [b (i + k)] := by
  rw [bytesAt, List.range_succ, List.map_append, List.map_singleton, bytesAt]

theorem lowSum_bytesAt (b : Buf) (i n : ℕ) : lowSum (bytesAt b i (2 * n)) = cksumSum b i n := by
  induction n generalizing i with
  | zero => rfl
  | succ n ih =>
    have hcons : bytesAt b i (2 * (n + 1)) = b i :: b (i + 1) :: bytesAt b (i + 2) (2 * n) := by
      rw [show 2 * (n + 1) = 2 * n + 1 + 1 by omega, bytesAt, List.range_succ_eq_map,
        List.range_succ_eq_map, bytesAt]
      simp only [List.map_cons, List.map_map, Nat.add_zero]
      refine congrArg _ (congrArg _ (List.map_congr_left fun j _ => ?_))
      simp only [Function.comp_apply]
      congr 1
      omega
    rw [hcons, lowSum, ih, cksumSum, getShort]

/-! ## The checksums -/

theorem dvd_add_complement {x : ℕ} (hx : x < 2 ^ 16 * (2 ^ 16 - 1)) :
    0 < x + (2 ^ 16 - 1 - foldCarry (2 ^ 16) (foldCarry (2 ^ 16) x)) ∧
      2 ^ 16 - 1 ∣ x + (2 ^ 16 - 1 - foldCarry (2 ^ 16) (foldCarry (2 ^ 16) x)) := by
  by_cases hzero : x = 0
  · rw [hzero]
    exact ⟨by decide, by decide⟩
  · have hpos : 0 < x := Nat.pos_of_ne_zero hzero
    have hlt := foldCarry_twice_lt (B := 2 ^ 16) hx
    have hmod : foldCarry (2 ^ 16) (foldCarry (2 ^ 16) x) ≡ x [MOD 2 ^ 16 - 1] :=
      (foldCarry_modEq (by decide)).trans (foldCarry_modEq (by decide))
    refine ⟨by omega, Nat.modEq_zero_iff_dvd.mp ?_⟩
    calc x + (2 ^ 16 - 1 - foldCarry (2 ^ 16) (foldCarry (2 ^ 16) x))
        ≡ foldCarry (2 ^ 16) (foldCarry (2 ^ 16) x) +
          (2 ^ 16 - 1 - foldCarry (2 ^ 16) (foldCarry (2 ^ 16) x)) [MOD 2 ^ 16 - 1] :=
          hmod.symm.add_right _
      _ = 2 ^ 16 - 1 := Nat.add_sub_cancel' (by omega)
      _ ≡ 0 [MOD 2 ^ 16 - 1] := Nat.modEq_zero_iff_dvd.mpr (Nat.dvd_refl _)

theorem cksumSum_put_dvd {m n : ℕ} (hzero : getShort b (i + 2 * m) = 0)
    (hlen : m + (n + 1) ≤ 2 ^ 15) :
    0 < cksumSum (put b (i + 2 * m) (cksumBytes (netCksum b i (m + (n + 1))))) i (m + (n + 1)) ∧
      2 ^ 16 - 1 ∣
        cksumSum (put b (i + 2 * m) (cksumBytes (netCksum b i (m + (n + 1))))) i (m + (n + 1)) := by
  have hle : cksumSum b i (m + (n + 1)) ≤ (m + (n + 1)) * (2 ^ 16 - 1) := cksumSum_le
  have hmul : (m + (n + 1)) * (2 ^ 16 - 1) ≤ 2 ^ 15 * (2 ^ 16 - 1) := Nat.mul_le_mul_right _ hlen
  rw [cksumSum_put_cksum m n hzero, netCksum_eq hlen]
  exact dvd_add_complement (by omega)

theorem getShort_put_zero (b : Buf) (i : ℕ) : getShort (put b i [0, 0]) i = 0 := by
  have h0 : put b i [0, 0] i = 0 := put_add (k := 0) (l := [0, 0]) (by decide)
  have h1 : put b i [0, 0] (i + 1) = 0 := put_add (k := 1) (l := [0, 0]) (by decide)
  rw [getShort, h0, h1]
  rfl

variable {n : NetIf} {et : Buf} {ip len : ℕ}

theorem getShort_echoAddressed (n : NetIf) (et : Buf) (ip : ℕ) :
    getShort (echoAddressed n et ip) (ip + 2 * 5) = 0 := by
  have hbyte (j : ℕ) (hj : ip + 10 ≤ j) (hj' : j < ip + 12) : echoAddressed n et ip j =
      put (put (put et 0 (bytesAt et 6 6)) 6 n.netOurEther.toList) (ip + 10) [0, 0] j := by
    have htwo : ([0, 0] : List UInt8).length = 2 := rfl
    rw [echoAddressed, put_of_lt (by omega), put_of_lt (by omega), put_of_ge (by omega)]
  have hzero := getShort_put_zero
    (put (put et 0 (bytesAt et 6 6)) 6 n.netOurEther.toList) (ip + 10)
  rw [getShort, hbyte _ (by omega) (by omega), hbyte _ (by omega) (by omega)]
  exact hzero

theorem verifies_header (n : NetIf) (et : Buf) (ip len : ℕ) :
    Verifies (bytesAt (echoBuf n et ip len) ip 20) := by
  have hlength : (cksumBytes (netCksum (echoMessage n et ip) (ip + 20)
    ((2 ^ 32 + len - 20) % 2 ^ 32 / 2))).length = 2 := rfl
  have hframe : bytesAt (echoBuf n et ip len) ip 20 = bytesAt (echoHeader n et ip) ip 20 := by
    rw [echoBuf, bytesAt_put_of_disjoint (.inl (by omega)), echoMessage,
      bytesAt_put_of_disjoint (.inl (by omega)), bytesAt_put_of_disjoint (.inl (by omega))]
  rw [hframe, verifies_iff, lowSum_bytesAt (echoHeader n et ip) ip 10]
  exact cksumSum_put_dvd (m := 5) (n := 4) (getShort_echoAddressed n et ip) (by decide)

theorem verifies_message_iff (n : NetIf) (et : Buf) (ip : ℕ) (hmin : 28 ≤ len)
    (hmax : len < 2 ^ 16) :
    Verifies (bytesAt (echoBuf n et ip len) (ip + 20) (len - 20)) ↔
      len % 2 = 0 ∨ echoBuf n et ip len (ip + len - 1) = 0 := by
  obtain ⟨k, hk⟩ : ∃ k, (len - 20) / 2 = 1 + (k + 1) := ⟨(len - 20) / 2 - 2, by omega⟩
  have hwords : (2 ^ 32 + len - 20) % 2 ^ 32 / 2 = 1 + (k + 1) := by omega
  obtain ⟨hpos, hdvd⟩ : 0 < cksumSum (echoBuf n et ip len) (ip + 20) (1 + (k + 1)) ∧
      2 ^ 16 - 1 ∣ cksumSum (echoBuf n et ip len) (ip + 20) (1 + (k + 1)) := by
    rw [echoBuf, hwords]
    exact cksumSum_put_dvd (m := 1) (n := k) (getShort_put_zero _ (ip + 22)) (by omega)
  rw [verifies_iff]
  by_cases heven : len % 2 = 0
  · have hlen : len - 20 = 2 * (1 + (k + 1)) := by omega
    rw [hlen, lowSum_bytesAt]
    exact iff_of_true ⟨hpos, hdvd⟩ (.inl heven)
  · have hlen : len - 20 = 2 * (1 + (k + 1)) + 1 := by omega
    have hlast : ip + 20 + 2 * (1 + (k + 1)) = ip + len - 1 := by omega
    have hsum : lowSum (bytesAt (echoBuf n et ip len) (ip + 20) (len - 20)) =
        cksumSum (echoBuf n et ip len) (ip + 20) (1 + (k + 1)) +
          (echoBuf n et ip len (ip + len - 1)).toNat := by
      rw [hlen, bytesAt_succ, lowSum_append (by rw [length_bytesOf]; omega), lowSum_bytesAt, hlast]
      rfl
    have hbyte := (echoBuf n et ip len (ip + len - 1)).toNat_lt
    rw [hsum, or_iff_right heven, Nat.dvd_add_right hdvd]
    constructor
    · rintro ⟨-, hdvd'⟩
      refine UInt8.toNat_inj.mp ?_
      exact Nat.eq_zero_of_dvd_of_lt hdvd' (by omega)
    · intro hzero
      rw [hzero]
      exact ⟨by omega, Nat.dvd_zero _⟩

/-! ## The reply -/

/-- What the frame `r` should be that answers the request `req`, whose datagram of `len` bytes
begins at `ip`: it holds the whole datagram, the addresses have changed places, the message is a
reply with the same contents, and both checksums verify. -/
structure EchoReply (req : Buf) (ip len : ℕ) (r : List UInt8) : Prop where
  whole : ip + len ≤ r.length
  etherDest : (r.drop 0).take 6 = bytesAt req 6 6
  etherSrc : (r.drop 6).take 6 = bytesAt req 0 6
  ipSrc : (r.drop (ip + 12)).take 4 = bytesAt req (ip + 16) 4
  ipDst : (r.drop (ip + 16)).take 4 = bytesAt req (ip + 12) 4
  isReply : (r.drop (ip + 20)).take 1 = [0]
  payload : (r.drop (ip + 24)).take (len - 24) = bytesAt req (ip + 24) (len - 24)
  ipCksum : Verifies ((r.drop ip).take 20)
  icmpCksum : Verifies ((r.drop (ip + 20)).take (len - 20))

theorem bytesAt_echoBuf (h : i + k ≤ ip + 20 ∨ ip + 24 ≤ i) :
    bytesAt (echoBuf n et ip len) i k = bytesAt (echoHeader n et ip) i k := by
  have hlength : (cksumBytes (netCksum (echoMessage n et ip) (ip + 20)
    ((2 ^ 32 + len - 20) % 2 ^ 32 / 2))).length = 2 := rfl
  have htwo : ([0, 0] : List UInt8).length = 2 := rfl
  have hone : ([0] : List UInt8).length = 1 := rfl
  rw [echoBuf, bytesAt_put_of_disjoint (by omega), echoMessage,
    bytesAt_put_of_disjoint (by omega), bytesAt_put_of_disjoint (by omega)]

theorem bytesAt_echoHeader (h : i + k ≤ ip + 10 ∨ ip + 12 ≤ i) :
    bytesAt (echoHeader n et ip) i k = bytesAt (echoAddressed n et ip) i k := by
  have hlength : (cksumBytes (netCksum (echoAddressed n et ip) ip 10)).length = 2 := rfl
  rw [echoHeader, bytesAt_put_of_disjoint (by omega)]

theorem bytesAt_echoAddressed (hip : 14 ≤ ip) :
    bytesAt (echoAddressed n et ip) 0 6 = bytesAt et 6 6 ∧
    bytesAt (echoAddressed n et ip) 6 6 = n.netOurEther.toList ∧
    bytesAt (echoAddressed n et ip) (ip + 12) 4 = ipBytes n.netOurIp ∧
    bytesAt (echoAddressed n et ip) (ip + 16) 4 = bytesAt et (ip + 12) 4 ∧
    ∀ i k, ip + 20 ≤ i → bytesAt (echoAddressed n et ip) i k = bytesAt et i k := by
  have hour : n.netOurEther.toList.length = 6 := n.netOurEther.length_toList
  have hdest : (bytesAt et 6 6).length = 6 := length_bytesOf et 6 6
  have hbytes : (ipBytes n.netOurIp).length = 4 := rfl
  have htwo : ([0, 0] : List UInt8).length = 2 := rfl
  have hfour (b : Buf) : (bytesAt b (ip + 12) 4).length = 4 := length_bytesOf b _ 4
  have hsrc : bytesAt (put (put (put (put et 0 (bytesAt et 6 6)) 6 n.netOurEther.toList)
      (ip + 10) [0, 0]) (ip + 6) [0, 0]) (ip + 12) 4 = bytesAt et (ip + 12) 4 := by
    rw [bytesAt_put_of_disjoint (by omega), bytesAt_put_of_disjoint (by omega),
      bytesAt_put_of_disjoint (by omega), bytesAt_put_of_disjoint (by omega)]
  rw [echoAddressed, hsrc]
  refine ⟨?_, ?_, ?_, ?_, fun i k hi => ?_⟩
  · rw [bytesAt_put_of_disjoint (by omega), bytesAt_put_of_disjoint (by omega),
      bytesAt_put_of_disjoint (by omega), bytesAt_put_of_disjoint (by omega),
      bytesAt_put_of_disjoint (by omega)]
    have hput := bytesAt_put et 0 (bytesAt et 6 6)
    rwa [hdest] at hput
  · rw [bytesAt_put_of_disjoint (by omega), bytesAt_put_of_disjoint (by omega),
      bytesAt_put_of_disjoint (by omega), bytesAt_put_of_disjoint (by omega)]
    have hput := bytesAt_put (put et 0 (bytesAt et 6 6)) 6 n.netOurEther.toList
    rwa [hour] at hput
  · exact bytesAt_put _ (ip + 12) (ipBytes n.netOurIp)
  · rw [bytesAt_put_of_disjoint (by omega)]
    have hput := bytesAt_put (put (put (put (put et 0 (bytesAt et 6 6)) 6 n.netOurEther.toList)
      (ip + 10) [0, 0]) (ip + 6) [0, 0]) (ip + 16) (bytesAt et (ip + 12) 4)
    rwa [hfour et] at hput
  · have hsize := hfour et
    rw [bytesAt_put_of_disjoint (by omega), bytesAt_put_of_disjoint (by omega),
      bytesAt_put_of_disjoint (by omega), bytesAt_put_of_disjoint (by omega),
      bytesAt_put_of_disjoint (by omega), bytesAt_put_of_disjoint (by omega)]

theorem echoBuf_type : bytesAt (echoBuf n et ip len) (ip + 20) 1 = [0] := by
  rw [echoBuf, bytesAt_put_of_disjoint (.inl (by omega)), echoMessage,
    bytesAt_put_of_disjoint (.inl (by omega))]
  exact bytesAt_put _ (ip + 20) [0]

theorem ipBytes_eq_iff (b : Buf) (i : ℕ) (ip : IPaddr) :
    ipBytes ip = bytesAt b i 4 ↔ netReadIp b i = ip := by
  constructor
  · intro h
    refine netReadIp_ipBytes fun j hj => ?_
    have hget := List.getElem_of_eq h (show j < (ipBytes ip).length from hj)
    simp only [bytesAt, List.getElem_map, List.getElem_range] at hget
    exact hget.symm
  · rintro rfl
    have h0 := (b i).toNat_lt
    have h1 := (b (i + 1)).toNat_lt
    have h2 := (b (i + 2)).toNat_lt
    have h3 := (b (i + 3)).toNat_lt
    have hread : bytesAt b i 4 = [b i, b (i + 1), b (i + 2), b (i + 3)] := rfl
    rw [hread, ipBytes, netReadIp, BitVec.toNat_ofNat]
    refine List.cons_eq_cons.mpr ⟨?_, List.cons_eq_cons.mpr ⟨?_, List.cons_eq_cons.mpr
      ⟨?_, List.cons_eq_cons.mpr ⟨?_, rfl⟩⟩⟩⟩ <;>
    · apply UInt8.toNat_inj.mp
      rw [UInt8.toNat_ofNat']
      omega

theorem get16_lt (b : Buf) (i : ℕ) : get16 b i < 2 ^ 16 := by
  have hhi := (b i).toNat_lt
  have hlo := (b (i + 1)).toNat_lt
  rw [get16, ntohs]
  omega

theorem echoReply_plain_iff (n : NetIf) (et : Buf) {ipLen : ℕ} (hmin : 28 ≤ ipLen)
    (hmax : ipLen < 2 ^ 16) :
    EchoReply et 14 ipLen (bytesAt (echoBuf n et 14 ipLen) 0 (etherHdrSize + ipLen)) ↔
      (ipLen % 2 = 0 ∨ et (14 + ipLen - 1) = 0) ∧
        bytesAt et 0 6 = n.netOurEther.toList ∧ netReadIp et (14 + 16) = n.netOurIp := by
  have hether : etherHdrSize = 14 := rfl
  rw [hether]
  have hpart {i k : ℕ} (hik : i + k ≤ 14 + ipLen) :=
    take_drop_bytesAt (b := echoBuf n et 14 ipLen) hik
  obtain ⟨hdest, hsrc, hipSrc, hipDst, hrest⟩ :=
    @bytesAt_echoAddressed n et 14 (by decide)
  -- the last byte of the datagram is that of the request
  have hlast : echoBuf n et 14 ipLen (14 + ipLen - 1) = et (14 + ipLen - 1) := by
    have hone : bytesAt (echoBuf n et 14 ipLen) (14 + ipLen - 1) 1 =
        bytesAt et (14 + ipLen - 1) 1 := by
      rw [bytesAt_echoBuf (.inr (by omega)), bytesAt_echoHeader (.inr (by omega)),
        hrest _ _ (by omega)]
    exact (List.cons.inj hone).1
  have hmessage := verifies_message_iff n et 14 hmin hmax
  rw [hlast] at hmessage
  have hetherSrc : bytesAt (echoBuf n et 14 ipLen) 6 6 = n.netOurEther.toList := by
    rw [bytesAt_echoBuf (.inl (by decide)), bytesAt_echoHeader (.inl (by decide)), hsrc]
  have hourIp : bytesAt (echoBuf n et 14 ipLen) (14 + 12) 4 = ipBytes n.netOurIp := by
    rw [bytesAt_echoBuf (.inl (by decide)), bytesAt_echoHeader (.inr (by decide)), hipSrc]
  constructor
  · intro hreply
    refine ⟨hmessage.mp ?_, ?_, (ipBytes_eq_iff et _ _).mp ?_⟩
    · have hcksum := hreply.icmpCksum
      rwa [hpart (by omega)] at hcksum
    · have haddr := hreply.etherSrc
      rw [hpart (by omega), hetherSrc] at haddr
      exact haddr.symm
    · have haddr := hreply.ipSrc
      rwa [hpart (by omega), hourIp] at haddr
  · rintro ⟨hcksum, haddr, hip⟩
    refine ⟨Nat.le_of_eq (length_bytesOf _ _ _).symm, ?_, ?_, ?_, ?_, ?_, ?_, ?_, ?_⟩
    · rw [hpart (by omega), bytesAt_echoBuf (.inl (by decide)),
        bytesAt_echoHeader (.inl (by decide)), hdest]
    · rw [hpart (by omega), hetherSrc, haddr]
    · rw [hpart (by omega), hourIp]
      exact (ipBytes_eq_iff et _ _).mpr hip
    · rw [hpart (by omega), bytesAt_echoBuf (.inl (by decide)),
        bytesAt_echoHeader (.inr (by decide)), hipDst]
    · rw [hpart (by omega), echoBuf_type]
    · rw [hpart (by omega), bytesAt_echoBuf (.inr (by decide)),
        bytesAt_echoHeader (.inr (by decide)), hrest _ _ (by decide)]
    · rw [hpart (by omega)]
      exact verifies_header n et 14 ipLen
    · rw [hpart (by omega)]
      exact hmessage.mpr hcksum

/-- **When the reply is what it should be.**  For every echo request that is answered, of any
length: exactly when its frame has the plain Ethernet header, the length of the datagram is even or
its last byte is zero, and it was sent to our own addresses. -/
theorem echoReply_iff (n : NetIf) (et : Buf) (len : ℤ) (h : LinkHeader)
    (hreq : CarriesEcho n et len h) :
    ∃ r, (netReceive n et len).2 = [.ethSend r] ∧
      (EchoReply et h.size (get16 et (h.size + 2)) r ↔
        h.size = etherHdrSize ∧
        (get16 et (h.size + 2) % 2 = 0 ∨ et (h.size + get16 et (h.size + 2) - 1) = 0) ∧
        bytesAt et 0 6 = n.netOurEther.toList ∧ netReadIp et (h.size + 16) = n.netOurIp) := by
  refine ⟨_, (netReceive_echo hreq).trans (receiveEchoRequest_eq _ _ _ _), ?_⟩
  have hmin : 28 ≤ get16 et (h.size + 2) := hreq.2.2.2.2.2.2
  have hmax : get16 et (h.size + 2) < 2 ^ 16 := get16_lt et (h.size + 2)
  generalize get16 et (h.size + 2) = ipLen at hmin hmax
  have hsize : etherHdrSize ≤ h.size := by
    have hlink := hreq.1
    unfold linkHeader at hlink
    split_ifs at hlink <;> cases hlink <;> simp [etherHdrSize, e802HdrSize, vlanEtherHdrSize]
  by_cases hplain : h.size = etherHdrSize
  · have hether : etherHdrSize = 14 := rfl
    rw [and_iff_right hplain, hplain.trans hether]
    exact echoReply_plain_iff n et hmin hmax
  · -- the frame is cut off
    refine iff_of_false (fun hreply => ?_) fun hall => hplain hall.1
    have hwhole := hreply.whole
    rw [length_bytesOf] at hwhole
    omega

/-- An echo request from 10.0.0.1 to 10.0.0.2, with two bytes of payload. -/
def evenRequest : List UInt8 :=
  [2, 0, 0, 0, 0, 1, 2, 0, 0, 0, 0, 2, 8, 0] ++
    [0x45, 0, 0, 30, 0, 0, 0x40, 0, 255, 1, 0x67, 0xdc, 10, 0, 0, 1, 10, 0, 0, 2] ++
    [8, 0, 0xf6, 0xfd, 0, 0, 0, 0, 1, 2]

/-- The same with one byte of payload. -/
def oddRequest : List UInt8 :=
  [2, 0, 0, 0, 0, 1, 2, 0, 0, 0, 0, 2, 8, 0] ++
    [0x45, 0, 0, 29, 0, 0, 0x40, 0, 255, 1, 0x67, 0xdd, 10, 0, 0, 1, 10, 0, 0, 2] ++
    [8, 0, 0xf6, 0xff, 0, 0, 0, 0, 1]

/-- The frame of some bytes, in a buffer of zeros. -/
def frameOf (l : List UInt8) : Buf := fun i => l.getD i 0

set_option maxRecDepth 2000 in
theorem carriesEcho_evenRequest :
    CarriesEcho exampleIf (frameOf evenRequest) 44 ⟨14, protIp, vlanNone⟩ :=
  ⟨rfl, by decide, rfl, by decide, by decide, by decide, by decide⟩

set_option maxRecDepth 2000 in
theorem carriesEcho_oddRequest :
    CarriesEcho exampleIf (frameOf oddRequest) 43 ⟨14, protIp, vlanNone⟩ :=
  ⟨rfl, by decide, rfl, by decide, by decide, by decide, by decide⟩

theorem echoReply_iff_even :
    ∃ r, (netReceive exampleIf (frameOf evenRequest) 44).2 = [.ethSend r] ∧
      (EchoReply (frameOf evenRequest) 14 (get16 (frameOf evenRequest) 16) r ↔
        14 = etherHdrSize ∧
        (get16 (frameOf evenRequest) 16 % 2 = 0 ∨
          frameOf evenRequest (14 + get16 (frameOf evenRequest) 16 - 1) = 0) ∧
        bytesAt (frameOf evenRequest) 0 6 = exampleIf.netOurEther.toList ∧
        netReadIp (frameOf evenRequest) 30 = exampleIf.netOurIp) :=
  echoReply_iff exampleIf (frameOf evenRequest) 44 ⟨14, protIp, vlanNone⟩ carriesEcho_evenRequest

/-- **An odd last byte is not in the checksum** of the reply. -/
theorem not_echoReply :
    ¬∀ n et len h, CarriesEcho n et len h → ∃ r, (netReceive n et len).2 = [.ethSend r] ∧
      EchoReply et h.size (get16 et (h.size + 2)) r := by
  intro hall
  obtain ⟨r, hr, hreply⟩ := hall _ _ _ _ carriesEcho_oddRequest
  rw [netReceive_echo carriesEcho_oddRequest, receiveEchoRequest_eq] at hr
  obtain rfl := NetEvent.ethSend.inj (List.cons.inj hr).1
  have hcksum := ((echoReply_plain_iff _ _ (by decide) (get16_lt _ _)).mp hreply).1
  exact absurd hcksum (by decide)

end Net
end EmevBsp
