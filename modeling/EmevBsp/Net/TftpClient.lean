import EmevBsp.Net.TftpServer
import Mathlib.Tactic.Ring

/-!
# What the TFTP client does with the packets of a conforming server

`At S c t` says what the state of the client is after the first `c` packets of the server `S`:
its block number is that of the last packet modulo `2 ^ 16`, `TftpBlockWrapOffset` accounts for
the rest, and the blocks that came are in memory.  For each packet there is a lemma that says
where the handler leads from there.
-/

namespace EmevBsp
namespace Tftp

open Net

variable {S : Server}

/-! ## The block size in an OACK packet -/

theorem oackBlksize_of_short {pkt : List UInt8} (hlen : pkt.length ≤ 8) :
    oackBlksize pkt = none := by
  cases pkt with
  | nil => rfl
  | cons c pkt => rw [oackBlksize, if_neg (not_lt.mpr hlen)]

theorem oackBlksize_cons_of_ne {c : UInt8} (hc : c ≠ 98) (pkt : List UInt8) :
    oackBlksize (c :: pkt) = oackBlksize pkt := by
  have hne : strcmp (c :: pkt) blksizeText ≠ 0 := strcmp_ne_zero_of_head hc pkt _
  by_cases hlen : 8 < (c :: pkt).length
  · rw [oackBlksize, if_pos hlen, if_neg hne]
  · have hshort : pkt.length ≤ 8 := le_trans (Nat.le_succ _) (not_lt.mp hlen)
    rw [oackBlksize_of_short (not_lt.mp hlen), oackBlksize_of_short hshort]

theorem oackBlksize_append_of_ne {l : List UInt8} (hl : (98 : UInt8) ∉ l) (pkt : List UInt8) :
    oackBlksize (l ++ pkt) = oackBlksize pkt := by
  induction l with
  | nil => rfl
  | cons c l ih =>
    rw [List.mem_cons, not_or] at hl
    rw [List.cons_append, oackBlksize_cons_of_ne (Ne.symm hl.1), ih hl.2]

theorem not_mem_decimal (n : ℕ) : (98 : UInt8) ∉ decimal n := fun h =>
  absurd (isdigit_of_mem_decimal n h) (by decide)

theorem oackBlksize_timeout (n : ℕ) (pkt : List UInt8) :
    oackBlksize ((OackOption.timeout n).text ++ pkt) = oackBlksize pkt := by
  refine oackBlksize_append_of_ne ?_ pkt
  simp only [OackOption.text, List.mem_append, List.mem_cons, not_or]
  exact ⟨by decide, by decide, not_mem_decimal n, by decide, List.not_mem_nil⟩

theorem oackBlksize_blksize {n : ℕ} (hpos : 0 < n) (hn : n < 2 ^ 16) (pkt : List UInt8) :
    oackBlksize ((OackOption.blksize n).text ++ pkt) = some (BitVec.ofNat 16 n) := by
  have htext : (OackOption.blksize n).text ++ pkt =
      98 :: ([108, 107, 115, 105, 122, 101] ++ 0 :: (decimal n ++ 0 :: pkt)) := by
    simp [OackOption.text, blksizeText]
  obtain ⟨c, cp, hdec, -⟩ := decimal_eq_cons n hpos
  have hlen : 8 < (98 :: ([108, 107, 115, 105, 122, 101] ++
      0 :: (decimal n ++ 0 :: pkt)) : List UInt8).length := by
    simp only [hdec, List.length_cons, List.length_append, List.length_nil]
    omega
  have hfound : strcmp (98 :: ([108, 107, 115, 105, 122, 101] ++
      0 :: (decimal n ++ 0 :: pkt))) blksizeText = 0 :=
    strcmp_append (s := blksizeText) (by decide) (decimal n ++ 0 :: pkt)
  have hvalue : (simpleStrtoul (decimal n ++ 0 :: pkt) 10).1 = n :=
    simpleStrtoul_decimal hpos (lt_trans hn (by decide)) pkt
  rw [htext, oackBlksize, if_pos hlen, if_pos hfound]
  exact congrArg (fun m => some (BitVec.ofNat 16 m)) hvalue

theorem oackBlksize_flatMap (options : List OackOption)
    (hrange : ∀ size, acknowledgedBlksize options = some size → 0 < size ∧ size < 2 ^ 16) :
    oackBlksize (options.flatMap OackOption.text) =
      (acknowledgedBlksize options).map (BitVec.ofNat 16) := by
  induction options with
  | nil => rfl
  | cons o options ih =>
    rw [List.flatMap_cons]
    cases o with
    | timeout n =>
      rw [oackBlksize_timeout]
      exact ih hrange
    | blksize n =>
      obtain ⟨hpos, hn⟩ := hrange n rfl
      exact oackBlksize_blksize hpos hn _

/-! ## The state after some packets -/

/-- The first `n` bytes of the file are loaded. -/
structure Loaded (S : Server) (t : Client) (n : ℕ) : Prop where
  size : t.netBootFileXferSize = BitVec.ofNat 32 n
  bytes : ∀ (i : ℕ) (h : i < S.file.length), i < n →
    t.memory (t.loadAddr + BitVec.ofNat 32 i) = S.file[i]

/-- The state of the client after the first `c` packets of the server. -/
structure At (S : Server) (c : ℕ) (t : Client) : Prop where
  listens : t.net.listens .tftpHandler = true
  state : t.state = if c = 0 then .rrq else if S.number c = 0 then .oack else .data
  serverPort : t.serverPort = if c = 0 then wellKnownPort else S.tid
  blkSize : t.blkSize = if c = 0 then tftpBlockSize else BitVec.ofNat 16 S.blkSize
  block : t.block = BitVec.ofNat 32 (S.number c % 2 ^ 16)
  lastBlock : 0 < S.number c → t.lastBlock = t.block
  wrapOffset : 0 < S.number c →
    t.blockWrapOffset = BitVec.ofNat 32 (S.number c / 2 ^ 16 * 2 ^ 16 * S.blkSize)
  loaded : Loaded S t (min (S.number c * S.blkSize) S.file.length)

/-- The acknowledgement of the first `c` packets. -/
def ackPacket (S : Server) (port c : ℕ) : UdpPacket :=
  ⟨S.tid, port, htons opAck ++ htons (S.number c)⟩

theorem htons_mod (n : ℕ) : htons (n % 2 ^ 16) = htons n := by
  have hhi : UInt8.ofNat (n % 2 ^ 16 / 256) = UInt8.ofNat (n / 256) := by
    rw [← UInt8.toNat_inj, UInt8.toNat_ofNat', UInt8.toNat_ofNat']
    omega
  have hlo : UInt8.ofNat (n % 2 ^ 16) = UInt8.ofNat n := by
    rw [← UInt8.toNat_inj, UInt8.toNat_ofNat', UInt8.toNat_ofNat']
    omega
  rw [htons, htons, hhi, hlo]

theorem toNat_number_mod (n : ℕ) : (BitVec.ofNat 32 (n % 2 ^ 16)).toNat = n % 2 ^ 16 := by
  rw [BitVec.toNat_ofNat]
  omega

theorem At.tftpSend {c : ℕ} {t : Client} (h : At S c t) (hc : 0 < c) :
    tftpSend t = [ackPacket S t.ourPort c] := by
  have hstate := h.state
  rw [if_neg (Nat.pos_iff_ne_zero.mp hc)] at hstate
  have hpacket : packetOf t = htons opAck ++ htons (S.number c) := by
    rw [packetOf, hstate]
    split
    · next heq => split at heq <;> exact absurd heq TftpState.noConfusion
    · rw [h.block, toNat_number_mod, htons_mod]
    · rw [h.block, toNat_number_mod, htons_mod]
    · next heq => split at heq <;> exact absurd heq TftpState.noConfusion
    · next heq => split at heq <;> exact absurd heq TftpState.noConfusion
  rw [Tftp.tftpSend, hpacket, h.serverPort, if_neg (Nat.pos_iff_ne_zero.mp hc)]
  rfl

/-! ## Storing a block -/

theorem offset_eq (k b : ℕ) :
    (BitVec.ofNat 32 ((k + 1) % 2 ^ 16) - 1) * BitVec.ofNat 32 b +
      BitVec.ofNat 32 ((k + 1) / 2 ^ 16 * 2 ^ 16 * b) = BitVec.ofNat 32 (k * b) := by
  have hsplit : k + 1 = (k + 1) / 2 ^ 16 * 2 ^ 16 + (k + 1) % 2 ^ 16 :=
    (Nat.div_add_mod' (k + 1) (2 ^ 16)).symm
  generalize (k + 1) / 2 ^ 16 * 2 ^ 16 = q at hsplit ⊢
  generalize (k + 1) % 2 ^ 16 = r at hsplit ⊢
  have hcast : (k : BitVec 32) + 1 = (q : BitVec 32) + (r : BitVec 32) := by
    exact_mod_cast congrArg (Nat.cast : ℕ → BitVec 32) hsplit
  simp only [← BitVec.natCast_eq_ofNat, Nat.cast_mul]
  have hk : (k : BitVec 32) = (q : BitVec 32) + (r : BitVec 32) - 1 := by
    rw [← hcast]
    ring
  rw [hk]
  ring

theorem setWidth_blkSize (S : Server) :
    (BitVec.ofNat 16 S.blkSize).setWidth 32 = BitVec.ofNat 32 S.blkSize := by
  have hlt := S.blkSize_lt
  apply BitVec.eq_of_toNat_eq
  rw [BitVec.toNat_setWidth, BitVec.toNat_ofNat, BitVec.toNat_ofNat]
  omega

theorem toNat_add_sub_add (a : ULong) {i j : ℕ} (hi : i < 2 ^ 32) (hj : j < 2 ^ 32) :
    (a + BitVec.ofNat 32 i - (a + BitVec.ofNat 32 j)).toNat =
      if j ≤ i then i - j else 2 ^ 32 + i - j := by
  have hcancel : a + BitVec.ofNat 32 i - (a + BitVec.ofNat 32 j) =
      BitVec.ofNat 32 i - BitVec.ofNat 32 j := by ring
  rw [hcancel, BitVec.toNat_sub, BitVec.toNat_ofNat, BitVec.toNat_ofNat, Nat.mod_eq_of_lt hi,
    Nat.mod_eq_of_lt hj]
  split <;> omega

/-- **Storing.**  Block `k` of the file goes behind the first `k` blocks. -/
theorem loaded_storeBlock {t : Client} {k : ℕ} (hfile : S.file.length < 2 ^ 32)
    (hk : k < S.blocks) (hblock : t.block = BitVec.ofNat 32 ((k + 1) % 2 ^ 16))
    (hblkSize : t.blkSize = BitVec.ofNat 16 S.blkSize)
    (hwrap : t.blockWrapOffset = BitVec.ofNat 32 ((k + 1) / 2 ^ 16 * 2 ^ 16 * S.blkSize))
    (h : Loaded S t (min (k * S.blkSize) S.file.length)) :
    Loaded S (storeBlock t (t.block - 1) (S.chunk k))
      (min ((k + 1) * S.blkSize) S.file.length) := by
  have hle := S.mul_blkSize_le hk
  have hend := S.add_length_chunk hk
  have hoffset : (t.block - 1) * t.blkSize.setWidth 32 + t.blockWrapOffset =
      BitVec.ofNat 32 (k * S.blkSize) := by
    rw [hblock, hblkSize, hwrap, setWidth_blkSize, offset_eq]
  rw [min_eq_left hle] at h
  generalize hm : k * S.blkSize = m at *
  constructor
  · have hsum : BitVec.ofNat 32 m + BitVec.ofNat 32 (S.chunk k).length =
        BitVec.ofNat 32 (m + (S.chunk k).length) := (BitVec.ofNat_add _ _).symm
    simp only [storeBlock, hoffset, hsum, h.size, hend]
    split
    · rfl
    · next hnot =>
      rw [BitVec.lt_def, BitVec.toNat_ofNat, BitVec.toNat_ofNat,
        Nat.mod_eq_of_lt (lt_of_le_of_lt hle hfile),
        Nat.mod_eq_of_lt (lt_of_le_of_lt (min_le_right _ _) hfile), ← hend] at hnot
      have hempty : (S.chunk k).length = 0 := by omega
      rw [← hend, hempty, Nat.add_zero]
  · intro i hi hin
    have hi32 : i < 2 ^ 32 := lt_trans hi hfile
    have hm32 : m < 2 ^ 32 := lt_of_le_of_lt hle hfile
    have hdist := toNat_add_sub_add t.loadAddr hi32 hm32
    simp only [storeBlock, hoffset, memcpy]
    by_cases hmi : m ≤ i
    · rw [if_pos hmi] at hdist
      have hin' : i - m < (S.chunk k).length := by omega
      have hidx : k * S.blkSize + (i - m) = i := by omega
      rw [dif_pos (hdist ▸ hin')]
      simp only [hdist]
      rw [S.getElem_chunk hin' (by omega)]
      simp only [hidx]
    · rw [if_neg hmi] at hdist
      have hout : ¬2 ^ 32 + i - m < (S.chunk k).length := by omega
      rw [dif_neg (hdist ▸ hout)]
      exact h.bytes i hi (not_le.mp hmi)

/-! ## Taking the next packet -/

/-- What handling a packet leads to: the state after `c` packets, which are acknowledged, or,
when these are all, the end of the load. -/
structure Taken (S : Server) (c : ℕ) (t : Client) (r : Client × List UdpPacket) : Prop where
  ourPort : r.1.ourPort = t.ourPort
  sent : r.2 = [ackPacket S t.ourPort c]
  state : c < S.total ∧ At S c r.1 ∨
    c = S.total ∧ r.1.net.netState = .success ∧ Correct S r.1

theorem Loaded.correct {t : Client} (hfile : S.file.length < 2 ^ 32)
    (h : Loaded S t S.file.length) : Correct S t where
  bytes i hi := h.bytes i hi hi
  size := by rw [h.size, BitVec.toNat_ofNat, Nat.mod_eq_of_lt hfile]

/-- **A new block.**  When the block number is the next one and the wrap offset fits it, the
block is stored and acknowledged, and a short one ends the load. -/
theorem acceptBlock_taken {t : Client} {c : ℕ} (hfile : S.file.length < 2 ^ 32)
    (hlistens : t.net.listens .tftpHandler = true) (hstate : t.state = .data)
    (hport : t.serverPort = S.tid) (hblkSize : t.blkSize = BitVec.ofNat 16 S.blkSize)
    (hc : S.oacks ≤ c) (hk : S.number c < S.blocks)
    (hblock : t.block = BitVec.ofNat 32 (S.number (c + 1) % 2 ^ 16))
    (hlast : t.block ≠ t.lastBlock)
    (hwrap : t.blockWrapOffset =
      BitVec.ofNat 32 (S.number (c + 1) / 2 ^ 16 * 2 ^ 16 * S.blkSize))
    (h : Loaded S t (min (S.number c * S.blkSize) S.file.length)) :
    Taken S (c + 1) t (acceptBlock t (S.chunk (S.number c))) := by
  have hnumber : S.number (c + 1) = S.number c + 1 := Nat.succ_sub hc
  rw [hnumber] at hblock hwrap
  have hstored := loaded_storeBlock hfile hk hblock hblkSize hwrap h
  have hat : At S (c + 1) (storeBlock (newBlock t) (t.block - 1) (S.chunk (S.number c))) :=
    { listens := hlistens
      state := by
        rw [hnumber, if_neg (Nat.succ_ne_zero c), if_neg (Nat.succ_ne_zero _)]
        exact hstate
      serverPort := hport
      blkSize := hblkSize
      block := by
        rw [hnumber]
        exact hblock
      lastBlock := fun _ => rfl
      wrapOffset := fun _ => by
        rw [hnumber]
        exact hwrap
      loaded := by
        rw [hnumber]
        exact ⟨hstored.size, hstored.bytes⟩ }
  have hsent := hat.tftpSend (Nat.succ_pos c)
  have hsize : (storeBlock (newBlock t) (t.block - 1)
      (S.chunk (S.number c))).blkSize.toNat = S.blkSize := by
    show t.blkSize.toNat = S.blkSize
    rw [hblkSize, BitVec.toNat_ofNat, Nat.mod_eq_of_lt S.blkSize_lt]
  rw [acceptBlock, if_neg hlast]
  simp only [hsize]
  split
  · next hshort =>
    have hlast := (S.succ_eq_blocks_iff hk).mpr hshort
    have hend := (S.length_chunk_lt_iff hk).mp hshort
    rw [min_eq_right (le_of_lt hend)] at hstored
    refine ⟨rfl, hsent, .inr ⟨?_, rfl, Loaded.correct hfile ⟨hstored.size, hstored.bytes⟩⟩⟩
    rw [Server.total, ← hlast, ← hnumber]
    exact (Nat.sub_add_cancel (Nat.le_succ_of_le hc)).symm
  · next hfull =>
    have hmore := mt (S.succ_eq_blocks_iff hk).mp hfull
    refine ⟨rfl, hsent, .inl ⟨?_, hat⟩⟩
    rw [Server.total, ← Nat.sub_lt_iff_lt_add (Nat.le_succ_of_le hc)]
    show S.number (c + 1) < S.blocks
    omega

/-! ## The packets one by one -/

theorem At.hears {c : ℕ} {t : Client} (h : At S c t) :
    ¬(t.state ≠ .rrq ∧ S.tid ≠ t.serverPort) := by
  rintro ⟨hstate, hport⟩
  have hs := h.state
  have hp := h.serverPort
  by_cases hc : c = 0
  · rw [if_pos hc] at hs
    exact hstate hs
  · rw [if_neg hc] at hp
    exact hport hp.symm

theorem tftpHandler_htons {t : Client} {src : ℕ} (h : ¬(t.state ≠ .rrq ∧ src ≠ t.serverPort))
    {op : ℕ} (hop : op < 2 ^ 16) (rest : List UInt8) :
    tftpHandler t (htons op ++ rest) t.ourPort src =
      if op = opOack then handleOack t src rest
      else if op = opData then handleData t src rest
      else if op = opError then (startAgain t, [])
      else (t, []) := by
  unfold tftpHandler
  rw [if_neg (not_not.mpr rfl), if_neg h, htons, List.cons_append, List.singleton_append]
  simp only [ntohs_htons, Nat.mod_eq_of_lt hop]

theorem tftpHandler_oack {t : Client} {src : ℕ} (h : ¬(t.state ≠ .rrq ∧ src ≠ t.serverPort))
    (rest : List UInt8) :
    tftpHandler t (htons opOack ++ rest) t.ourPort src = handleOack t src rest := by
  rw [tftpHandler_htons h (by decide), if_pos rfl]

theorem tftpHandler_data {t : Client} {src : ℕ} (h : ¬(t.state ≠ .rrq ∧ src ≠ t.serverPort))
    (rest : List UInt8) :
    tftpHandler t (htons opData ++ rest) t.ourPort src = handleData t src rest := by
  rw [tftpHandler_htons h (by decide), if_neg (by decide), if_pos rfl]

theorem tftpHandler_error {t : Client} {src : ℕ} (h : ¬(t.state ≠ .rrq ∧ src ≠ t.serverPort))
    (rest : List UInt8) :
    tftpHandler t (htons opError ++ rest) t.ourPort src = (startAgain t, []) := by
  rw [tftpHandler_htons h (by decide), if_neg (by decide), if_neg (by decide), if_pos rfl]

theorem readBlock_eq (t : Client) (block : ULong) :
    ∃ wrap offset, readBlock t block =
      { t with block := block, blockWrap := wrap, blockWrapOffset := offset } := by
  unfold readBlock
  split
  · exact ⟨_, _, rfl⟩
  · exact ⟨_, _, rfl⟩

theorem handleData_of_data {t : Client} (hstate : t.state = .data) (src n : ℕ)
    (data : List UInt8) :
    handleData t src (htons n ++ data) =
      acceptBlock (readBlock t (BitVec.ofNat 32 (n % 2 ^ 16))) data := by
  have hno : ¬((readBlock t (BitVec.ofNat 32 (n % 2 ^ 16))).state = .rrq ∨
      (readBlock t (BitVec.ofNat 32 (n % 2 ^ 16))).state = .oack) := by
    obtain ⟨wrap, offset, heq⟩ := readBlock_eq t (BitVec.ofNat 32 (n % 2 ^ 16))
    rw [heq]
    show ¬(t.state = .rrq ∨ t.state = .oack)
    rw [hstate]
    decide
  rw [htons, List.cons_append, List.singleton_append, handleData, ntohs_htons]
  exact if_neg hno

theorem handleData_of_first {t : Client} (hstate : t.state = .rrq ∨ t.state = .oack) (src : ℕ)
    (data : List UInt8) :
    handleData t src (htons 1 ++ data) =
      acceptBlock (firstBlock { t with block := 1 } src) data := by
  have hone : ¬(1 : ULong) = 0 := by decide
  have hread : readBlock t 1 = { t with block := 1 } := if_neg hone
  rw [htons, List.cons_append, List.singleton_append, handleData, ntohs_htons]
  show (if (readBlock t 1).state = .rrq ∨ (readBlock t 1).state = .oack then
    if (firstBlock (readBlock t 1) src).block ≠ 1 then _
    else acceptBlock (firstBlock (readBlock t 1) src) data else _) = _
  rw [hread, if_pos hstate]
  exact if_neg (not_not.mpr rfl)

theorem At.blkSize_eq {c : ℕ} {t : Client} (h : At S c t) (hc : S.oacks ≤ c) :
    t.blkSize = BitVec.ofNat 16 S.blkSize := by
  rw [h.blkSize]
  split
  · next h0 =>
    have hoacks : S.oacks = 0 := Nat.eq_zero_of_le_zero (h0 ▸ hc)
    have hnone : S.options = [] := by
      by_contra hne
      rw [Server.oacks, if_neg hne] at hoacks
      exact Nat.one_ne_zero hoacks
    rw [Server.blkSize, hnone]
    rfl
  · rfl

theorem handleOack_taken {c : ℕ} {t : Client} (h : At S c t) (hc : S.number c = 0)
    (hoptions : S.options ≠ []) :
    Taken S 1 t (handleOack t S.tid (S.options.flatMap OackOption.text)) := by
  have hone : S.number 1 = 0 := by rw [Server.number, Server.oacks, if_neg hoptions]
  have hblkSize : (oackBlksize (S.options.flatMap OackOption.text)).getD t.blkSize =
      BitVec.ofNat 16 S.blkSize := by
    rw [oackBlksize_flatMap S.options S.blksize_range, h.blkSize, Server.blkSize]
    cases acknowledgedBlksize S.options with
    | none =>
      show (if c = 0 then tftpBlockSize else tftpBlockSize) = _
      rw [ite_self]
      rfl
    | some size => rfl
  have hat : At S 1
      { t with
        state := .oack, serverPort := S.tid
        blkSize := (oackBlksize (S.options.flatMap OackOption.text)).getD t.blkSize } :=
    { listens := h.listens
      state := by rw [hone]; rfl
      serverPort := rfl
      blkSize := hblkSize
      block := by rw [hone, ← hc]; exact h.block
      lastBlock := fun hpos => absurd hpos (by rw [hone]; exact lt_irrefl 0)
      wrapOffset := fun hpos => absurd hpos (by rw [hone]; exact lt_irrefl 0)
      loaded := by rw [hone, ← hc]; exact ⟨h.loaded.size, h.loaded.bytes⟩ }
  have htotal : 1 < S.total := by
    rw [Server.total, Server.oacks, if_neg hoptions]
    exact Nat.succ_lt_succ (Nat.succ_pos _)
  exact ⟨rfl, hat.tftpSend Nat.one_pos, .inl ⟨htotal, hat⟩⟩

theorem handleData_taken_first {c : ℕ} {t : Client} (hfile : S.file.length < 2 ^ 32)
    (h : At S c t) (hc : S.oacks ≤ c) (hnumber : S.number c = 0) :
    Taken S (c + 1) t (handleData t S.tid (htons 1 ++ S.chunk (S.number c))) := by
  have hsucc : S.number (c + 1) = 1 := by
    rw [Server.number, Nat.succ_sub hc, ← Server.number, hnumber]
  have hstate : t.state = .rrq ∨ t.state = .oack := by
    rw [h.state, if_pos hnumber]
    by_cases h0 : c = 0
    · exact .inl (if_pos h0)
    · exact .inr (if_neg h0)
  have hne : (1 : ULong) ≠ 0 := by decide
  rw [handleData_of_first hstate]
  have htaken := acceptBlock_taken (t := firstBlock { t with block := 1 } S.tid) hfile
    h.listens rfl rfl (h.blkSize_eq hc) hc (hnumber ▸ Nat.succ_pos _) (by rw [hsucc]; rfl) hne
    (by rw [hsucc, Nat.div_eq_of_lt (by decide), Nat.zero_mul, Nat.zero_mul]; rfl)
    ⟨h.loaded.size, h.loaded.bytes⟩
  exact ⟨htaken.ourPort, htaken.sent, htaken.state⟩

theorem number_mod_ne (k : ℕ) :
    BitVec.ofNat 32 ((k + 1) % 2 ^ 16) ≠ BitVec.ofNat 32 (k % 2 ^ 16) := by
  intro h
  have hnat := congrArg BitVec.toNat h
  rw [toNat_number_mod, toNat_number_mod] at hnat
  omega

theorem number_mod_eq_zero_iff (k : ℕ) :
    BitVec.ofNat 32 (k % 2 ^ 16) = 0 ↔ k % 2 ^ 16 = 0 := by
  rw [← BitVec.toNat_inj, toNat_number_mod]
  rfl

theorem readBlock_wrapOffset {t : Client} {k : ℕ}
    (hblkSize : t.blkSize = BitVec.ofNat 16 S.blkSize)
    (hwrap : t.blockWrapOffset = BitVec.ofNat 32 (k / 2 ^ 16 * 2 ^ 16 * S.blkSize)) :
    (readBlock t (BitVec.ofNat 32 ((k + 1) % 2 ^ 16))).blockWrapOffset =
      BitVec.ofNat 32 ((k + 1) / 2 ^ 16 * 2 ^ 16 * S.blkSize) := by
  unfold readBlock
  split
  · next hzero =>
    have hdiv : (k + 1) / 2 ^ 16 = k / 2 ^ 16 + 1 := by
      have := (number_mod_eq_zero_iff _).mp hzero
      omega
    have hseq : tftpSequenceSize = BitVec.ofNat 32 (2 ^ 16) := rfl
    show t.blockWrapOffset + t.blkSize.setWidth 32 * tftpSequenceSize = _
    rw [hblkSize, setWidth_blkSize, hwrap, hseq, hdiv, ← BitVec.ofNat_mul, ← BitVec.ofNat_add]
    congr 1
    ring
  · next hzero =>
    have hdiv : (k + 1) / 2 ^ 16 = k / 2 ^ 16 := by
      have := mt (number_mod_eq_zero_iff _).mpr hzero
      omega
    show t.blockWrapOffset = _
    rw [hwrap, hdiv]

theorem handleData_taken_next {c : ℕ} {t : Client} (hfile : S.file.length < 2 ^ 32)
    (h : At S c t) (hc : S.oacks ≤ c) (hpos : 0 < S.number c) (hk : S.number c < S.blocks) :
    Taken S (c + 1) t
      (handleData t S.tid (htons (S.number c + 1) ++ S.chunk (S.number c))) := by
  have hsucc : S.number (c + 1) = S.number c + 1 := Nat.succ_sub hc
  have hc0 : c ≠ 0 := by
    rintro rfl
    rw [Server.number, Nat.zero_sub] at hpos
    exact lt_irrefl 0 hpos
  have hstate : t.state = .data := by
    rw [h.state, if_neg hc0, if_neg (Nat.pos_iff_ne_zero.mp hpos)]
  have hport : t.serverPort = S.tid := by rw [h.serverPort, if_neg hc0]
  have hblkSize := h.blkSize_eq hc
  have hlast : BitVec.ofNat 32 ((S.number c + 1) % 2 ^ 16) ≠ t.lastBlock := by
    rw [h.lastBlock hpos, h.block]
    exact number_mod_ne _
  have hwrap := readBlock_wrapOffset (S := S) hblkSize (h.wrapOffset hpos)
  obtain ⟨wrap, offset, heq⟩ :=
    readBlock_eq t (BitVec.ofNat 32 ((S.number c + 1) % 2 ^ 16))
  rw [handleData_of_data hstate]
  rw [heq] at hwrap ⊢
  have htaken := acceptBlock_taken (t := { t with
      block := BitVec.ofNat 32 ((S.number c + 1) % 2 ^ 16), blockWrap := wrap
      blockWrapOffset := offset }) hfile h.listens hstate hport hblkSize hc hk
    (by rw [hsucc]) hlast (by rw [hsucc]; exact hwrap) ⟨h.loaded.size, h.loaded.bytes⟩
  exact ⟨htaken.ourPort, htaken.sent, htaken.state⟩

theorem netReceiveUdp_next {c : ℕ} {t : Client} (hfile : S.file.length < 2 ^ 32) (h : At S c t)
    (hc : c < S.total) :
    Taken S (c + 1) t (netReceiveUdp t (S.packet t.ourPort c)) := by
  rw [netReceiveUdp, if_pos h.listens]
  show Taken S (c + 1) t (tftpHandler t (S.payload c) t.ourPort S.tid)
  have honce := S.oacks_le_one
  by_cases hoack : c < S.oacks
  · have hc0 : c = 0 := by omega
    have hoptions : S.options ≠ [] := by
      intro hnone
      rw [Server.oacks, if_pos hnone] at hoack
      exact Nat.not_lt_zero c hoack
    subst hc0
    rw [S.payload_oack hoptions, tftpHandler_oack h.hears]
    exact handleOack_taken h (Nat.zero_sub _) hoptions
  · have hle : S.oacks ≤ c := not_lt.mp hoack
    rw [S.payload_data hle, List.append_assoc, tftpHandler_data h.hears]
    by_cases hzero : S.number c = 0
    · have hfirst := handleData_taken_first hfile h hle hzero
      rw [hzero] at hfirst ⊢
      exact hfirst
    · refine handleData_taken_next hfile h hle (Nat.pos_of_ne_zero hzero) ?_
      rw [Server.number]
      rw [Server.total] at hc
      omega

/-! ## Copies of the last packet -/

theorem netReceiveUdp_oackAgain {t : Client} (h : At S 1 t) (hoack : 0 < S.oacks) :
    Taken S 1 t (netReceiveUdp t (S.packet t.ourPort 0)) := by
  have hoptions : S.options ≠ [] := by
    intro hnone
    rw [Server.oacks, if_pos hnone] at hoack
    exact lt_irrefl 0 hoack
  have hnumber : S.number 1 = 0 := by rw [Server.number, Server.oacks, if_neg hoptions]
  rw [netReceiveUdp, if_pos h.listens]
  show Taken S 1 t (tftpHandler t (S.payload 0) t.ourPort S.tid)
  rw [S.payload_oack hoptions, tftpHandler_oack h.hears]
  exact handleOack_taken h hnumber hoptions

theorem netReceiveUdp_again {c : ℕ} {t : Client} (h : At S (c + 1) t) (hc : S.oacks ≤ c)
    (hzero : (S.number c + 1) % 2 ^ 16 ≠ 0) :
    netReceiveUdp t (S.packet t.ourPort c) = (t, []) := by
  have hsucc : S.number (c + 1) = S.number c + 1 := Nat.succ_sub hc
  have hpos : 0 < S.number (c + 1) := by rw [hsucc]; exact Nat.succ_pos _
  have hstate : t.state = .data := by
    rw [h.state, if_neg (Nat.succ_ne_zero c), if_neg (Nat.pos_iff_ne_zero.mp hpos)]
  have hblock : BitVec.ofNat 32 ((S.number c + 1) % 2 ^ 16) = t.block := by
    rw [h.block, hsucc]
  have hne : ¬t.block = 0 := by
    rw [← hblock]
    exact mt (number_mod_eq_zero_iff _).mp hzero
  rw [netReceiveUdp, if_pos h.listens]
  show tftpHandler t (S.payload c) t.ourPort S.tid = (t, [])
  rw [S.payload_data hc, List.append_assoc, tftpHandler_data h.hears,
    handleData_of_data hstate, hblock]
  have hread : readBlock t t.block = t := if_neg hne
  rw [hread, acceptBlock, if_pos (h.lastBlock hpos).symm]

end Tftp
end EmevBsp
