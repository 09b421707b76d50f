import EmevBsp.LibGeneric.Vsprintf
import EmevBsp.Net.NfsStale

/-!
# `net/nfs.c`: the path of the file

`NfsStart` puts the path into its buffer and splits it at the last slash, and the reply to a
readlink request puts the target of the link there, in place of the path or behind it.

A path without a slash is not split: `basename` runs past its start, and `dirname` writes two bytes
before it.  Behind a relative target the terminator is put one byte too late, so it counts only when
the byte in between happens to be zero.
-/

namespace EmevBsp
namespace Net

/-! ## The start -/

/-- `string_to_ip`, for a string with its terminator: the loop. -/
def stringToIpFrom : ℕ → List UInt8 → ℕ → ℕ
  | 0, _, addr => addr
  | i + 1, s, addr =>
    let r := simpleStrtoul s 10
    stringToIpFrom i (if r.2.headD 0 ≠ 0 then r.2.tail else r.2) (2 ^ 8 * addr + r.1 % 2 ^ 8)

def stringToIp (s : List UInt8) : IPaddr := BitVec.ofNat 32 (stringToIpFrom 4 (s ++ [0]) 0)

/-- `"/nfsroot/%02lX%02lX%02lX%02lX.img"`, with the bytes of the address. -/
def defaultFilename (netOurIp : IPaddr) : List UInt8 :=
  [47, 110, 102, 115, 114, 111, 111, 116, 47] ++
    (ipBytes netOurIp).flatMap (fun b => zeroPad 2 (hexUpper b.toNat)) ++ [46, 105, 109, 103]

/-- The path that `NfsStart` takes, and the server. -/
def startPath (netServerIp netOurIp : IPaddr) (bootFile : List UInt8) : IPaddr × List UInt8 :=
  if bootFile = [] then (netServerIp, defaultFilename netOurIp)
  else
    match bootFile.dropWhile (· ≠ 58) with
    | _ :: p => (stringToIp bootFile, p)
    | [] => (netServerIp, bootFile)

def nfsStart (s : Nfs) (netServerIp netOurIp : IPaddr) (bootFile : List UInt8) :
    Nfs × List NfsDatagram :=
  let r := startPath netServerIp netOurIp bootFile
  let s := { s with
    nfsDownloadState := .fail
    nfsServerIp := r.1
    nfsPath := 0
    nfsPathBuff := copyPath s.nfsPathBuff 0 (fun i => r.2.getD i 0) (r.2.length + 1) }
  let s := { s.splitPath with
    timer := true
    nfsTimeoutCount := 0
    nfsState := .prclookupProgMountReq
    nfsOurPort := 1000 }
  nfsSend s

/-! ## Strings in memory -/

/-- The bytes `l` lie at `p`. -/
def PathBytes (m : ℤ → UInt8) (p : ℤ) (l : List UInt8) : Prop :=
  ∀ (k : ℕ) (b : UInt8), l[k]? = some b → m (p + k) = b

/-- The string `path` lies at `p`, with its terminator. -/
structure PathAt (m : ℤ → UInt8) (p : ℤ) (path : List UInt8) : Prop where
  no_zero : 0 ∉ path
  length_lt : path.length + 1 < 2 ^ 32
  holds : PathBytes m p (path ++ [0])

variable {m : ℤ → UInt8} {p : ℤ} {path l l' : List UInt8}

theorem pathBytes_append :
    PathBytes m p (l ++ l') ↔ PathBytes m p l ∧ PathBytes m (p + l.length) l' := by
  constructor
  · intro h
    refine ⟨fun k b hk => h k b ?_, fun k b hk => ?_⟩
    · rw [List.getElem?_append_left (List.getElem?_eq_some_iff.mp hk).1]
      exact hk
    · rw [Int.add_assoc, ← Int.natCast_add]
      refine h (l.length + k) b ?_
      rw [List.getElem?_append_right (Nat.le_add_right _ _), Nat.add_sub_cancel_left]
      exact hk
  · rintro ⟨hl, hl'⟩ k b hk
    by_cases hlt : k < l.length
    · rw [List.getElem?_append_left hlt] at hk
      exact hl k b hk
    · have hle : l.length ≤ k := Nat.le_of_not_lt hlt
      rw [List.getElem?_append_right hle] at hk
      have hplace := hl' (k - l.length) b hk
      rwa [Int.add_assoc, ← Int.natCast_add, Nat.add_sub_cancel' hle] at hplace

theorem pathBytes_singleton {b : UInt8} : PathBytes m p [b] ↔ m p = b := by
  constructor
  · intro h
    have hb := h 0 b rfl
    rwa [Int.natCast_zero, Int.add_zero] at hb
  · rintro h k c hk
    cases k with
    | zero => rw [Int.natCast_zero, Int.add_zero, h, Option.some.inj hk]
    | succ k => cases hk

theorem pathBytes_cons {b : UInt8} : PathBytes m p (b :: l) ↔ m p = b ∧ PathBytes m (p + 1) l := by
  rw [← List.singleton_append, pathBytes_append, pathBytes_singleton, List.length_singleton,
    Int.natCast_one]

theorem PathBytes.congr {m' : ℤ → UInt8} (h : PathBytes m p l)
    (hm : ∀ k : ℕ, k < l.length → m' (p + k) = m (p + k)) : PathBytes m' p l :=
  fun k b hk => (hm k (List.getElem?_eq_some_iff.mp hk).1).trans (h k b hk)

theorem strlenFrom_eq (h0 : 0 ∉ path) (h : PathBytes m p (path ++ [0])) {fuel : ℕ}
    (hfuel : path.length < fuel) : strlenFrom m p fuel = path.length := by
  induction path generalizing p fuel with
  | nil =>
    cases fuel with
    | zero => exact absurd hfuel (Nat.not_lt_zero _)
    | succ fuel => rw [strlenFrom, if_pos (pathBytes_singleton.mp h), List.length_nil]
  | cons c path ih =>
    cases fuel with
    | zero => exact absurd hfuel (Nat.not_lt_zero _)
    | succ fuel =>
      rw [List.cons_append, pathBytes_cons] at h
      have hc : c ≠ 0 := fun hc => h0 (hc ▸ List.mem_cons_self)
      rw [strlenFrom, if_neg (h.1 ▸ hc), ih (fun hmem => h0 (List.mem_cons_of_mem _ hmem)) h.2
        (Nat.lt_of_succ_lt_succ hfuel), List.length_cons]

theorem PathAt.strlen_eq (h : PathAt m p path) : strlen m p = path.length :=
  strlenFrom_eq h.no_zero h.holds (Nat.lt_of_succ_lt h.length_lt)

/-- **The string at `p`** is the path that lies there. -/
theorem PathAt.stringAt_eq (h : PathAt m p path) : stringAt m p = path := by
  rw [stringAt, h.strlen_eq]
  refine List.ext_getElem (by simp) fun k hk hk' => ?_
  have hb := h.holds k path[k] (by rw [List.getElem?_append_left hk', List.getElem?_eq_getElem hk'])
  simpa [← List.map_eq_flatMap] using hb

/-! ## The last slash -/

theorem PathAt.char (h : PathAt m p path) {k : ℕ} (hk : k < path.length) :
    m (p + k) = path[k] :=
  h.holds k path[k] (by rw [List.getElem?_append_left hk, List.getElem?_eq_getElem hk])

theorem basenameFrom_of_ne {k : ℕ} (h : ∀ j : ℕ, j < k → m (p + j) ≠ 47) :
    basenameFrom m p k = p - 1 := by
  induction k with
  | zero => rfl
  | succ k ih =>
    rw [basenameFrom, if_neg (h k (Nat.lt_succ_self k)), ih fun j hj => h j (Nat.lt_succ_of_lt hj)]

theorem basenameFrom_of_eq {i k : ℕ} (hi : m (p + i) = 47) (hik : i < k)
    (h : ∀ j : ℕ, i < j → j < k → m (p + j) ≠ 47) : basenameFrom m p k = p + i + 1 := by
  induction k with
  | zero => exact absurd hik (Nat.not_lt_zero i)
  | succ k ih =>
    rw [basenameFrom]
    by_cases hk : i = k
    · rw [← hk, if_pos hi]
    · have hlt : i < k := Nat.lt_of_le_of_ne (Nat.le_of_lt_succ hik) hk
      rw [if_neg (h k hlt (Nat.lt_succ_self k)),
        ih hlt fun j hij hj => h j hij (Nat.lt_succ_of_lt hj)]

/-- **`basename` of a path without a slash** points before it. -/
theorem basename_of_not_mem (h : PathAt m p path) (hslash : 47 ∉ path) :
    basename m p = p - 1 := by
  rw [basename, h.strlen_eq]
  refine basenameFrom_of_ne fun j hj hchar => hslash ?_
  rw [h.char hj] at hchar
  exact hchar ▸ List.getElem_mem hj

/-- **`basename` of a path with a slash** points behind the last one. -/
theorem basename_eq {dir base : List UInt8} (h : PathAt m p (dir ++ 47 :: base))
    (hbase : 47 ∉ base) : basename m p = p + dir.length + 1 := by
  rw [basename, h.strlen_eq]
  have hlen : dir.length < (dir ++ 47 :: base).length := by
    rw [List.length_append, List.length_cons]
    omega
  refine basenameFrom_of_eq ?_ hlen fun j hij hj hchar => hbase ?_
  · rw [h.char hlen, List.getElem_append_right (Nat.le_refl _)]
    simp only [Nat.sub_self, List.getElem_cons_zero]
  · obtain ⟨i, rfl⟩ : ∃ i, j = dir.length + (i + 1) := ⟨j - dir.length - 1, by omega⟩
    rw [h.char hj, List.getElem_append_right (Nat.le_add_right _ _)] at hchar
    simp only [Nat.add_sub_cancel_left, List.getElem_cons_succ] at hchar
    exact hchar ▸ List.getElem_mem _

theorem exists_last_slash (h : 47 ∈ path) : ∃ dir base, path = dir ++ 47 :: base ∧ 47 ∉ base := by
  obtain ⟨pre, post, hsplit, hpre⟩ := List.eq_append_cons_of_mem (List.mem_reverse.mpr h)
  refine ⟨post.reverse, pre.reverse, ?_, fun hmem => hpre (List.mem_reverse.mp hmem)⟩
  have hreverse := congrArg List.reverse hsplit
  rwa [List.reverse_reverse, List.reverse_append, List.reverse_cons, List.append_assoc,
    List.singleton_append] at hreverse

/-! ## Splitting -/

/-- The byte that `dirname` sets. -/
def dirnameByte (m : ℤ → UInt8) (p : ℤ) : ℤ := basename m p - 1

/-- The path at `p` is split: nothing outside it is written, and the two parts, with a slash between
them, are the path; or there is no slash, and the directory is empty. -/
def SplitsWell (m : ℤ → UInt8) (p : ℤ) (path : List UInt8) : Prop :=
  p ≤ dirnameByte m p ∧ dirnameByte m p ≤ p + path.length ∧
    let dir := stringAt (dirname m p) p
    let base := stringAt (dirname m p) (basename m p)
    (dir ++ 47 :: base = path ∨ (47 ∉ path ∧ dir = [] ∧ base = path))

theorem dirname_eq {dir base : List UInt8} (h : PathAt m p (dir ++ 47 :: base))
    (hbase : 47 ∉ base) :
    PathAt (dirname m p) p dir ∧ PathAt (dirname m p) (basename m p) base := by
  have hlength := h.length_lt
  have hzero := h.no_zero
  rw [List.length_append, List.length_cons] at hlength
  rw [List.mem_append, List.mem_cons, not_or, not_or] at hzero
  have hbytes := h.holds
  rw [List.append_assoc, List.cons_append, pathBytes_append, pathBytes_cons] at hbytes
  obtain ⟨hdir, -, hrest⟩ := hbytes
  have hname := basename_eq h hbase
  have hset : dirname m p = Function.update m (p + dir.length) 0 := by
    rw [dirname, hname, Int.add_sub_cancel]
  rw [hname, hset]
  refine ⟨⟨hzero.1, by omega, ?_⟩, ⟨hzero.2.2, by omega, ?_⟩⟩
  · rw [pathBytes_append, pathBytes_singleton, Function.update_self]
    refine ⟨hdir.congr fun k hk => Function.update_of_ne ?_ _ _, rfl⟩
    omega
  · refine hrest.congr fun k hk => Function.update_of_ne ?_ _ _
    omega

/-- **When a path is split.**  For every path, wherever it lies: exactly when there is a slash in
it. -/
theorem splitsWell_iff (h : PathAt m p path) : SplitsWell m p path ↔ 47 ∈ path := by
  constructor
  · rintro ⟨hwrite, -⟩
    by_contra hslash
    rw [dirnameByte, basename_of_not_mem h hslash] at hwrite
    omega
  · intro hslash
    obtain ⟨dir, base, rfl, hbase⟩ := exists_last_slash hslash
    obtain ⟨hdir, hname⟩ := dirname_eq h hbase
    have hbyte : dirnameByte m p = p + dir.length := by
      rw [dirnameByte, basename_eq h hbase, Int.add_sub_cancel]
    refine ⟨by omega, ?_, ?_⟩
    · rw [hbyte, List.length_append]
      omega
    · simp only
      rw [hdir.stringAt_eq, hname.stringAt_eq]
      exact .inl rfl

/-! ## Links -/

/-- The target of a link in a reply. -/
def linkTarget (rpc : Buf) : List UInt8 := bytesAt rpc (replyData 2) (ntohl rpc (replyData 1)).toNat

/-- The path that a link with the target leads to. -/
def linkPath (path target : List UInt8) : List UInt8 :=
  if target.head? = some 47 then target else path ++ 47 :: target

variable {s : Nfs} {rpc : Buf}

theorem copyPath_bytes (q : ℤ) (n : ℕ) :
    PathBytes (copyPath m q (fun i => rpc (replyData 2 + i)) n) q (bytesAt rpc (replyData 2) n) ∧
      ∀ a, a < q ∨ q + n ≤ a → copyPath m q (fun i => rpc (replyData 2 + i)) n a = m a := by
  refine ⟨fun k b hk => ?_, fun a ha => ?_⟩
  · have hlt : k < n := by
      have hlength := (List.getElem?_eq_some_iff.mp hk).1
      rwa [bytesAt, List.length_map, List.length_range] at hlength
    rw [bytesAt, List.getElem?_map, List.getElem?_range hlt] at hk
    rw [copyPath, if_pos (by omega), ← Option.some.inj hk]
    congr 2
    omega
  · rw [copyPath, if_neg (by omega)]

theorem length_linkTarget : (linkTarget rpc).length = (ntohl rpc (replyData 1)).toNat := by
  rw [linkTarget, bytesAt, List.length_map, List.length_range]

/-- A reply is taken. -/
def LinkAccepted (s : Nfs) (rpc : Buf) : Prop :=
  ntohl rpc 0 = s.rpcId ∧ replyStatus rpc = false ∧ ntohl rpc (replyData 0) = 0

theorem nfsReadlinkReply_absolute (h : LinkAccepted s rpc) (hslash : rpc (replyData 2) = 47)
    (hlen : (linkTarget rpc).length < 2 ^ 31) :
    PathBytes (nfsReadlinkReply s rpc).1.nfsPathBuff s.nfsPath (linkTarget rpc ++ [0]) := by
  obtain ⟨hid, hstatus, hzero⟩ := h
  have hint : (ntohl rpc (replyData 1)).toInt = (linkTarget rpc).length := by
    rw [length_linkTarget] at hlen ⊢
    rw [BitVec.toInt_eq_toNat_cond, if_pos (by omega)]
  have hbuff : (nfsReadlinkReply s rpc).1.nfsPathBuff = Function.update
      (copyPath s.nfsPathBuff s.nfsPath (fun i => rpc (replyData 2 + i))
        (ntohl rpc (replyData 1)).toNat) (s.nfsPath + (linkTarget rpc).length) 0 := by
    rw [nfsReadlinkReply, if_neg (not_not.mpr hid),
      if_neg (by rw [hstatus, hzero]; simp), ← hint]
    simp only [hslash]
    rfl
  rw [hbuff, pathBytes_append, pathBytes_singleton, Function.update_self]
  refine ⟨(copyPath_bytes _ _).1.congr fun k hk => Function.update_of_ne ?_ _ _, rfl⟩
  rw [← linkTarget] at hk
  omega

/-- **A relative target** stands behind the path and a slash, and what follows it is what was there
before, unless the target is empty. -/
theorem nfsReadlinkReply_relative (h : LinkAccepted s rpc) (hslash : rpc (replyData 2) ≠ 47)
    (hlen : (linkTarget rpc).length < 2 ^ 31) (hpath : PathAt s.nfsPathBuff s.nfsPath path)
    (hroom : path.length + 2 < 2 ^ 32) :
    PathBytes (nfsReadlinkReply s rpc).1.nfsPathBuff s.nfsPath (path ++ 47 :: linkTarget rpc) ∧
      (nfsReadlinkReply s rpc).1.nfsPathBuff
          (s.nfsPath + (path.length + 1 + (linkTarget rpc).length : ℕ)) =
        if linkTarget rpc = [] then 0
        else s.nfsPathBuff (s.nfsPath + (path.length + 1 + (linkTarget rpc).length : ℕ)) := by
  obtain ⟨hid, hstatus, hzero⟩ := h
  have hint : (ntohl rpc (replyData 1)).toInt = (linkTarget rpc).length := by
    rw [length_linkTarget] at hlen ⊢
    rw [BitVec.toInt_eq_toNat_cond, if_pos (by omega)]
  -- the path after `strcat`
  set m₁ := Function.update (Function.update s.nfsPathBuff (s.nfsPath + path.length) 47)
    (s.nfsPath + path.length + 1) 0 with hm₁
  have hcat : PathAt m₁ s.nfsPath (path ++ [47]) := by
    refine ⟨?_, by rw [List.length_append, List.length_singleton]; omega, ?_⟩
    · rw [List.mem_append, not_or]
      exact ⟨hpath.no_zero, by decide⟩
    · have hbytes := hpath.holds
      rw [pathBytes_append] at hbytes
      rw [List.append_assoc, pathBytes_append, List.singleton_append, pathBytes_cons,
        pathBytes_singleton, hm₁, Function.update_self]
      refine ⟨hbytes.1.congr fun k hk => ?_, ?_, rfl⟩
      · rw [Function.update_of_ne (by omega), Function.update_of_ne (by omega)]
      · rw [Function.update_of_ne (by omega), Function.update_self]
  have hpathlen : strlen m₁ s.nfsPath = path.length + 1 := by
    rw [hcat.strlen_eq, List.length_append, List.length_singleton]
  set q := s.nfsPath + (path.length + 1 : ℕ) with hq
  have hbuff : (nfsReadlinkReply s rpc).1.nfsPathBuff = Function.update
      (copyPath m₁ q (fun i => rpc (replyData 2 + i)) (ntohl rpc (replyData 1)).toNat)
      (q + (linkTarget rpc).length + 1) 0 := by
    have hplace : s.nfsPath + (((path.length + 1 : ℕ) : ℤ) + (ntohl rpc (replyData 1)).toInt + 1) =
        q + (linkTarget rpc).length + 1 := by
      rw [hint]
      omega
    rw [nfsReadlinkReply, if_neg (not_not.mpr hid), if_neg (by rw [hstatus, hzero]; simp)]
    simp only [if_pos hslash, hpath.strlen_eq, ← hm₁, hpathlen, hplace, ← hq]
  have hn : (linkTarget rpc).length = (ntohl rpc (replyData 1)).toNat := length_linkTarget
  have hcopy : PathBytes (copyPath m₁ q (fun i => rpc (replyData 2 + i)) _) q _ ∧ _ :=
    copyPath_bytes q (ntohl rpc (replyData 1)).toNat
  obtain ⟨htarget, hframe⟩ := hcopy
  have hplace : s.nfsPath + (path.length + 1 + (linkTarget rpc).length : ℕ) =
      q + (linkTarget rpc).length := by omega
  rw [hbuff, hplace]
  constructor
  · have hfront := hcat.holds
    rw [pathBytes_append] at hfront
    rw [← List.singleton_append, ← List.append_assoc, pathBytes_append]
    refine ⟨hfront.1.congr fun k hk => ?_, ?_⟩
    · rw [List.length_append, List.length_singleton] at hk
      rw [Function.update_of_ne (by omega)]
      exact hframe _ (.inl (by omega))
    · rw [List.length_append, List.length_singleton, ← hq]
      refine htarget.congr fun k hk => Function.update_of_ne ?_ _ _
      rw [← linkTarget] at hk
      omega
  · rw [Function.update_of_ne (by omega), hframe _ (.inr (by omega)), hm₁]
    by_cases hnil : linkTarget rpc = []
    · have hempty : (linkTarget rpc).length = 0 := by rw [hnil]; rfl
      have hend : q + ((linkTarget rpc).length : ℤ) = s.nfsPath + path.length + 1 := by omega
      rw [if_pos hnil, hend, Function.update_self]
    · have hpos : 0 < (linkTarget rpc).length := List.length_pos_iff.mpr hnil
      rw [if_neg hnil, Function.update_of_ne (by omega), Function.update_of_ne (by omega)]

/-- The path of the link and its terminator stand in the buffer. -/
def LinkFollowed (s : Nfs) (rpc : Buf) (path : List UInt8) : Prop :=
  PathBytes (nfsReadlinkReply s rpc).1.nfsPathBuff s.nfsPath
    (linkPath path (linkTarget rpc) ++ [0])

theorem head?_linkTarget (h : linkTarget rpc ≠ []) :
    (linkTarget rpc).head? = some (rpc (replyData 2)) := by
  have hpos : 0 < (ntohl rpc (replyData 1)).toNat := by
    rw [← length_linkTarget]
    exact List.length_pos_iff.mpr h
  obtain ⟨n, hn⟩ : ∃ n, (ntohl rpc (replyData 1)).toNat = n + 1 :=
    ⟨_, (Nat.succ_pred hpos.ne').symm⟩
  rw [linkTarget, hn, bytesAt, List.range_succ_eq_map, List.map_cons, List.head?_cons, Nat.add_zero]

theorem linkFollowed_iff (h : LinkAccepted s rpc) (hlen : (linkTarget rpc).length < 2 ^ 31)
    (hpath : PathAt s.nfsPathBuff s.nfsPath path) (hroom : path.length + 2 < 2 ^ 32) :
    LinkFollowed s rpc path ↔
      if rpc (replyData 2) = 47 then linkTarget rpc ≠ []
      else linkTarget rpc = [] ∨
        s.nfsPathBuff (s.nfsPath + (path.length + 1 + (linkTarget rpc).length : ℕ)) = 0 := by
  by_cases hslash : rpc (replyData 2) = 47
  · rw [if_pos hslash, LinkFollowed]
    have hbytes := nfsReadlinkReply_absolute h hslash hlen
    by_cases hnil : linkTarget rpc = []
    · refine iff_of_false (fun hfollowed => ?_) (not_not.mpr hnil)
      -- the path is gone, and no slash stands where it began
      rw [hnil, List.nil_append, pathBytes_singleton] at hbytes
      have hjoin : linkPath path (linkTarget rpc) = path ++ [47] := by rw [hnil]; rfl
      rw [hjoin] at hfollowed
      cases path with
      | nil =>
        have hfirst := hfollowed 0 47 rfl
        rw [Int.natCast_zero, Int.add_zero, hbytes] at hfirst
        exact absurd hfirst (by decide)
      | cons c path =>
        have hfirst := hfollowed 0 c rfl
        rw [Int.natCast_zero, Int.add_zero, hbytes] at hfirst
        exact hpath.no_zero (hfirst ▸ List.mem_cons_self)
    · have hhead := head?_linkTarget hnil
      rw [linkPath, if_pos (by rw [hhead, hslash])]
      exact iff_of_true hbytes hnil
  · rw [if_neg hslash, LinkFollowed]
    obtain ⟨hbytes, hlast⟩ := nfsReadlinkReply_relative h hslash hlen hpath hroom
    have hrelative : linkPath path (linkTarget rpc) = path ++ 47 :: linkTarget rpc := by
      by_cases hnil : linkTarget rpc = []
      · rw [hnil]
        rfl
      · have hhead : (linkTarget rpc).head? ≠ some 47 := by
          rw [head?_linkTarget hnil]
          exact fun h => hslash (Option.some.inj h)
        rw [linkPath, if_neg hhead]
    have hlength : (path ++ 47 :: linkTarget rpc).length =
        path.length + 1 + (linkTarget rpc).length := by
      rw [List.length_append, List.length_cons]
      omega
    rw [hrelative, pathBytes_append, pathBytes_singleton, hlength, and_iff_right hbytes, hlast]
    by_cases hnil : linkTarget rpc = []
    · rw [if_pos hnil]
      exact iff_of_true rfl (.inl hnil)
    · rw [if_neg hnil, or_iff_right hnil]

/-- **When the paths come out right.**  A path is split exactly when there is a slash in it.  A
reply that is taken, with a target within the packet, makes the path what it should be exactly when
its target is not empty if there is a slash at its place; and otherwise when it is empty or the
byte behind its place was zero before. -/
theorem nfsPath_iff (m : ℤ → UInt8) (p : ℤ) (path : List UInt8) (s : Nfs) (stack pkt : Buf)
    (len : ℕ) :
    (PathAt m p path → (SplitsWell m p path ↔ 47 ∈ path)) ∧
    (PathAt s.nfsPathBuff s.nfsPath path → path.length + 2 < 2 ^ 32 →
      LinkAccepted s (rpcPkt stack pkt len) →
      replyData 2 + (linkTarget (rpcPkt stack pkt len)).length ≤ len → len < 2 ^ 16 →
      (LinkFollowed s (rpcPkt stack pkt len) path ↔
        if rpcPkt stack pkt len (replyData 2) = 47 then linkTarget (rpcPkt stack pkt len) ≠ []
        else linkTarget (rpcPkt stack pkt len) = [] ∨
          s.nfsPathBuff (s.nfsPath +
            (path.length + 1 + (linkTarget (rpcPkt stack pkt len)).length : ℕ)) = 0)) := by
  refine ⟨splitsWell_iff, ?_⟩
  intro hpath hroom h hfit hlen
  refine linkFollowed_iff h ?_ hpath hroom
  omega

/-- The reply to request 7: a link to `b`. -/
def linkPkt : Buf := fun i => if i = 3 then 7 else if i = 31 then 1 else if i = 32 then 98 else 0

/-- The path `/b`. -/
def slashPath : ℤ → UInt8 := fun a => if a = 0 then 47 else if a = 1 then 98 else 0

theorem pathAt_slashPath : PathAt slashPath 0 [47, 98] := by
  refine ⟨by decide, by decide, ?_⟩
  rw [List.cons_append, List.cons_append, List.nil_append, pathBytes_cons, pathBytes_cons,
    pathBytes_singleton]
  exact ⟨rfl, rfl, rfl⟩

theorem pathAt_nil : PathAt (fun _ => 0) 0 [] :=
  ⟨List.not_mem_nil, by decide, pathBytes_singleton.mpr rfl⟩

/-- `/b` is split, and the link to `b` is followed. -/
theorem nfsPath_iff_link :
    SplitsWell slashPath 0 [47, 98] ∧
      LinkFollowed exampleNfs (rpcPkt (fun _ => 0) linkPkt 36) [] := by
  refine ⟨((nfsPath_iff slashPath 0 [47, 98] exampleNfs (fun _ => 0) linkPkt 36).1
    pathAt_slashPath).mpr (by decide), ?_⟩
  refine ((nfsPath_iff (fun _ => 0) 0 [] exampleNfs (fun _ => 0) linkPkt 36).2 pathAt_nil
    (by decide) ⟨by decide, by decide, by decide⟩ (by decide) (by decide)).mpr ?_
  rw [if_neg (by decide)]
  exact Or.inr rfl

/-- **A path without a slash is not split.** -/
theorem not_splitsWell : ¬∀ m p path, PathAt m p path → SplitsWell m p path := by
  intro hall
  have hpath : PathAt (fun a => if a = 0 then 102 else 0) 0 [102] := by
    refine ⟨by decide, by decide, ?_⟩
    rw [List.singleton_append, pathBytes_cons, pathBytes_singleton]
    exact ⟨rfl, rfl⟩
  exact absurd ((splitsWell_iff hpath).mp (hall _ 0 [102] hpath)) (by decide)

end Net
end EmevBsp
