import EmevBsp.Vold.Volume

/-!
# A volume behind a call that may fail

A volume is settled when it is idle with nothing mounted, or mounted with the card, the bind mount
and the cover in place, or has no medium.  Each call of `Volume.cpp` starts from an idle or a
mounted volume; every table it passes through is a `cardTable`.

`unmountVol` always leaves a settled volume.  `formatVol` stays in its `Formatting` when a step
fails.  `mountVol` leaves mounts behind when the tmpfs or the move fails, and wherever its own
`umount` of the staging directory fails.
-/

namespace EmevBsp
namespace Vold

/-! ## The tables on the way -/

/-- The card at `s`, with or without the bind mount and the cover. -/
def cardTable (s : Spot) (bound covered : Bool) : Table
  | .root s' => if s' = s then [.card] else []
  | .secimg s' => if s' = s ∧ covered = true then [.tmpfs] else []
  | .asec => if bound = true then [.secureDir] else []
  | .asecSecure => []

/-- No card, with or without the bind mount. -/
def looseTable (bound : Bool) : Table
  | .asec => if bound = true then [.secureDir] else []
  | _ => []

/-- The mount table is the one of the state: nothing is mounted, or everything. -/
def Matches (v : Volume) : Prop :=
  (v.state = .idle ∧ v.table = fun _ => []) ∨
    (v.state = .mounted ∧ v.table = cardTable .mountpoint true true)

/-- The volume is idle, mounted or without a medium, and but for the last the mount table is the
one of the state. -/
structure Settled (v : Volume) : Prop where
  state : v.state = .idle ∨ v.state = .mounted ∨ v.state = .noMedia
  table : v.state ≠ .noMedia → Matches v

variable {s d : Spot} {bound covered : Bool} {v : Volume}

theorem Matches.settled (h : Matches v) : Settled v := by
  refine ⟨?_, fun _ => h⟩
  rcases h with ⟨hstate, -⟩ | ⟨hstate, -⟩
  · exact .inl hstate
  · exact .inr (.inl hstate)

theorem settled_noMedia (h : v.state = .noMedia) : Settled v :=
  ⟨.inr (.inr h), fun hne => absurd h hne⟩

theorem settled_idle_iff (h : v.state = .idle) : Settled v ↔ v.table = fun _ => [] := by
  constructor
  · intro hsettled
    rcases hsettled.table (by rw [h]; decide) with ⟨-, htable⟩ | ⟨hstate, -⟩
    · exact htable
    · rw [h] at hstate
      exact absurd hstate (by decide)
  · exact fun htable => Matches.settled (.inl ⟨h, htable⟩)

theorem looseTable_false : looseTable false = fun _ => [] := by
  funext p
  cases p <;> rfl

theorem looseTable_ne : looseTable true ≠ fun _ => [] := fun h =>
  absurd (congrFun h .asec) (by decide)

theorem cardTable_ne : cardTable s bound covered ≠ fun _ => [] := fun h =>
  absurd (congrFun h (.root s)) (by simp [cardTable])

/-! ## The calls on these tables -/

theorem mount_card : mount (fun _ => []) (.root s) .card none =
    (none, cardTable s false false) := by
  refine congrArg (Prod.mk none) (funext fun p => ?_)
  cases p <;> simp [cardTable, Function.update_apply]

theorem mount_asec : mount (cardTable s false covered) .asec .secureDir none =
    (none, cardTable s true covered) := by
  refine congrArg (Prod.mk none) (funext fun p => ?_)
  cases p <;> simp [cardTable]

theorem mount_tmpfs : mount (cardTable s bound false) (.secimg s) .tmpfs none =
    (none, cardTable s bound true) := by
  refine congrArg (Prod.mk none) (funext fun p => ?_)
  cases p <;> simp [cardTable, Function.update_apply]

theorem move_card (hne : s ≠ d) : move (cardTable s bound covered) s d none =
    (none, cardTable d bound covered) := by
  have hroot : cardTable s bound covered (.root s) = [.card] := if_pos rfl
  unfold move
  rw [hroot]
  refine congrArg (Prod.mk none) (funext fun p => ?_)
  cases p with
  | root s' => cases s <;> cases d <;> cases s' <;> simp_all [cardTable]
  | secimg s' => cases s <;> cases d <;> cases s' <;> simp_all [cardTable]
  | asec => simp [cardTable]
  | asecSecure => simp [cardTable]

theorem move_fail (e : Fail) : move (cardTable s bound covered) s d (some e) =
    (some e.errno, cardTable s bound covered) := by
  have hroot : cardTable s bound covered (.root s) = [.card] := if_pos rfl
  unfold move
  rw [hroot]

theorem umount_eq {t : Table} {p : Path} {m : Source} {rest : List Source} (hp : t p = m :: rest)
    (hbusy : ¬ t.Busy p) (answer : Option Fail) :
    umount t p answer = match answer with
      | some e => (some e.errno, t)
      | none => (none, Function.update t p rest) := by
  rw [umount, hp]
  exact if_neg hbusy

theorem umount_card (answer : Option Fail) :
    umount (cardTable s bound false) (.root s) answer = match answer with
      | some e => (some e.errno, cardTable s bound false)
      | none => (none, looseTable bound) := by
  have hbusy : ¬ (cardTable s bound false).Busy (.root s) := by simp [Table.Busy, cardTable]
  rw [umount_eq (if_pos rfl) hbusy]
  cases answer with
  | some e => rfl
  | none =>
    refine congrArg (Prod.mk none) (funext fun p => ?_)
    cases p <;> simp [cardTable, looseTable, Function.update_apply]

theorem umount_tmpfs (answer : Option Fail) :
    umount (cardTable s bound true) (.secimg s) answer = match answer with
      | some e => (some e.errno, cardTable s bound true)
      | none => (none, cardTable s bound false) := by
  rw [umount_eq (if_pos ⟨rfl, rfl⟩) id]
  cases answer with
  | some e => rfl
  | none =>
    refine congrArg (Prod.mk none) (funext fun p => ?_)
    cases p <;> simp [cardTable, Function.update_apply]

theorem umount_asec (answer : Option Fail) :
    umount (cardTable s true covered) .asec answer = match answer with
      | some e => (some e.errno, cardTable s true covered)
      | none => (none, cardTable s false covered) := by
  have hasec : cardTable s true covered .asec = [.secureDir] := rfl
  rw [umount_eq hasec id]
  cases answer with
  | some e => rfl
  | none =>
    refine congrArg (Prod.mk none) (funext fun p => ?_)
    cases p <;> simp [cardTable]

theorem umount_covered (answer : Option Fail) :
    umount (cardTable s bound true) (.root s) answer =
      (some .ebusy, cardTable s bound true) := by
  have hroot : cardTable s bound true (.root s) = [.card] := if_pos rfl
  have hbusy : (cardTable s bound true).Busy (.root s) := by simp [Table.Busy, cardTable]
  rw [umount, hroot]
  exact if_pos hbusy

theorem umount_asecSecure (answer : Option Fail) :
    (umount (cardTable s bound covered) .asecSecure answer).2 = cardTable s bound covered := rfl

/-! ## The calls that are retried -/

/-- Some attempt of the first `n` succeeds, and the ones before it only found the path busy. -/
def Succeeds (n : ℕ) (attempts : ℕ → Option Fail) : Prop :=
  ∃ i < n, attempts i = none ∧ ∀ j < i, attempts j = some .ebusy

theorem succeeds_succ {n : ℕ} {attempts : ℕ → Option Fail} :
    Succeeds (n + 1) attempts ↔ attempts 0 = none ∨
      (attempts 0 = some .ebusy ∧ Succeeds n fun i => attempts (i + 1)) := by
  constructor
  · rintro ⟨i, hi, hnone, hbusy⟩
    cases i with
    | zero => exact .inl hnone
    | succ i =>
      exact .inr ⟨hbusy 0 (Nat.succ_pos i), i, Nat.lt_of_succ_lt_succ hi, hnone, fun j hj =>
        hbusy (j + 1) (Nat.succ_lt_succ hj)⟩
  · rintro (hnone | ⟨hfirst, i, hi, hnone, hbusy⟩)
    · exact ⟨0, Nat.succ_pos n, hnone, fun j hj => absurd hj (Nat.not_lt_zero j)⟩
    · refine ⟨i + 1, Nat.succ_lt_succ hi, hnone, fun j hj => ?_⟩
      cases j with
      | zero => exact hfirst
      | succ j => exact hbusy j (Nat.lt_of_succ_lt_succ hj)

open Classical in
theorem doMoveLoop_eq (hne : s ≠ d) (n : ℕ) (attempts : ℕ → Option Fail) :
    doMoveLoop s d n attempts (cardTable s bound covered) =
      if Succeeds n attempts then (0, cardTable d bound covered)
      else (-1, cardTable s bound covered) := by
  induction n generalizing attempts with
  | zero => rw [doMoveLoop, if_neg (fun ⟨i, hi, _⟩ => absurd hi (Nat.not_lt_zero i))]
  | succ n ih =>
    rw [doMoveLoop, succeeds_succ]
    cases hfirst : attempts 0 with
    | none => rw [move_card hne, if_pos (.inl rfl)]
    | some e =>
      rw [move_fail]
      cases e with
      | ebusy =>
        refine (ih fun i => attempts (i + 1)).trans ?_
        simp
      | other =>
        rw [if_neg (by simp)]
        rfl

open Classical in
theorem doMoveMount_eq (hne : s ≠ d) (attempts : ℕ → Option Fail) :
    doMoveMount s d attempts (cardTable s bound covered) =
      if Succeeds 5 attempts then (0, cardTable d bound covered)
      else (-1, cardTable s bound covered) :=
  doMoveLoop_eq hne 5 attempts

theorem doUnmount_cases {t t' : Table} {p : Path}
    (hp : ∀ answer, umount t p answer = match answer with
      | some e => (some e.errno, t)
      | none => (none, t')) (attempts : ℕ → Option Fail) :
    doUnmount p attempts t = (0, t') ∨ doUnmount p attempts t = (-1, t) := by
  unfold doUnmount
  induction 10 generalizing attempts with
  | zero => exact .inr rfl
  | succ n ih =>
    rw [doUnmountLoop, hp]
    cases attempts 0 with
    | none => exact .inl rfl
    | some e =>
      cases e with
      | ebusy => exact ih _
      | other => exact ih _

/-! ## `unmountVol` -/

theorem settled_failRepublish {a : UnmountAnswers} (h : v.table = cardTable .staging true true) :
    Settled (v.failRepublish a).2 := by
  classical
  rw [Volume.failRepublish, h, doMoveMount_eq (by decide)]
  by_cases hback : Succeeds 5 a.moveBack
  · rw [if_pos hback, if_neg (not_not.mpr rfl)]
    exact Matches.settled (.inr ⟨rfl, rfl⟩)
  · rw [if_neg hback, if_pos (by decide)]
    exact settled_noMedia rfl

theorem settled_failRemountTmpfs {a : UnmountAnswers}
    (h : v.table = cardTable .staging true false) : Settled (v.failRemountTmpfs a).2 := by
  rw [Volume.failRemountTmpfs, h]
  cases a.tmpfs with
  | some e => exact settled_noMedia rfl
  | none =>
    rw [mount_tmpfs]
    exact settled_failRepublish rfl

theorem settled_failRecreateBindmount {a : UnmountAnswers}
    (h : v.table = cardTable .staging false false) : Settled (v.failRecreateBindmount a).2 := by
  rw [Volume.failRecreateBindmount, h]
  cases a.bind with
  | some e => exact settled_noMedia rfl
  | none =>
    rw [mount_asec]
    exact settled_failRemountTmpfs rfl

/-- **`unmountVol`** leaves a settled volume. -/
theorem settled_unmountVol (h : Matches v) (a : UnmountAnswers) : Settled (v.unmountVol a).2 := by
  classical
  rcases h with ⟨hstate, htable⟩ | ⟨hstate, htable⟩
  · rw [Volume.unmountVol, if_pos (by rw [hstate]; decide)]
    exact Matches.settled (.inl ⟨hstate, htable⟩)
  · rw [Volume.unmountVol, if_neg (not_not.mpr hstate)]
    dsimp only [Volume.setState]
    rw [htable, doMoveMount_eq (by decide)]
    by_cases hout : Succeeds 5 a.moveOut
    · rw [if_pos hout, if_neg (not_not.mpr rfl)]
      rcases doUnmount_cases umount_tmpfs a.umountTmpfs with htmpfs | htmpfs
      · rw [htmpfs, if_neg (not_not.mpr rfl)]
        rcases doUnmount_cases umount_asec a.umountAsec with hasec | hasec
        · rw [hasec, if_neg (not_not.mpr rfl)]
          rcases doUnmount_cases umount_card a.umountStaging with hcard | hcard
          · rw [hcard, if_neg (not_not.mpr rfl)]
            exact Matches.settled (.inl ⟨rfl, looseTable_false⟩)
          · rw [hcard, if_pos (by decide)]
            exact settled_failRecreateBindmount rfl
        · rw [hasec, if_pos (by decide)]
          exact settled_failRemountTmpfs rfl
      · rw [htmpfs, if_pos (by decide)]
        exact settled_failRepublish rfl
    · rw [if_neg hout, if_pos (by decide)]
      exact Matches.settled (.inr ⟨rfl, rfl⟩)

/-! ## `formatVol` -/

/-- **`formatVol`** leaves a settled volume when both of its steps succeed. -/
theorem settled_formatVol_iff (h : Matches v) (a : FormatAnswers) :
    Settled (v.formatVol a).2 ↔ (v.state = .idle → a.initializeMbr = 0 ∧ a.format = 0) := by
  have hformatting {w : Volume} (hw : w.state = .formatting) : ¬ Settled w := by
    rintro ⟨hstate, -⟩
    rw [hw] at hstate
    exact absurd hstate (by decide)
  rcases h with ⟨hstate, htable⟩ | ⟨hstate, htable⟩
  · have hfree : ¬ v.isMountpointMounted a.procMounts = true := by
      simp [Volume.isMountpointMounted, htable]
    rw [Volume.formatVol, if_neg (by rw [hstate]; decide), if_neg (not_not.mpr hstate),
      if_neg hfree]
    dsimp only
    by_cases hmbr : a.initializeMbr = 0
    · rw [if_neg (not_not.mpr hmbr)]
      by_cases hformat : a.format = 0
      · rw [if_neg (not_not.mpr hformat)]
        exact iff_of_true (Matches.settled (.inl ⟨rfl, htable⟩)) fun _ => ⟨hmbr, hformat⟩
      · rw [if_pos hformat]
        exact iff_of_false (hformatting rfl) fun hok => hformat (hok hstate).2
    · rw [if_pos hmbr]
      exact iff_of_false (hformatting rfl) fun hok => hmbr (hok hstate).1
  · rw [Volume.formatVol, if_neg (by rw [hstate]; decide), if_pos (by rw [hstate]; decide)]
    refine iff_of_true (Matches.settled (.inr ⟨hstate, htable⟩)) fun hidle => ?_
    rw [hstate] at hidle
    exact absurd hidle (by decide)

/-! ## `mountVol` -/

/-- Some device node passes its check and can be mounted, before one that fails its check. -/
def mountsNode : List Node → Bool
  | [] => false
  | n :: ns =>
    match n.check with
    | .noFat => mountsNode ns
    | .bad => false
    | .ok => n.mount = none || mountsNode ns

/-- What happens on the staging directory ends well: everything succeeds, or the bind mount already
fails and the staging directory can be unmounted. -/
def MountAnswers.EndsWell (a : MountAnswers) : Prop :=
  if a.bindMounts.hasDir = true ∧ a.bindMounts.bind = none then
    a.bindMounts.tmpfs = none ∧ Succeeds 5 a.move
  else a.umountStaging = none

theorem settled_giveUp_iff (a : MountAnswers) :
    Settled (v.giveUp a).2 ↔
      (umount v.table (.root .staging) a.umountStaging).2 = fun _ => [] :=
  settled_idle_iff rfl

theorem settled_giveUp_card (a : MountAnswers) (h : v.table = cardTable .staging bound false) :
    Settled (v.giveUp a).2 ↔ bound = false ∧ a.umountStaging = none := by
  rw [settled_giveUp_iff, h, umount_card]
  cases a.umountStaging with
  | some e => exact iff_of_false cardTable_ne (by simp)
  | none =>
    cases bound with
    | false => exact iff_of_true looseTable_false ⟨rfl, rfl⟩
    | true => exact iff_of_false looseTable_ne (by simp)

theorem not_settled_giveUp_covered (a : MountAnswers)
    (h : v.table = cardTable .staging bound true) : ¬ Settled (v.giveUp a).2 := by
  rw [settled_giveUp_iff, h, umount_covered]
  exact cardTable_ne

theorem createBindMounts_eq (a : BindAnswers) :
    createBindMounts a (cardTable .staging false false) =
      if a.hasDir = true ∧ a.bind = none then
        if a.tmpfs = none then (0, cardTable .staging true true)
        else (-1, cardTable .staging true false)
      else (-1, cardTable .staging false false) := by
  rw [createBindMounts]
  cases hdir : a.hasDir with
  | false => simp
  | true =>
    cases hbind : a.bind with
    | some e => simp [mount]
    | none =>
      rw [if_neg (by simp), mount_asec]
      dsimp only
      cases htmpfs : a.tmpfs with
      | some e => simp [mount, umount_asecSecure]
      | none =>
        rw [mount_tmpfs]
        simp

theorem settled_publish_iff (a : MountAnswers) (n : Node)
    (h : v.table = cardTable .staging false false) :
    Settled (v.publish a n).2 ↔ a.EndsWell := by
  classical
  rw [Volume.publish, h, createBindMounts_eq, MountAnswers.EndsWell]
  dsimp only
  by_cases hbind : a.bindMounts.hasDir = true ∧ a.bindMounts.bind = none
  · rw [if_pos hbind, if_pos hbind]
    by_cases htmpfs : a.bindMounts.tmpfs = none
    · rw [if_pos htmpfs, if_neg (not_not.mpr rfl), doMoveMount_eq (by decide)]
      by_cases hmove : Succeeds 5 a.move
      · rw [if_pos hmove, if_neg (not_not.mpr rfl)]
        exact iff_of_true (Matches.settled (.inr ⟨rfl, rfl⟩)) ⟨htmpfs, hmove⟩
      · -- the cover keeps the staging directory busy
        rw [if_neg hmove, if_pos (by decide)]
        exact iff_of_false (not_settled_giveUp_covered a rfl) fun hok => hmove hok.2
    · -- the bind mount stays
      rw [if_neg htmpfs, if_pos (by decide)]
      refine iff_of_false (fun hsettled => ?_) fun hok => htmpfs hok.1
      exact absurd ((settled_giveUp_card a rfl).mp hsettled).1 (by decide)
  · rw [if_neg hbind, if_neg hbind, if_pos (by decide)]
    exact (settled_giveUp_card a rfl).trans (and_iff_right rfl)

theorem settled_mountLoop_iff (a : MountAnswers) (ns : List Node) (h : v.table = fun _ => []) :
    Settled (v.mountLoop a ns).2 ↔ (mountsNode ns = true → a.EndsWell) := by
  induction ns generalizing v with
  | nil => exact iff_of_true ((settled_idle_iff rfl).mpr h) fun hnone => absurd hnone (by decide)
  | cons n ns ih =>
    rw [Volume.mountLoop, mountsNode]
    dsimp only [Volume.setState]
    cases hcheck : n.check with
    | noFat => exact ih h
    | bad =>
      exact iff_of_true ((settled_idle_iff rfl).mpr h) fun hnone => absurd hnone Bool.false_ne_true
    | ok =>
      dsimp only
      rw [h]
      cases hmount : n.mount with
      | some e =>
        refine (ih rfl).trans ?_
        simp
      | none =>
        rw [mount_card]
        refine (settled_publish_iff a n rfl).trans ?_
        simp

/-- **`mountVol`** leaves a settled volume when what happens on the staging directory ends well. -/
theorem settled_mountVol_iff (h : Matches v) (a : MountAnswers) :
    Settled (v.mountVol a).2 ↔
      (v.state = .idle → mountsNode a.nodes = true → a.EndsWell) := by
  rcases h with ⟨hstate, htable⟩ | ⟨hstate, htable⟩
  · have hfree : ¬ v.isMountpointMounted a.procMounts = true := by
      simp [Volume.isMountpointMounted, htable]
    rw [Volume.mountVol, if_neg (by rw [hstate]; decide), if_neg (not_not.mpr hstate),
      if_neg hfree, forall_prop_of_true hstate]
    split_ifs with hnodes
    · refine iff_of_true (Matches.settled (.inl ⟨hstate, htable⟩)) fun hnone => ?_
      rw [hnodes] at hnone
      exact absurd hnone (by decide)
    · exact settled_mountLoop_iff a a.nodes htable
  · rw [Volume.mountVol, if_neg (by rw [hstate]; decide), if_pos (by rw [hstate]; decide)]
    refine iff_of_true (Matches.settled (.inr ⟨hstate, htable⟩)) fun hidle => ?_
    rw [hstate] at hidle
    exact absurd hidle (by decide)

/-! ## The three calls -/

/-- A call, with how everything it asks for goes. -/
inductive Call where
  | formatVol (a : FormatAnswers)
  | mountVol (a : MountAnswers)
  | unmountVol (a : UnmountAnswers)

def Volume.call (v : Volume) : Call → ℤ × Volume
  | .formatVol a => v.formatVol a
  | .mountVol a => v.mountVol a
  | .unmountVol a => v.unmountVol a

/-- When a call of an idle volume goes well: a format when both of its steps succeed, and a mount
when no device gets to the staging directory or what happens there ends well. -/
def Call.Clean : Call → Prop
  | .formatVol a => a.initializeMbr = 0 ∧ a.format = 0
  | .mountVol a => mountsNode a.nodes = true → a.EndsWell
  | .unmountVol _ => True

/-- **When a call leaves a settled volume.** -/
theorem settled_call_iff (h : Matches v) (call : Call) :
    Settled (v.call call).2 ↔ (v.state = .idle → call.Clean) := by
  cases call with
  | formatVol a => exact settled_formatVol_iff h a
  | mountVol a => exact settled_mountVol_iff h a
  | unmountVol a => exact iff_of_true (settled_unmountVol h a) fun _ => trivial

/-- A volume with nothing mounted. -/
def idleVolume : Volume := ⟨.idle, -1, fun _ => []⟩

/-- A card that is mounted, and moved into its place at the second attempt. -/
def cardMounts : MountAnswers where
  procMounts := true
  nodes := [⟨0, .ok, none⟩]
  bindMounts := ⟨.ok, 0, 0, true, none, none, none⟩
  move i := if i = 0 then some .ebusy else none
  umountStaging := none

theorem settled_call_iff_mount :
    Settled (idleVolume.call (.mountVol cardMounts)).2 ∧
      (idleVolume.call (.mountVol cardMounts)).2.state = .mounted := by
  have hmoves : Succeeds 5 cardMounts.move := by
    refine ⟨1, by decide, rfl, fun j hj => ?_⟩
    rw [Nat.lt_one_iff.mp hj]
    rfl
  have hclean : (Call.mountVol cardMounts).Clean := fun _ => ⟨rfl, hmoves⟩
  exact ⟨(settled_call_iff (.inl ⟨rfl, rfl⟩) (.mountVol cardMounts)).mpr fun _ => hclean, rfl⟩

/-- A card whose cover cannot be mounted. -/
def coverFails : MountAnswers where
  procMounts := true
  nodes := [⟨0, .ok, none⟩]
  bindMounts := ⟨.ok, 0, 0, true, none, some .other, none⟩
  move _ := none
  umountStaging := none

/-- A format that fails stays in its state, and a cover that fails leaves the bind mount. -/
theorem not_settled_call :
    (¬ ∀ v a, Matches v → Settled (v.formatVol a).2) ∧
      ¬ ∀ v a, Matches v → Settled (v.mountVol a).2 := by
  constructor
  · intro hall
    have hstate := (hall idleVolume ⟨true, 0, 1⟩ (.inl ⟨rfl, rfl⟩)).state
    exact absurd hstate (by decide)
  · intro hall
    have htable := (settled_idle_iff rfl).mp (hall idleVolume coverFails (.inl ⟨rfl, rfl⟩))
    exact absurd (congrFun htable .asec) (by decide)

/-! ## Runs -/

theorem call_noMedia (h : v.state = .noMedia) (call : Call) : (v.call call).2 = v := by
  cases call with
  | formatVol a => rw [Volume.call, Volume.formatVol, if_pos h]
  | mountVol a => rw [Volume.call, Volume.mountVol, if_pos h]
  | unmountVol a => rw [Volume.call, Volume.unmountVol, if_pos (by rw [h]; decide)]

theorem settled_call_of_clean (h : Matches v) {call : Call} (hclean : call.Clean) :
    Settled (v.call call).2 := by
  cases call with
  | formatVol a => exact (settled_formatVol_iff h a).mpr fun _ => hclean
  | mountVol a => exact (settled_mountVol_iff h a).mpr fun _ => hclean
  | unmountVol a => exact settled_unmountVol h a

/-- **A run of calls** that go well leaves a settled volume. -/
theorem settled_calls (calls : List Call) (h : Settled v) (hclean : ∀ c ∈ calls, c.Clean) :
    Settled (calls.foldl (fun v c => (v.call c).2) v) := by
  induction calls generalizing v with
  | nil => exact h
  | cons call calls ih =>
    refine ih ?_ fun c hc => hclean c (List.mem_cons_of_mem _ hc)
    by_cases hstate : v.state = .noMedia
    · have hsame := call_noMedia hstate call
      dsimp only
      rw [hsame]
      exact h
    · exact settled_call_of_clean (h.table hstate) (hclean _ List.mem_cons_self)

end Vold
end EmevBsp
