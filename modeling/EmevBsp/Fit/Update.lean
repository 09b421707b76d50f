import EmevBsp.Fit.Hashes

/-!
# `common/update.c`: which data an update writes to flash

`update_tftp` loads a FIT and goes over the component images.  An image whose hashes match, and that
names a place, is written there.  What writes to the flash is common/cmd_flash.c and
common/flash.c; their functions are the fields of `FlashOps`, over a type of machine states.
Loading the file, checking its format and finding the `/images` node come before, and the loop
starts at that node.
-/

namespace EmevBsp
namespace Fit

open Fdt

/-! ## The functions of the source -/

/-- What an update uses of the flash. -/
structure FlashOps (σ : Type) where
  sectRoundb : BitVec 32 → σ → Option (BitVec 32)
  protect : ℕ → BitVec 32 → BitVec 32 → σ → σ × ℕ
  sectErase : BitVec 32 → BitVec 32 → σ → σ × ℕ
  write : List UInt8 → BitVec 32 → σ → σ × ℕ

variable {σ : Type} (H : HashFunctions) (ops : FlashOps σ)

def updateFlash (data : List UInt8) (addrFirst : BitVec 32) (s : σ) : σ × ℕ :=
  match ops.sectRoundb (addrFirst + BitVec.ofNat 32 data.length - 1) s with
  | none => (s, 1)
  | some addrLast =>
    if addrLast ≤ addrFirst then (s, 1)
    else
      let unprotected := ops.protect 0 addrFirst addrLast s
      if unprotected.2 > 0 then (unprotected.1, 1)
      else
        let erased := ops.sectErase addrFirst addrLast unprotected.1
        if erased.2 > 0 then (erased.1, 1)
        else
          let written := ops.write data addrFirst erased.1
          if written.2 > 0 then (written.1, 1)
          else
            let done := ops.protect 1 addrFirst addrLast written.1
            (done.1, if done.2 > 0 then 1 else 0)

/-- `FIT_LOAD_PROP`: `"load"`. -/
def fitLoadProp : List UInt8 := [108, 111, 97, 100]

/-- `uimage_to_cpu`, of the four bytes at the start of a value.  A value that is shorter is padded
with zeros. -/
def uimageToCpu (value : List UInt8) : BitVec 32 :=
  BitVec.ofNat 32 ((value.getD 0 0).toNat * 2 ^ 24 + (value.getD 1 0).toNat * 2 ^ 16 +
    (value.getD 2 0).toNat * 2 ^ 8 + (value.getD 3 0).toNat)

/-- `update_fit_getparams`, from the two properties: the data, and the address in flash. -/
def getparams (data load : Option (List UInt8)) : Option (List UInt8 × BitVec 32) :=
  match data, load with
  | some data, some load => some (data, uimageToCpu load)
  | _, _ => none

def updateFitGetparams (image : List Tag) : Option (List UInt8 × BitVec 32) :=
  getparams (fdtGetprop image fitDataProp) (fdtGetprop image fitLoadProp)

/-- The body of the loop of `update_tftp`. -/
def updateBody (node : List Tag) (depth : ℤ) (s : σ) : Except Empty σ :=
  if depth ≠ 1 then .ok s
  else if fitImageCheckHashes H node = 0 then .ok s
  else
    match updateFitGetparams node with
    | none => .ok s
    | some p => .ok (updateFlash ops p.1 p.2 s).1

/-- The loop of `update_tftp`, from the `/images` node on. -/
def updateTftp (images : List Tag) (s : σ) : Except Empty σ :=
  forEachNode (updateBody H ops) (fdtNextNode images 0).1 (fdtNextNode images 0).2 s

/-! ## What is written -/

/-- The flash with a log of what `flash_write` is called with. -/
def FlashOps.logged : FlashOps (σ × List (List UInt8 × BitVec 32)) where
  sectRoundb addr s := ops.sectRoundb addr s.1
  protect prot first last s := (((ops.protect prot first last s.1).1, s.2),
    (ops.protect prot first last s.1).2)
  sectErase first last s := (((ops.sectErase first last s.1).1, s.2),
    (ops.sectErase first last s.1).2)
  write data addr s := (((ops.write data addr s.1).1, s.2 ++ [(data, addr)]),
    (ops.write data addr s.1).2)

theorem updateFlash_log (data : List UInt8) (addr : BitVec 32)
    (s : σ × List (List UInt8 × BitVec 32)) :
    (updateFlash ops.logged data addr s).1.2 = s.2 ∨
      (updateFlash ops.logged data addr s).1.2 = s.2 ++ [(data, addr)] := by
  rw [updateFlash]
  cases ops.logged.sectRoundb (addr + BitVec.ofNat 32 data.length - 1) s with
  | none => exact .inl rfl
  | some addrLast =>
    dsimp only
    split_ifs
    · exact .inl rfl
    · exact .inl rfl
    · exact .inl rfl
    · exact .inr rfl
    · exact .inr rfl
    · exact .inr rfl

/-- What the loop does at an image. -/
def updateChild (s : σ) (c : Node) : σ :=
  if fitImageCheckHashes H c.tags = 0 then s
  else
    match getparams (c.prop fitDataProp) (c.prop fitLoadProp) with
    | none => s
    | some p => (updateFlash ops p.1 p.2 s).1

theorem foldlM_ok {α β ε : Type} (f : β → α → β) (l : List α) (b : β) :
    l.foldlM (fun b a => (.ok (f b a) : Except ε β)) b = .ok (l.foldl f b) := by
  induction l generalizing b with
  | nil => rfl
  | cons a l ih =>
    rw [List.foldlM_cons, List.foldl_cons]
    exact ih (f b a)

theorem updateTftp_eq (name : List UInt8) (props : List (Option (List UInt8 × List UInt8)))
    (images : List Node) (rest : List Tag) (s : σ) :
    updateTftp H ops ((Node.node name props images).tags ++ rest) s =
      .ok (images.foldl (updateChild H ops) s) := by
  rw [← foldlM_ok]
  refine forEachNode_children (updateBody H ops) _ (fun node depth s h => if_pos (by omega))
    (fun s => ?_) (fun n ps cs rest s => ?_) name props images rest s
  · have hnop : getparams (Node.prop fitDataProp .nop) (Node.prop fitLoadProp .nop) = none := rfl
    rw [updateChild, hnop]
    split <;> rfl
  · rw [updateBody, if_neg (not_not.mpr rfl), fitImageCheckHashes_append, updateFitGetparams,
      fdtGetprop_tags, fdtGetprop_tags, updateChild]
    split_ifs
    · rfl
    · split <;> rfl

theorem mem_updateTftp_log {name : List UInt8} {props : List (Option (List UInt8 × List UInt8))}
    {images : List Node} {rest : List Tag} {s s' : σ × List (List UInt8 × BitVec 32)}
    (h : updateTftp H ops.logged ((Node.node name props images).tags ++ rest) s = .ok s')
    (w : List UInt8 × BitVec 32) (hw : w ∈ s'.2) :
    w ∈ s.2 ∨ ∃ c ∈ images, c.prop fitDataProp = some w.1 ∧ HashesMatch H w.1 c := by
  rw [updateTftp_eq] at h
  obtain rfl := Except.ok.inj h
  clear h
  induction images generalizing s with
  | nil => exact .inl hw
  | cons c images ih =>
    rcases ih hw with hchild | ⟨d, hd, hmatch⟩
    · rw [updateChild] at hchild
      split_ifs at hchild with hcheck
      · exact .inl hchild
      · cases c with
        | nop => exact .inl hchild
        | node n ps cs =>
          have hone := (fitImageCheckHashes_eq_zero_or_one H _).resolve_left hcheck
          obtain ⟨data, hdata, hmatch⟩ :=
            (fitImageCheckHashes_eq_one H n ps cs []).mp (by rw [List.append_nil, hone])
          rw [hdata] at hchild
          cases hload : (Node.node n ps cs).prop fitLoadProp with
          | none =>
            rw [hload] at hchild
            exact .inl hchild
          | some load =>
            rw [hload] at hchild
            rcases updateFlash_log ops data (uimageToCpu load) s with hlog | hlog
            · exact .inl (hlog ▸ hchild)
            · rcases List.mem_append.mp (hlog ▸ hchild) with hold | hnew
              · exact .inl hold
              · obtain rfl := List.mem_singleton.mp hnew
                exact .inr ⟨_, List.mem_cons_self, hdata, hmatch⟩
    · exact .inr ⟨d, List.mem_cons_of_mem c hd, hmatch⟩

/-- **The integrity check.**  An image passes exactly when it has data and all its hash children
name a supported algorithm and carry the value of the data; and an update writes only data of images
that pass. -/
theorem fit_integrity (H : HashFunctions) :
    (∀ name props children rest,
      fitImageCheckHashes H ((Node.node name props children).tags ++ rest) = 1 ↔
        ∃ data, (Node.node name props children).prop fitDataProp = some data ∧
          HashesMatch H data (.node name props children)) ∧
    ∀ (σ : Type) (ops : FlashOps σ) name props images rest (s : σ),
      ∃ s', updateTftp H ops.logged ((Node.node name props images).tags ++ rest) (s, []) = .ok s' ∧
        ∀ w ∈ s'.2, ∃ c ∈ images, c.prop fitDataProp = some w.1 ∧ HashesMatch H w.1 c := by
  refine ⟨fitImageCheckHashes_eq_one H, fun σ ops name props images rest s => ?_⟩
  have hrun := updateTftp_eq H ops.logged name props images rest (s, [])
  refine ⟨_, hrun, fun w hw => ?_⟩
  exact (mem_updateTftp_log H ops hrun w hw).resolve_left List.not_mem_nil

/-- An image with data and without any hash passes. -/
theorem not_fit_integrity :
    ¬ ∀ (H : HashFunctions) name props children rest,
      fitImageCheckHashes H ((Node.node name props children).tags ++ rest) = 1 ↔
        ∃ data, (Node.node name props children).prop fitDataProp = some data ∧
          (∃ c ∈ children, fitHashNodename <+: nodeName c) ∧
          HashesMatch H data (.node name props children) := by
  intro h
  let H : HashFunctions :=
    ⟨fun _ => List.replicate 20 0, fun _ => List.replicate 16 0, fun _ => rfl, fun _ => rfl⟩
  have hpass := (fitImageCheckHashes_eq_one H [117] [some (fitDataProp, [1])] [] []).mpr
    ⟨[1], rfl, fun c hc => absurd hc List.not_mem_nil⟩
  obtain ⟨_, _, ⟨c, hc, _⟩, _⟩ := (h H [117] [some (fitDataProp, [1])] [] []).mp hpass
  exact List.not_mem_nil hc

end Fit
end EmevBsp
