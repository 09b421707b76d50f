import EmevBsp.Fdt.Tags
import EmevBsp.LibGeneric.Crc32
import EmevBsp.Library.CString

/-!
# `common/image.c`: the hashes of a component image

A component image of a FIT is a node with the data of the image as a property, and with a child
node for each hash of the data.  `fit_image_check_hashes` goes over the direct children whose name
begins with `hash`, and computes and compares every one of them.

The sums of lib_generic/sha1.c and md5.c are parameters; the check of crc32.c is the modelled one.
-/

namespace EmevBsp
namespace Fit

open Fdt

/-! ## Hashes -/

/-- `sha1_csum_wd` and `md5_wd`. -/
structure HashFunctions where
  sha1 : List UInt8 → List UInt8
  md5 : List UInt8 → List UInt8
  length_sha1 : ∀ data, (sha1 data).length = 20
  length_md5 : ∀ data, (md5 data).length = 16

/-- `FIT_DATA_PROP`: `"data"`. -/
def fitDataProp : List UInt8 := [100, 97, 116, 97]

/-- `FIT_ALGO_PROP`: `"algo"`. -/
def fitAlgoProp : List UInt8 := [97, 108, 103, 111]

/-- `FIT_VALUE_PROP`: `"value"`. -/
def fitValueProp : List UInt8 := [118, 97, 108, 117, 101]

/-- `FIT_HASH_NODENAME`: `"hash"`. -/
def fitHashNodename : List UInt8 := [104, 97, 115, 104]

def chunkszCrc32 : ℕ+ := ⟨64 * 1024, by decide⟩

/-- The bytes of a word in the order of `cpu_to_uimage`. -/
def uimageBytes (w : UInt32) : List UInt8 :=
  [UInt8.ofNat (w.toNat / 2 ^ 24), UInt8.ofNat (w.toNat / 2 ^ 16), UInt8.ofNat (w.toNat / 2 ^ 8),
    UInt8.ofNat w.toNat]

/-- The string that starts at the value of a property.  Behind the value stands a zero: padding, or
the first byte of the next tag. -/
def propString (value : List UInt8) : List UInt8 := value.takeWhile (· ≠ 0)

variable (H : HashFunctions)

/-- `calculate_hash`; `none` for `-1`. -/
def calculateHash (data algo : List UInt8) : Option (List UInt8) :=
  if algo = [99, 114, 99, 51, 50] then some (uimageBytes (crc32Wd 0 data chunkszCrc32))
  else if algo = [115, 104, 97, 49] then some (H.sha1 data)
  else if algo = [109, 100, 53] then some (H.md5 data)
  else none

/-- The text of an error. -/
inductive HashError where
  | algoProperty
  | valueProperty
  | unsupported
  | valueLen
  | value
  deriving DecidableEq

/-- `err_msg`. -/
def HashError.message : HashError → String
  | .algoProperty => " error!\nCan't get hash algo property"
  | .valueProperty => " error!\nCan't get hash value property"
  | .unsupported => " error!\nUnsupported hash algorithm"
  | .valueLen => " error !\nBad hash value len"
  | .value => " error!\nBad hash value"

/-- One hash node, with the properties that were found. -/
def checkHash (data : List UInt8) (algo value : Option (List UInt8)) : Except HashError Unit :=
  match algo with
  | none => .error .algoProperty
  | some algo =>
    match value with
    | none => .error .valueProperty
    | some fitValue =>
      match calculateHash H data (propString algo) with
      | none => .error .unsupported
      | some value =>
        if value.length ≠ fitValue.length then .error .valueLen
        else if value ≠ fitValue then .error .value
        else .ok ()

/-- The body of the loop of `fit_image_check_hashes`. -/
def checkHashesBody (data : List UInt8) (node : List Tag) (depth : ℤ) (_ : Unit) :
    Except HashError Unit :=
  if depth = 1 then
    if ¬fitHashNodename <+: (fdtGetName node).getD [] then .ok ()
    else checkHash H data (fdtGetprop node fitAlgoProp) (fdtGetprop node fitValueProp)
  else .ok ()

def fitImageCheckHashes (image : List Tag) : ℕ :=
  match fdtGetprop image fitDataProp with
  | none => 0
  | some data =>
    match forEachNode (checkHashesBody H data) (fdtNextNode image 0).1 (fdtNextNode image 0).2 ()
      with
    | .ok _ => 1
    | .error _ => 0

/-! ## Which images pass -/

/-- The name of a node. -/
def nodeName : Node → List UInt8
  | .node name _ _ => name
  | .nop => []

/-- The children of a node. -/
def nodeChildren : Node → List Node
  | .node _ _ children => children
  | .nop => []

/-- A hash node that names a supported algorithm and carries the value of the data. -/
def HashMatches (data : List UInt8) (hash : Node) : Prop :=
  ∃ algo value, hash.prop fitAlgoProp = some algo ∧ hash.prop fitValueProp = some value ∧
    calculateHash H data (propString algo) = some value

/-- Every hash child of the image matches. -/
def HashesMatch (data : List UInt8) (image : Node) : Prop :=
  ∀ c ∈ nodeChildren image, fitHashNodename <+: nodeName c → HashMatches H data c

/-- What the loop does at a child. -/
def checkChild (data : List UInt8) (_ : Unit) (c : Node) : Except HashError Unit :=
  if fitHashNodename <+: nodeName c then
    checkHash H data (c.prop fitAlgoProp) (c.prop fitValueProp)
  else .ok ()

theorem checkHash_eq_ok {data : List UInt8} {algo value : Option (List UInt8)} :
    checkHash H data algo value = .ok () ↔
      ∃ a v, algo = some a ∧ value = some v ∧ calculateHash H data (propString a) = some v := by
  cases algo with
  | none => exact ⟨fun h => (nomatch h), fun ⟨a, v, ha, _⟩ => (nomatch ha)⟩
  | some a =>
    cases value with
    | none => exact ⟨fun h => (nomatch h), fun ⟨a, v, _, hv, _⟩ => (nomatch hv)⟩
    | some v =>
      rw [checkHash]
      cases hcalc : calculateHash H data (propString a) with
      | none =>
        refine ⟨fun h => (nomatch h), fun ⟨a', v', ha, _, h⟩ => ?_⟩
        rw [← Option.some.inj ha, hcalc] at h
        exact (nomatch h)
      | some computed =>
        dsimp only
        constructor
        · intro h
          split_ifs at h with hlen hvalue
          exact ⟨a, v, rfl, rfl, by rw [hcalc, not_not.mp hvalue]⟩
        · rintro ⟨a', v', ha, hv, h⟩
          rw [← Option.some.inj ha, ← Option.some.inj hv, hcalc] at h
          obtain rfl := Option.some.inj h
          rw [if_neg (not_not.mpr rfl), if_neg (not_not.mpr rfl)]

theorem checkChild_eq_ok {data : List UInt8} {c : Node} :
    checkChild H data () c = .ok () ↔ (fitHashNodename <+: nodeName c → HashMatches H data c) := by
  rw [checkChild]
  split_ifs with hname
  · rw [checkHash_eq_ok]
    exact ⟨fun h _ => h, fun h => h hname⟩
  · exact ⟨fun _ h => absurd h hname, fun _ => rfl⟩

theorem foldlM_unit_eq_ok {α ε : Type} {f : Unit → α → Except ε Unit} (l : List α) :
    l.foldlM f () = .ok () ↔ ∀ a ∈ l, f () a = .ok () := by
  induction l with
  | nil => exact ⟨fun _ a ha => absurd ha List.not_mem_nil, fun _ => rfl⟩
  | cons a l ih =>
    rw [List.foldlM_cons, List.forall_mem_cons, ← ih]
    cases f () a with
    | error e => exact ⟨fun h => (nomatch h), fun h => (nomatch h.1)⟩
    | ok u => exact ⟨fun h => ⟨rfl, h⟩, fun h => h.2⟩

theorem fitImageCheckHashes_eq_zero_or_one (image : List Tag) :
    fitImageCheckHashes H image = 0 ∨ fitImageCheckHashes H image = 1 := by
  unfold fitImageCheckHashes
  split
  · exact .inl rfl
  · split
    · exact .inr rfl
    · exact .inl rfl

theorem fitImageCheckHashes_eq_one (name : List UInt8)
    (props : List (Option (List UInt8 × List UInt8))) (children : List Node) (rest : List Tag) :
    fitImageCheckHashes H ((Node.node name props children).tags ++ rest) = 1 ↔
      ∃ data, (Node.node name props children).prop fitDataProp = some data ∧
        HashesMatch H data (.node name props children) := by
  rw [fitImageCheckHashes, fdtGetprop_tags]
  cases hdata : (Node.node name props children).prop fitDataProp with
  | none => exact ⟨fun h => (nomatch h), fun ⟨data, h, _⟩ => (nomatch h)⟩
  | some data =>
    have hfold := forEachNode_children (checkHashesBody H data) (checkChild H data)
      (fun node depth s h => if_neg (by omega)) (fun s => if_neg (by decide))
      (fun n ps cs rest s => by
        rw [checkHashesBody, if_pos rfl, fdtGetprop_tags, fdtGetprop_tags, tags_append, checkChild]
        show (if ¬fitHashNodename <+: n then _ else _) = if fitHashNodename <+: n then _ else _
        rw [ite_not])
      name props children rest ()
    dsimp only
    rw [hfold]
    have hall : children.foldlM (checkChild H data) () = .ok () ↔
        HashesMatch H data (.node name props children) := by
      rw [foldlM_unit_eq_ok]
      exact forall₂_congr fun c _ => checkChild_eq_ok H
    constructor
    · intro h
      refine ⟨data, rfl, hall.mp ?_⟩
      revert h
      cases children.foldlM (checkChild H data) () with
      | error e => exact fun h => (nomatch h)
      | ok u => exact fun _ => rfl
    · rintro ⟨data', h, hmatch⟩
      obtain rfl := Option.some.inj h
      rw [hall.mpr hmatch]

theorem fitImageCheckHashes_append (name : List UInt8)
    (props : List (Option (List UInt8 × List UInt8))) (children : List Node) (rest : List Tag) :
    fitImageCheckHashes H ((Node.node name props children).tags ++ rest) =
      fitImageCheckHashes H (Node.node name props children).tags := by
  have hrest := fitImageCheckHashes_eq_one H name props children rest
  have hnone := fitImageCheckHashes_eq_one H name props children []
  rw [List.append_nil] at hnone
  have hiff := hrest.trans hnone.symm
  rcases fitImageCheckHashes_eq_zero_or_one H ((Node.node name props children).tags ++ rest)
    with h | h
  · rcases fitImageCheckHashes_eq_zero_or_one H (Node.node name props children).tags with h' | h'
    · rw [h, h']
    · exact absurd (h.symm.trans (hiff.mpr h')) Nat.zero_ne_one
  · rw [h, hiff.mp h]

end Fit
end EmevBsp
