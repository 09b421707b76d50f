import EmevBsp.Fdt.Setprop
import EmevBsp.Fit.Hashes

/-!
# `common/image.c`: setting the hashes of all images, and checking them

`mkimage` builds a FIT and lets `fit_set_hashes` compute the hashes: a walk over the component
images, and for each of them one over its hash nodes, which get a `value` while the walk goes on.
`fit_all_image_check_hashes` of the boot loader makes the same two walks and compares.
-/

namespace EmevBsp
namespace Fit

open Fdt

/-! ## The functions of the source -/

/-- The name in `FIT_IMAGES_PATH`: `"images"`. -/
def fitImages : List UInt8 := [105, 109, 97, 103, 101, 115]

/-- `_fdt_nodename_eq`: the name of the node, or the name without the unit address. -/
def fdtNodenameEq (name s : List UInt8) : Bool :=
  name = s || (64 ∉ s && s ++ [64] <+: name)

/-- The body of the loop of `fdt_subnode_offset_namelen`. -/
def subnodeBody (s : List UInt8) (node : List Tag) (depth : ℤ) (_ : Unit) :
    Except (List Tag) Unit :=
  if depth = 1 ∧ fdtNodenameEq ((fdtGetName node).getD []) s then .error node else .ok ()

def fdtSubnodeOffset (node : List Tag) (s : List UInt8) : Option (List Tag) :=
  match forEachNode (subnodeBody s) (fdtNextNode node 0).1 (fdtNextNode node 0).2 () with
  | .error found => some found
  | .ok _ => none

variable (H : HashFunctions)

/-- The body of the loop of `fit_image_set_hashes`; `none` for `-1`. -/
def setHashesBody (data : List UInt8) (b : Blob) (node : List Tag) (depth : ℤ) :
    Option (Blob × List Tag) :=
  if depth = 1 then
    if ¬fitHashNodename <+: (fdtGetName node).getD [] then some (b, node)
    else
      match fdtGetprop node fitAlgoProp with
      | none => none
      | some algo =>
        match calculateHash H data (propString algo) with
        | none => none
        | some value => fdtSetprop b node fitValueProp value
  else some (b, node)

def fitImageSetHashes (b : Blob) (image : List Tag) : Option (Blob × List Tag) :=
  match fdtGetprop image fitDataProp with
  | none => none
  | some data => editNodes (setHashesBody H data) image.length b image 0

/-- The body of the loop of `fit_set_hashes`. -/
def setImagesBody (b : Blob) (node : List Tag) (depth : ℤ) : Option (Blob × List Tag) :=
  if depth = 1 then fitImageSetHashes H b node else some (b, node)

/-- `fit_set_hashes`; `none` for any error. -/
def fitSetHashes (b : Blob) (fit : List Tag) : Option (Blob × List Tag) :=
  match fdtSubnodeOffset fit fitImages with
  | none => none
  | some images =>
    (editNodes (setImagesBody H) images.length b images 0).map fun r =>
      (r.1, fit.take (fit.length - images.length) ++ r.2)

/-- The body of the loop of `fit_all_image_check_hashes`. -/
def checkImagesBody (node : List Tag) (depth : ℤ) (_ : Unit) : Except Unit Unit :=
  if depth = 1 then if fitImageCheckHashes H node = 0 then .error () else .ok () else .ok ()

def fitAllImageCheckHashes (fit : List Tag) : ℕ :=
  match fdtSubnodeOffset fit fitImages with
  | none => 0
  | some images =>
    match forEachNode (checkImagesBody H) (fdtNextNode images 0).1 (fdtNextNode images 0).2 () with
    | .ok _ => 1
    | .error _ => 0

/-! ## Finding the images -/

/-- The node has the name. -/
def Named (s : List UInt8) : Node → Prop
  | .node name _ _ => fdtNodenameEq name s = true
  | .nop => False

theorem walk_subnodeBody_pass {s : List UInt8} {c : Node} (hc : ¬ Named s c) (rest : List Tag) :
    walk (subnodeBody s) (c.tags ++ rest) 0 () = walk (subnodeBody s) rest 0 () := by
  have hdeep : Shallow (subnodeBody s) := fun node depth _ h => if_neg fun hd => by omega
  cases c with
  | nop =>
    rw [Node.tags]
    rfl
  | node name props children =>
    have hbody : subnodeBody s (.beginNode name :: (props.map propTag ++
        (tagsOf children ++ .endNode :: rest))) (0 + 1) () = .ok () := if_neg fun hd => hc hd.2
    rw [tags_append, walk_beginNode, if_pos (by decide), hbody]
    show walk (subnodeBody s) _ 1 () = _
    rw [walk_props, walk_tagsOf_of_deep hdeep children _ (Int.le_refl 1)]
    rfl

theorem fdtSubnodeOffset_eq_some {s : List UInt8} (name : List UInt8)
    (props : List (Option (List UInt8 × List UInt8))) (before : List Node) {found : List UInt8}
    {qs : List (Option (List UInt8 × List UInt8))} {children after : List Node} (rest : List Tag)
    (hbefore : ∀ c ∈ before, ¬ Named s c) (hfound : fdtNodenameEq found s = true) :
    fdtSubnodeOffset ((Node.node name props (before ++ .node found qs children :: after)).tags ++
        rest) s =
      some ((Node.node found qs children).tags ++ (tagsOf after ++ .endNode :: rest)) := by
  have hwalk : walk (subnodeBody s) (tagsOf (before ++ .node found qs children :: after) ++
      .endNode :: rest) 0 () =
        .error ((Node.node found qs children).tags ++ (tagsOf after ++ .endNode :: rest)) := by
    induction before with
    | nil =>
      have hbody : subnodeBody s (.beginNode found :: (qs.map propTag ++ (tagsOf children ++
          .endNode :: (tagsOf after ++ .endNode :: rest)))) (0 + 1) () = .error _ :=
        if_pos ⟨rfl, hfound⟩
      rw [List.nil_append, tagsOf, List.append_assoc, tags_append, walk_beginNode,
        if_pos (by decide), hbody]
    | cons c before ih =>
      rw [List.cons_append, tagsOf, List.append_assoc,
        walk_subnodeBody_pass (hbefore c List.mem_cons_self)]
      exact ih fun d hd => hbefore d (List.mem_cons_of_mem c hd)
  have hstart : forEachNode (subnodeBody s)
      (fdtNextNode ((Node.node name props (before ++ .node found qs children :: after)).tags ++
        rest) 0).1
      (fdtNextNode ((Node.node name props (before ++ .node found qs children :: after)).tags ++
        rest) 0).2 () = .error ((Node.node found qs children).tags ++
          (tagsOf after ++ .endNode :: rest)) := by
    rw [tags_append]
    exact (walk_props props _ 0 ()).trans hwalk
  rw [fdtSubnodeOffset, hstart]

theorem fdtSubnodeOffset_eq_none {s : List UInt8} (name : List UInt8)
    (props : List (Option (List UInt8 × List UInt8))) {children : List Node} (rest : List Tag)
    (hchildren : ∀ c ∈ children, ¬ Named s c) :
    fdtSubnodeOffset ((Node.node name props children).tags ++ rest) s = none := by
  have hwalk : walk (subnodeBody s) (tagsOf children ++ .endNode :: rest) 0 () = .ok () := by
    induction children with
    | nil => exact walk_outside rest (show (-1 : ℤ) < 0 by decide)
    | cons c cs ih =>
      rw [tagsOf, List.append_assoc, walk_subnodeBody_pass (hchildren c List.mem_cons_self)]
      exact ih fun d hd => hchildren d (List.mem_cons_of_mem c hd)
  have hstart : forEachNode (subnodeBody s)
      (fdtNextNode ((Node.node name props children).tags ++ rest) 0).1
      (fdtNextNode ((Node.node name props children).tags ++ rest) 0).2 () = .ok () := by
    rw [tags_append]
    exact (walk_props props _ 0 ()).trans hwalk
  rw [fdtSubnodeOffset, hstart]

/-! ## What the writer does to a tree -/

/-- What the inner loop does at a child. -/
def setHash (data : List UInt8) (b : Blob) (c : Node) : Option (Blob × Node) :=
  if ¬fitHashNodename <+: nodeName c then some (b, c)
  else
    match c.prop fitAlgoProp with
    | none => none
    | some algo =>
      match calculateHash H data (propString algo) with
      | none => none
      | some value => c.setprop b fitValueProp value

/-- What the outer loop does at a child. -/
def setImage (b : Blob) (c : Node) : Option (Blob × Node) :=
  match c with
  | .nop => some (b, .nop)
  | .node name props children =>
    match (Node.node name props children).prop fitDataProp with
    | none => none
    | some data =>
      (editAll (setHash H data) b children).map fun r => (r.1, .node name props r.2)

/-- A hash node with another value, or another child as it was. -/
inductive OnlyValue : Node → Node → Prop
  | other (c : Node) (hname : ¬ fitHashNodename <+: nodeName c) : OnlyValue c c
  | hash (name : List UInt8) (props props' : List (Option (List UInt8 × List UInt8)))
      (children : List Node) (hname : fitHashNodename <+: name)
      (hprops : (Node.node name props' children).otherProps fitValueProp =
        (Node.node name props children).otherProps fitValueProp) :
      OnlyValue (.node name props children) (.node name props' children)

/-- An image with nothing changed but the values of its hash nodes. -/
inductive OnlyHashes : Node → Node → Prop
  | nop : OnlyHashes .nop .nop
  | image (name : List UInt8) (props : List (Option (List UInt8 × List UInt8)))
      (children children' : List Node) (hchildren : List.Forall₂ OnlyValue children children') :
      OnlyHashes (.node name props children) (.node name props children')

/-- A FIT with nothing changed but the values of the hash nodes of its images. -/
def OnlyImageHashes (fit fit' : Node) : Prop :=
  ∃ name props before found qs images images' after,
    fit = .node name props (before ++ .node found qs images :: after) ∧
    fit' = .node name props (before ++ .node found qs images' :: after) ∧
    (∀ c ∈ before, ¬ Named fitImages c) ∧ fdtNodenameEq found fitImages = true ∧
    List.Forall₂ OnlyHashes images images'

variable {H}

theorem setHash_eq_some {data : List UInt8} {b b' : Blob} {c c' : Node}
    (h : setHash H data b c = some (b', c')) :
    OnlyValue c c' ∧ (fitHashNodename <+: nodeName c' → HashMatches H data c') := by
  rw [setHash] at h
  split_ifs at h with hname
  · cases c with
    | nop => exact absurd hname (by decide)
    | node name props children =>
      cases halgo : (Node.node name props children).prop fitAlgoProp with
      | none =>
        rw [halgo] at h
        exact nomatch h
      | some algo =>
        rw [halgo] at h
        cases hvalue : calculateHash H data (propString algo) with
        | none =>
          simp only [hvalue] at h
          exact nomatch h
        | some value =>
          simp only [hvalue] at h
          obtain ⟨props', rfl, hset, hother⟩ := Node.setprop_eq_some h
          refine ⟨.hash name props props' children hname hother, fun _ =>
            ⟨algo, value, ?_, hset, hvalue⟩⟩
          rw [Node.prop_eq_of_otherProps hother (by decide), halgo]
  · obtain rfl := (Prod.mk.inj (Option.some.inj h)).2
    exact ⟨.other c hname, fun hn => absurd hn hname⟩

theorem setHash_keepsCount (data : List UInt8) : KeepsCount (setHash H data) := by
  intro b name props children b' c' h
  cases (setHash_eq_some h).1 with
  | other c hname => exact ⟨name, props, children, rfl, rfl⟩
  | hash name props props' children hname hother => exact ⟨name, props', children, rfl, rfl⟩

theorem editAll_forall₂ {σ : Type} {step : σ → Node → Option (σ × Node)} {R : Node → Node → Prop}
    (hstep : ∀ s c s' c', step s c = some (s', c') → R c c') {s s' : σ} {cs cs' : List Node}
    (h : editAll step s cs = some (s', cs')) : List.Forall₂ R cs cs' := by
  induction cs generalizing s cs' with
  | nil =>
    obtain rfl := (Prod.mk.inj (Option.some.inj h)).2
    exact .nil
  | cons c cs ih =>
    obtain ⟨r, hr, hrest⟩ := Option.bind_eq_some_iff.mp h
    obtain ⟨t, ht, hmade⟩ := Option.map_eq_some_iff.mp hrest
    obtain ⟨rfl, rfl⟩ := Prod.mk.inj hmade
    exact .cons (hstep _ _ _ _ hr) (ih ht)

theorem forall_mem_of_forall₂ {α β : Type} {P : β → Prop} {l : List α} {l' : List β}
    (h : List.Forall₂ (fun _ b => P b) l l') : ∀ b ∈ l', P b := by
  induction h with
  | nil => exact fun b hb => absurd hb List.not_mem_nil
  | cons hb _ ih => exact List.forall_mem_cons.mpr ⟨hb, ih⟩

theorem countOf_eq_of_forall₂ {R : Node → Node → Prop} (hR : ∀ c c', R c c' → c'.count = c.count)
    {cs cs' : List Node} (h : List.Forall₂ R cs cs') : countOf cs' = countOf cs := by
  induction h with
  | nil => rfl
  | cons hc _ ih => rw [countOf, countOf, hR _ _ hc, ih]

theorem OnlyValue.count_eq {c c' : Node} (h : OnlyValue c c') : c'.count = c.count := by
  cases h with
  | other c hname => rfl
  | hash name props props' children hname hother => rw [Node.count, Node.count]

/-- **What the writer does at an image**: it changes the values of hash nodes only, and the checker
accepts the image. -/
theorem setImage_eq_some {b b' : Blob} {c c' : Node} (h : setImage H b c = some (b', c')) :
    OnlyHashes c c' ∧ ∀ name props children, c' = .node name props children →
      fitImageCheckHashes H c'.tags = 1 := by
  cases c with
  | nop =>
    obtain rfl := (Prod.mk.inj (Option.some.inj h)).2
    exact ⟨.nop, fun name props children h => nomatch h⟩
  | node name props children =>
    rw [setImage] at h
    cases hdata : (Node.node name props children).prop fitDataProp with
    | none =>
      rw [hdata] at h
      exact nomatch h
    | some data =>
      rw [hdata] at h
      obtain ⟨r, hr, hmade⟩ := Option.map_eq_some_iff.mp h
      obtain rfl := (Prod.mk.inj hmade).2
      have hall := editAll_forall₂ (R := fun c c' => OnlyValue c c' ∧
        (fitHashNodename <+: nodeName c' → HashMatches H data c'))
        (fun _ _ _ _ => setHash_eq_some) hr
      refine ⟨.image name props children r.2 (hall.imp fun _ _ h => h.1), fun _ _ _ _ => ?_⟩
      have hone := (fitImageCheckHashes_eq_one H name props r.2 []).mpr
        ⟨data, hdata, fun c' hc' => ?_⟩
      · rwa [List.append_nil] at hone
      · exact forall_mem_of_forall₂ (hall.imp fun _ _ h => h.2) c' hc'

theorem setImage_keepsCount : KeepsCount (setImage H) := by
  intro b name props children b' c' h
  cases (setImage_eq_some h).1 with
  | image name props children children' hall =>
    exact ⟨name, props, children', rfl, countOf_eq_of_forall₂ (fun _ _ => OnlyValue.count_eq) hall⟩

variable (H)

theorem fitImageSetHashes_tags (b : Blob) (name : List UInt8)
    (props : List (Option (List UInt8 × List UInt8))) (children : List Node) (rest : List Tag) :
    fitImageSetHashes H b ((Node.node name props children).tags ++ rest) =
      (setImage H b (.node name props children)).map fun r => (r.1, r.2.tags ++ rest) := by
  rw [fitImageSetHashes, setImage, fdtGetprop_tags]
  cases (Node.node name props children).prop fitDataProp with
  | none => rfl
  | some data =>
    have hloop := editNodes_children (setHashesBody H data) (setHash H data)
      (fun b node depth h => if_neg (by omega)) (fun b => if_pos (by decide))
      (fun n ps cs rest b => by
        rw [setHashesBody, if_pos rfl, fdtGetprop_tags, tags_append, setHash]
        show (if ¬fitHashNodename <+: n then _ else _) =
          (if ¬fitHashNodename <+: n then _ else _ : Option (Blob × Node)).map _
        split_ifs
        · cases (Node.node n ps cs).prop fitAlgoProp with
          | none => rfl
          | some algo =>
            dsimp only
            cases calculateHash H data (propString algo) with
            | none => rfl
            | some value =>
              rw [← tags_append]
              exact fdtSetprop_tags b n ps cs rest fitValueProp value
        · rw [← tags_append]
          rfl)
      (setHash_keepsCount data) name props children rest _ (Nat.le_refl _) b
    dsimp only
    rw [hloop, Option.map_map]
    rfl

/-- **`fit_set_hashes` on a tree** with the children of the images node given. -/
theorem fitSetHashes_tags (b : Blob) (name : List UInt8)
    (props : List (Option (List UInt8 × List UInt8))) (before : List Node) (found : List UInt8)
    (qs : List (Option (List UInt8 × List UInt8))) (images after : List Node) (rest : List Tag)
    (hbefore : ∀ c ∈ before, ¬ Named fitImages c)
    (hfound : fdtNodenameEq found fitImages = true) :
    fitSetHashes H b ((Node.node name props (before ++ .node found qs images :: after)).tags ++
        rest) =
      (editAll (setImage H) b images).map fun r => (r.1,
        (Node.node name props (before ++ .node found qs r.2 :: after)).tags ++ rest) := by
  have hloop := editNodes_children (setImagesBody H) (setImage H)
    (fun b node depth h => if_neg (by omega)) (fun b => rfl)
    (fun n ps cs rest b => by
      rw [setImagesBody, if_pos rfl]
      exact fitImageSetHashes_tags H b n ps cs rest)
    setImage_keepsCount found qs images (tagsOf after ++ .endNode :: rest) _ (Nat.le_refl _) b
  -- the tags in front of the images node stay where they are
  have hsplit (images : List Node) :
      (Node.node name props (before ++ .node found qs images :: after)).tags ++ rest =
        (.beginNode name :: (props.map propTag ++ tagsOf before)) ++
          ((Node.node found qs images).tags ++ (tagsOf after ++ .endNode :: rest)) := by
    rw [tags_append, tagsOf_append, tagsOf, List.cons_append, List.append_assoc, List.append_assoc,
      List.append_assoc]
  rw [fitSetHashes, fdtSubnodeOffset_eq_some name props before rest hbefore hfound]
  dsimp only
  rw [hloop, hsplit images, List.length_append, Nat.add_sub_cancel, List.take_left, Option.map_map]
  refine congrArg (Option.map · _) (funext fun r => Prod.ext rfl ?_)
  exact (hsplit r.2).symm

/-- **`fit_all_image_check_hashes` accepts** a tree all of whose images pass. -/
theorem fitAllImageCheckHashes_eq_one (name : List UInt8)
    (props : List (Option (List UInt8 × List UInt8))) (before : List Node) (found : List UInt8)
    (qs : List (Option (List UInt8 × List UInt8))) (images after : List Node) (rest : List Tag)
    (hbefore : ∀ c ∈ before, ¬ Named fitImages c)
    (hfound : fdtNodenameEq found fitImages = true)
    (himages : ∀ c ∈ images, ∀ n ps cs, c = .node n ps cs → fitImageCheckHashes H c.tags = 1) :
    fitAllImageCheckHashes H
      ((Node.node name props (before ++ .node found qs images :: after)).tags ++ rest) = 1 := by
  have hloop := forEachNode_children (checkImagesBody H)
    (fun _ c => match c with
      | .nop => .ok ()
      | .node n ps cs =>
        if fitImageCheckHashes H (Node.node n ps cs).tags = 0 then .error () else .ok ())
    (fun node depth s h => if_neg (by omega)) (fun s => rfl)
    (fun n ps cs rest s => by
      rw [checkImagesBody, if_pos rfl, fitImageCheckHashes_append])
    found qs images (tagsOf after ++ .endNode :: rest) ()
  have hall := (foldlM_unit_eq_ok (f := fun _ c => match c with
      | .nop => .ok ()
      | .node n ps cs =>
        if fitImageCheckHashes H (Node.node n ps cs).tags = 0 then Except.error () else .ok ())
    images).mpr fun c hc => by
      cases c with
      | nop => rfl
      | node n ps cs =>
        refine if_neg ?_
        rw [himages _ hc n ps cs rfl]
        exact Nat.one_ne_zero
  rw [fitAllImageCheckHashes, fdtSubnodeOffset_eq_some name props before rest hbefore hfound]
  dsimp only
  rw [hloop, hall]

/-- **What the writer made, the checker accepts.**  When `fit_set_hashes` returns zero, the result
is a tree that `fit_all_image_check_hashes` accepts, and that differs from the one before in the
values of hash nodes of images only. -/
theorem fitAllImageCheckHashes_fitSetHashes {b b' : Blob} {name : List UInt8}
    {props : List (Option (List UInt8 × List UInt8))} {children : List Node} {rest fit' : List Tag}
    (h : fitSetHashes H b ((Node.node name props children).tags ++ rest) = some (b', fit')) :
    fitAllImageCheckHashes H fit' = 1 ∧
      ∃ root', fit' = root'.tags ++ rest ∧ OnlyImageHashes (.node name props children) root' := by
  classical
  cases hfind : children.find? (fun c => decide (Named fitImages c)) with
  | some c =>
    obtain ⟨hc, before, after, rfl, hfirst⟩ := List.find?_eq_some_iff_append.mp hfind
    replace hc := of_decide_eq_true hc
    have hbefore : ∀ c ∈ before, ¬ Named fitImages c := fun d hd hn => by
      have hnot := hfirst d hd
      rw [decide_eq_true hn] at hnot
      exact Bool.false_ne_true hnot
    cases c with
    | nop => exact absurd hc id
    | node found qs images =>
      rw [fitSetHashes_tags H b name props before found qs images after rest hbefore hc] at h
      obtain ⟨r, hr, hmade⟩ := Option.map_eq_some_iff.mp h
      obtain rfl := (Prod.mk.inj hmade).2
      have hall := editAll_forall₂ (R := fun c c' => OnlyHashes c c' ∧
        ∀ n ps cs, c' = .node n ps cs → fitImageCheckHashes H c'.tags = 1)
        (fun _ _ _ _ => setImage_eq_some) hr
      refine ⟨fitAllImageCheckHashes_eq_one H name props before found qs r.2 after rest hbefore hc
        (forall_mem_of_forall₂ (hall.imp fun _ _ h => h.2)), _, rfl, ?_⟩
      exact ⟨name, props, before, found, qs, images, r.2, after, rfl, rfl, hbefore, hc,
        hall.imp fun _ _ h => h.1⟩
  | none =>
    have hnone : ∀ c ∈ children, ¬ Named fitImages c := fun c hc hn =>
      List.find?_eq_none.mp hfind c hc (decide_eq_true hn)
    rw [fitSetHashes, fdtSubnodeOffset_eq_none name props rest hnone] at h
    exact nomatch h

/-- An image with one hash node, whose value is still to be set. -/
theorem fitAllImageCheckHashes_fitSetHashes_md5 :
    ∃ fit', fitAllImageCheckHashes
      ⟨fun _ => List.replicate 20 0, fun _ => List.replicate 16 7, fun _ => rfl, fun _ => rfl⟩
      fit' = 1 ∧ ∃ root' : Node, fit' = root'.tags ++ [.fdtEnd] ∧
        OnlyImageHashes (.node [] [] [.node fitImages [] [.node [107] [some (fitDataProp, [1, 2])]
          [.node (fitHashNodename ++ [64, 49]) [some (fitAlgoProp, [109, 100, 53, 0])] []]]])
          root' := by
  have hset := fitSetHashes_tags
    ⟨fun _ => List.replicate 20 0, fun _ => List.replicate 16 7, fun _ => rfl, fun _ => rfl⟩
    ⟨true, 100, []⟩ [] [] [] fitImages [] [.node [107] [some (fitDataProp, [1, 2])]
      [.node (fitHashNodename ++ [64, 49]) [some (fitAlgoProp, [109, 100, 53, 0])] []]] []
    [.fdtEnd] (fun c hc => absurd hc List.not_mem_nil) (by decide)
  have hedit : editAll (setImage
      ⟨fun _ => List.replicate 20 0, fun _ => List.replicate 16 7, fun _ => rfl, fun _ => rfl⟩)
      ⟨true, 100, []⟩ [.node [107] [some (fitDataProp, [1, 2])]
        [.node (fitHashNodename ++ [64, 49]) [some (fitAlgoProp, [109, 100, 53, 0])] []]] =
      some (⟨true, 66, fitValueProp ++ [0]⟩, [.node [107] [some (fitDataProp, [1, 2])]
        [.node (fitHashNodename ++ [64, 49])
          [some (fitValueProp, List.replicate 16 7), some (fitAlgoProp, [109, 100, 53, 0])] []]]) :=
    rfl
  rw [hedit] at hset
  exact ⟨_, fitAllImageCheckHashes_fitSetHashes _ hset⟩

end Fit
end EmevBsp
