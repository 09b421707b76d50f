import EmevBsp.Fdt.Tags
import Mathlib.Data.List.Infix

/-!
# `libfdt/fdt_rw.c`: setting a property while walking over the tree

`fdt_setprop` gives a property of a node a new value, or adds the property in front of the others.
What stands behind moves, and what stands before stays: an offset at or before the node stays
good.  So an edit at an offset gives the tags from there on.

`editNodes` is the loop of the users that edit the nodes they pass.  It has a bound on its rounds,
and on a tree the number of the tags is enough.
-/

namespace EmevBsp
namespace Fdt

/-! ## The functions of the library -/

/-- What `fdt_setprop` sees of the blob besides the structure block. -/
structure Blob where
  /-- `_fdt_rw_check_header` returns zero. -/
  writable : Bool
  /-- The bytes from the end of the strings block up to `totalsize`. -/
  room : ℕ
  /-- The strings block. -/
  strings : List UInt8

def fdtTagalign (n : ℕ) : ℕ := 4 * ((n + 3) / 4)

/-- `_fdt_splice`: the room that is left. -/
def fdtSplice (b : Blob) (oldlen newlen : ℕ) : Option Blob :=
  if b.room + oldlen < newlen then none else some { b with room := b.room + oldlen - newlen }

def fdtFindAddString (b : Blob) (s : List UInt8) : Option Blob :=
  if s ++ [0] <:+: b.strings then some b
  else (fdtSplice b 0 (s.length + 1)).map fun b => { b with strings := b.strings ++ (s ++ [0]) }

/-- `fdt_get_property`, from the tags behind the name of the node on; `none` is
`-FDT_ERR_NOTFOUND`. -/
def fdtGetProperty (name : List UInt8) : List Tag → Except Unit (Option (List UInt8))
  | .prop n value :: tags => if n = name then .ok (some value) else fdtGetProperty name tags
  | .nop :: tags => fdtGetProperty name tags
  | .beginNode _ :: _ => .ok none
  | .endNode :: _ => .ok none
  | .fdtEnd :: _ => .error ()
  | .bad :: _ => .error ()
  | [] => .error ()

/-- The tags with a new value at the first property of the name. -/
def replaceProp (name value : List UInt8) : List Tag → List Tag
  | .prop n v :: tags =>
    if n = name then .prop n value :: tags else .prop n v :: replaceProp name value tags
  | tag :: tags => tag :: replaceProp name value tags
  | [] => []

def fdtSetprop (b : Blob) (node : List Tag) (name value : List UInt8) :
    Option (Blob × List Tag) :=
  match node with
  | .beginNode n :: tags =>
    if b.writable = false then none
    else
      match fdtGetProperty name tags with
      | .error _ => none
      | .ok (some old) =>
        (fdtSplice b (fdtTagalign old.length) (fdtTagalign value.length)).map fun b =>
          (b, .beginNode n :: replaceProp name value tags)
      | .ok none =>
        (fdtFindAddString b name).bind fun b =>
          (fdtSplice b 0 (12 + fdtTagalign value.length)).map fun b =>
            (b, .beginNode n :: .prop name value :: tags)
  | _ => none

/-! ## The loop of the users -/

section Edit

variable {σ : Type}

/-- `for (...; (noffset >= 0) && (ndepth > 0); noffset = fdt_next_node (fit, noffset, &ndepth))`,
with a body that edits the tags from the node on, or leaves the function.  `here` are the tags from
the node that was visited last. -/
def editNodes (body : σ → List Tag → ℤ → Option (σ × List Tag)) :
    ℕ → σ → List Tag → ℤ → Option (σ × List Tag)
  | 0, _, _, _ => none
  | fuel + 1, s, here, depth =>
    match (fdtNextNode here depth).1 with
    | none => some (s, here)
    | some node =>
      if 0 < (fdtNextNode here depth).2 then
        match body s node (fdtNextNode here depth).2 with
        | none => none
        | some r =>
          (editNodes body fuel r.1 r.2 (fdtNextNode here depth).2).map fun t =>
            (t.1, here.take (here.length - node.length) ++ t.2)
      else some (s, here)

/-- The same, for the tags behind the name of the node that was visited last. -/
def editTags (body : σ → List Tag → ℤ → Option (σ × List Tag)) (fuel : ℕ) (s : σ)
    (tags : List Tag) (depth : ℤ) : Option (σ × List Tag) :=
  (editNodes body fuel s (.beginNode [] :: tags) depth).map fun r => (r.1, r.2.tail)

variable {body : σ → List Tag → ℤ → Option (σ × List Tag)} {fuel : ℕ} {s : σ} {tags : List Tag}
  {depth : ℤ}

theorem length_nextFrom_le {node : List Tag} (h : (nextFrom tags depth).1 = some node) :
    node.length ≤ tags.length :=
  nextFrom_length (Prod.ext h rfl)

theorem editNodes_beginNode (name : List UInt8) :
    editNodes body fuel s (.beginNode name :: tags) depth =
      (editTags body fuel s tags depth).map fun r => (r.1, .beginNode name :: r.2) := by
  rw [editTags, Option.map_map]
  cases fuel with
  | zero => rfl
  | succ fuel =>
    have hnext (n : List UInt8) : fdtNextNode (.beginNode n :: tags) depth = nextFrom tags depth :=
      rfl
    rw [editNodes, editNodes, hnext, hnext]
    cases hnode : (nextFrom tags depth).1 with
    | none => rfl
    | some node =>
      have htake (n : List UInt8) : (Tag.beginNode n :: tags).take
          ((Tag.beginNode n :: tags).length - node.length) =
            .beginNode n :: tags.take (tags.length - node.length) := by
        rw [List.length_cons, Nat.succ_sub (length_nextFrom_le hnode), List.take_succ_cons]
      dsimp only
      split_ifs
      · cases body s node (nextFrom tags depth).2 with
        | none => rfl
        | some r =>
          dsimp only
          rw [htake, htake, Option.map_map]
          rfl
      · rfl

theorem editTags_skip (tag : Tag) {d : ℤ}
    (hskip : nextFrom (tag :: tags) depth = nextFrom tags d) :
    editTags body fuel s (tag :: tags) depth =
      (editTags body fuel s tags d).map fun r => (r.1, tag :: r.2) := by
  rw [editTags, editTags, Option.map_map]
  cases fuel with
  | zero => rfl
  | succ fuel =>
    have hnext : fdtNextNode (.beginNode [] :: tag :: tags) depth = nextFrom tags d := hskip
    have hnext' : fdtNextNode (.beginNode [] :: tags) d = nextFrom tags d := rfl
    rw [editNodes, editNodes, hnext, hnext']
    cases hnode : (nextFrom tags d).1 with
    | none => rfl
    | some node =>
      have hle := length_nextFrom_le hnode
      have htake : (Tag.beginNode [] :: tag :: tags).take
          ((Tag.beginNode [] :: tag :: tags).length - node.length) =
            .beginNode [] :: tag :: tags.take (tags.length - node.length) := by
        rw [List.length_cons, List.length_cons, Nat.succ_sub (by omega), Nat.succ_sub hle,
          List.take_succ_cons, List.take_succ_cons]
      have htake' : (Tag.beginNode [] :: tags).take
          ((Tag.beginNode [] :: tags).length - node.length) =
            .beginNode [] :: tags.take (tags.length - node.length) := by
        rw [List.length_cons, Nat.succ_sub hle, List.take_succ_cons]
      dsimp only
      split_ifs
      · cases body s node (nextFrom tags d).2 with
        | none => rfl
        | some r =>
          dsimp only
          rw [htake, htake', Option.map_map, Option.map_map]
          rfl
      · rfl

theorem editTags_beginNode (name : List UInt8) (hdepth : 0 < depth + 1) :
    editTags body (fuel + 1) s (.beginNode name :: tags) depth =
      (body s (.beginNode name :: tags) (depth + 1)).bind fun r =>
        editNodes body fuel r.1 r.2 (depth + 1) := by
  have hnext : fdtNextNode (.beginNode [] :: .beginNode name :: tags) depth =
      (some (.beginNode name :: tags), depth + 1) := rfl
  rw [editTags, editNodes, hnext]
  dsimp only
  rw [if_pos hdepth]
  cases body s (.beginNode name :: tags) (depth + 1) with
  | none => rfl
  | some r =>
    have htake : (Tag.beginNode [] :: .beginNode name :: tags).take
        ((Tag.beginNode [] :: .beginNode name :: tags).length -
          (Tag.beginNode name :: tags).length) = [.beginNode []] := by
      rw [List.length_cons (a := Tag.beginNode []), Nat.add_sub_cancel_left]
      rfl
    dsimp only
    rw [htake, Option.map_map]
    show _ = editNodes body fuel r.1 r.2 (depth + 1)
    cases editNodes body fuel r.1 r.2 (depth + 1) with
    | none => rfl
    | some t => rfl

theorem editTags_outside (tags : List Tag) {depth : ℤ} (hdepth : depth < 0) :
    editTags body (fuel + 1) s tags depth = some (s, tags) := by
  induction tags generalizing depth with
  | nil => rfl
  | cons tag tags ih =>
    cases tag with
    | beginNode name =>
      have hnext : fdtNextNode (.beginNode [] :: .beginNode name :: tags) depth =
          (some (.beginNode name :: tags), depth + 1) := rfl
      rw [editTags, editNodes, hnext]
      dsimp only
      rw [if_neg (by omega)]
      rfl
    | endNode => rw [editTags_skip (d := depth - 1) _ rfl, ih (by omega)]; rfl
    | prop name value => rw [editTags_skip (d := depth) _ rfl, ih hdepth]; rfl
    | nop => rw [editTags_skip (d := depth) _ rfl, ih hdepth]; rfl
    | fdtEnd => rfl
    | bad => rfl

end Edit

/-! ## On a tree -/

/-- The first property of the name, with a new value. -/
def replaceFirst (name value : List UInt8) :
    List (Option (List UInt8 × List UInt8)) → List (Option (List UInt8 × List UInt8))
  | [] => []
  | none :: props => none :: replaceFirst name value props
  | some p :: props =>
    if p.1 = name then some (p.1, value) :: props else some p :: replaceFirst name value props

/-- A property of a node is created or changed. -/
def Node.setprop (b : Blob) (c : Node) (name value : List UInt8) : Option (Blob × Node) :=
  match c with
  | .nop => none
  | .node n props children =>
    if b.writable = false then none
    else
      match (Node.node n props children).prop name with
      | some old =>
        (fdtSplice b (fdtTagalign old.length) (fdtTagalign value.length)).map fun b =>
          (b, .node n (replaceFirst name value props) children)
      | none =>
        (fdtFindAddString b name).bind fun b =>
          (fdtSplice b 0 (12 + fdtTagalign value.length)).map fun b =>
            (b, .node n (some (name, value) :: props) children)

theorem fdtGetProperty_tagsOf (name : List UInt8) (cs : List Node) (rest : List Tag) :
    fdtGetProperty name (tagsOf cs ++ .endNode :: rest) = .ok none := by
  induction cs with
  | nil => rfl
  | cons c cs ih =>
    rw [tagsOf, List.append_assoc]
    cases c with
    | node n props children => rw [Node.tags]; rfl
    | nop => rw [Node.tags]; exact ih

theorem fdtGetProperty_props (name : List UInt8)
    (props : List (Option (List UInt8 × List UInt8))) (cs : List Node) (rest : List Tag) :
    fdtGetProperty name (props.map propTag ++ (tagsOf cs ++ .endNode :: rest)) =
      .ok ((props.reduceOption.find? fun p => p.1 = name).map Prod.snd) := by
  induction props with
  | nil => exact fdtGetProperty_tagsOf name cs rest
  | cons p props ih =>
    cases p with
    | none => exact ih
    | some p =>
      have hcons : (some p :: props).reduceOption = p :: props.reduceOption := rfl
      have hfound : fdtGetProperty name ((some p :: props).map propTag ++
          (tagsOf cs ++ .endNode :: rest)) =
            if p.1 = name then .ok (some p.2)
            else fdtGetProperty name (props.map propTag ++ (tagsOf cs ++ .endNode :: rest)) := rfl
      rw [hfound, hcons, List.find?_cons]
      by_cases hname : p.1 = name
      · rw [if_pos hname, decide_eq_true hname]
        rfl
      · rw [if_neg hname, decide_eq_false hname, ih]

theorem replaceProp_props (name value : List UInt8)
    (props : List (Option (List UInt8 × List UInt8))) (tags : List Tag)
    (hsome : ((props.reduceOption.find? fun p => p.1 = name).map Prod.snd).isSome) :
    replaceProp name value (props.map propTag ++ tags) =
      (replaceFirst name value props).map propTag ++ tags := by
  induction props with
  | nil => exact absurd hsome Bool.false_ne_true
  | cons p props ih =>
    cases p with
    | none => exact congrArg (Tag.nop :: ·) (ih hsome)
    | some p =>
      have hcons : (some p :: props).reduceOption = p :: props.reduceOption := rfl
      have hreplace : replaceProp name value ((some p :: props).map propTag ++ tags) =
          if p.1 = name then .prop p.1 value :: (props.map propTag ++ tags)
          else .prop p.1 p.2 :: replaceProp name value (props.map propTag ++ tags) := rfl
      rw [hreplace, replaceFirst]
      by_cases hname : p.1 = name
      · rw [if_pos hname, if_pos hname]
        rfl
      · rw [hcons, List.find?_cons, decide_eq_false hname] at hsome
        rw [if_neg hname, if_neg hname, ih hsome]
        rfl

/-- **`fdt_setprop` on a tree** sets the property of the node. -/
theorem fdtSetprop_tags (b : Blob) (n : List UInt8)
    (props : List (Option (List UInt8 × List UInt8))) (children : List Node) (rest : List Tag)
    (name value : List UInt8) :
    fdtSetprop b ((Node.node n props children).tags ++ rest) name value =
      ((Node.node n props children).setprop b name value).map fun r =>
        (r.1, r.2.tags ++ rest) := by
  rw [tags_append, fdtSetprop, Node.setprop, fdtGetProperty_props, Node.prop]
  split_ifs with hwritable
  · rfl
  · cases hold : (props.reduceOption.find? fun p => p.1 = name).map Prod.snd with
    | some old =>
      dsimp only
      rw [Option.map_map, replaceProp_props name value props _ (by rw [hold]; rfl)]
      refine congrArg (Option.map · _) (funext fun b => ?_)
      exact Prod.ext rfl (tags_append _ _ _ _).symm
    | none =>
      dsimp only
      rw [Option.map_bind]
      refine congrArg (Option.bind _) (funext fun b => ?_)
      rw [Function.comp_apply, Option.map_map]
      refine congrArg (Option.map · _) (funext fun b => ?_)
      exact Prod.ext rfl (tags_append n (some (name, value) :: props) children rest).symm

/-- The properties of a node but those of a name. -/
def Node.otherProps (name : List UInt8) : Node → List (Option (List UInt8 × List UInt8))
  | .node _ props _ => props.filter fun p => p.all fun q => q.1 ≠ name
  | .nop => []

theorem Node.prop_eq_of_otherProps {n n' : List UInt8}
    {props props' : List (Option (List UInt8 × List UInt8))} {children children' : List Node}
    {name other : List UInt8}
    (h : (Node.node n' props' children').otherProps name =
      (Node.node n props children).otherProps name) (hne : other ≠ name) :
    (Node.node n' props' children').prop other = (Node.node n props children).prop other := by
  have hfind (ps : List (Option (List UInt8 × List UInt8))) :
      (ps.filter fun p => p.all fun q => q.1 ≠ name).reduceOption.find? (fun p => p.1 = other) =
        ps.reduceOption.find? fun p => p.1 = other := by
    induction ps with
    | nil => rfl
    | cons p ps ih =>
      cases p with
      | none => exact ih
      | some p =>
        have hcons (l : List (Option (List UInt8 × List UInt8))) :
            (some p :: l).reduceOption = p :: l.reduceOption := rfl
        by_cases hname : p.1 = name
        · have hp : p.1 ≠ other := fun heq => hne (heq.symm.trans hname)
          rw [List.filter_cons_of_neg (by simp [hname]), hcons, List.find?_cons,
            decide_eq_false hp, ih]
        · rw [List.filter_cons_of_pos (by simp [hname]), hcons, hcons, List.find?_cons,
            List.find?_cons, ih]
  rw [Node.otherProps, Node.otherProps] at h
  rw [Node.prop, Node.prop, ← hfind props', h, hfind props]

theorem replaceFirst_spec (name value : List UInt8)
    (props : List (Option (List UInt8 × List UInt8)))
    (hsome : ((props.reduceOption.find? fun p => p.1 = name).map Prod.snd).isSome) :
    (((replaceFirst name value props).reduceOption.find? fun p => p.1 = name).map Prod.snd =
        some value) ∧
      (replaceFirst name value props).filter (fun p => p.all fun q => q.1 ≠ name) =
        props.filter fun p => p.all fun q => q.1 ≠ name := by
  induction props with
  | nil => exact absurd hsome Bool.false_ne_true
  | cons p props ih =>
    cases p with
    | none =>
      obtain ⟨hfind, hfilter⟩ := ih hsome
      refine ⟨hfind, ?_⟩
      rw [replaceFirst, List.filter_cons_of_pos rfl, List.filter_cons_of_pos rfl, hfilter]
    | some p =>
      have hcons (l : List (Option (List UInt8 × List UInt8))) (q : List UInt8 × List UInt8) :
          (some q :: l).reduceOption = q :: l.reduceOption := rfl
      rw [replaceFirst]
      by_cases hname : p.1 = name
      · have hdrop (v : List UInt8) :
            ¬ (Option.all (fun q => decide (q.1 ≠ name)) (some (p.1, v)) = true) := by
          simp [hname]
        rw [if_pos hname, hcons, List.find?_cons, decide_eq_true hname,
          List.filter_cons_of_neg (hdrop value), List.filter_cons_of_neg (hdrop p.2)]
        exact ⟨rfl, rfl⟩
      · have hkeep : Option.all (fun q : List UInt8 × List UInt8 => decide (q.1 ≠ name)) (some p) =
            true := by
          simp [hname]
        rw [hcons, List.find?_cons, decide_eq_false hname] at hsome
        obtain ⟨hfind, hfilter⟩ := ih hsome
        rw [if_neg hname, hcons, List.find?_cons, decide_eq_false hname,
          List.filter_cons_of_pos hkeep, List.filter_cons_of_pos hkeep, hfilter]
        exact ⟨hfind, rfl⟩

/-- **What a successful `fdt_setprop` makes.**  The property has the value, and the node is the same
otherwise. -/
theorem Node.setprop_eq_some {b b' : Blob} {n : List UInt8}
    {props : List (Option (List UInt8 × List UInt8))} {children : List Node} {c' : Node}
    {name value : List UInt8}
    (h : (Node.node n props children).setprop b name value = some (b', c')) :
    ∃ props', c' = .node n props' children ∧ c'.prop name = some value ∧
      c'.otherProps name = (Node.node n props children).otherProps name := by
  rw [Node.setprop] at h
  split_ifs at h
  cases hold : (Node.node n props children).prop name with
  | some old =>
    rw [hold] at h
    obtain ⟨b₁, -, hmade⟩ := Option.map_eq_some_iff.mp h
    obtain rfl := (Prod.mk.inj hmade).2
    obtain ⟨hfind, hfilter⟩ := replaceFirst_spec name value props (by
      rw [Node.prop] at hold
      rw [hold]
      rfl)
    exact ⟨_, rfl, hfind, hfilter⟩
  | none =>
    rw [hold] at h
    obtain ⟨b₁, -, hadd⟩ := Option.bind_eq_some_iff.mp h
    obtain ⟨b₂, -, hmade⟩ := Option.map_eq_some_iff.mp hadd
    obtain rfl := (Prod.mk.inj hmade).2
    have hcons : (some (name, value) :: props).reduceOption = (name, value) :: props.reduceOption :=
      rfl
    refine ⟨_, rfl, ?_, ?_⟩
    · rw [Node.prop, hcons, List.find?_cons, decide_eq_true rfl]
      rfl
    · exact List.filter_cons_of_neg (by simp)

/-! ## The loop over a tree -/

theorem tagsOf_append (cs cs' : List Node) : tagsOf (cs ++ cs') = tagsOf cs ++ tagsOf cs' := by
  induction cs with
  | nil => rfl
  | cons c cs ih => rw [List.cons_append, tagsOf, tagsOf, ih, List.append_assoc]

mutual

/-- The number of the nodes of a tree. -/
def Node.count : Node → ℕ
  | .node _ _ children => countOf children + 1
  | .nop => 0

/-- The number of the nodes of some trees. -/
def countOf : List Node → ℕ
  | [] => 0
  | c :: cs => c.count + countOf cs

end

/-- An edit of the children of a node, one after the other. -/
def editAll {σ : Type} (step : σ → Node → Option (σ × Node)) :
    σ → List Node → Option (σ × List Node)
  | s, [] => some (s, [])
  | s, c :: cs =>
    (step s c).bind fun r => (editAll step r.1 cs).map fun t => (t.1, r.2 :: t.2)

section Children

variable {σ : Type} {body : σ → List Tag → ℤ → Option (σ × List Tag)}

/-- The body edits the direct children only. -/
def EditsShallow (body : σ → List Tag → ℤ → Option (σ × List Tag)) : Prop :=
  ∀ s node depth, 2 ≤ depth → body s node depth = some (s, node)

theorem editTags_props (props : List (Option (List UInt8 × List UInt8))) (rest : List Tag)
    (fuel : ℕ) (s : σ) (depth : ℤ) :
    editTags body fuel s (props.map propTag ++ rest) depth =
      (editTags body fuel s rest depth).map fun r => (r.1, props.map propTag ++ r.2) := by
  induction props with
  | nil => exact Option.map_id'.symm
  | cons p props ih =>
    have hskip : editTags body fuel s (propTag p :: (props.map propTag ++ rest)) depth =
        (editTags body fuel s (props.map propTag ++ rest) depth).map fun r =>
          (r.1, propTag p :: r.2) :=
      editTags_skip _ (by cases p <;> rfl)
    rw [List.map_cons, List.cons_append, hskip, ih, Option.map_map]
    rfl

mutual

theorem editTags_tags_of_deep (hdeep : EditsShallow body) (t : Node) (rest : List Tag) {depth : ℤ}
    (h : 1 ≤ depth) (fuel : ℕ) (s : σ) :
    editTags body (t.count + fuel) s (t.tags ++ rest) depth =
      (editTags body fuel s rest depth).map fun r => (r.1, t.tags ++ r.2) := by
  cases t with
  | nop =>
    rw [Node.tags, Node.count, Nat.zero_add]
    exact editTags_skip _ rfl
  | node name props children =>
    have hcount : (Node.node name props children).count + fuel =
        countOf children + fuel + 1 := by
      rw [Node.count]
      omega
    have hend : editTags body fuel s (.endNode :: rest) (depth + 1) =
        (editTags body fuel s rest depth).map fun r => (r.1, .endNode :: r.2) := by
      rw [editTags_skip (d := depth + 1 - 1) _ rfl, Int.add_sub_cancel]
    rw [hcount, tags_append, editTags_beginNode _ (by omega), hdeep _ _ _ (by omega),
      Option.bind_some, editNodes_beginNode, editTags_props,
      editTags_tagsOf_of_deep hdeep children _ (by omega), hend, Option.map_map, Option.map_map,
      Option.map_map]
    refine congrArg (Option.map · _) (funext fun r => ?_)
    exact Prod.ext rfl (tags_append _ _ _ _).symm
termination_by structural t

theorem editTags_tagsOf_of_deep (hdeep : EditsShallow body) (ts : List Node) (rest : List Tag)
    {depth : ℤ} (h : 1 ≤ depth) (fuel : ℕ) (s : σ) :
    editTags body (countOf ts + fuel) s (tagsOf ts ++ rest) depth =
      (editTags body fuel s rest depth).map fun r => (r.1, tagsOf ts ++ r.2) := by
  cases ts with
  | nil =>
    rw [countOf, Nat.zero_add]
    exact Option.map_id'.symm
  | cons t ts =>
    rw [tagsOf, countOf, List.append_assoc, Nat.add_assoc, editTags_tags_of_deep hdeep t _ h,
      editTags_tagsOf_of_deep hdeep ts _ h, Option.map_map]
    refine congrArg (Option.map · _) (funext fun r => ?_)
    exact Prod.ext rfl (List.append_assoc _ _ _).symm
termination_by structural ts

end

/-- An edit of a node leaves a node with as many nodes below it. -/
def KeepsCount (step : σ → Node → Option (σ × Node)) : Prop :=
  ∀ s name props children s' c', step s (.node name props children) = some (s', c') →
    ∃ name' props' children', c' = .node name' props' children' ∧
      countOf children' = countOf children

theorem editTags_children (hdeep : EditsShallow body) {step : σ → Node → Option (σ × Node)}
    (hnop : ∀ s, step s .nop = some (s, .nop))
    (hchild : ∀ name props children rest s,
      body s ((Node.node name props children).tags ++ rest) 1 =
        (step s (.node name props children)).map fun r => (r.1, r.2.tags ++ rest))
    (hcount : KeepsCount step) (children : List Node) (rest : List Tag) (fuel : ℕ) (s : σ) :
    editTags body (countOf children + (fuel + 1)) s (tagsOf children ++ .endNode :: rest) 0 =
      (editAll step s children).map fun r => (r.1, tagsOf r.2 ++ .endNode :: rest) := by
  induction children generalizing s with
  | nil =>
    rw [countOf, Nat.zero_add]
    exact (editTags_skip (d := -1) _ rfl).trans
      (by rw [editTags_outside rest (by decide)]; rfl)
  | cons c cs ih =>
    rw [tagsOf, countOf, editAll, List.append_assoc]
    cases c with
    | nop =>
      rw [hnop, Node.tags, Node.count, Nat.zero_add, Option.bind_some, List.singleton_append,
        editTags_skip (d := 0) _ rfl, ih, Option.map_map, Option.map_map]
      rfl
    | node name props children =>
      have hfuel : (Node.node name props children).count + countOf cs + (fuel + 1) =
          countOf children + (countOf cs + (fuel + 1)) + 1 := by
        rw [Node.count]
        omega
      have hbody := hchild name props children (tagsOf cs ++ .endNode :: rest) s
      rw [tags_append] at hbody
      rw [hfuel, tags_append, editTags_beginNode _ (by decide), zero_add, hbody]
      cases hstep : step s (.node name props children) with
      | none => rfl
      | some r =>
        obtain ⟨name', props', children', hmade, hsame⟩ := hcount _ _ _ _ _ _ hstep
        have hend : editTags body (countOf cs + (fuel + 1)) r.1
            (.endNode :: (tagsOf cs ++ .endNode :: rest)) 1 =
              (editTags body (countOf cs + (fuel + 1)) r.1 (tagsOf cs ++ .endNode :: rest) 0).map
                fun t => (t.1, .endNode :: t.2) := editTags_skip _ rfl
        rw [Option.map_some, Option.bind_some, Option.bind_some, hmade, tags_append,
          editNodes_beginNode, editTags_props, ← hsame,
          editTags_tagsOf_of_deep hdeep children' _ (Int.le_refl 1), hend, ih, Option.map_map,
          Option.map_map, Option.map_map, Option.map_map, Option.map_map]
        refine congrArg (Option.map · _) (funext fun t => Prod.ext rfl ?_)
        show Tag.beginNode name' :: (props'.map propTag ++ (tagsOf children' ++
          .endNode :: (tagsOf t.2 ++ .endNode :: rest))) =
            tagsOf (.node name' props' children' :: t.2) ++ .endNode :: rest
        rw [tagsOf, List.append_assoc, tags_append]

mutual

theorem count_le_length_tags (t : Node) : t.count ≤ t.tags.length := by
  cases t with
  | nop => exact Nat.zero_le _
  | node name props children =>
    have hchildren := countOf_le_length_tagsOf children
    rw [Node.count, Node.tags, List.length_cons, List.length_append, List.length_append]
    omega
termination_by structural t

theorem countOf_le_length_tagsOf (ts : List Node) : countOf ts ≤ (tagsOf ts).length := by
  cases ts with
  | nil => exact Nat.zero_le _
  | cons t ts =>
    rw [countOf, tagsOf, List.length_append]
    exact Nat.add_le_add (count_le_length_tags t) (countOf_le_length_tagsOf ts)
termination_by structural ts

end

variable (body) in
theorem editNodes_children (step : σ → Node → Option (σ × Node)) (hdeep : EditsShallow body)
    (hnop : ∀ s, step s .nop = some (s, .nop))
    (hchild : ∀ name props children rest s,
      body s ((Node.node name props children).tags ++ rest) 1 =
        (step s (.node name props children)).map fun r => (r.1, r.2.tags ++ rest))
    (hcount : KeepsCount step) (name : List UInt8)
    (props : List (Option (List UInt8 × List UInt8))) (children : List Node) (rest : List Tag)
    (fuel : ℕ) (hfuel : ((Node.node name props children).tags ++ rest).length ≤ fuel) (s : σ) :
    editNodes body fuel s ((Node.node name props children).tags ++ rest) 0 =
      (editAll step s children).map fun r =>
        (r.1, (Node.node name props r.2).tags ++ rest) := by
  have hlen := countOf_le_length_tagsOf children
  rw [tags_append] at hfuel ⊢
  simp only [List.length_cons, List.length_append] at hfuel
  obtain ⟨left, rfl⟩ : ∃ left, fuel = countOf children + (left + 1) :=
    ⟨fuel - countOf children - 1, by omega⟩
  rw [editNodes_beginNode, editTags_props, editTags_children hdeep hnop hchild hcount,
    Option.map_map, Option.map_map]
  refine congrArg (Option.map · _) (funext fun r => Prod.ext rfl ?_)
  exact (tags_append _ _ _ _).symm

end Children

end Fdt
end EmevBsp
