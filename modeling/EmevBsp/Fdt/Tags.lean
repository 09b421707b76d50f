import Mathlib.Data.List.Basic
import Mathlib.Tactic.Linarith

/-!
# `libfdt`: walking over a flattened tree

The structure block of a flattened device tree is a list of tags.  An offset into it is the list of
the tags from there on, and a negative one is `none`.  Names and values are lists of bytes; names
are without their terminators.

`forEachNode` is the loop that the users of `fdt_next_node` write down: it goes from node to node
until the depth says that the walk has left the node it started in, or the block ends.  The users
have their own bodies.
-/

namespace EmevBsp
namespace Fdt

/-- A tag with its data; `bad` is one that is none of the others. -/
inductive Tag where
  | beginNode (name : List UInt8)
  | endNode
  | prop (name value : List UInt8)
  | nop
  | fdtEnd
  | bad

/-! ## The functions of the library -/

/-- The loop of `fdt_next_node`: the next node, and the depth. -/
def nextFrom : List Tag → ℤ → Option (List Tag) × ℤ
  | [], depth => (none, depth)
  | .prop _ _ :: tags, depth => nextFrom tags depth
  | .nop :: tags, depth => nextFrom tags depth
  | .beginNode name :: tags, depth => (some (.beginNode name :: tags), depth + 1)
  | .endNode :: tags, depth => nextFrom tags (depth - 1)
  | .fdtEnd :: _, depth => (none, depth)
  | .bad :: _, depth => (none, depth)

/-- `fdt_next_node`, at a node. -/
def fdtNextNode (node : List Tag) (depth : ℤ) : Option (List Tag) × ℤ :=
  match node with
  | .beginNode _ :: tags => nextFrom tags depth
  | _ => (none, depth)

def fdtGetName : List Tag → Option (List UInt8)
  | .beginNode name :: _ => some name
  | _ => none

/-- The loop of `fdt_get_property_namelen`. -/
def findProp (name : List UInt8) : List Tag → Option (List UInt8)
  | .prop n value :: tags => if n = name then some value else findProp name tags
  | .nop :: tags => findProp name tags
  | _ => none

def fdtGetprop (node : List Tag) (name : List UInt8) : Option (List UInt8) :=
  match node with
  | .beginNode _ :: tags => findProp name tags
  | _ => none

theorem nextFrom_length {tags node : List Tag} {depth depth' : ℤ}
    (h : nextFrom tags depth = (some node, depth')) : node.length ≤ tags.length := by
  induction tags generalizing depth with
  | nil => exact absurd (Prod.mk.inj h).1 (Option.some_ne_none node).symm
  | cons tag tags ih =>
    cases tag with
    | beginNode name =>
      obtain rfl := Option.some.inj (Prod.mk.inj h).1
      exact Nat.le_refl _
    | endNode => exact Nat.le_succ_of_le (ih h)
    | prop name value => exact Nat.le_succ_of_le (ih h)
    | nop => exact Nat.le_succ_of_le (ih h)
    | fdtEnd => exact absurd (Prod.mk.inj h).1 (Option.some_ne_none node).symm
    | bad => exact absurd (Prod.mk.inj h).1 (Option.some_ne_none node).symm

theorem fdtNextNode_length {node next : List Tag} {depth : ℤ}
    (h : (fdtNextNode node depth).1 = some next) : next.length < node.length := by
  cases node with
  | nil => exact absurd h.symm (Option.some_ne_none next)
  | cons tag tags =>
    cases tag with
    | beginNode name =>
      exact Nat.lt_succ_of_le (nextFrom_length (Prod.ext h rfl))
    | _ => exact absurd h.symm (Option.some_ne_none next)

/-! ## The loop of the users -/

section Walk

variable {σ ρ : Type}

/-- `for (...; (noffset >= 0) && (ndepth > 0); noffset = fdt_next_node (fit, noffset, &ndepth))`,
with a body that may leave the function. -/
def forEachNode (body : List Tag → ℤ → σ → Except ρ σ) (offset : Option (List Tag)) (depth : ℤ)
    (s : σ) : Except ρ σ :=
  match offset with
  | none => .ok s
  | some node =>
    if 0 < depth then
      match body node depth s with
      | .error r => .error r
      | .ok s =>
        match _h : (fdtNextNode node depth).1 with
        | none => .ok s
        | some next => forEachNode body (some next) (fdtNextNode node depth).2 s
    else .ok s
termination_by offset.elim 0 List.length
decreasing_by exact fdtNextNode_length _h

/-- The loop, from the tags behind the current node on. -/
def walk (body : List Tag → ℤ → σ → Except ρ σ) (tags : List Tag) (depth : ℤ) (s : σ) :
    Except ρ σ :=
  forEachNode body (nextFrom tags depth).1 (nextFrom tags depth).2 s

variable {body : List Tag → ℤ → σ → Except ρ σ} {depth : ℤ} {s : σ}

theorem forEachNode_none : forEachNode body none depth s = .ok s := by
  rw [forEachNode]

theorem walk_beginNode (name : List UInt8) (tags : List Tag) :
    walk body (.beginNode name :: tags) depth s =
      if 0 < depth + 1 then
        match body (.beginNode name :: tags) (depth + 1) s with
        | .error r => .error r
        | .ok s => walk body tags (depth + 1) s
      else .ok s := by
  have hstart : walk body (.beginNode name :: tags) depth s =
      forEachNode body (some (.beginNode name :: tags)) (depth + 1) s := rfl
  rw [hstart, forEachNode]
  split_ifs
  · cases body (.beginNode name :: tags) (depth + 1) s with
    | error r => rfl
    | ok s =>
      show (match _h : (nextFrom tags (depth + 1)).1 with
        | none => Except.ok s
        | some next => forEachNode body (some next) (nextFrom tags (depth + 1)).2 s) =
          walk body tags (depth + 1) s
      rw [walk]
      cases (nextFrom tags (depth + 1)).1 with
      | none => exact forEachNode_none.symm
      | some next => rfl
  · rfl

theorem walk_outside (tags : List Tag) (hdepth : depth < 0) : walk body tags depth s = .ok s := by
  induction tags generalizing depth with
  | nil => exact forEachNode_none
  | cons tag tags ih =>
    cases tag with
    | beginNode name => rw [walk_beginNode, if_neg (by omega)]
    | endNode => exact ih (show depth - 1 < 0 by omega)
    | prop name value => exact ih hdepth
    | nop => exact ih hdepth
    | fdtEnd => exact forEachNode_none
    | bad => exact forEachNode_none

end Walk

/-! ## Trees -/

/-- A tree.  A node or property that was deleted left `FDT_NOP` tags behind. -/
inductive Node where
  | node (name : List UInt8) (props : List (Option (List UInt8 × List UInt8)))
    (children : List Node)
  | nop

/-- The tag of a property. -/
def propTag : Option (List UInt8 × List UInt8) → Tag
  | some p => .prop p.1 p.2
  | none => .nop

mutual

/-- The tags of a tree. -/
def Node.tags : Node → List Tag
  | .node name props children =>
    .beginNode name :: (props.map propTag ++ (tagsOf children ++ [.endNode]))
  | .nop => [.nop]

/-- The tags of some trees. -/
def tagsOf : List Node → List Tag
  | [] => []
  | c :: cs => c.tags ++ tagsOf cs

end

/-- The value of the first property of a name. -/
def Node.prop (name : List UInt8) : Node → Option (List UInt8)
  | .node _ props _ => (props.reduceOption.find? fun p => p.1 = name).map Prod.snd
  | .nop => none

theorem findProp_tagsOf (name : List UInt8) (cs : List Node) (rest : List Tag) :
    findProp name (tagsOf cs ++ .endNode :: rest) = none := by
  induction cs with
  | nil => rfl
  | cons c cs ih =>
    rw [tagsOf, List.append_assoc]
    cases c with
    | node n props children => rw [Node.tags]; rfl
    | nop => rw [Node.tags]; exact ih

/-- **`fdt_getprop` finds the property** of the node. -/
theorem fdtGetprop_tags (n : List UInt8) (props : List (Option (List UInt8 × List UInt8)))
    (children : List Node) (rest : List Tag) (name : List UInt8) :
    fdtGetprop ((Node.node n props children).tags ++ rest) name =
      (Node.node n props children).prop name := by
  have hfind : findProp name (props.map propTag ++ (tagsOf children ++ .endNode :: rest)) =
      (props.reduceOption.find? fun p => p.1 = name).map Prod.snd := by
    induction props with
    | nil => exact findProp_tagsOf name children rest
    | cons p props ih =>
      cases p with
      | none => exact ih
      | some p =>
        have hcons : (some p :: props).reduceOption = p :: props.reduceOption := rfl
        have hfound : findProp name ((some p :: props).map propTag ++
            (tagsOf children ++ .endNode :: rest)) =
              if p.1 = name then some p.2
              else findProp name (props.map propTag ++ (tagsOf children ++ .endNode :: rest)) := rfl
        rw [hfound, hcons, List.find?_cons]
        by_cases hname : p.1 = name
        · rw [if_pos hname, decide_eq_true hname]
          rfl
        · rw [if_neg hname, decide_eq_false hname, ih]
  rw [Node.tags, Node.prop, ← hfind]
  simp only [List.cons_append, List.append_assoc, List.nil_append]
  rfl

/-! ## The loop over a tree -/

section Children

variable {σ ρ : Type} {body : List Tag → ℤ → σ → Except ρ σ}

/-- The body looks at the direct children only. -/
def Shallow (body : List Tag → ℤ → σ → Except ρ σ) : Prop :=
  ∀ node depth s, 2 ≤ depth → body node depth s = .ok s

theorem tags_append (name : List UInt8) (props : List (Option (List UInt8 × List UInt8)))
    (children : List Node) (rest : List Tag) :
    (Node.node name props children).tags ++ rest =
      .beginNode name :: (props.map propTag ++ (tagsOf children ++ (.endNode :: rest))) := by
  rw [Node.tags]
  simp only [List.cons_append, List.append_assoc, List.nil_append]

theorem walk_props (props : List (Option (List UInt8 × List UInt8))) (rest : List Tag) (depth : ℤ)
    (s : σ) : walk body (props.map propTag ++ rest) depth s = walk body rest depth s := by
  induction props with
  | nil => rfl
  | cons p props ih =>
    cases p with
    | none => exact ih
    | some p => exact ih

mutual

theorem walk_tags_of_deep (hdeep : Shallow body) (t : Node) (rest : List Tag) {depth : ℤ}
    (h : 1 ≤ depth) (s : σ) : walk body (t.tags ++ rest) depth s = walk body rest depth s := by
  cases t with
  | nop =>
    rw [Node.tags]
    rfl
  | node name props children =>
    have hin := walk_tagsOf_of_deep hdeep children (.endNode :: rest)
      (show 1 ≤ depth + 1 by omega) s
    have hend : walk body (.endNode :: rest) (depth + 1) s = walk body rest depth s := by
      have hback : walk body (.endNode :: rest) (depth + 1) s =
          walk body rest (depth + 1 - 1) s := rfl
      rw [hback, Int.add_sub_cancel]
    rw [tags_append, walk_beginNode, if_pos (by omega), hdeep _ _ _ (by omega)]
    show walk body (props.map propTag ++ _) (depth + 1) s = _
    rw [walk_props, hin, hend]
termination_by structural t

theorem walk_tagsOf_of_deep (hdeep : Shallow body) (ts : List Node) (rest : List Tag) {depth : ℤ}
    (h : 1 ≤ depth) (s : σ) : walk body (tagsOf ts ++ rest) depth s = walk body rest depth s := by
  cases ts with
  | nil => rfl
  | cons t ts =>
    rw [tagsOf, List.append_assoc, walk_tags_of_deep hdeep t _ h, walk_tagsOf_of_deep hdeep ts _ h]
termination_by structural ts

end

theorem walk_children (hdeep : Shallow body) {step : σ → Node → Except ρ σ}
    (hnop : ∀ s, step s .nop = .ok s)
    (hchild : ∀ name props children rest s,
      body ((Node.node name props children).tags ++ rest) 1 s = step s (.node name props children))
    (children : List Node) (rest : List Tag) (s : σ) :
    walk body (tagsOf children ++ .endNode :: rest) 0 s = children.foldlM step s := by
  induction children generalizing s with
  | nil => exact walk_outside rest (show (-1 : ℤ) < 0 by decide)
  | cons c cs ih =>
    rw [tagsOf, List.append_assoc, List.foldlM_cons]
    cases c with
    | nop =>
      rw [hnop, Node.tags]
      exact ih s
    | node name props children =>
      have hin (s : σ) : walk body (props.map propTag ++ (tagsOf children ++
          (.endNode :: (tagsOf cs ++ .endNode :: rest)))) 1 s =
            walk body (tagsOf cs ++ .endNode :: rest) 0 s := by
        rw [walk_props, walk_tagsOf_of_deep hdeep children _ (Int.le_refl 1)]
        rfl
      have hbody := hchild name props children (tagsOf cs ++ .endNode :: rest) s
      rw [tags_append] at hbody ⊢
      rw [walk_beginNode, if_pos (by decide)]
      show (match body _ 1 s with
        | .error r => .error r
        | .ok s => walk body _ 1 s) = step s (.node name props children) >>= _
      rw [hbody]
      cases step s (.node name props children) with
      | error r => rfl
      | ok s => exact (hin s).trans (ih s)

variable (body) in
/-- **The loop is a fold** over the direct children of the node, when the body looks at these only
and sees nothing but their own tags. -/
theorem forEachNode_children (step : σ → Node → Except ρ σ) (hdeep : Shallow body)
    (hnop : ∀ s, step s .nop = .ok s)
    (hchild : ∀ name props children rest s,
      body ((Node.node name props children).tags ++ rest) 1 s = step s (.node name props children))
    (name : List UInt8) (props : List (Option (List UInt8 × List UInt8))) (children : List Node)
    (rest : List Tag) (s : σ) :
    forEachNode body (fdtNextNode ((Node.node name props children).tags ++ rest) 0).1
        (fdtNextNode ((Node.node name props children).tags ++ rest) 0).2 s =
      children.foldlM step s := by
  rw [tags_append]
  show walk body (props.map propTag ++ (tagsOf children ++ .endNode :: rest)) 0 s = _
  rw [walk_props, walk_children hdeep hnop hchild]

end Children

end Fdt
end EmevBsp
