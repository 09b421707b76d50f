import EmevBsp.Cramfs.Resolve
import Mathlib.Data.List.Nodup

/-!
# `fs/cramfs/cramfs.c`: what a path names, and what is found

A path names an entry when each of its components is the name of an entry of the directory that the
ones before name.  `cramfs_resolve` looks for something else: an entry whose name is a prefix of the
component.  It also takes a regular file for the end of the path, whatever follows, and when `raw`
is 0 it goes on from a directory at the end of the path without a component.
-/

namespace EmevBsp
namespace Cramfs

/-! ## Names and places -/

/-- The path names an entry. -/
inductive Names : List Entry → List (List UInt8) → Entry → Prop where
  | last {es : List Entry} {e : Entry} (he : e ∈ es) : Names es [e.name] e
  | into {es : List Entry} {e x : Entry} {rest : List (List UInt8)} (he : e ∈ es)
      (hdir : sIsDir e.mode = true) (h : Names e.children rest x) : Names es (e.name :: rest) x

/-- The path names an entry at this place; when `raw` is 0, a regular file. -/
def Found (raw : Bool) (es : List Entry) (path : List (List UInt8)) (place : ℕ) : Prop :=
  ∃ e, Names es path e ∧ (raw = true ∨ sIsReg e.mode = true) ∧ e.place = place

mutual

/-- The places of an entry and of everything in it. -/
def Entry.places : Entry → List ℕ
  | .mk place _ _ children => place :: placesOf children

def placesOf : List Entry → List ℕ
  | [] => []
  | e :: es => e.places ++ placesOf es

end

theorem Entry.places_eq (e : Entry) : e.places = e.place :: placesOf e.children := by
  cases e
  rw [Entry.places]
  rfl

/-- **An image**: each directory has entries of different names, and each entry a place of its
own. -/
structure Image where
  bytes : ℕ → UInt8
  offset : ℕ
  size : ℕ
  root : List Entry
  onDisk : DirOnDisk bytes offset size root
  names : (root.map Entry.name).Nodup
  places : (placesOf root).Nodup

variable {raw : Bool} {es : List Entry} {e e' x : Entry} {path rest : List (List UInt8)}
  {filename : List UInt8} {place : ℕ}

theorem not_reg_of_dir {mode : ℕ} (h : sIsDir mode = true) : sIsReg mode = false := by
  rw [sIsDir, decide_eq_true_iff] at h
  rw [sIsReg, h]
  rfl

theorem places_sublist (he : e ∈ es) : e.places.Sublist (placesOf es) := by
  induction es with
  | nil => exact absurd he List.not_mem_nil
  | cons e' es ih =>
    rw [placesOf]
    rcases List.mem_cons.mp he with rfl | he
    · exact List.sublist_append_left _ _
    · exact (ih he).trans (List.sublist_append_right _ _)

theorem nodup_children (hplaces : (placesOf es).Nodup) (he : e ∈ es) :
    (placesOf e.children).Nodup := by
  have h := hplaces.sublist (places_sublist he)
  rw [Entry.places_eq] at h
  exact (List.nodup_cons.mp h).2

theorem not_mem_places (hplaces : (placesOf es).Nodup) (he : e ∈ es) (he' : e' ∈ es)
    (hne : e.name ≠ e'.name) (hplace : place ∈ e.places) : place ∉ e'.places := by
  induction es with
  | nil => exact absurd he List.not_mem_nil
  | cons d es ih =>
    rw [placesOf, List.nodup_append] at hplaces
    obtain ⟨_, htail, hapart⟩ := hplaces
    intro hplace'
    rcases List.mem_cons.mp he with rfl | hin
    · rcases List.mem_cons.mp he' with rfl | hin'
      · exact hne rfl
      · exact hapart _ hplace _ ((places_sublist hin').subset hplace') rfl
    · rcases List.mem_cons.mp he' with rfl | hin'
      · exact hapart _ hplace' _ ((places_sublist hin).subset hplace) rfl
      · exact ih htail hin hin' hplace'

theorem Names.exists_mem (h : Names es path x) :
    ∃ e ∈ es, path.head? = some e.name ∧ x.place ∈ e.places := by
  induction h with
  | last he =>
    refine ⟨_, he, rfl, ?_⟩
    rw [Entry.places_eq]
    exact List.mem_cons_self
  | into he _ _ ih =>
    obtain ⟨e', he', _, hplace⟩ := ih
    refine ⟨_, he, rfl, ?_⟩
    rw [Entry.places_eq]
    exact List.mem_cons_of_mem _ ((places_sublist he').subset hplace)

theorem eq_of_name_eq (hnames : (es.map Entry.name).Nodup) (he : e ∈ es) (he' : e' ∈ es)
    (h : e.name = e'.name) : e = e' :=
  List.inj_on_of_nodup_map hnames he he' h

theorem names_cons_iff (hnames : (es.map Entry.name).Nodup) (he : e ∈ es) :
    Names es (e.name :: rest) x ↔
      (rest = [] ∧ x = e) ∨ (sIsDir e.mode = true ∧ Names e.children rest x) := by
  constructor
  · intro h
    generalize hpath : e.name :: rest = path at h
    cases h with
    | last hx =>
      obtain ⟨hname, rfl⟩ := List.cons.inj hpath
      exact .inl ⟨rfl, eq_of_name_eq hnames hx he hname.symm⟩
    | into he' hdir h =>
      obtain ⟨hname, rfl⟩ := List.cons.inj hpath
      obtain rfl := eq_of_name_eq hnames he he' hname
      exact .inr ⟨hdir, h⟩
  · rintro (⟨rfl, rfl⟩ | ⟨hdir, h⟩)
    · exact .last he
    · exact .into he hdir h

theorem not_names_nil : ¬Names es [] x := fun h => nomatch h

/-! ## The walk -/

/-- The first entry whose name is a prefix of the component. -/
def taken (es : List Entry) (filename : List UInt8) : Option Entry :=
  es.find? fun e => e.name <+: filename

/-- The walk comes to the end of a directory, to an entry that is neither a directory nor a file, or
to an empty directory at the end of the path. -/
def Nowhere (raw : Bool) : List (List UInt8) → List Entry → Prop
  | [], es => es = []
  | filename :: rest, es => ∀ e, taken es filename = some e → ¬(raw = true ∧ rest = []) ∧
      if sIsDir e.mode then Nowhere raw rest e.children else sIsReg e.mode = false

/-- When the walk is right.  The entry that is taken has the name of the component; then, it is at
the end of the path, or a directory and the walk is right from there on, or neither a directory nor
a file.  Or its name is a proper prefix; then the walk comes to nothing, and the path names nothing
either. -/
def Right (raw : Bool) : List (List UInt8) → List Entry → Prop
  | [], es => es = []
  | filename :: rest, es => ∀ e, taken es filename = some e →
      if e.name = filename then
        (raw = true ∧ rest = []) ∨ (sIsDir e.mode = true ∧ Right raw rest e.children) ∨
          (sIsDir e.mode = false ∧ (rest = [] ∨ sIsReg e.mode = false))
      else Nowhere raw (filename :: rest) es ∧ ∀ place, ¬Found raw es (filename :: rest) place

theorem walk_cons (raw : Bool) (filename : List UInt8) (rest : List (List UInt8))
    (es : List Entry) : walk raw (filename :: rest) es =
      match taken es filename with
      | none => .absent
      | some e =>
        if raw ∧ rest = [] then .entry e.place
        else if sIsDir e.mode then walk raw rest e.children
        else if sIsReg e.mode then .entry e.place
        else .absent := rfl

theorem walk_ne_corrupt (path : List (List UInt8)) (es : List Entry) :
    walk raw path es ≠ .corrupt := by
  induction path generalizing es with
  | nil =>
    rw [walk]
    split_ifs
    · exact Outcome.noConfusion
    · exact Outcome.noConfusion
  | cons filename rest ih =>
    rw [walk_cons]
    split
    · exact Outcome.noConfusion
    · split_ifs
      · exact Outcome.noConfusion
      · exact ih _
      · exact Outcome.noConfusion
      · exact Outcome.noConfusion

theorem walk_eq_absent_iff : walk raw path es = .absent ↔ Nowhere raw path es := by
  induction path generalizing es with
  | nil =>
    rw [walk, Nowhere]
    by_cases hnil : es = []
    · rw [if_pos hnil]
      exact iff_of_true rfl hnil
    · rw [if_neg hnil]
      exact iff_of_false Outcome.noConfusion hnil
  | cons filename rest ih =>
    rw [walk_cons, Nowhere]
    cases taken es filename with
    | none => exact iff_of_true rfl fun e he => absurd he (by simp)
    | some e =>
      have hone : ∀ P : Entry → Prop, (∀ e', some e = some e' → P e') ↔ P e := fun P =>
        ⟨fun h => h e rfl, fun h e' he' => Option.some.inj he' ▸ h⟩
      rw [hone]
      dsimp only
      by_cases hend : raw = true ∧ rest = []
      · rw [if_pos hend]
        exact iff_of_false Outcome.noConfusion fun h => h.1 hend
      · rw [if_neg hend, and_iff_right hend]
        cases sIsDir e.mode with
        | true => exact ih
        | false =>
          cases sIsReg e.mode with
          | true => exact iff_of_false Outcome.noConfusion Bool.noConfusion
          | false => exact iff_of_true rfl rfl

theorem exists_taken_of_walk (h : walk raw path es = .entry place) :
    ∃ filename rest e, path = filename :: rest ∧ taken es filename = some e ∧
      place ∈ e.places := by
  induction path generalizing es with
  | nil =>
    rw [walk] at h
    split_ifs at h
  | cons filename rest ih =>
    rw [walk_cons] at h
    cases htaken : taken es filename with
    | none =>
      rw [htaken] at h
      exact Outcome.noConfusion h
    | some e =>
      rw [htaken] at h
      dsimp only at h
      refine ⟨filename, rest, e, rfl, htaken, ?_⟩
      rw [Entry.places_eq]
      split_ifs at h with hend hdir hreg
      · exact Outcome.entry.inj h ▸ List.mem_cons_self
      · obtain ⟨_, _, e', _, htaken', hplace⟩ := ih h
        have hmem : e' ∈ e.children := List.mem_of_find?_eq_some htaken'
        exact List.mem_cons_of_mem _ ((places_sublist hmem).subset hplace)
      · exact Outcome.entry.inj h ▸ List.mem_cons_self

/-! ## When the walk is right -/

/-- The walk uses no missing component, and comes to what the path names and to nothing else. -/
def WalkRight (raw : Bool) (path : List (List UInt8)) (es : List Entry) : Prop :=
  walk raw path es ≠ .missing ∧ ∀ place, walk raw path es = .entry place ↔ Found raw es path place

theorem walkRight_of_absent (h : walk raw path es = .absent) :
    WalkRight raw path es ↔ ∀ place, ¬Found raw es path place := by
  rw [WalkRight, h]
  refine ⟨fun hright place hfound => Outcome.noConfusion ((hright.2 place).mpr hfound),
    fun hnot => ⟨Outcome.noConfusion, fun place => iff_of_false Outcome.noConfusion (hnot place)⟩⟩

theorem walkRight_of_entry (h : walk raw path es = .entry place) :
    WalkRight raw path es ↔ ∀ p, Found raw es path p ↔ p = place := by
  rw [WalkRight, h]
  refine ⟨fun hright p => ?_, fun hfound => ⟨Outcome.noConfusion, fun p => ?_⟩⟩
  · rw [← hright.2 p]
    exact ⟨fun heq => (Outcome.entry.inj heq).symm, fun heq => by rw [heq]⟩
  · rw [hfound p]
    exact ⟨fun heq => (Outcome.entry.inj heq).symm, fun heq => by rw [heq]⟩

theorem walkRight_of_astray (hplaces : (placesOf es).Nodup) (htaken : taken es filename = some e)
    (hne : e.name ≠ filename) :
    WalkRight raw (filename :: rest) es ↔
      Nowhere raw (filename :: rest) es ∧ ∀ place, ¬Found raw es (filename :: rest) place := by
  rw [← walk_eq_absent_iff]
  constructor
  · intro hright
    have habsent : walk raw (filename :: rest) es = .absent := by
      cases hwalk : walk raw (filename :: rest) es with
      | absent => rfl
      | missing => exact absurd hwalk hright.1
      | corrupt => exact absurd hwalk (walk_ne_corrupt _ _)
      | entry place =>
        -- what is found and what is named are in different entries
        obtain ⟨x, hnames, _, hplace⟩ := (hright.2 place).mp hwalk
        obtain ⟨e', he', hhead, hin'⟩ := hnames.exists_mem
        obtain ⟨_, _, e'', hpath, htaken'', hin⟩ := exists_taken_of_walk hwalk
        obtain ⟨rfl, rfl⟩ := List.cons.inj hpath
        rw [htaken] at htaken''
        obtain rfl := Option.some.inj htaken''
        have hname : e.name ≠ e'.name := fun heq =>
          hne (heq.trans (Option.some.inj hhead).symm)
        exact absurd (hplace ▸ hin')
          (not_mem_places hplaces (List.mem_of_find?_eq_some htaken) he' hname hin)
    exact ⟨habsent, (walkRight_of_absent habsent).mp hright⟩
  · rintro ⟨habsent, hnot⟩
    exact (walkRight_of_absent habsent).mpr hnot

section Taken

variable (hnames : (es.map Entry.name).Nodup) (htaken : taken es e.name = some e)

include hnames htaken

theorem found_cons_iff :
    Found raw es (e.name :: rest) place ↔
      (rest = [] ∧ (raw = true ∨ sIsReg e.mode = true) ∧ e.place = place) ∨
        (sIsDir e.mode = true ∧ Found raw e.children rest place) := by
  have he : e ∈ es := List.mem_of_find?_eq_some htaken
  constructor
  · rintro ⟨x, hx, hkind, hplace⟩
    rcases (names_cons_iff hnames he).mp hx with ⟨hnil, rfl⟩ | ⟨hdir, hx⟩
    · exact .inl ⟨hnil, hkind, hplace⟩
    · exact .inr ⟨hdir, x, hx, hkind, hplace⟩
  · rintro (⟨hnil, hkind, hplace⟩ | ⟨hdir, x, hx, hkind, hplace⟩)
    · exact ⟨e, (names_cons_iff hnames he).mpr (.inl ⟨hnil, rfl⟩), hkind, hplace⟩
    · exact ⟨x, (names_cons_iff hnames he).mpr (.inr ⟨hdir, hx⟩), hkind, hplace⟩

theorem walkRight_of_end (hend : raw = true ∧ rest = []) :
    WalkRight raw (e.name :: rest) es := by
  have hwalk : walk raw (e.name :: rest) es = .entry e.place := by
    rw [walk_cons, htaken]
    exact if_pos hend
  rw [walkRight_of_entry hwalk]
  intro p
  rw [found_cons_iff hnames htaken, hend.2]
  constructor
  · rintro (⟨_, _, hplace⟩ | ⟨_, x, hx, _⟩)
    · exact hplace.symm
    · exact absurd hx not_names_nil
  · exact fun heq => .inl ⟨rfl, .inl hend.1, heq.symm⟩

theorem walkRight_of_dir (hend : ¬(raw = true ∧ rest = [])) (hdir : sIsDir e.mode = true) :
    WalkRight raw (e.name :: rest) es ↔ WalkRight raw rest e.children := by
  have hwalk : walk raw (e.name :: rest) es = walk raw rest e.children := by
    rw [walk_cons, htaken]
    dsimp only
    rw [if_neg hend, if_pos hdir]
  have hsame : ∀ place, Found raw es (e.name :: rest) place ↔ Found raw e.children rest place := by
    intro place
    rw [found_cons_iff hnames htaken, and_iff_right hdir]
    refine or_iff_right fun ⟨hnil, hkind, _⟩ => ?_
    rcases hkind with hraw | hreg
    · exact hend ⟨hraw, hnil⟩
    · rw [not_reg_of_dir hdir] at hreg
      exact Bool.false_ne_true hreg
  rw [WalkRight, WalkRight, hwalk]
  exact and_congr_right fun _ => forall_congr' fun place => by rw [hsame place]

theorem walkRight_of_file (hend : ¬(raw = true ∧ rest = [])) (hdir : sIsDir e.mode = false)
    (hreg : sIsReg e.mode = true) : WalkRight raw (e.name :: rest) es ↔ rest = [] := by
  have hwalk : walk raw (e.name :: rest) es = .entry e.place := by
    rw [walk_cons, htaken]
    dsimp only
    rw [if_neg hend, hdir, if_neg Bool.false_ne_true, if_pos hreg]
  have hfound : ∀ p, Found raw es (e.name :: rest) p ↔ rest = [] ∧ e.place = p := by
    intro p
    rw [found_cons_iff hnames htaken, hdir, or_iff_left fun hfalse => Bool.noConfusion hfalse.1,
      and_iff_right (Or.inr hreg)]
  rw [walkRight_of_entry hwalk]
  constructor
  · exact fun hall => ((hfound e.place).mp ((hall e.place).mpr rfl)).1
  · intro hnil p
    rw [hfound p, and_iff_right hnil]
    exact eq_comm

theorem walkRight_of_other (hend : ¬(raw = true ∧ rest = [])) (hdir : sIsDir e.mode = false)
    (hreg : sIsReg e.mode = false) : WalkRight raw (e.name :: rest) es := by
  have hwalk : walk raw (e.name :: rest) es = .absent := by
    rw [walk_cons, htaken]
    dsimp only
    rw [if_neg hend, hdir, if_neg Bool.false_ne_true, hreg, if_neg Bool.false_ne_true]
  rw [walkRight_of_absent hwalk]
  intro place
  rw [found_cons_iff hnames htaken, hdir, hreg]
  rintro (⟨hnil, hraw | hfalse, _⟩ | ⟨hfalse, _⟩)
  · exact hend ⟨hraw, hnil⟩
  · exact Bool.false_ne_true hfalse
  · exact Bool.false_ne_true hfalse

end Taken

theorem walk_right_iff {img : ℕ → UInt8} {offset size : ℕ} (h : DirOnDisk img offset size es)
    (hnames : (es.map Entry.name).Nodup) (hplaces : (placesOf es).Nodup) :
    WalkRight raw path es ↔ Right raw path es := by
  induction path generalizing es offset size with
  | nil =>
    rw [Right]
    by_cases hnil : es = []
    · have habsent : walk raw [] es = .absent := by rw [walk, if_pos hnil]
      rw [walkRight_of_absent habsent]
      exact iff_of_true (fun place hfound => not_names_nil hfound.choose_spec.1) hnil
    · refine iff_of_false (fun hright => hright.1 ?_) hnil
      rw [walk, if_neg hnil]
  | cons filename rest ih =>
    rw [Right]
    cases htaken : taken es filename with
    | none =>
      have habsent : walk raw (filename :: rest) es = .absent := by rw [walk_cons, htaken]
      rw [walkRight_of_absent habsent]
      refine iff_of_true (fun place hfound => ?_) fun e he => absurd he (by simp)
      obtain ⟨e, he, hhead, _⟩ := hfound.choose_spec.1.exists_mem
      have hnot := List.find?_eq_none.mp htaken e he
      rw [Option.some.inj hhead, decide_eq_true_iff] at hnot
      exact hnot (List.prefix_refl _)
    | some e =>
      have hone : ∀ P : Entry → Prop, (∀ e', some e = some e' → P e') ↔ P e := fun P =>
        ⟨fun h => h e rfl, fun h e' he' => Option.some.inj he' ▸ h⟩
      rw [hone]
      by_cases hname : e.name = filename
      · subst hname
        rw [if_pos rfl]
        by_cases hend : raw = true ∧ rest = []
        · exact iff_of_true (walkRight_of_end hnames htaken hend) (.inl hend)
        · rw [or_iff_right hend]
          cases hdir : sIsDir e.mode with
          | true =>
            have he : e ∈ es := List.mem_of_find?_eq_some htaken
            have hchildren := ((Entry.onDisk_iff e).mp (onDisk_of_mem h he)).2
            rw [if_pos hdir] at hchildren
            rw [walkRight_of_dir hnames htaken hend hdir,
              ih hchildren.2 hchildren.1 (nodup_children hplaces he), and_iff_right rfl]
            exact (or_iff_left fun hfalse => Bool.false_ne_true hfalse.1.symm).symm
          | false =>
            rw [or_iff_right fun hfalse => Bool.false_ne_true hfalse.1, and_iff_right rfl]
            cases hreg : sIsReg e.mode with
            | true =>
              rw [walkRight_of_file hnames htaken hend hdir hreg, or_iff_left Bool.noConfusion]
            | false =>
              exact iff_of_true (walkRight_of_other hnames htaken hend hdir hreg) (.inr rfl)
      · rw [if_neg hname]
        exact walkRight_of_astray hplaces htaken hname

/-! ## Images -/

/-- What is asked of a lookup: it uses no missing component, and comes to the place of what the path
names and to no other. -/
structure Resolves (image : Image) (raw : Bool) (path : CString) : Prop where
  ne_missing : cramfsResolve image.bytes raw (components path) image.offset image.size ≠ .missing
  entry_iff : ∀ place,
    cramfsResolve image.bytes raw (components path) image.offset image.size = .entry place ↔
      Found raw image.root (components path) place

theorem zero_not_mem_components (path : CString) : ∀ c ∈ components path, 0 ∉ c := by
  intro c hc h0
  exact path.noNul (Words.mem_of_mem_words hc 0 h0)

/-- **When `cramfs_resolve` is right.** -/
theorem cramfsResolve_iff (image : Image) (raw : Bool) (path : CString) :
    Resolves image raw path ↔ Right raw (components path) image.root := by
  rw [← walk_right_iff image.onDisk image.names image.places, WalkRight]
  have hwalk := cramfsResolve_eq_walk raw (zero_not_mem_components path) image.onDisk
  rw [← hwalk]
  exact ⟨fun h => ⟨h.1, h.2⟩, fun h => ⟨h.1, h.2⟩⟩

/-- The bytes of an image with one file, `foo`. -/
def fooBytes (i : ℕ) : UInt8 :=
  [0xa4, 0x81, 0, 0, 0, 0, 0, 0, 1, 0, 0, 0, 102, 111, 111, 0].getD (i - 76) 0

theorem onDisk_foo : DirOnDisk fooBytes 76 16 [.mk 76 [102, 111, 111] 0o100644 []] := by
  rw [DirOnDisk, DirOnDisk, Entry.OnDisk]
  refine ⟨rfl, ⟨⟨by decide, by decide, by decide, by decide, by decide, by decide, ?_, ?_⟩,
    List.nodup_nil, rfl⟩, by decide, by decide⟩
  · decide
  · intro i hlow hhigh
    have hlen : i < 4 := hhigh
    have hi : i = 3 := by
      simp only [List.length_cons, List.length_nil] at hlow
      omega
    rw [hi]
    decide

theorem nodup_places_foo : (placesOf [.mk 76 [102, 111, 111] 0o100644 []]).Nodup := by decide

/-- The image of these bytes. -/
def fooImage : Image where
  bytes := fooBytes
  offset := 76
  size := 16
  root := [.mk 76 [102, 111, 111] 0o100644 []]
  onDisk := onDisk_foo
  names := List.nodup_singleton _
  places := nodup_places_foo

def foobar : CString := ⟨[102, 111, 111, 98, 97, 114], by decide⟩

/-- The file `foo` is found for `foobar`. -/
theorem not_cramfsResolve_foobar : ¬Resolves fooImage false foobar := by
  intro h
  have hwalk := cramfsResolve_eq_walk false (zero_not_mem_components foobar) fooImage.onDisk
  have hentry : walk false (components foobar) fooImage.root = .entry 76 := by decide
  obtain ⟨x, hnames, _⟩ := (h.entry_iff 76).mp (hwalk.trans hentry)
  obtain ⟨e, he, hhead, _⟩ := hnames.exists_mem
  rw [List.mem_singleton.mp he] at hhead
  exact absurd hhead (by decide)

end Cramfs
end EmevBsp
