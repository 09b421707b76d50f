import EmevBsp.Env.Image
import Mathlib.Data.Fintype.Basic
import Mathlib.Data.List.OfFn

/-!
# `common/env_flash.c`: the redundant environment in NOR flash

With `CONFIG_ENV_ADDR_REDUND` the environment is kept in two sectors of the size of an `env_t`.
`saveenv` erases the one that is not in use and writes the new environment to it, first the
data, then the check, then the flags of the two copies; `env_init` chooses a copy, and
`env_relocate_spec` finishes the writes of the flags that a power cut left out.

Programming flash clears bits: what is written is and-ed to what is there (`flashWrite`).  The
writes of a function are a list of single bytes in their order (`saveWrites`,
`relocateWrites`), so a power cut between two byte writes leaves what a prefix of the list
does.
-/

namespace EmevBsp
namespace Env

/-- The two places the environment is kept in. -/
inductive Copy where
  | first
  | second
  deriving DecidableEq

def Copy.other : Copy → Copy
  | first => second
  | second => first

@[simp] theorem Copy.other_other (c : Copy) : c.other.other = c := by cases c <;> rfl

@[simp] theorem Copy.other_ne (c : Copy) : c.other ≠ c := by cases c <;> decide

@[simp] theorem Copy.ne_other (c : Copy) : c ≠ c.other := by cases c <;> decide

namespace Nor

/-- The bytes of an `env_t`, with `n = ENV_SIZE`. -/
inductive Offset (n : ℕ) where
  | crc (i : Fin 4)
  | flags
  | data (i : Fin n)
  deriving DecidableEq

instance Offset.lawfulBEq (n : ℕ) : LawfulBEq (Offset n) := inferInstance

/-- An `env_t`, in flash or in RAM. -/
abbrev Sector (n : ℕ) := Offset n → UInt8

abbrev Flash (n : ℕ) := Copy → Sector n

variable {n : ℕ}

/-- The bytes of a 32-bit word, the lowest first. -/
def wordBytes (w : UInt32) (i : Fin 4) : UInt8 := (w >>> UInt32.ofNat (8 * i)).toUInt8

def Sector.data (s : Sector n) (i : Fin n) : UInt8 := s (.data i)

/-- What `env_crc_update` stores for the data. -/
def crcOf (data : Fin n → UInt8) : Fin 4 → UInt8 := wordBytes (crc32 0 (List.ofFn data))

/-- `crc32 (0, data, ENV_SIZE) == crc` -/
def CrcOk (s : Sector n) : Prop := ∀ i, s (.crc i) = crcOf (Sector.data s) i

instance (s : Sector n) : Decidable (CrcOk s) :=
  inferInstanceAs (Decidable (∀ i, s (.crc i) = crcOf (Sector.data s) i))

abbrev activeFlag : UInt8 := 1

abbrev obsoleteFlag : UInt8 := 0

/-! ## `env_init` -/

/-- `gd->env_addr`: still unset, the default environment, or the data of a copy. -/
inductive EnvAddr where
  | unset
  | default
  | data (c : Copy)
  deriving DecidableEq

/-- `env_init`: `gd->env_addr` and `gd->env_valid`. -/
def envInit (f : Flash n) : EnvAddr × ℕ :=
  let flag1 := f .first .flags
  let flag2 := f .second .flags
  if CrcOk (f .first) ∧ ¬ CrcOk (f .second) then (.data .first, 1)
  else if ¬ CrcOk (f .first) ∧ CrcOk (f .second) then (.data .second, 1)
  else if ¬ CrcOk (f .first) ∧ ¬ CrcOk (f .second) then (.default, 0)
  else if flag1 = activeFlag ∧ flag2 = obsoleteFlag then (.data .first, 1)
  else if flag1 = obsoleteFlag ∧ flag2 = activeFlag then (.data .second, 1)
  else if flag1 = flag2 then (.data .first, 2)
  else if flag1 = 0xff then (.data .first, 2)
  else if flag2 = 0xff then (.data .second, 2)
  else (.unset, 0)

/-! ## Programming -/

/-- A byte written to flash. -/
structure ByteWrite (n : ℕ) where
  copy : Copy
  offset : Offset n
  byte : UInt8

/-- Programming a byte clears bits. -/
def flashWrite (f : Flash n) (w : ByteWrite n) : Flash n :=
  Function.update f w.copy
    (Function.update (f w.copy) w.offset (f w.copy w.offset &&& w.byte))

/-- Byte writes in their order. -/
def flashWrites (f : Flash n) (l : List (ByteWrite n)) : Flash n := l.foldl flashWrite f

/-- An erased sector. -/
def erased : Sector n := fun _ => 0xff

/-! ## `saveenv` and `env_relocate_spec` -/

/-- U-Boot with its environment in RAM: `flash_addr` and `*env_ptr`. -/
structure Running (n : ℕ) where
  flashAddr : Copy
  env : Sector n

/-- The data, then the check. -/
def contents (n : ℕ) : List (Offset n) := List.ofFn Offset.data ++ List.ofFn Offset.crc

/-- The four `flash_write` calls of `saveenv`, byte by byte. -/
def saveWrites (r : Running n) : List (ByteWrite n) :=
  ((contents n).map fun o => ⟨r.flashAddr.other, o, r.env o⟩) ++
    [⟨r.flashAddr, .flags, obsoleteFlag⟩, ⟨r.flashAddr.other, .flags, activeFlag⟩]

/-- The sector at `flash_addr_new` erased. -/
def eraseNew (f : Flash n) (r : Running n) : Flash n :=
  Function.update f r.flashAddr.other erased

/-- A `saveenv` that completes. -/
def saveenv (f : Flash n) (r : Running n) : Flash n × Running n :=
  (flashWrites (eraseNew f r) (saveWrites r), { r with flashAddr := r.flashAddr.other })

/-- The writes of `env_relocate_spec`, `c` being the copy that was chosen.  The first of them
does not touch the flags that the second condition reads. -/
def relocateWrites (f : Flash n) (c : Copy) : List (ByteWrite n) :=
  (if f c.other .flags ≠ obsoleteFlag ∧ CrcOk (f c.other) then
    [⟨c.other, .flags, obsoleteFlag⟩] else []) ++
  (if f c .flags ≠ activeFlag ∧ f c .flags &&& activeFlag = activeFlag then
    [⟨c, .flags, activeFlag⟩] else [])

/-- The writes of a boot: none when `env_relocate` takes the default environment. -/
def bootWrites (f : Flash n) : List (ByteWrite n) :=
  match envInit f with
  | (.data c, _ + 1) => relocateWrites f c
  | _ => []

/-- `set_default_env` -/
def defaultEnv (data : Fin n → UInt8) : Sector n
  | .crc i => crcOf data i
  | .flags => 0xff
  | .data i => data i

/-- `env_init` and `env_relocate`: the flash after the boot, and what is in RAM. -/
def boot (dflt : Fin n → UInt8) (f : Flash n) : Flash n × Running n :=
  let f' := flashWrites f (bootWrites f)
  match envInit f with
  | (.data c, _ + 1) => (f', ⟨c, f' c⟩)
  | _ => (f', ⟨.first, defaultEnv dflt⟩)

/-! ## What the writes leave -/

theorem flashWrites_append (f : Flash n) (l l' : List (ByteWrite n)) :
    flashWrites f (l ++ l') = flashWrites (flashWrites f l) l' :=
  List.foldl_append

theorem and_and_self (a b : UInt8) : a &&& b &&& b = a &&& b := by
  rw [UInt8.and_assoc, UInt8.and_self]

theorem and_ff (b : UInt8) : 0xff &&& b = b := by
  rw [UInt8.and_comm]
  exact UInt8.and_neg_one

theorem flashWrites_map (c : Copy) (s : Sector n) (l : List (Offset n)) (f : Flash n) :
    flashWrites f (l.map fun o => ⟨c, o, s o⟩) =
      Function.update f c fun o => if o ∈ l then f c o &&& s o else f c o := by
  induction l generalizing f with
  | nil => simp [flashWrites]
  | cons o l ih =>
    show flashWrites (flashWrite f ⟨c, o, s o⟩) (l.map fun o => ⟨c, o, s o⟩) = _
    rw [ih, flashWrite]
    simp only [Function.update_self, Function.update_idem]
    congr 1
    funext o'
    by_cases ho : o' = o
    · subst ho
      simp [and_and_self]
    · simp [ho]

theorem data_mem_contents (i : Fin n) : Offset.data i ∈ contents n :=
  List.mem_append_left _ (List.mem_ofFn.mpr ⟨i, rfl⟩)

theorem crc_mem_contents (i : Fin 4) : Offset.crc i ∈ contents n :=
  List.mem_append_right _ (List.mem_ofFn.mpr ⟨i, rfl⟩)

theorem flags_notMem_contents : Offset.flags ∉ contents n := by
  rw [contents, List.mem_append, List.mem_ofFn, List.mem_ofFn]
  rintro (⟨i, hi⟩ | ⟨i, hi⟩)
  · exact absurd hi (by simp)
  · exact absurd hi (by simp)

theorem length_contents : (contents n).length = n + 4 := by
  rw [contents, List.length_append, List.length_ofFn, List.length_ofFn]

theorem data_mem_take {k : ℕ} (hk : n ≤ k) (i : Fin n) : Offset.data i ∈ (contents n).take k := by
  rw [contents, List.take_append, List.take_of_length_le (by rwa [List.length_ofFn])]
  exact List.mem_append_left _ (List.mem_ofFn.mpr ⟨i, rfl⟩)

/-- The new sector after some of its contents were written. -/
def partly (s : Sector n) (l : List (Offset n)) : Sector n := fun o => if o ∈ l then s o else 0xff

theorem flashWrites_eraseNew (f : Flash n) (r : Running n) (l : List (Offset n)) :
    flashWrites (eraseNew f r) (l.map fun o => ⟨r.flashAddr.other, o, r.env o⟩) =
      Function.update f r.flashAddr.other (partly r.env l) := by
  rw [flashWrites_map, eraseNew, Function.update_idem, Function.update_self]
  congr 1
  funext o
  by_cases ho : o ∈ l
  · simp [partly, ho, erased, and_ff]
  · simp [partly, ho, erased]

/-- The environment in RAM, its flags apart. -/
def withFlags (s : Sector n) (b : UInt8) : Sector n := Function.update s .flags b

theorem partly_contents (s : Sector n) : partly s (contents n) = withFlags s 0xff := by
  funext o
  cases o with
  | crc i => simp [partly, withFlags, crc_mem_contents]
  | flags => simp [partly, withFlags, flags_notMem_contents]
  | data i => simp [partly, withFlags, data_mem_contents]

theorem crcOk_withFlags (s : Sector n) (b : UInt8) : CrcOk (withFlags s b) ↔ CrcOk s := by
  have hdata : Sector.data (withFlags s b) = Sector.data s := by
    funext i
    simp [Sector.data, withFlags]
  simp only [CrcOk, hdata]
  simp [withFlags]

@[simp] theorem data_withFlags (s : Sector n) (b : UInt8) :
    Sector.data (withFlags s b) = Sector.data s := by
  funext i
  simp [Sector.data, withFlags]

@[simp] theorem withFlags_flags (s : Sector n) (b : UInt8) : withFlags s b .flags = b := by
  simp [withFlags]

theorem flashWrite_flags (f : Flash n) (c : Copy) (b : UInt8) :
    flashWrite f ⟨c, .flags, b⟩ = Function.update f c (withFlags (f c) (f c .flags &&& b)) :=
  rfl

theorem flashWrites_flags_old (f : Flash n) (r : Running n) :
    flashWrite (Function.update f r.flashAddr.other (withFlags r.env 0xff))
        ⟨r.flashAddr, .flags, obsoleteFlag⟩ =
      Function.update (Function.update f r.flashAddr.other (withFlags r.env 0xff)) r.flashAddr
        (withFlags (f r.flashAddr) obsoleteFlag) := by
  rw [flashWrite_flags, Function.update_of_ne (Copy.ne_other _), UInt8.and_zero]

/-- **The flash after a `saveenv`.** -/
theorem saveenv_flash (f : Flash n) (r : Running n) (c : Copy) :
    (saveenv f r).1 c = if c = r.flashAddr then withFlags (f r.flashAddr) obsoleteFlag
      else withFlags r.env activeFlag := by
  have hnew : withFlags (withFlags r.env 0xff) (0xff &&& activeFlag) =
      withFlags r.env activeFlag := by
    rw [withFlags, withFlags, Function.update_idem, and_ff]
    rfl
  show flashWrites (eraseNew f r) (saveWrites r) c = _
  rw [saveWrites, flashWrites_append, flashWrites_eraseNew, partly_contents]
  show flashWrite (flashWrite _ _) _ c = _
  rw [flashWrites_flags_old, flashWrite_flags, Function.update_of_ne (Copy.other_ne _),
    Function.update_self, withFlags_flags, hnew]
  by_cases hc : c = r.flashAddr
  · subst hc
    simp
  · have hother : c = r.flashAddr.other := by
      revert hc
      cases c <;> cases r.flashAddr <;> simp [Copy.other]
    subst hother
    simp

theorem length_saveWrites (r : Running n) : (saveWrites r).length = n + 4 + 2 := by
  rw [saveWrites, List.length_append, List.length_map, length_contents]
  rfl

/-- **The flash after a part of the writes of a `saveenv`.**  Up to the check, the old copy is
untouched and the flags of the new one are erased; once the data bytes are through, they are
those of the new environment. -/
theorem saveWrites_take (f : Flash n) (r : Running n) {k : ℕ} (hk : k < (saveWrites r).length) :
    (∃ s : Sector n, flashWrites (eraseNew f r) ((saveWrites r).take k) =
        Function.update f r.flashAddr.other s ∧ s .flags = 0xff ∧
        (n ≤ k → Sector.data s = Sector.data r.env)) ∨
      flashWrites (eraseNew f r) ((saveWrites r).take k) =
        Function.update (Function.update f r.flashAddr.other (withFlags r.env 0xff)) r.flashAddr
          (withFlags (f r.flashAddr) obsoleteFlag) := by
  rw [length_saveWrites] at hk
  rcases Nat.lt_or_ge (n + 4) k with hlast | hle
  · -- everything but the flags of the new copy
    right
    have hk' : k = n + 4 + 1 := by omega
    have htake : (saveWrites r).take k =
        ((contents n).map fun o => ⟨r.flashAddr.other, o, r.env o⟩) ++
          [⟨r.flashAddr, .flags, obsoleteFlag⟩] := by
      have hmap : ((contents n).map fun o =>
          (⟨r.flashAddr.other, o, r.env o⟩ : ByteWrite n)).length = n + 4 := by
        rw [List.length_map, length_contents]
      rw [saveWrites, hk', List.take_append, hmap, List.take_of_length_le (by omega),
        Nat.add_sub_cancel_left]
      rfl
    rw [htake, flashWrites_append, flashWrites_eraseNew, partly_contents]
    exact flashWrites_flags_old f r
  · left
    have htake : (saveWrites r).take k =
        ((contents n).take k).map fun o => ⟨r.flashAddr.other, o, r.env o⟩ := by
      rw [saveWrites, List.take_append_of_le_length, List.map_take]
      rw [List.length_map, length_contents]
      exact hle
    refine ⟨partly r.env ((contents n).take k), ?_, ?_, fun hn => ?_⟩
    · rw [htake, flashWrites_eraseNew]
    · exact if_neg fun h => flags_notMem_contents (List.mem_of_mem_take h)
    · funext i
      exact if_pos (data_mem_take hn i)

end Nor
end Env
end EmevBsp
