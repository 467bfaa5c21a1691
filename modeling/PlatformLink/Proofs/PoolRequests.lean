import PlatformLink.Proofs.InterningSpec

/-! # Runs of requests to a pool

A `Request` asks a pool for the index of a text, a class, a string, a name and type, or a method.
Requests are made one after another, and one that fails leaves what it has added
(`Request.after`). `Request.perform_among_others` says what becomes of one of them:

* the pool holds the entries it had at first, and after them others that are all different and
  were not there (`GrowsFresh`);
* an index that was given out stands for what was asked, then and after any further requests, and
  the same request finds it again and adds nothing;
* a request fails only when the pool is full.
-/

namespace PlatformLink
set_option autoImplicit false

/-! ## Fresh growth -/

/-- `l'` is `l` with others after it, which differ from one another and from those of `l`. -/
def GrowsFresh {α : Type} (l l' : List α) : Prop :=
  ∃ added, l' = l ++ added ∧ added.Nodup ∧ ∀ a ∈ added, a ∉ l

namespace GrowsFresh

variable {α : Type} {l l' l'' : List α}

theorem refl (l : List α) : GrowsFresh l l := ⟨[], (List.append_nil l).symm, List.nodup_nil, by simp⟩

theorem concat {a : α} (h : a ∉ l) : GrowsFresh l (l ++ [a]) :=
  ⟨[a], rfl, by simp, by simpa using h⟩

theorem trans (h : GrowsFresh l l') (h' : GrowsFresh l' l'') : GrowsFresh l l'' := by
  obtain ⟨added, rfl, hnodup, hnew⟩ := h
  obtain ⟨added', rfl, hnodup', hnew'⟩ := h'
  refine ⟨added ++ added', List.append_assoc _ _ _, ?_, ?_⟩
  · rw [List.nodup_append]
    refine ⟨hnodup, hnodup', ?_⟩
    rintro a ha _ hb rfl
    exact hnew' a hb (List.mem_append_right l ha)
  · intro a ha hl
    rcases List.mem_append.1 ha with ha | ha
    · exact hnew a ha hl
    · exact hnew' a ha (List.mem_append_left added hl)

theorem isPrefix (h : GrowsFresh l l') : l <+: l' := by
  obtain ⟨added, rfl, -⟩ := h
  exact List.prefix_append l added

end GrowsFresh

namespace Interning

/-- `x` adds only what is not there yet, and fails only over a pool that it has filled. -/
structure Appends {α : Type} (x : Interning α) : Prop where
  grows : ∀ pool, GrowsFresh pool.entries.toList (x pool).2.entries.toList
  full : ∀ {pool pool' : ConstantPool} {e : ClassError}, x pool = (.error e, pool') →
    e = .poolOverflow ∧ pool'.slotCount = 65535

namespace Appends

variable {α β : Type}

theorem bind {x : Interning α} {f : α → Interning β} (hx : Appends x) (hf : ∀ a, Appends (f a)) :
    Appends (x >>= f) where
  grows pool := by
    rw [bind_apply]
    have hgrows := hx.grows pool
    cases hx' : x pool with
    | mk result pool' =>
      rw [hx'] at hgrows
      cases result with
      | error e => exact hgrows
      | ok a => exact hgrows.trans ((hf a).grows pool')
  full {pool pool'' e} h := by
    rw [bind_apply] at h
    cases hx' : x pool with
    | mk result pool' =>
      rw [hx'] at h
      cases result with
      | error e' =>
        cases h
        exact hx.full hx'
      | ok a => exact (hf a).full h

theorem intern {c : Constant} (h : c.isWide = false) : Appends (intern c) where
  grows pool := by
    unfold Interning.intern
    split
    · exact GrowsFresh.refl _
    · rename_i hnone
      split
      · have hnew : c ∉ pool.entries.toList := by
          intro hmem
          have hne := Array.findIdx?_eq_none_iff.1 hnone c (Array.mem_toList_iff.1 hmem)
          simp at hne
        simpa using GrowsFresh.concat hnew
      · exact GrowsFresh.refl _
  full {pool pool' e} he := by
    unfold Interning.intern at he
    have hslots : c.slots = 1 := by simp [Constant.slots, h]
    have hsize := pool.size_lt
    split at he
    · cases he
    · split at he
      · cases he
      · rename_i hroom
        cases he
        rw [hslots] at hroom
        unfold ConstantPool.slotCount at hroom ⊢
        exact ⟨rfl, by omega⟩

theorem text (value : String) : Appends (text value) := intern rfl

theorem className (name : String) : Appends (className name) :=
  (text name).bind fun _ => intern rfl

theorem string (value : String) : Appends (string value) :=
  (text value).bind fun _ => intern rfl

theorem nameAndType (name descriptor : String) : Appends (nameAndType name descriptor) :=
  (text name).bind fun _ => (text descriptor).bind fun _ => intern rfl

theorem methodRef (owner name descriptor : String) (interface : Bool) :
    Appends (methodRef owner name descriptor interface) := by
  refine (className owner).bind fun _ => (nameAndType name descriptor).bind fun _ => ?_
  cases interface with
  | false => exact intern rfl
  | true => exact intern rfl

end Appends

end Interning

/-! ## Requests -/

/-- What a pool is asked for. -/
inductive Request where
  | text (value : String)
  | className (name : String)
  | string (value : String)
  | nameAndType (name descriptor : String)
  | methodRef (owner name descriptor : String) (interface : Bool)
  deriving DecidableEq, Repr

namespace Request

def perform : Request → Interning UInt16
  | .text value => Interning.text value
  | .className name => Interning.className name
  | .string value => Interning.string value
  | .nameAndType name descriptor => Interning.nameAndType name descriptor
  | .methodRef owner name descriptor interface => Interning.methodRef owner name descriptor interface

/-- What is found under an index is what was asked for. -/
def FoundAt (pool : ConstantPool) (index : UInt16) : Request → Prop
  | .text value => pool.text index = .ok value
  | .className name => pool.className index = .ok name
  | .string value => ∃ textIndex, pool.get index = .ok (.string textIndex) ∧
    pool.text textIndex = .ok value
  | .nameAndType name descriptor => ∃ nameIndex descriptorIndex,
    pool.get index = .ok (.nameAndType nameIndex descriptorIndex) ∧
      pool.text nameIndex = .ok name ∧ pool.text descriptorIndex = .ok descriptor
  | .methodRef owner name descriptor interface => ∃ ownerIndex nameAndTypeIndex nameIndex
      descriptorIndex,
    pool.get index = .ok (if interface then .interfaceMethodRef ownerIndex nameAndTypeIndex
      else .methodRef ownerIndex nameAndTypeIndex) ∧
      pool.className ownerIndex = .ok owner ∧
      pool.get nameAndTypeIndex = .ok (.nameAndType nameIndex descriptorIndex) ∧
      pool.text nameIndex = .ok name ∧ pool.text descriptorIndex = .ok descriptor

/-- The smallest index of what was asked for. -/
def IsFirstFor (pool : ConstantPool) (index : UInt16) : Request → Prop
  | .text value => pool.IsFirstText index value
  | .className name => pool.IsFirstClass index name
  | .string value => pool.IsFirstString index value
  | .nameAndType name descriptor => pool.IsFirstNameAndType index name descriptor
  | .methodRef owner name descriptor interface =>
    pool.IsFirstMethod index owner name descriptor interface

theorem spec_perform (r : Request) :
    Interning.Spec r.perform fun pool index => r.IsFirstFor pool index := by
  cases r with
  | text value => exact Interning.Spec.text value
  | className name => exact Interning.Spec.className name
  | string value => exact Interning.Spec.string value
  | nameAndType name descriptor => exact Interning.Spec.nameAndType name descriptor
  | methodRef owner name descriptor interface =>
    exact Interning.Spec.methodRef owner name descriptor interface

theorem appends_perform (r : Request) : Interning.Appends r.perform := by
  cases r with
  | text value => exact Interning.Appends.text value
  | className name => exact Interning.Appends.className name
  | string value => exact Interning.Appends.string value
  | nameAndType name descriptor => exact Interning.Appends.nameAndType name descriptor
  | methodRef owner name descriptor interface =>
    exact Interning.Appends.methodRef owner name descriptor interface

theorem IsFirstFor.foundAt {pool : ConstantPool} {index : UInt16} {r : Request}
    (h : r.IsFirstFor pool index) : r.FoundAt pool index := by
  cases r with
  | text value => exact ConstantPool.IsFirstText.text h
  | className name => exact ConstantPool.IsFirstClass.className h
  | string value =>
    obtain ⟨textIndex, htext, hstring⟩ := h
    exact ⟨textIndex, ConstantPool.get_eq_ok_iff.2 ⟨hstring.1, by simp⟩, htext.text⟩
  | nameAndType name descriptor =>
    obtain ⟨nameIndex, hname, descriptorIndex, hdescriptor, hentry⟩ := h
    exact ⟨nameIndex, descriptorIndex, ConstantPool.get_eq_ok_iff.2 ⟨hentry.1, by simp⟩,
      hname.text, hdescriptor.text⟩
  | methodRef owner name descriptor interface =>
    obtain ⟨ownerIndex, howner, nameAndTypeIndex,
      ⟨nameIndex, hname, descriptorIndex, hdescriptor, hnameAndType⟩, hmethod⟩ := h
    have husable : ConstantPool.methodConstant interface ownerIndex nameAndTypeIndex ≠ .unusable := by
      cases interface <;> simp [ConstantPool.methodConstant]
    exact ⟨ownerIndex, nameAndTypeIndex, nameIndex, descriptorIndex,
      ConstantPool.get_eq_ok_iff.2 ⟨hmethod.1, husable⟩, howner.className,
      ConstantPool.get_eq_ok_iff.2 ⟨hnameAndType.1, by simp⟩, hname.text, hdescriptor.text⟩

theorem IsFirstFor.ne_zero {pool : ConstantPool} {index : UInt16} {r : Request}
    (h : r.IsFirstFor pool index) : index ≠ 0 := by
  have held {c : Constant} (hc : pool.IsFirst index c) : index ≠ 0 := by
    rintro rfl
    exact hc.1.1 rfl
  cases r with
  | text value => exact held h
  | className name =>
    obtain ⟨_, -, hclass⟩ := h
    exact held hclass
  | string value =>
    obtain ⟨_, -, hstring⟩ := h
    exact held hstring
  | nameAndType name descriptor =>
    obtain ⟨_, -, _, -, hentry⟩ := h
    exact held hentry
  | methodRef owner name descriptor interface =>
    obtain ⟨_, -, _, -, hmethod⟩ := h
    exact held hmethod

/-! ## Runs -/

/-- The pool after some requests, those that fail included. -/
def after (requests : List Request) (pool : ConstantPool) : ConstantPool :=
  requests.foldl (fun pool r => (r.perform pool).2) pool

theorem grows_after (requests : List Request) (pool : ConstantPool) :
    GrowsFresh pool.entries.toList (after requests pool).entries.toList := by
  induction requests generalizing pool with
  | nil => exact GrowsFresh.refl _
  | cons r requests ih => exact ((appends_perform r).grows pool).trans (ih (r.perform pool).2)

/-- What becomes of a request among others, whatever the pool was at first. -/
theorem perform_among_others (pool : ConstantPool) (before : List Request) (r : Request)
    (later : List Request) :
    let earlier := after before pool
    let here := (r.perform earlier).2
    let final := after later here
    final.slotCount ≤ 65535 ∧
      earlier.entries.toList <+: here.entries.toList ∧
      here.entries.toList <+: final.entries.toList ∧
      (∃ added, final.entries.toList = pool.entries.toList ++ added ∧ added.Nodup ∧
        ∀ c ∈ added, c ∉ pool.entries.toList) ∧
      match (r.perform earlier).1 with
      | .ok index => index ≠ 0 ∧ r.FoundAt here index ∧ r.FoundAt final index ∧
        r.perform final = (.ok index, final)
      | .error e => e = .poolOverflow ∧ here.slotCount = 65535 := by
  intro earlier here final
  have hhere := (appends_perform r).grows earlier
  have hfinal := grows_after later here
  refine ⟨final.size_lt, hhere.isPrefix, hfinal.isPrefix,
    (grows_after before pool).trans (hhere.trans hfinal), ?_⟩
  cases houtcome : (r.perform earlier).1 with
  | error e => exact (appends_perform r).full (Prod.ext houtcome rfl)
  | ok index =>
    -- the index is the smallest one here, and no request after it makes it less so
    obtain ⟨-, hfirst⟩ := (spec_perform r).sound (Prod.ext houtcome rfl)
    have hstays := (spec_perform r).stable hfinal.isPrefix hfirst
    exact ⟨hfirst.ne_zero, hfirst.foundAt, hstays.foundAt, (spec_perform r).settled hstays⟩

end Request

end PlatformLink
