import PlatformLink.Proofs.PoolGrammar
import PlatformLink.Proofs.TextRoundTrip

/-! # What interning does to a pool

A pool only grows at its end (`pool ≤ pool'`), and the index of a constant is the smallest one
that holds it (`ConstantPool.IsFirst`), which no growth changes. `Interning.Spec x Q` describes a
computation by the results `Q` admits for a pool: a run ends in a larger pool with a result that
is right for it, a result that is right for a pool is found again without adding anything, and
what is right stays right while the pool grows. So the indices written while a pool is still
growing are the ones that are found in the final pool. `Interning.Adds P x` says which constants
may be added.
-/

namespace PlatformLink
set_option autoImplicit false

/-! ## Pools that grow -/

namespace ConstantPool

/-- `pool ≤ pool'`: the entries of `pool'` are those of `pool` with others after them. -/
instance : LE ConstantPool := ⟨fun pool pool' => pool.entries.toList <+: pool'.entries.toList⟩

theorem le_refl (pool : ConstantPool) : pool ≤ pool := List.prefix_refl _

theorem le_trans {pool pool' pool'' : ConstantPool} (h : pool ≤ pool') (h' : pool' ≤ pool'') :
    pool ≤ pool'' := List.IsPrefix.trans h h'

/-- A pool that has not grown is the same. -/
theorem eq_of_le_of_slotCount_eq {pool pool' : ConstantPool} (h : pool ≤ pool')
    (e : pool.slotCount = pool'.slotCount) : pool = pool' := by
  have hsize : pool.entries.size = pool'.entries.size := by
    simpa only [slotCount, Nat.add_right_cancel_iff] using e
  apply ext
  apply Array.toList_inj.1
  exact List.IsPrefix.eq_of_length h (by simpa using hsize)

theorem getElem?_of_le {pool pool' : ConstantPool} (h : pool ≤ pool') {i : Nat} {c : Constant}
    (hc : pool.entries[i]? = some c) : pool'.entries[i]? = some c := by
  rw [← Array.getElem?_toList] at hc ⊢
  obtain ⟨added, hadded⟩ := h
  obtain ⟨hi, -⟩ := List.getElem?_eq_some_iff.1 hc
  rw [← hadded, List.getElem?_append_left hi, hc]

/-- The constant under an index. -/
def Holds (pool : ConstantPool) (index : UInt16) (c : Constant) : Prop :=
  index.toNat ≠ 0 ∧ pool.entries[index.toNat - 1]? = some c

theorem Holds.mono {pool pool' : ConstantPool} {index : UInt16} {c : Constant}
    (h : pool.Holds index c) (hle : pool ≤ pool') : pool'.Holds index c :=
  ⟨h.1, getElem?_of_le hle h.2⟩

theorem get_eq_ok_iff {pool : ConstantPool} {index : UInt16} {c : Constant} :
    pool.get index = .ok c ↔ pool.Holds index c ∧ c ≠ .unusable := by
  simp only [get, Holds]
  by_cases h0 : index.toNat = 0
  · simp [h0]
  · simp only [h0, if_false, ne_eq, not_false_eq_true, true_and]
    split
    · rename_i h
      simp [h]
    · rename_i h
      rw [h]
      simp
      grind
    · rename_i c' hne h
      rw [h]
      simp only [Except.ok.injEq, Option.some.injEq]
      constructor
      · rintro rfl
        exact ⟨rfl, fun e => hne e⟩
      · exact fun e => e.1

/-- `index` is the smallest index of the pool that holds `c`. -/
def IsFirst (pool : ConstantPool) (index : UInt16) (c : Constant) : Prop :=
  pool.Holds index c ∧ ∀ other, pool.Holds other c → index.toNat ≤ other.toNat

theorem IsFirst.unique {pool : ConstantPool} {index index' : UInt16} {c : Constant}
    (h : pool.IsFirst index c) (h' : pool.IsFirst index' c) : index = index' :=
  UInt16.toNat_inj.1 (Nat.le_antisymm (h.2 _ h'.1) (h'.2 _ h.1))

/-- Growth adds no smaller index. -/
theorem IsFirst.mono {pool pool' : ConstantPool} {index : UInt16} {c : Constant}
    (h : pool.IsFirst index c) (hle : pool ≤ pool') : pool'.IsFirst index c := by
  refine ⟨h.1.mono hle, fun other hother => ?_⟩
  by_cases hlt : other.toNat - 1 < pool.entries.size
  · apply h.2
    have hget : pool.entries[other.toNat - 1]? = some pool.entries[other.toNat - 1] :=
      Array.getElem?_eq_getElem hlt
    have hsame : c = pool.entries[other.toNat - 1] :=
      Option.some.inj (hother.2.symm.trans (getElem?_of_le hle hget))
    exact ⟨hother.1, by rw [hget, hsame]⟩
  · have hsize : index.toNat - 1 < pool.entries.size := by
      obtain ⟨hi, -⟩ := Array.getElem?_eq_some_iff.1 h.1.2
      exact hi
    omega

theorem isFirst_of_findIdx? {pool : ConstantPool} {c : Constant} {i : Nat}
    (h : pool.entries.findIdx? (· == c) = some i) : pool.IsFirst (UInt16.ofNat (i + 1)) c := by
  obtain ⟨hi, hc, hmin⟩ := Array.findIdx?_eq_some_iff_getElem.1 h
  have hsize := pool.size_lt
  have hn : (UInt16.ofNat (i + 1)).toNat = i + 1 := toNat_ofNat16 (by omega)
  refine ⟨⟨by omega, ?_⟩, fun other hother => ?_⟩
  · rw [hn, Nat.add_sub_cancel, Array.getElem?_eq_getElem hi, beq_iff_eq.1 hc]
  · rw [hn]
    refine Nat.le_of_not_lt fun hlt => ?_
    have h0 := hother.1
    obtain ⟨hj, hcj⟩ := Array.getElem?_eq_some_iff.1 hother.2
    exact hmin (other.toNat - 1) (by omega) (beq_iff_eq.2 hcj)

theorem IsFirst.findIdx? {pool : ConstantPool} {c : Constant} {index : UInt16}
    (h : pool.IsFirst index c) :
    ∃ i, pool.entries.findIdx? (· == c) = some i ∧ UInt16.ofNat (i + 1) = index := by
  obtain ⟨hi, hc⟩ := Array.getElem?_eq_some_iff.1 h.1.2
  cases hf : pool.entries.findIdx? (· == c) with
  | none =>
    have hne := Array.findIdx?_eq_none_iff.1 hf _ (Array.getElem_mem hi)
    simp [hc] at hne
  | some i => exact ⟨i, rfl, (isFirst_of_findIdx? hf).unique h⟩

/-! ### Texts and composite constants -/

/-- The smallest index of a text, written in the one way in which texts are written. -/
def IsFirstText (pool : ConstantPool) (index : UInt16) (text : String) : Prop :=
  pool.IsFirst index (.utf8 (ModifiedUtf8.encode text))

/-- The smallest index of a class, whose name is under the smallest index of that text. -/
def IsFirstClass (pool : ConstantPool) (index : UInt16) (name : String) : Prop :=
  ∃ nameIndex, pool.IsFirstText nameIndex name ∧ pool.IsFirst index (.class nameIndex)

def IsFirstString (pool : ConstantPool) (index : UInt16) (text : String) : Prop :=
  ∃ textIndex, pool.IsFirstText textIndex text ∧ pool.IsFirst index (.string textIndex)

def IsFirstNameAndType (pool : ConstantPool) (index : UInt16) (name descriptor : String) : Prop :=
  ∃ nameIndex, pool.IsFirstText nameIndex name ∧
    ∃ descriptorIndex, pool.IsFirstText descriptorIndex descriptor ∧
      pool.IsFirst index (.nameAndType nameIndex descriptorIndex)

def methodConstant (interface : Bool) (owner nameAndType : UInt16) : Constant :=
  if interface then .interfaceMethodRef owner nameAndType else .methodRef owner nameAndType

def IsFirstMethod (pool : ConstantPool) (index : UInt16) (owner name descriptor : String)
    (interface : Bool) : Prop :=
  ∃ ownerIndex, pool.IsFirstClass ownerIndex owner ∧
    ∃ nameAndTypeIndex, pool.IsFirstNameAndType nameAndTypeIndex name descriptor ∧
      pool.IsFirst index (methodConstant interface ownerIndex nameAndTypeIndex)

theorem text_eq_ok_iff {pool : ConstantPool} {index : UInt16} {text : String} :
    pool.text index = .ok text ↔
      ∃ octets, pool.Holds index (.utf8 octets) ∧ ModifiedUtf8.decode? octets = some text := by
  rw [ConstantPool.text, bind_eq_ok_iff]
  constructor
  · rintro ⟨c, hget, h⟩
    cases c with
    | utf8 octets =>
      refine ⟨octets, (get_eq_ok_iff.1 hget).1, ?_⟩
      cases hd : ModifiedUtf8.decode? octets with
      | none => simp [hd] at h
      | some found => simpa [hd] using h
    | _ => cases h
  · rintro ⟨octets, hholds, hd⟩
    refine ⟨.utf8 octets, get_eq_ok_iff.2 ⟨hholds, by simp⟩, ?_⟩
    simp only [hd]

theorem className_eq_ok_iff {pool : ConstantPool} {index : UInt16} {name : String} :
    pool.className index = .ok name ↔
      ∃ nameIndex, pool.Holds index (.class nameIndex) ∧ pool.text nameIndex = .ok name := by
  rw [ConstantPool.className, bind_eq_ok_iff]
  constructor
  · rintro ⟨c, hget, h⟩
    cases c with
    | «class» nameIndex => exact ⟨nameIndex, (get_eq_ok_iff.1 hget).1, h⟩
    | _ => cases h
  · rintro ⟨nameIndex, hholds, hname⟩
    exact ⟨.class nameIndex, get_eq_ok_iff.2 ⟨hholds, by simp⟩, hname⟩

theorem IsFirstText.text {pool : ConstantPool} {index : UInt16} {text : String}
    (h : pool.IsFirstText index text) : pool.text index = .ok text :=
  text_eq_ok_iff.2 ⟨_, h.1, ModifiedUtf8.decode?_encode text⟩

theorem IsFirstClass.className {pool : ConstantPool} {index : UInt16} {name : String}
    (h : pool.IsFirstClass index name) : pool.className index = .ok name := by
  obtain ⟨nameIndex, hname, hclass⟩ := h
  exact className_eq_ok_iff.2 ⟨nameIndex, hclass.1, hname.text⟩

/-- Growth keeps what an index means. -/
theorem text_of_le {pool pool' : ConstantPool} (hle : pool ≤ pool') {index : UInt16}
    {text : String} (h : pool.text index = .ok text) : pool'.text index = .ok text := by
  obtain ⟨octets, hholds, hd⟩ := text_eq_ok_iff.1 h
  exact text_eq_ok_iff.2 ⟨octets, hholds.mono hle, hd⟩

end ConstantPool

/-! ## Specifications -/

namespace Interning

/-- `x` ends with a result that `Q` admits for the final pool, and one that `Q` admits for a pool
is found there. -/
structure Spec {α : Type} (x : Interning α) (Q : ConstantPool → α → Prop) : Prop where
  sound : ∀ {pool pool' : ConstantPool} {a : α}, x pool = (.ok a, pool') → pool ≤ pool' ∧ Q pool' a
  settled : ∀ {pool : ConstantPool} {a : α}, Q pool a → x pool = (.ok a, pool)
  stable : ∀ {pool pool' : ConstantPool} {a : α}, pool ≤ pool' → Q pool a → Q pool' a

theorem bind_apply {α β : Type} (x : Interning α) (f : α → Interning β) (pool : ConstantPool) :
    (x >>= f) pool = match x pool with
      | (.ok a, pool') => f a pool'
      | (.error e, pool') => (.error e, pool') := by
  simp only [bind, ExceptT.bind, ExceptT.mk, ExceptT.bindCont, StateT.bind]
  rcases x pool with ⟨_ | _, _⟩ <;> rfl

namespace Spec

variable {α β γ : Type}

theorem congr {x : Interning α} {Q R : ConstantPool → α → Prop} (h : Spec x Q)
    (e : ∀ pool a, Q pool a ↔ R pool a) : Spec x R where
  sound hx := (h.sound hx).imp_right (e _ _).1
  settled hR := h.settled ((e _ _).2 hR)
  stable hle hR := (e _ _).1 (h.stable hle ((e _ _).2 hR))

theorem unique {x : Interning α} {Q : ConstantPool → α → Prop} (h : Spec x Q) {pool : ConstantPool}
    {a b : α} (ha : Q pool a) (hb : Q pool b) : a = b := by
  obtain ⟨hab, -⟩ := Prod.mk.inj ((h.settled ha).symm.trans (h.settled hb))
  exact Except.ok.inj hab

theorem pure (a : α) : Spec (pure a) fun _ b => b = a where
  sound h := by
    cases h
    exact ⟨ConstantPool.le_refl _, rfl⟩
  settled := by
    rintro pool a rfl
    rfl
  stable _ h := h

theorem lift (e : Except ClassError α) : Spec (liftM e : Interning α) fun _ a => e = .ok a where
  sound h := by
    cases e with
    | error e => cases h
    | ok a =>
      cases h
      exact ⟨ConstantPool.le_refl _, rfl⟩
  settled := by
    rintro pool a rfl
    rfl
  stable _ h := h

theorem bind {x : Interning α} {f : α → Interning β} {Q : ConstantPool → α → Prop}
    {R : α → ConstantPool → β → Prop} (hx : Spec x Q) (hf : ∀ a, Spec (f a) (R a)) :
    Spec (x >>= f) fun pool b => ∃ a, Q pool a ∧ R a pool b where
  sound {pool pool'' b} h := by
    rw [bind_apply] at h
    cases hx' : x pool with
    | mk result pool' =>
      rw [hx'] at h
      cases result with
      | error e => cases h
      | ok a =>
        obtain ⟨hle, hQ⟩ := hx.sound hx'
        obtain ⟨hle', hR⟩ := (hf a).sound h
        exact ⟨ConstantPool.le_trans hle hle', a, hx.stable hle' hQ, hR⟩
  settled {pool b} h := by
    obtain ⟨a, hQ, hR⟩ := h
    rw [bind_apply, hx.settled hQ]
    exact (hf a).settled hR
  stable hle h := by
    obtain ⟨a, hQ, hR⟩ := h
    exact ⟨a, hx.stable hle hQ, (hf a).stable hle hR⟩

theorem mapM {f : α → Interning β} {R : α → ConstantPool → β → Prop} (hf : ∀ a, Spec (f a) (R a))
    (as : List α) :
    Spec (as.mapM f) fun pool bs => List.Forall₂ (fun a b => R a pool b) as bs := by
  induction as with
  | nil =>
    rw [List.mapM_nil]
    exact (Spec.pure []).congr fun pool bs => by simp
  | cons a as ih =>
    rw [List.mapM_cons]
    refine ((hf a).bind fun b => ih.bind fun bs => Spec.pure (b :: bs)).congr fun pool bs => ?_
    constructor
    · rintro ⟨b, hb, bs, hbs, rfl⟩
      exact .cons hb hbs
    · rintro (_ | ⟨hb, hbs⟩)
      exact ⟨_, hb, _, hbs, rfl⟩

/-- Results that are the octets of some values each. -/
theorem mapM_map {f : α → Interning γ} {encode : β → γ} {R : α → ConstantPool → β → Prop}
    (hf : ∀ a, Spec (f a) fun pool c => ∃ b, c = encode b ∧ R a pool b) (as : List α) :
    Spec (as.mapM f) fun pool cs =>
      ∃ bs, cs = bs.map encode ∧ List.Forall₂ (fun a b => R a pool b) as bs := by
  refine (mapM hf as).congr fun pool cs => ?_
  constructor
  · intro h
    induction h with
    | nil => exact ⟨[], rfl, .nil⟩
    | cons hc _ ih =>
      obtain ⟨b, rfl, hb⟩ := hc
      obtain ⟨bs, rfl, hbs⟩ := ih
      exact ⟨b :: bs, rfl, .cons hb hbs⟩
  · rintro ⟨bs, rfl, h⟩
    induction h with
    | nil => exact .nil
    | cons hb _ ih => exact .cons ⟨_, rfl, hb⟩ ih

theorem intern (c : Constant) : Spec (intern c) fun pool index => pool.IsFirst index c where
  sound {pool pool' index} h := by
    unfold Interning.intern at h
    split at h
    · rename_i i hi
      cases h
      exact ⟨ConstantPool.le_refl _, ConstantPool.isFirst_of_findIdx? hi⟩
    · rename_i hnone
      split at h
      · rename_i room
        cases h
        -- nothing equal to `c` was there, so it is first where it was added
        refine ⟨⟨[c], by simp⟩, ConstantPool.isFirst_of_findIdx? (i := pool.entries.size) ?_⟩
        simp only [Array.push_eq_append, Array.findIdx?_append, hnone]
        simp
      · cases h
  settled {pool index} h := by
    obtain ⟨i, hi, rfl⟩ := h.findIdx?
    simp only [Interning.intern, hi]
  stable hle h := h.mono hle

theorem text (value : String) : Spec (text value) fun pool index => pool.IsFirstText index value :=
  intern _

theorem className (name : String) :
    Spec (className name) fun pool index => pool.IsFirstClass index name :=
  (text name).bind fun nameIndex => intern (.class nameIndex)

theorem string (value : String) :
    Spec (string value) fun pool index => pool.IsFirstString index value :=
  (text value).bind fun textIndex => intern (.string textIndex)

theorem nameAndType (name descriptor : String) :
    Spec (nameAndType name descriptor) fun pool index =>
      pool.IsFirstNameAndType index name descriptor :=
  (text name).bind fun nameIndex => (text descriptor).bind fun descriptorIndex =>
    intern (.nameAndType nameIndex descriptorIndex)

theorem methodRef (owner name descriptor : String) (interface : Bool) :
    Spec (methodRef owner name descriptor interface) fun pool index =>
      pool.IsFirstMethod index owner name descriptor interface := by
  refine (className owner).bind fun ownerIndex => (nameAndType name descriptor).bind fun nt => ?_
  cases interface with
  | false => exact intern (.methodRef ownerIndex nt)
  | true => exact intern (.interfaceMethodRef ownerIndex nt)

end Spec

/-! ## What is added -/

/-- Every constant that `x` adds to a pool satisfies `P`. -/
def Adds {α : Type} (P : Constant → Prop) (x : Interning α) : Prop :=
  ∀ pool : ConstantPool, ∃ added, (x pool).2.entries.toList = pool.entries.toList ++ added ∧
    ∀ c ∈ added, P c

namespace Adds

variable {α β : Type} {P : Constant → Prop}

theorem pure (a : α) : Adds P (pure a) := fun pool => ⟨[], (List.append_nil _).symm, by simp⟩

theorem lift (e : Except ClassError α) : Adds P (liftM e : Interning α) := by
  intro pool
  cases e with
  | error e => exact ⟨[], (List.append_nil _).symm, by simp⟩
  | ok a => exact ⟨[], (List.append_nil _).symm, by simp⟩

theorem bind {x : Interning α} {f : α → Interning β} (hx : Adds P x) (hf : ∀ a, Adds P (f a)) :
    Adds P (x >>= f) := by
  intro pool
  rw [bind_apply]
  obtain ⟨added, he, hP⟩ := hx pool
  cases hx' : x pool with
  | mk result pool' =>
    rw [hx'] at he
    cases result with
    | error e => exact ⟨added, he, hP⟩
    | ok a =>
      obtain ⟨added', he', hP'⟩ := hf a pool'
      refine ⟨added ++ added', ?_, ?_⟩
      · rw [he', he, List.append_assoc]
      · intro c hc
        exact (List.mem_append.1 hc).elim (hP c) (hP' c)

theorem mapM {f : α → Interning β} (as : List α) (hf : ∀ a ∈ as, Adds P (f a)) :
    Adds P (as.mapM f) := by
  induction as with
  | nil =>
    rw [List.mapM_nil]
    exact Adds.pure []
  | cons a as ih =>
    rw [List.mapM_cons]
    have ih := ih fun b hb => hf b (List.mem_cons_of_mem a hb)
    exact (hf a List.mem_cons_self).bind fun b => ih.bind fun bs => Adds.pure (b :: bs)

theorem intern {c : Constant} (h : P c) : Adds P (intern c) := by
  intro pool
  unfold Interning.intern
  split
  · exact ⟨[], (List.append_nil _).symm, by simp⟩
  · split
    · exact ⟨[c], by simp, by simpa using h⟩
    · exact ⟨[], (List.append_nil _).symm, by simp⟩

end Adds

end Interning

end PlatformLink
