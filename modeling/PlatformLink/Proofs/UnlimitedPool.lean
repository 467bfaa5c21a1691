import PlatformLink.Proofs.PoolRequests

/-! # What a pool would hold without a limit

A `Ledger` is a pool without a limit: its entries refer to one another by numbers of any size, and
an entry that is not there can always be added. `Ledger.after` makes the requests of a run in it.
`Interning.Needs x requests` says that `x` asks a pool for just these: as long as there is room
both hold the same entries, and `x` fails exactly when the ledger would hold more than a pool can
(`Interning.Needs.exists_ok`, `Interning.Needs.exists_error`).
-/

namespace PlatformLink
set_option autoImplicit false

/-! ## Ledgers -/

inductive LedgerEntry where
  | text (octets : Bytes)
  | class (name : Nat)
  | string (value : Nat)
  | nameAndType (name descriptor : Nat)
  | method (interface : Bool) (owner member : Nat)
  /-- A constant of a kind that is never asked for. -/
  | other (constant : Constant)
  deriving DecidableEq, Repr

namespace LedgerEntry

def ofConstant : Constant → LedgerEntry
  | .utf8 octets => .text octets
  | .class name => .class name.toNat
  | .string value => .string value.toNat
  | .nameAndType name descriptor => .nameAndType name.toNat descriptor.toNat
  | .methodRef owner member => .method false owner.toNat member.toNat
  | .interfaceMethodRef owner member => .method true owner.toNat member.toNat
  | c => .other c

/-- The constant of an entry whose references are 16-bit numbers. -/
def toConstant : LedgerEntry → Constant
  | .text octets => .utf8 octets
  | .class name => .class (UInt16.ofNat name)
  | .string value => .string (UInt16.ofNat value)
  | .nameAndType name descriptor => .nameAndType (UInt16.ofNat name) (UInt16.ofNat descriptor)
  | .method false owner member => .methodRef (UInt16.ofNat owner) (UInt16.ofNat member)
  | .method true owner member => .interfaceMethodRef (UInt16.ofNat owner) (UInt16.ofNat member)
  | .other c => c

@[simp] theorem toConstant_ofConstant (c : Constant) : (ofConstant c).toConstant = c := by
  cases c <;> simp [ofConstant, toConstant]

theorem ofConstant_inj {c c' : Constant} : ofConstant c = ofConstant c' ↔ c = c' := by
  constructor
  · intro h
    rw [← toConstant_ofConstant c, h, toConstant_ofConstant]
  · exact congrArg ofConstant

end LedgerEntry

/-- A pool without a limit: entry number `n` stands at position `n - 1`. -/
abbrev Ledger := List LedgerEntry

namespace Ledger

def ofPool (pool : ConstantPool) : Ledger := pool.entries.toList.map LedgerEntry.ofConstant

@[simp] theorem length_ofPool (pool : ConstantPool) : (ofPool pool).length = pool.entries.size := by
  simp [ofPool]

/-- The number of an entry equal to `entry`, the first if there are several; a new last entry if
there is none. -/
def enter (entry : LedgerEntry) : StateM Ledger Nat := fun ledger =>
  match ledger.findIdx? (· == entry) with
  | some i => (i + 1, ledger)
  | none => (ledger.length + 1, ledger ++ [entry])

def text (value : String) : StateM Ledger Nat := enter (.text (ModifiedUtf8.encode value))

def className (name : String) : StateM Ledger Nat := do
  let nameNumber ← text name
  enter (.class nameNumber)

def string (value : String) : StateM Ledger Nat := do
  let textNumber ← text value
  enter (.string textNumber)

def nameAndType (name descriptor : String) : StateM Ledger Nat := do
  let nameNumber ← text name
  let descriptorNumber ← text descriptor
  enter (.nameAndType nameNumber descriptorNumber)

def methodRef (owner name descriptor : String) (interface : Bool) : StateM Ledger Nat := do
  let ownerNumber ← className owner
  let nameAndTypeNumber ← nameAndType name descriptor
  enter (.method interface ownerNumber nameAndTypeNumber)

/-- Whatever is entered, a ledger keeps what it holds and gains only what it did not. -/
def Grows {α : Type} (y : StateM Ledger α) : Prop := ∀ ledger, GrowsFresh ledger (y ledger).2

theorem grows_enter (entry : LedgerEntry) : Grows (enter entry) := by
  intro ledger
  unfold enter
  split
  · exact GrowsFresh.refl ledger
  · rename_i hnone
    refine GrowsFresh.concat fun hmem => ?_
    have hne := List.findIdx?_eq_none_iff.1 hnone entry hmem
    simp at hne

theorem Grows.bind {α β : Type} {y : StateM Ledger α} {g : α → StateM Ledger β} (hy : Grows y)
    (hg : ∀ a, Grows (g a)) : Grows (y >>= g) := fun ledger =>
  (hy ledger).trans (hg (y ledger).1 (y ledger).2)

theorem grows_className (name : String) : Grows (className name) :=
  (grows_enter _).bind fun _ => grows_enter _

theorem grows_nameAndType (name descriptor : String) : Grows (nameAndType name descriptor) :=
  (grows_enter _).bind fun _ => (grows_enter _).bind fun _ => grows_enter _

/-- No more than `n` entries are added. -/
def AddsAtMost {α : Type} (n : Nat) (y : StateM Ledger α) : Prop :=
  ∀ ledger : Ledger, List.length (y ledger).2 ≤ ledger.length + n

theorem addsAtMost_enter (entry : LedgerEntry) : AddsAtMost 1 (enter entry) := by
  intro ledger
  unfold enter
  split
  · exact Nat.le_succ _
  · exact Nat.le_of_eq List.length_append

theorem AddsAtMost.bind {α β : Type} {m n : Nat} {y : StateM Ledger α} {g : α → StateM Ledger β}
    (hy : AddsAtMost m y) (hg : ∀ a, AddsAtMost n (g a)) : AddsAtMost (m + n) (y >>= g) := by
  intro ledger
  have hfirst := hy ledger
  have hrest := hg (y ledger).1 (y ledger).2
  exact Nat.le_trans hrest (by omega)

theorem AddsAtMost.mono {α : Type} {m n : Nat} {y : StateM Ledger α} (h : AddsAtMost m y)
    (hle : m ≤ n) : AddsAtMost n y := fun ledger =>
  Nat.le_trans (h ledger) (Nat.add_le_add_left hle _)

theorem addsAtMost_className (name : String) : AddsAtMost 2 (className name) :=
  (addsAtMost_enter _).bind fun _ => addsAtMost_enter _

theorem addsAtMost_nameAndType (name descriptor : String) :
    AddsAtMost 3 (nameAndType name descriptor) :=
  (addsAtMost_enter _).bind fun _ => (addsAtMost_enter _).bind fun _ => addsAtMost_enter _

end Ledger

namespace Request

def enter : Request → StateM Ledger Nat
  | .text value => Ledger.text value
  | .className name => Ledger.className name
  | .string value => Ledger.string value
  | .nameAndType name descriptor => Ledger.nameAndType name descriptor
  | .methodRef owner name descriptor interface => Ledger.methodRef owner name descriptor interface

theorem grows_enter (r : Request) : Ledger.Grows r.enter := by
  cases r with
  | text value => exact Ledger.grows_enter _
  | className name => exact Ledger.grows_className name
  | string value => exact (Ledger.grows_enter _).bind fun _ => Ledger.grows_enter _
  | nameAndType name descriptor => exact Ledger.grows_nameAndType name descriptor
  | methodRef owner name descriptor interface =>
    exact (Ledger.grows_className owner).bind fun _ =>
      (Ledger.grows_nameAndType name descriptor).bind fun _ => Ledger.grows_enter _

/-- No request adds more than that for a method with all its parts. -/
theorem addsAtMost_enter (r : Request) : Ledger.AddsAtMost 6 r.enter := by
  cases r with
  | text value => exact (Ledger.addsAtMost_enter _).mono (by decide)
  | className name => exact (Ledger.addsAtMost_className name).mono (by decide)
  | string value =>
    exact ((Ledger.addsAtMost_enter _).bind fun _ => Ledger.addsAtMost_enter _).mono (by decide)
  | nameAndType name descriptor =>
    exact (Ledger.addsAtMost_nameAndType name descriptor).mono (by decide)
  | methodRef owner name descriptor interface =>
    exact (Ledger.addsAtMost_className owner).bind fun _ =>
      (Ledger.addsAtMost_nameAndType name descriptor).bind fun _ => Ledger.addsAtMost_enter _

end Request

namespace Ledger

def after (requests : List Request) (ledger : Ledger) : Ledger :=
  requests.foldl (fun ledger r => (r.enter ledger).2) ledger

theorem after_append (requests requests' : List Request) (ledger : Ledger) :
    after (requests ++ requests') ledger = after requests' (after requests ledger) :=
  List.foldl_append

theorem grows_after (requests : List Request) (ledger : Ledger) :
    GrowsFresh ledger (after requests ledger) := by
  induction requests generalizing ledger with
  | nil => exact GrowsFresh.refl ledger
  | cons r requests ih => exact (r.grows_enter ledger).trans (ih (r.enter ledger).2)

theorem length_after_le (requests : List Request) (ledger : Ledger) :
    (after requests ledger).length ≤ ledger.length + 6 * requests.length := by
  induction requests generalizing ledger with
  | nil => exact Nat.le_refl _
  | cons r requests ih =>
    have hr := r.addsAtMost_enter ledger
    have hrest := ih (r.enter ledger).2
    rw [List.length_cons]
    exact Nat.le_trans hrest (by omega)

def enterAll (requests : List Request) : StateM Ledger Unit := fun ledger =>
  ((), after requests ledger)

theorem enterAll_append (requests requests' : List Request) :
    enterAll (requests ++ requests') = (do enterAll requests; enterAll requests') := by
  funext ledger
  simp only [enterAll, after_append, bind, StateT.bind]

end Ledger

/-! ## As long as there is room -/

namespace Interning

/-- Over a pool, `x` does what `y` does over a ledger with the same entries, and fails when that
would be more entries than a pool can hold. -/
structure Follows {α β : Type} (R : α → β → Prop) (x : Interning α) (y : StateM Ledger β) :
    Prop where
  ok : ∀ {pool pool' : ConstantPool} {a : α}, x pool = (.ok a, pool') →
    (y (Ledger.ofPool pool)).2 = Ledger.ofPool pool' ∧ R a (y (Ledger.ofPool pool)).1
  error : ∀ {pool pool' : ConstantPool} {e : ClassError}, x pool = (.error e, pool') →
    e = .poolOverflow ∧ 65535 ≤ (y (Ledger.ofPool pool)).2.length

theorem Follows.bind {α β γ δ : Type} {R : α → β → Prop} {S : γ → δ → Prop} {x : Interning α}
    {y : StateM Ledger β} {f : α → Interning γ} {g : β → StateM Ledger δ} (hx : Follows R x y)
    (hf : ∀ a b, R a b → Follows S (f a) (g b)) (hg : ∀ b, Ledger.Grows (g b)) :
    Follows S (x >>= f) (y >>= g) where
  ok {pool pool'' c} h := by
    rw [bind_apply] at h
    cases hx' : x pool with
    | mk result pool' =>
      rw [hx'] at h
      cases result with
      | error e => cases h
      | ok a =>
        obtain ⟨hledger, hR⟩ := hx.ok hx'
        have hrest := (hf a _ hR).ok h
        rw [← hledger] at hrest
        exact hrest
  error {pool pool'' e} h := by
    rw [bind_apply] at h
    cases hx' : x pool with
    | mk result pool' =>
      rw [hx'] at h
      cases result with
      | error e' =>
        cases h
        -- the ledger does not stop where the pool is full, but it never gets shorter
        obtain ⟨he, hlength⟩ := hx.error hx'
        have hgrows := hg (y (Ledger.ofPool pool)).1 (y (Ledger.ofPool pool)).2
        exact ⟨he, Nat.le_trans hlength hgrows.isPrefix.length_le⟩
      | ok a =>
        obtain ⟨hledger, hR⟩ := hx.ok hx'
        have hrest := (hf a _ hR).error h
        rw [← hledger] at hrest
        exact hrest

theorem findIdx?_ofPool (pool : ConstantPool) (c : Constant) :
    (Ledger.ofPool pool).findIdx? (· == LedgerEntry.ofConstant c) =
      pool.entries.findIdx? (· == c) := by
  have hsame : (· == LedgerEntry.ofConstant c) ∘ LedgerEntry.ofConstant = (· == c) := by
    funext c'
    rw [Function.comp_apply, Bool.eq_iff_iff, beq_iff_eq, beq_iff_eq, LedgerEntry.ofConstant_inj]
  rw [Ledger.ofPool, List.findIdx?_map, hsame, ← List.findIdx?_toArray, Array.toArray_toList]

theorem follows_intern {c : Constant} (h : c.isWide = false) :
    Follows (fun index number => index.toNat = number) (intern c)
      (Ledger.enter (LedgerEntry.ofConstant c)) where
  ok {pool pool' index} hx := by
    unfold Interning.intern at hx
    unfold Ledger.enter
    rw [findIdx?_ofPool]
    have hsize := pool.size_lt
    cases hfind : pool.entries.findIdx? (· == c) with
    | some i =>
      rw [hfind] at hx
      cases hx
      obtain ⟨hlt, -, -⟩ := Array.findIdx?_eq_some_iff_getElem.1 hfind
      exact ⟨rfl, toNat_ofNat16 (show i + 1 ≤ 65535 by omega)⟩
    | none =>
      simp only [hfind] at hx ⊢
      split at hx
      · cases hx
        refine ⟨by simp [Ledger.ofPool], ?_⟩
        rw [Ledger.length_ofPool]
        exact toNat_ofNat16 (show pool.entries.size + 1 ≤ 65535 by omega)
      · cases hx
  error {pool pool' e} hx := by
    unfold Interning.intern at hx
    unfold Ledger.enter
    rw [findIdx?_ofPool]
    have hslots : c.slots = 1 := by simp [Constant.slots, h]
    cases hfind : pool.entries.findIdx? (· == c) with
    | some i =>
      rw [hfind] at hx
      cases hx
    | none =>
      simp only [hfind] at hx ⊢
      split at hx
      · cases hx
      · rename_i hroom
        cases hx
        rw [hslots] at hroom
        unfold ConstantPool.slotCount at hroom
        refine ⟨rfl, ?_⟩
        simp only [List.length_append, Ledger.length_ofPool, List.length_singleton]
        omega

theorem follows_text (value : String) :
    Follows (fun index number => index.toNat = number) (text value) (Ledger.text value) :=
  follows_intern rfl

theorem follows_className (name : String) :
    Follows (fun index number => index.toNat = number) (className name) (Ledger.className name) := by
  refine (follows_text name).bind ?_ fun _ => Ledger.grows_enter _
  rintro index _ rfl
  exact follows_intern rfl

theorem follows_nameAndType (name descriptor : String) :
    Follows (fun index number => index.toNat = number) (nameAndType name descriptor)
      (Ledger.nameAndType name descriptor) := by
  refine (follows_text name).bind ?_ fun _ => (Ledger.grows_enter _).bind fun _ =>
    Ledger.grows_enter _
  rintro nameIndex _ rfl
  refine (follows_text descriptor).bind ?_ fun _ => Ledger.grows_enter _
  rintro descriptorIndex _ rfl
  exact follows_intern rfl

theorem follows_perform (r : Request) :
    Follows (fun index number => index.toNat = number) r.perform r.enter := by
  cases r with
  | text value => exact follows_text value
  | className name => exact follows_className name
  | string value =>
    refine (follows_text value).bind ?_ fun _ => Ledger.grows_enter _
    rintro index _ rfl
    exact follows_intern rfl
  | nameAndType name descriptor => exact follows_nameAndType name descriptor
  | methodRef owner name descriptor interface =>
    refine (follows_className owner).bind ?_ fun _ =>
      (Ledger.grows_nameAndType name descriptor).bind fun _ => Ledger.grows_enter _
    rintro ownerIndex _ rfl
    refine (follows_nameAndType name descriptor).bind ?_ fun _ => Ledger.grows_enter _
    rintro nameAndTypeIndex _ rfl
    cases interface with
    | false => exact follows_intern (c := .methodRef ownerIndex nameAndTypeIndex) rfl
    | true => exact follows_intern (c := .interfaceMethodRef ownerIndex nameAndTypeIndex) rfl

/-! ## What a computation asks for -/

/-- `x` asks a pool for these and nothing else, and can fail for no other reason. -/
def Needs {α : Type} (x : Interning α) (requests : List Request) : Prop :=
  Follows (fun _ _ => True) x (Ledger.enterAll requests)

namespace Needs

variable {α β : Type}

theorem pure (a : α) : Needs (pure a) [] where
  ok h := by
    cases h
    exact ⟨rfl, trivial⟩
  error h := by cases h

theorem lift {e : Except ClassError α} {a : α} (h : e = .ok a) : Needs (liftM e : Interning α) [] := by
  rw [h]
  exact pure a

theorem perform (r : Request) : Needs r.perform [r] where
  ok h := ⟨((follows_perform r).ok h).1, trivial⟩
  error h := (follows_perform r).error h

theorem bind {x : Interning α} {f : α → Interning β} {requests requests' : List Request}
    (hx : Needs x requests) (hf : ∀ a, Needs (f a) requests') :
    Needs (x >>= f) (requests ++ requests') := by
  rw [Needs, Ledger.enterAll_append]
  exact Follows.bind hx (fun a _ _ => hf a) fun _ => Ledger.grows_after requests'

theorem map {x : Interning α} {f : α → Interning β} {requests : List Request}
    (hx : Needs x requests) (hf : ∀ a, Needs (f a) []) : Needs (x >>= f) requests := by
  have h := hx.bind hf
  rwa [List.append_nil] at h

theorem mapM {f : α → Interning β} {requests : α → List Request} (as : List α)
    (hf : ∀ a ∈ as, Needs (f a) (requests a)) : Needs (as.mapM f) (as.flatMap requests) := by
  induction as with
  | nil =>
    rw [List.mapM_nil]
    exact pure []
  | cons a as ih =>
    rw [List.mapM_cons, List.flatMap_cons]
    have ih := ih fun b hb => hf b (List.mem_cons_of_mem a hb)
    exact (hf a List.mem_cons_self).bind fun b => ih.map fun bs => pure (b :: bs)

theorem exists_ok {x : Interning α} {requests : List Request} (h : Needs x requests)
    {pool : ConstantPool} (hlength : (Ledger.after requests (Ledger.ofPool pool)).length < 65535) :
    ∃ a pool', x pool = (.ok a, pool') := by
  cases hx : x pool with
  | mk result pool' =>
    cases result with
    | ok a => exact ⟨a, pool', rfl⟩
    | error e =>
      obtain ⟨-, hfull⟩ := Follows.error h hx
      exact absurd hlength (Nat.not_lt.2 hfull)

theorem exists_error {x : Interning α} {requests : List Request} (h : Needs x requests)
    {pool : ConstantPool} (hlength : 65535 ≤ (Ledger.after requests (Ledger.ofPool pool)).length) :
    ∃ pool', x pool = (.error .poolOverflow, pool') := by
  cases hx : x pool with
  | mk result pool' =>
    cases result with
    | ok a =>
      obtain ⟨hledger, -⟩ := Follows.ok h hx
      have hsize := pool'.size_lt
      rw [show Ledger.after requests (Ledger.ofPool pool) = Ledger.ofPool pool' from hledger,
        Ledger.length_ofPool] at hlength
      omega
    | error e =>
      obtain ⟨rfl, -⟩ := Follows.error h hx
      exact ⟨pool', rfl⟩

end Needs

end Interning

end PlatformLink
