import PlatformLink.Proofs.AcceptanceWalks
import PlatformLink.Proofs.AcceptedText
import PlatformLink.Proofs.PoolGrammar
import PlatformLink.Proofs.WritingOutcome

/-! # Pools that the second grammar takes

The second grammar takes a pool when it takes its texts, and then knows the same texts under the
same indices (`Acceptance.pool?_encode`). What writing a class adds is taken, so a pool that was
taken before still is (`ClassFile.isAccepted_of_write`).
-/

namespace PlatformLink
set_option autoImplicit false

/-! ## Constants -/

/-- Whether the second grammar takes the text of an entry, if it is a text. -/
def Constant.isAccepted : Constant → Bool
  | .utf8 text => JavaText.accepts text
  | _ => true

def ConstantPool.isAccepted (pool : ConstantPool) : Bool :=
  pool.entries.toList.all Constant.isAccepted

namespace Acceptance

/-- What is known of the slot of an entry. -/
def slotOf : Constant → Option Bytes
  | .utf8 text => some text
  | _ => none

/-- What is known of the slots of a pool. -/
def slotsOf (pool : ConstantPool) : Slots := #[none] ++ pool.entries.map slotOf

theorem constant?_of_size {tag : UInt8} {fields : Bytes} (htag : tag ≠ 1)
    (hsize : constantSize? tag = some fields.length) (rest : Bytes) :
    constant? (tag :: (fields ++ rest)) =
      some (if tag = 5 ∨ tag = 6 then [none, none] else [none], rest) := by
  have hskip : skip fields.length (fields ++ rest) = some rest :=
    skip_eq_some_iff.2 ⟨fields, rfl, rfl⟩
  unfold constant?
  split
  · rename_i h
    exact absurd (List.cons.inj h).1 htag
  · rename_i h
    obtain ⟨rfl, rfl⟩ := List.cons.inj h
    simp only [hsize, Option.bind_eq_bind, Option.bind_some, hskip]
  · rename_i h
    cases h

theorem constant?_encode {c : Constant} (hf : c.Fits) (rest : Bytes) :
    constant? (c.encode ++ rest) =
      if c.isAccepted then some ((ConstantPool.slotsOf c).map slotOf, rest) else none := by
  cases c with
  | unusable => exact hf.elim
  | utf8 text =>
    obtain ⟨a, b, hab⟩ := exists_ofBe16 (UInt16.ofNat text.length)
    have hsplit : splitExact? text.length (text ++ rest) = some (text, rest) :=
      splitExact?_eq_some_iff.2 ⟨rfl, rfl⟩
    rw [Constant.encode, count16, ← hab, be16_ofBe16]
    simp only [List.cons_append, List.nil_append, constant?, hab, toNat_ofNat16 hf, hsplit]
    rfl
  | _ => exact constant?_of_size (by decide) rfl rest

theorem all_slotsOf (c : Constant) :
    (ConstantPool.slotsOf c).all Constant.isAccepted = c.isAccepted := by
  unfold ConstantPool.slotsOf
  split <;> simp [Constant.isAccepted]

/-- Constants are taken from the octets of a pool as long as its texts are. -/
theorem constants?_encode {entries : List Constant} (h : ConstantPool.Slotted entries)
    (rest : Bytes) : ∀ {count fuel : Nat} {slots : Slots}, slots.size + entries.length = count →
      entries.length ≤ fuel →
        constants? count fuel slots (entries.flatMap Constant.encode ++ rest) =
          if entries.all Constant.isAccepted then
            some (slots ++ (entries.map slotOf).toArray, rest) else none := by
  induction h with
  | nil =>
    intro count fuel slots hcount _
    have hfull : ¬ slots.size < count := by simp at hcount; omega
    cases fuel with
    | zero => simp [constants?]
    | succ fuel => simp [constants?, hfull]
  | @cons c tail fits _ ih =>
    intro count fuel slots hcount hfuel
    have hpos : 0 < (ConstantPool.slotsOf c).length := by
      unfold ConstantPool.slotsOf
      split <;> simp
    rw [List.length_append] at hcount hfuel
    obtain ⟨fuel, rfl⟩ : ∃ n, fuel = n + 1 := ⟨fuel - 1, by omega⟩
    rw [constants?, if_pos (by omega), List.flatMap_append, ConstantPool.flatMap_encode_slotsOf,
      List.append_assoc, constant?_encode fits]
    rw [List.all_append, all_slotsOf]
    cases hc : c.isAccepted with
    | false => simp
    | true =>
      let filled := (ConstantPool.slotsOf c).map slotOf
      have hsize : (slots ++ filled).size = slots.size + filled.length := by
        rw [← Array.length_toList, Array.toList_appendList, List.length_append, Array.length_toList]
      have hmore : (slots ++ filled).size + tail.length = count := by
        rw [hsize, List.length_map]
        omega
      have hslots : slots ++ filled ++ (tail.map slotOf).toArray =
          slots ++ ((ConstantPool.slotsOf c ++ tail).map slotOf).toArray := by
        apply Array.ext'
        simp [filled]
      simp only [if_true, Bool.true_and]
      rw [ih hmore (by omega), hslots]

theorem pool?_encode {pool : ConstantPool} (h : ConstantPool.Slotted pool.entries.toList)
    (rest : Bytes) : pool? (pool.encode ++ rest) =
      if pool.isAccepted then some (slotsOf pool, rest) else none := by
  obtain ⟨a, b, hab⟩ := exists_ofBe16 (UInt16.ofNat pool.slotCount)
  have hcount : pool.slotCount ≤ 65535 := pool.size_lt
  have hsize : (#[none] : Slots).size + pool.entries.toList.length = pool.slotCount := by
    rw [Array.length_toList, ConstantPool.slotCount, Nat.add_comm]
    rfl
  have hslots : (#[none] : Slots) ++ (pool.entries.toList.map slotOf).toArray = slotsOf pool := by
    apply Array.ext'
    simp [slotsOf]
  rw [ConstantPool.encode, count16, ← hab, be16_ofBe16, List.append_assoc]
  simp only [List.cons_append, List.nil_append, pool?, hab, toNat_ofNat16 hcount]
  rw [constants?_encode h rest hsize (hsize ▸ Nat.le_add_left _ _), hslots]
  rfl

/-! ## Names -/

theorem getElem?_slotsOf (pool : ConstantPool) (n : Nat) :
    (slotsOf pool)[n]? = if n = 0 then some none else pool.entries[n - 1]?.map slotOf := by
  unfold slotsOf
  split
  · rename_i h
    rw [h, Array.getElem?_append_left (by decide)]
    rfl
  · rw [Array.getElem?_append_right (by simp; omega), Array.getElem?_map]
    rfl

theorem nameAt?_eq_some_iff {slots : Slots} {n : Nat} {name : String} :
    nameAt? slots n = some name ↔
      ∃ octets, slots[n]? = some (some octets) ∧
        String.fromUTF8? (ByteArray.mk octets.toArray) = some name := by
  simp only [nameAt?, Option.bind_eq_bind, Option.bind_eq_some_iff]
  constructor
  · rintro ⟨_, hslot, octets, rfl, hname⟩
    exact ⟨octets, hslot, hname⟩
  · rintro ⟨octets, hslot, hname⟩
    exact ⟨_, hslot, octets, rfl, hname⟩

/-- A larger pool knows every name that is known. -/
theorem knows_of_le {pool pool' : ConstantPool} (h : pool ≤ pool') :
    Knows (slotsOf pool') (slotsOf pool) := by
  intro n name hname
  obtain ⟨octets, hslot, hutf8⟩ := nameAt?_eq_some_iff.1 hname
  refine nameAt?_eq_some_iff.2 ⟨octets, ?_, hutf8⟩
  rw [getElem?_slotsOf] at hslot ⊢
  by_cases hn : n = 0
  · rw [if_pos hn] at hslot
    cases hslot
  · rw [if_neg hn] at hslot ⊢
    obtain ⟨c, hc, hoctets⟩ := Option.map_eq_some_iff.1 hslot
    rw [ConstantPool.getElem?_of_le h hc, Option.map_some, hoctets]

theorem nameAt?_of_isFirstText {pool : ConstantPool} {index : UInt16} {name : String}
    (h : pool.IsFirstText index name)
    (hname : String.fromUTF8? (ByteArray.mk (ModifiedUtf8.encode name).toArray) = some name) :
    nameAt? (slotsOf pool) index.toNat = some name := by
  obtain ⟨⟨hne, hentry⟩, -⟩ := h
  refine nameAt?_eq_some_iff.2 ⟨ModifiedUtf8.encode name, ?_, hname⟩
  rw [getElem?_slotsOf, if_neg hne, hentry]
  rfl

end Acceptance

/-! ## What writing adds -/

/-- Whether the second grammar takes the text of an entry, if it is a text. -/
def LedgerEntry.isAccepted : LedgerEntry → Bool
  | .text octets => JavaText.accepts octets
  | _ => true

theorem LedgerEntry.isAccepted_ofConstant (c : Constant) :
    (ofConstant c).isAccepted = c.isAccepted := by
  cases c <;> rfl

namespace Ledger

def isAccepted (ledger : Ledger) : Bool := List.all ledger LedgerEntry.isAccepted

theorem isAccepted_ofPool (pool : ConstantPool) : (ofPool pool).isAccepted = pool.isAccepted := by
  simp only [isAccepted, ofPool, ConstantPool.isAccepted, List.all_map]
  congr 1
  funext c
  exact LedgerEntry.isAccepted_ofConstant c

/-- An accepted ledger stays one. -/
def KeepsAccepted {α : Type} (y : StateM Ledger α) : Prop :=
  ∀ ledger : Ledger, ledger.isAccepted = true → isAccepted (y ledger).2 = true

theorem keepsAccepted_enter {entry : LedgerEntry} (h : entry.isAccepted = true) :
    KeepsAccepted (enter entry) := by
  intro ledger hledger
  unfold enter
  split
  · exact hledger
  · simp only [isAccepted, List.all_append, List.all_cons, List.all_nil, Bool.and_true,
      Bool.and_eq_true]
    exact ⟨hledger, h⟩

theorem KeepsAccepted.bind {α β : Type} {y : StateM Ledger α} {g : α → StateM Ledger β}
    (hy : KeepsAccepted y) (hg : ∀ a, KeepsAccepted (g a)) : KeepsAccepted (y >>= g) :=
  fun ledger hledger => hg _ _ (hy ledger hledger)

theorem keepsAccepted_text (value : String) : KeepsAccepted (text value) :=
  keepsAccepted_enter (JavaText.accepts_encode value)

theorem keepsAccepted_className (name : String) : KeepsAccepted (className name) :=
  (keepsAccepted_text name).bind fun _ => keepsAccepted_enter rfl

theorem keepsAccepted_nameAndType (name descriptor : String) :
    KeepsAccepted (nameAndType name descriptor) :=
  (keepsAccepted_text name).bind fun _ => (keepsAccepted_text descriptor).bind fun _ =>
    keepsAccepted_enter rfl

end Ledger

theorem Request.keepsAccepted_enter (r : Request) : Ledger.KeepsAccepted r.enter := by
  cases r with
  | text value => exact Ledger.keepsAccepted_text value
  | className name => exact Ledger.keepsAccepted_className name
  | string value =>
    exact (Ledger.keepsAccepted_text value).bind fun _ => Ledger.keepsAccepted_enter rfl
  | nameAndType name descriptor => exact Ledger.keepsAccepted_nameAndType name descriptor
  | methodRef owner name descriptor interface =>
    exact (Ledger.keepsAccepted_className owner).bind fun _ =>
      (Ledger.keepsAccepted_nameAndType name descriptor).bind fun _ =>
        Ledger.keepsAccepted_enter rfl

theorem Ledger.isAccepted_after (requests : List Request) {ledger : Ledger}
    (h : ledger.isAccepted = true) : isAccepted (after requests ledger) = true := by
  induction requests generalizing ledger with
  | nil => exact h
  | cons r requests ih => exact ih (r.keepsAccepted_enter ledger h)

/-- Writing a class over a pool that is taken leaves one that is taken. -/
theorem ClassFile.isAccepted_of_write {c : ClassFile} {octets : Bytes}
    (hw : c.write = .ok octets) (h : c.pool.isAccepted = true) :
    (c.encodeMembers.run.run c.pool).2.isAccepted = true := by
  rw [← Ledger.isAccepted_ofPool] at h ⊢
  rw [(computable_of_write hw).ofPool_of_write hw]
  exact Ledger.isAccepted_after c.requests h

end PlatformLink
