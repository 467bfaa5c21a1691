import PlatformLink.ConstantPool
import PlatformLink.Proofs.Grammar

/-! # The grammar of constant pools

`Constant.reads_read`: an entry that can be written down is read back from its octets, and only
from them. `ConstantPool.reads_read`: the same for pools, whose entries are `Slotted`, which is to
say that an unusable slot follows every wide entry and stands nowhere else.
-/

namespace PlatformLink
set_option autoImplicit false

open Reader

/-! ## Constants -/

namespace Constant

/-- Whether the octets of an entry say what it is: a text is no longer than its length field
allows, and the unusable slot has none. -/
def Fits : Constant → Prop
  | .unusable => False
  | .utf8 text => text.length ≤ 65535
  | _ => True

theorem reads_ofIndex (make : UInt16 → Constant) :
    Reads (ofIndex make) fun word c => ∃ index, word = be16 index ∧ c = make index :=
  Reads.stepwise16.map make

theorem reads_ofPair (make : UInt16 → UInt16 → Constant) :
    Reads (ofPair make) fun word c =>
      ∃ first second, word = be16 first ++ be16 second ∧ c = make first second := by
  have h := Reads.stepwise16.bind_word fun first => Reads.stepwise16.map (make first)
  refine h.congr fun word c => ?_
  constructor
  · rintro ⟨first, _, rfl, second, rfl, rfl⟩
    exact ⟨first, second, rfl, rfl⟩
  · rintro ⟨first, second, rfl, rfl⟩
    exact ⟨first, _, rfl, second, rfl, rfl⟩

theorem reads_text :
    Reads (do let length ← stepwise16; let text ← take length.toNat; return Constant.utf8 text)
      fun word c => ∃ text : Bytes, text.length ≤ 65535 ∧ word = count16 text.length ++ text ∧
        c = .utf8 text := by
  have h := Reads.stepwise16.bind_word fun length => (Reads.take length.toNat).map Constant.utf8
  refine h.congr fun word c => ?_
  constructor
  · rintro ⟨length, _, rfl, text, ⟨rfl, hl⟩, rfl⟩
    have hn := length.toNat_lt
    exact ⟨_, by omega, by rw [hl, count16_toNat], rfl⟩
  · rintro ⟨text, hl, rfl, rfl⟩
    exact ⟨UInt16.ofNat text.length, text, rfl, text, ⟨rfl, (toNat_ofNat16 hl).symm⟩, rfl⟩

theorem reads_handle :
    Reads (do
        let kind ← u8
        let reference ← stepwise16
        return Constant.methodHandle kind reference)
      fun word c => ∃ kind reference, word = kind :: be16 reference ∧
        c = .methodHandle kind reference := by
  have h := Reads.u8.bind_word fun kind => Reads.stepwise16.map (Constant.methodHandle kind)
  refine h.congr fun word c => ?_
  constructor
  · rintro ⟨kind, _, rfl, reference, rfl, rfl⟩
    exact ⟨kind, reference, rfl, rfl⟩
  · rintro ⟨kind, reference, rfl, rfl⟩
    exact ⟨kind, _, rfl, reference, rfl, rfl⟩

/-- The fields after a tag are those of an entry with that tag. -/
theorem reads_readFields (tag : UInt8) :
    Reads (readFields tag) fun word c => tag :: word = c.encode ∧ c.Fits := by
  have hof (n : Nat) (h : tag.toNat = n) : tag = UInt8.ofNat n := by rw [← h, UInt8.ofNat_toNat]
  have number (make : UInt32 → Constant) := Reads.stepwise32.map make
  have number64 (make : UInt64 → Constant) := Reads.stepwise64.map make
  unfold readFields
  split
  all_goals rename_i h
  all_goals try rw [hof _ h]
  · exact reads_text.congr fun word c => by cases c <;> simp [encode, Fits]; grind
  · exact (number .integer).congr fun word c => by cases c <;> simp [encode, Fits]
  · exact (number .float).congr fun word c => by cases c <;> simp [encode, Fits]
  · exact (number64 .long).congr fun word c => by cases c <;> simp [encode, Fits]
  · exact (number64 .double).congr fun word c => by cases c <;> simp [encode, Fits]
  · exact (reads_ofIndex .class).congr fun word c => by cases c <;> simp [encode, Fits]
  · exact (reads_ofIndex .string).congr fun word c => by cases c <;> simp [encode, Fits]
  · exact (reads_ofPair .fieldRef).congr fun word c => by cases c <;> simp [encode, Fits]
  · exact (reads_ofPair .methodRef).congr fun word c => by cases c <;> simp [encode, Fits]
  · exact (reads_ofPair .interfaceMethodRef).congr fun word c => by cases c <;> simp [encode, Fits]
  · exact (reads_ofPair .nameAndType).congr fun word c => by cases c <;> simp [encode, Fits]
  · exact reads_handle.congr fun word c => by cases c <;> simp [encode, Fits]
  · exact (reads_ofIndex .methodType).congr fun word c => by cases c <;> simp [encode, Fits]
  · exact (reads_ofPair .dynamic).congr fun word c => by cases c <;> simp [encode, Fits]
  · exact (reads_ofPair .invokeDynamic).congr fun word c => by cases c <;> simp [encode, Fits]
  · exact (reads_ofIndex .module).congr fun word c => by cases c <;> simp [encode, Fits]
  · exact (reads_ofIndex .package).congr fun word c => by cases c <;> simp [encode, Fits]
  · refine (Reads.throw _).congr fun word c => ?_
    simp only [false_iff, not_and]
    intro he
    -- no entry starts with a tag of no kind
    have htag : tag.toNat ∈ [1, 3, 4, 5, 6, 7, 8, 9, 10, 11, 12, 15, 16, 17, 18, 19, 20] := by
      cases c <;> cases he <;> decide
    simp only [List.mem_cons, List.not_mem_nil, or_false] at htag
    grind

theorem reads_read : Reads read fun word c => word = c.encode ∧ c.Fits := by
  refine (Reads.u8.bind_word reads_readFields).congr fun word c => ?_
  constructor
  · rintro ⟨tag, fields, rfl, hc, hf⟩
    exact ⟨hc, hf⟩
  · rintro ⟨rfl, hf⟩
    obtain ⟨tag, fields, hc⟩ : ∃ tag fields, c.encode = tag :: fields := by
      cases c
      case unusable => exact hf.elim
      all_goals exact ⟨_, _, rfl⟩
    exact ⟨tag, fields, hc, hc.symm, hf⟩

end Constant

/-! ## Pools -/

namespace ConstantPool

theorem ext {pool pool' : ConstantPool} (h : pool.entries = pool'.entries) : pool = pool' := by
  cases pool
  cases pool'
  cases h
  rfl

instance : DecidableEq ConstantPool := fun pool pool' =>
  decidable_of_iff (pool.entries = pool'.entries) ⟨ext, congrArg entries⟩

def slotsOf (c : Constant) : List Constant := if c.isWide then [c, .unusable] else [c]

/-- Entries that can be written down and read back: each in its slots, after one another. -/
inductive Slotted : List Constant → Prop
  | nil : Slotted []
  | cons {c : Constant} {rest : List Constant} (fits : c.Fits) (tail : Slotted rest) :
      Slotted (slotsOf c ++ rest)

theorem toList_extend (entries : Array Constant) (c : Constant) :
    (extend entries c).toList = entries.toList ++ slotsOf c := by
  unfold extend slotsOf
  split <;> simp

/-- The octets of the slots of an entry are those of the entry. -/
theorem flatMap_encode_slotsOf (c : Constant) :
    (slotsOf c).flatMap Constant.encode = c.encode := by
  unfold slotsOf
  split <;> simp [Constant.encode]

/-- The entries that a reader adds to `size` slots until there are `count`, slot 0 included. -/
inductive Filling (count : Nat) : Nat → List Constant → Prop
  | full {size : Nat} (h : count ≤ size + 1) : Filling count size []
  | more {size : Nat} {c : Constant} {rest : List Constant} (h : size + 1 < count) (fits : c.Fits)
      (tail : Filling count (size + (slotsOf c).length) rest) :
      Filling count size (slotsOf c ++ rest)

theorem reads_readEntries (count : Nat) (entries : Array Constant) :
    Reads (readEntries count entries) fun word result =>
      ∃ added, result.toList = entries.toList ++ added ∧ Filling count entries.size added ∧
        word = added.flatMap Constant.encode := by
  intro c result c'
  rw [readEntries]
  by_cases h : entries.size + 1 < count
  · have hlt (constant : Constant) := size_lt_size_extend entries constant
    have ih (constant : Constant) := reads_readEntries count (extend entries constant)
    have hsize (constant : Constant) :
        (extend entries constant).size = entries.size + (slotsOf constant).length := by
      rw [← Array.length_toList, toList_extend, List.length_append, Array.length_toList]
    simp only [h, if_true]
    constructor
    · intro hc
      cases hr : Constant.read c with
      | error e => simp [hr] at hc
      | ok r =>
        obtain ⟨constant, c''⟩ := r
        simp only [hr] at hc
        obtain ⟨_, ⟨rfl, hf⟩, hrest, ho⟩ := (Constant.reads_read _ _ _).1 hr
        obtain ⟨_, ⟨added, hresult, hfill, rfl⟩, hrest', ho'⟩ := (ih constant _ _ _).1 hc
        refine ⟨_, ⟨slotsOf constant ++ added, ?_, .more h hf (hsize _ ▸ hfill), rfl⟩, ?_, ?_⟩
        · rw [hresult, toList_extend, List.append_assoc]
        · rw [hrest, hrest', List.flatMap_append, flatMap_encode_slotsOf, List.append_assoc]
        · rw [ho', ho, List.flatMap_append, flatMap_encode_slotsOf, List.length_append,
            Nat.add_assoc]
    · rintro ⟨_, ⟨added, hresult, hfill, rfl⟩, hrest, ho⟩
      cases hfill with
      | full h' => omega
      | @more _ constant rest _ hf tail =>
        rw [List.flatMap_append, flatMap_encode_slotsOf] at hrest ho
        have hc : c = ⟨c.offset, constant.encode ++ (rest.flatMap Constant.encode ++ c'.rest)⟩ := by
          rw [← List.append_assoc, ← hrest]
        rw [hc, Constant.reads_read.apply ⟨rfl, hf⟩]
        refine (ih constant _ _ _).2 ⟨_, ⟨rest, ?_, hsize _ ▸ tail, rfl⟩, rfl, ?_⟩
        · rw [hresult, toList_extend, List.append_assoc]
        · rw [ho, List.length_append, Nat.add_assoc]
  · simp only [h, if_false, Except.ok.injEq, Prod.mk.injEq]
    constructor
    · rintro ⟨rfl, rfl⟩
      exact ⟨[], ⟨[], by simp, .full (by omega), rfl⟩, rfl, rfl⟩
    · rintro ⟨_, ⟨added, hresult, hfill, rfl⟩, hrest, ho⟩
      cases hfill with
      | more h' _ _ => exact absurd h' h
      | full _ =>
        rw [List.append_nil] at hresult
        cases c
        cases c'
        simp_all [Array.toList_inj]
termination_by count - entries.size
decreasing_by
  have := size_lt_size_extend entries constant
  omega

/-- What fills the slots exactly is slotted, and the other way round. -/
theorem filling_iff_slotted {count size : Nat} {added : List Constant}
    (h : size + added.length + 1 = count) : Filling count size added ↔ Slotted added := by
  constructor
  · intro hf
    induction hf with
    | full _ => exact .nil
    | more _ fits _ ih =>
      rw [List.length_append] at h
      exact .cons fits (ih (by omega))
  · intro hs
    induction hs generalizing size with
    | nil => exact .full (by simp at h; omega)
    | @cons c rest fits _ ih =>
      have hpos : 0 < (slotsOf c).length := by
        unfold slotsOf
        split <;> simp
      rw [List.length_append] at h
      exact .more (by omega) fits (ih (by omega))

/-- Entries are a pool when they fill the announced slots exactly. -/
theorem reads_ofEntries (count : UInt16) (entries : Array Constant)
    (hsize : entries.size + 1 = count.toNat → entries.size < 65535) :
    Reads (if h : entries.size + 1 = count.toNat then
        return (⟨entries, hsize h⟩ : ConstantPool)
      else throw (.invalidConstant (UInt16.ofNat (count.toNat - 1)) .wideOverflow))
      fun word pool => word = [] ∧ pool.slotCount = count.toNat ∧ pool.entries = entries := by
  by_cases h : entries.size + 1 = count.toNat
  · rw [dif_pos h]
    refine (Reads.pure _).congr fun word pool => ?_
    constructor
    · rintro ⟨rfl, rfl⟩
      exact ⟨rfl, h, rfl⟩
    · rintro ⟨rfl, _, he⟩
      exact ⟨rfl, ext he⟩
  · rw [dif_neg h]
    refine (Reads.throw _).congr fun word pool => ?_
    simp only [false_iff, not_and]
    rintro - hc rfl
    exact h hc

theorem reads_read :
    Reads read fun word pool => word = pool.encode ∧ Slotted pool.entries.toList := by
  have h := Reads.u16.bind_word fun count =>
    (reads_readEntries count.toNat #[]).bind fun entries =>
      reads_ofEntries count entries fun hcount => by have := count.toNat_lt; omega
  refine h.congr fun word pool => ?_
  constructor
  · rintro ⟨count, _, rfl, entries, _, _, rfl, ⟨added, hadded, hfill, rfl⟩, rfl, hc, rfl⟩
    simp only [List.nil_append] at hadded
    subst hadded
    have hcount : 0 + pool.entries.toList.length + 1 = count.toNat := by
      rw [← hc, Array.length_toList, slotCount]
      omega
    refine ⟨?_, (filling_iff_slotted hcount).1 hfill⟩
    rw [List.append_nil, encode, hc, count16_toNat]
  · rintro ⟨rfl, hs⟩
    have hsize := pool.size_lt
    have hc : pool.slotCount = (UInt16.ofNat pool.slotCount).toNat := by
      rw [toNat_ofNat16 (by unfold slotCount; omega)]
    have hcount : 0 + pool.entries.toList.length + 1 = (UInt16.ofNat pool.slotCount).toNat := by
      rw [← hc, Array.length_toList, slotCount]
      omega
    exact ⟨UInt16.ofNat pool.slotCount, _, rfl, pool.entries, _, [], (List.append_nil _).symm,
      ⟨pool.entries.toList, rfl, (filling_iff_slotted hcount).2 hs, rfl⟩, rfl, hc, rfl⟩

end ConstantPool

end PlatformLink
