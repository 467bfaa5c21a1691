import PlatformLink.Proofs.ReadingSpec

/-! # Class files end where they say

A reader is `Delimited` when the octets it takes show where they end: what follows them plays no
part, and when some of them are missing it says that they are truncated, at an offset that is not
behind the cut. This is kept by everything that the reader of class files is built from, so that
`ClassFile.truncated_of_read` holds: no class file is a strict prefix of another one.

* `Delimited.bind`, `Delimited.many`, `Delimited.counted16`: readers built from delimited ones;
* `ConstantPool.delimited_read`: constant pools, whose entries tell their own lengths;
* `ClassFile.delimited_readFront`: classes without what may follow them.
-/

namespace PlatformLink
set_option autoImplicit false

/-! ## Prefixes -/

/-- A prefix of two words ends inside the first one, or inside the second one. -/
theorem prefix_append_cases {front first second : Bytes} (h : front <+: first ++ second) :
    (front <+: first ∧ front ≠ first) ∨ ∃ back, front = first ++ back ∧ back <+: second := by
  rcases Nat.lt_or_ge front.length first.length with hlt | hge
  · left
    have hfirst : front <+: first :=
      List.prefix_of_prefix_length_le h (List.prefix_append first second) (by omega)
    refine ⟨hfirst, ?_⟩
    intro heq
    rw [heq] at hlt
    omega
  · right
    have hfront : first <+: front :=
      List.prefix_of_prefix_length_le (List.prefix_append first second) h hge
    obtain ⟨back, rfl⟩ := hfront
    exact ⟨back, rfl, (List.prefix_append_right_inj first).1 h⟩

theorem length_lt_of_prefix_ne {front word : Bytes} (h : front <+: word) (hne : front ≠ word) :
    front.length < word.length := by
  rcases Nat.lt_or_ge front.length word.length with hlt | hge
  · exact hlt
  · exact absurd (h.eq_of_length_le hge) hne

namespace Reader

variable {α β : Type}

/-! ## Cuts -/

/-- Of a strict prefix of `word` the reader says that it is truncated, no later than where the
prefix ends. -/
def CutShort (item : Reader α) (offset : Nat) (word : Bytes) : Prop :=
  ∀ front, front <+: word → front ≠ word →
    ∃ o, o ≤ offset + front.length ∧ item ⟨offset, front⟩ = .error (.truncated o)

/-- What the reader takes does not depend on what follows, and cannot be cut short unnoticed. -/
def Delimited (item : Reader α) : Prop :=
  ∀ (offset : Nat) (octets : Bytes) (a : α) (c : Cursor), item ⟨offset, octets⟩ = .ok (a, c) →
    ∃ word, octets = word ++ c.rest ∧ c.offset = offset + word.length ∧
      (∀ rest, item ⟨offset, word ++ rest⟩ = .ok (a, ⟨offset + word.length, rest⟩)) ∧
        CutShort item offset word

theorem cutShort_nil (item : Reader α) (offset : Nat) : CutShort item offset [] := by
  intro front hleading hne
  exact absurd (List.prefix_nil.1 hleading) hne

/-- Readers with a grammar do not look behind a word; that leaves the cuts. -/
theorem Reads.delimited {item : Reader α} {G : Grammar α} (h : Reads item G)
    (hcut : ∀ offset word a, G word a → CutShort item offset word) : Delimited item := by
  intro offset octets a c hc
  obtain ⟨word, hword, hrest, hoffset⟩ := (h _ _ _).1 hc
  exact ⟨word, hrest, hoffset, fun rest => h.apply hword offset rest, hcut offset word a hword⟩

namespace Delimited

/-! ## Steps without octets -/

theorem pure (a : α) : Delimited (pure a : Reader α) := by
  apply (Reads.pure a).delimited
  intro offset word b hword
  rw [hword.1]
  exact cutShort_nil _ offset

theorem lift (e : Except ClassError α) : Delimited (liftM e : Reader α) := by
  apply (Reads.lift e).delimited
  intro offset word a hword
  rw [hword.1]
  exact cutShort_nil _ offset

theorem throw (e : ClassError) : Delimited (throw e : Reader α) := by
  apply (Reads.throw e).delimited
  intro offset word a hword
  exact hword.elim

/-! ## Fields -/

theorem take (n : Nat) : Delimited (take n) := by
  apply (Reads.take n).delimited
  intro offset word a hword front hleading hne
  have hlt := length_lt_of_prefix_ne hleading hne
  have hlen : word.length = n := by rw [hword.1, hword.2]
  have hsplit : splitExact? n front = none := by
    have hshort : (front.take n).length ≠ n := by
      rw [List.length_take]
      omega
    simp only [splitExact?, if_neg hshort]
  refine ⟨offset, by omega, ?_⟩
  simp only [Reader.take, hsplit]

theorem u8 : Delimited u8 := by
  apply Reads.u8.delimited
  intro offset word a hword front hleading hne
  have hlt := length_lt_of_prefix_ne hleading hne
  rw [hword, List.length_singleton] at hlt
  have hnil : front = [] := List.eq_nil_of_length_eq_zero (by omega)
  rw [hnil]
  exact ⟨offset, by omega, rfl⟩

theorem u16 : Delimited u16 := by
  apply Reads.u16.delimited
  intro offset word a hword front hleading hne
  have hlt := length_lt_of_prefix_ne hleading hne
  rw [hword, be16_length] at hlt
  refine ⟨offset, by omega, ?_⟩
  match front with
  | [] => rfl
  | [_] => rfl
  | _ :: _ :: _ =>
    rw [List.length_cons, List.length_cons] at hlt
    omega

theorem u32 : Delimited u32 := by
  apply Reads.u32.delimited
  intro offset word a hword front hleading hne
  have hlt := length_lt_of_prefix_ne hleading hne
  rw [hword, be32_length] at hlt
  refine ⟨offset, by omega, ?_⟩
  match front with
  | [] => rfl
  | [_] => rfl
  | [_, _] => rfl
  | [_, _, _] => rfl
  | _ :: _ :: _ :: _ :: _ => simp at hlt; omega

/-! ## One after another -/

theorem bind {x : Reader α} {f : α → Reader β} (hx : Delimited x) (hf : ∀ a, Delimited (f a)) :
    Delimited (x >>= f) := by
  intro offset octets b c hc
  rw [bind_apply] at hc
  cases hxc : x ⟨offset, octets⟩ with
  | error e => simp [hxc] at hc
  | ok r =>
    obtain ⟨a, ⟨offset', octets'⟩⟩ := r
    rw [hxc] at hc
    obtain ⟨first, hfirst, hoffset, hxrest, hxcut⟩ := hx _ _ _ _ hxc
    obtain ⟨second, hsecond, hoffset', hfrest, hfcut⟩ := hf a _ _ _ _ hc
    simp only at hfirst hoffset hsecond
    rw [hoffset] at hfrest hfcut hoffset'
    refine ⟨first ++ second, ?_, ?_, ?_, ?_⟩
    · rw [hfirst, hsecond, List.append_assoc]
    · rw [hoffset', List.length_append, Nat.add_assoc]
    · intro rest
      rw [bind_apply, List.append_assoc, hxrest]
      simp only [hfrest rest, List.length_append, Nat.add_assoc]
    · intro front hleading hne
      rcases prefix_append_cases hleading with ⟨hinside, hshort⟩ | ⟨back, rfl, hback⟩
      · obtain ⟨o, ho, herror⟩ := hxcut front hinside hshort
        refine ⟨o, ho, ?_⟩
        rw [bind_apply, herror]
      · have hback' : back ≠ second := by
          intro heq
          exact hne (by rw [heq])
        obtain ⟨o, ho, herror⟩ := hfcut back hback hback'
        refine ⟨o, ?_, ?_⟩
        · rw [List.length_append]
          omega
        · rw [bind_apply, hxrest]
          exact herror

theorem map {x : Reader α} (hx : Delimited x) (g : α → β) :
    Delimited (do let a ← x; return g a) :=
  hx.bind fun a => pure (g a)

theorem ite {p : Prop} [Decidable p] {x y : Reader α} (hx : Delimited x) (hy : Delimited y) :
    Delimited (if p then x else y) := by
  by_cases h : p
  · rw [if_pos h]
    exact hx
  · rw [if_neg h]
    exact hy

theorem stepwise16 : Delimited stepwise16 := u8.bind fun a => u8.map (ofBe16 a)

theorem stepwise32 : Delimited stepwise32 :=
  stepwise16.bind fun high => stepwise16.map (ofHalves32 high)

theorem stepwise64 : Delimited stepwise64 :=
  stepwise32.bind fun high => stepwise32.map (ofHalves64 high)

theorem many {item : Reader α} (h : Delimited item) (n : Nat) : Delimited (many n item) := by
  induction n with
  | zero => exact pure []
  | succ n ih =>
    rw [many_succ_eq_bind]
    exact h.bind fun a => ih.map (a :: ·)

theorem counted16 {item : Reader α} (h : Delimited item) : Delimited (counted16 item) :=
  u16.bind fun n => h.many n.toNat

end Delimited

/-- A reader that must come to the end of the octets: cut octets and octets with something behind
them are truncated. -/
theorem Delimited.truncated_of_parse {item : Reader α} (h : Delimited item) {octets : Bytes} {a : α}
    (hparse : parse (do let a ← item; atEnd; return a) octets = .ok a) :
    (∀ front, front <+: octets → front ≠ octets →
        ∃ o, o ≤ front.length ∧
          parse (do let a ← item; atEnd; return a) front = .error (.truncated o)) ∧
      ∀ more, more ≠ [] →
        parse (do let a ← item; atEnd; return a) (octets ++ more) =
          .error (.truncated octets.length) := by
  simp only [parse, bind_apply, Cursor.start] at hparse ⊢
  cases hitem : item ⟨0, octets⟩ with
  | error e => simp [hitem, Except.map] at hparse
  | ok r =>
    obtain ⟨b, ⟨offset, rest⟩⟩ := r
    obtain ⟨word, hword, hoffset, hrest, hcut⟩ := h _ _ _ _ hitem
    cases rest with
    | cons _ _ => simp [hitem, atEnd, Except.map] at hparse
    | nil =>
      simp only [List.append_nil] at hword
      subst hword
      constructor
      · intro front hleading hne
        obtain ⟨o, ho, herror⟩ := hcut front hleading hne
        refine ⟨o, by omega, ?_⟩
        rw [herror]
        rfl
      · intro more hmore
        obtain ⟨first, others, rfl⟩ := List.exists_cons_of_ne_nil hmore
        rw [hrest]
        simp [atEnd, Except.map]

end Reader

open Reader

/-! ## Constant pools -/

namespace Constant

theorem delimited_ofIndex (make : UInt16 → Constant) : Delimited (ofIndex make) :=
  Delimited.stepwise16.map make

theorem delimited_ofPair (make : UInt16 → UInt16 → Constant) : Delimited (ofPair make) :=
  Delimited.stepwise16.bind fun first => Delimited.stepwise16.map (make first)

theorem delimited_readFields (tag : UInt8) : Delimited (readFields tag) := by
  unfold readFields
  split
  · exact Delimited.stepwise16.bind fun length => (Delimited.take length.toNat).map Constant.utf8
  · exact Delimited.stepwise32.map Constant.integer
  · exact Delimited.stepwise32.map Constant.float
  · exact Delimited.stepwise64.map Constant.long
  · exact Delimited.stepwise64.map Constant.double
  · exact delimited_ofIndex .class
  · exact delimited_ofIndex .string
  · exact delimited_ofPair .fieldRef
  · exact delimited_ofPair .methodRef
  · exact delimited_ofPair .interfaceMethodRef
  · exact delimited_ofPair .nameAndType
  · exact Delimited.u8.bind fun kind => Delimited.stepwise16.map (Constant.methodHandle kind)
  · exact delimited_ofIndex .methodType
  · exact delimited_ofPair .dynamic
  · exact delimited_ofPair .invokeDynamic
  · exact delimited_ofIndex .module
  · exact delimited_ofIndex .package
  · exact Delimited.throw _

theorem delimited_read : Delimited read := Delimited.u8.bind delimited_readFields

end Constant

namespace ConstantPool

/-- What is wrong with an entry is told of its index, a truncation as it is. -/
theorem delimited_atIndex {α : Type} {item : Reader α} (h : Delimited item) (index : Nat) :
    Delimited fun c => (item c).mapError (atIndex index) := by
  intro offset octets a c hc
  have hitem : item ⟨offset, octets⟩ = .ok (a, c) := by
    cases hi : item ⟨offset, octets⟩ <;> simp_all [Except.mapError]
  obtain ⟨word, hword, hoffset, hrest, hcut⟩ := h _ _ _ _ hitem
  refine ⟨word, hword, hoffset, ?_, ?_⟩
  · intro rest
    simp only [hrest rest, Except.mapError]
  · intro front hleading hne
    obtain ⟨o, ho, herror⟩ := hcut front hleading hne
    refine ⟨o, ho, ?_⟩
    simp only [herror, Except.mapError, atIndex]

theorem readEntries_eq_bind {count : Nat} {entries : Array Constant}
    (h : entries.size + 1 < count) :
    readEntries count entries =
      (fun c => (Constant.read c).mapError (atIndex (entries.size + 1)) : Reader Constant) >>=
        fun constant => readEntries count (extend entries constant) := by
  funext c
  rw [readEntries, bind_apply, if_pos h]
  cases Constant.read c <;> rfl

theorem delimited_readEntries (count : Nat) (entries : Array Constant) :
    Delimited (readEntries count entries) := by
  by_cases h : entries.size + 1 < count
  · have hlt (constant : Constant) := size_lt_size_extend entries constant
    have ih (constant : Constant) := delimited_readEntries count (extend entries constant)
    rw [readEntries_eq_bind h]
    exact (delimited_atIndex Constant.delimited_read _).bind ih
  · have hfull : readEntries count entries = pure entries := by
      funext c
      rw [readEntries, if_neg h]
      rfl
    rw [hfull]
    exact Delimited.pure entries
termination_by count - entries.size
decreasing_by
  have := size_lt_size_extend entries constant
  omega

theorem delimited_read : Delimited read := by
  apply Delimited.u16.bind
  intro count
  apply (delimited_readEntries count.toNat #[]).bind
  intro entries
  by_cases h : entries.size + 1 = count.toNat
  · rw [dif_pos h]
    exact Delimited.pure _
  · rw [dif_neg h]
    exact Delimited.throw _

end ConstantPool

/-! ## Members -/

namespace Attribute

theorem delimited_read : Delimited read :=
  Delimited.u16.bind fun name => Delimited.u32.bind fun length =>
    (Delimited.take length.toNat).map (Attribute.mk name)

theorem delimited_readAll : Delimited readAll := delimited_read.counted16

end Attribute

theorem Field.delimited_read : Delimited Field.read :=
  Delimited.u16.bind fun access => Delimited.u16.bind fun name =>
    Delimited.u16.bind fun descriptor => Attribute.delimited_readAll.map (Field.mk access name descriptor)

/-- An index and the text under it. A dangling index is an error of its own, but one that only
comes up when both of its octets are there. -/
theorem Annotations.delimited_readText (pool : ConstantPool) : Delimited (readText pool) :=
  Delimited.u16.bind fun index => Delimited.lift (pool.text index)

/-- The attributes of a method are taken apart when all of them are there. -/
theorem Method.delimited_read (pool : ConstantPool) : Delimited (Method.read pool) :=
  Delimited.u16.bind fun access => (Annotations.delimited_readText pool).bind fun name =>
    (Annotations.delimited_readText pool).bind fun descriptor =>
      Attribute.delimited_readAll.bind fun attributes =>
        Delimited.lift (absorbAll pool (.bare access name descriptor) attributes)

/-! ## Classes -/

namespace ClassFile

theorem delimited_readName (pool : ConstantPool) : Delimited (readName pool) :=
  Delimited.u16.bind fun index => Delimited.lift (pool.className index)

theorem delimited_readSuperName (pool : ConstantPool) : Delimited (readSuperName pool) :=
  Delimited.u16.bind fun index =>
    (Delimited.pure none).ite ((Delimited.lift (pool.className index)).map some)

theorem delimited_readFront : Delimited readFront := by
  apply Delimited.u32.bind
  intro found
  have hrest : Delimited (do
      let minor ← Reader.u16
      let major ← Reader.u16
      let pool ← ConstantPool.read
      let access ← Reader.u16
      let name ← readName pool
      let superName ← readSuperName pool
      let interfaces ← Reader.counted16 Reader.u16
      let fields ← Reader.counted16 Field.read
      let methods ← Reader.counted16 (Method.read pool)
      let attributes ← Attribute.readAll
      return (⟨minor, major, pool, access, name, superName, interfaces, fields, methods,
        attributes⟩ : ClassFile)) :=
    Delimited.u16.bind fun minor => Delimited.u16.bind fun major =>
      ConstantPool.delimited_read.bind fun pool => Delimited.u16.bind fun access =>
        (delimited_readName pool).bind fun name =>
          (delimited_readSuperName pool).bind fun superName => Delimited.u16.counted16.bind fun interfaces =>
            Field.delimited_read.counted16.bind fun fields =>
              (Method.delimited_read pool).counted16.bind fun methods =>
                Attribute.delimited_readAll.map (ClassFile.mk minor major pool access name superName
                  interfaces fields methods)
  exact ((Delimited.throw (.badMagic found)).bind fun _ => hrest).ite hrest

/-- A class file that is cut is truncated where the cut is or before, and one with something behind
it is truncated where it ends. -/
theorem truncated_of_read {octets : Bytes} {c : ClassFile} (h : read octets = .ok c) :
    (∀ front, front <+: octets → front ≠ octets →
        ∃ o, o ≤ front.length ∧ read front = .error (.truncated o)) ∧
      ∀ more, more ≠ [] → read (octets ++ more) = .error (.truncated octets.length) :=
  delimited_readFront.truncated_of_parse h

theorem truncated_of_read_sample :
    read ClassLayout.sample.encode = .ok sample ∧
      (∀ front, front <+: ClassLayout.sample.encode → front ≠ ClassLayout.sample.encode →
        ∃ o, o ≤ front.length ∧ read front = .error (.truncated o)) ∧
      ∀ more, more ≠ [] → read (ClassLayout.sample.encode ++ more) =
        .error (.truncated ClassLayout.sample.encode.length) :=
  ⟨read_sample, truncated_of_read read_sample⟩

end ClassFile

end PlatformLink
