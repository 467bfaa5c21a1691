import PlatformLink.Acceptance
import PlatformLink.Proofs.AnnotationGrammar

/-! # Walks of the second grammar

What a walk passes over does not depend on what follows, on how much deeper it could go, or on
names that are known besides (`Acceptance.refines_attributeWalk`). So the octets of a whole class
are walked over part by part: `Acceptance.Takes w octets` says that `w` passes over just these
octets, in front of anything. `Acceptance.takes_elementValue`: the element values that the reader
finds are element values of the second grammar.
-/

namespace PlatformLink
set_option autoImplicit false

namespace Acceptance

/-! ## What a walk depends on -/

/-- What `w` passes over is passed over by `w'` as well, in front of anything. -/
def Refines (w w' : Walk) : Prop :=
  ∀ octets rest, w octets = some rest → ∀ more, w' (octets ++ more) = some (rest ++ more)

section Refines

variable {w w' v v' : Walk}

theorem refines_nothing : Refines nothing nothing := by
  rintro octets _ ⟨rfl⟩ more
  rfl

theorem refines_refused (w : Walk) : Refines refused w := by
  rintro octets rest ⟨⟩

theorem skip_eq_some_iff {n : Nat} {octets rest : Bytes} :
    skip n octets = some rest ↔ ∃ front, octets = front ++ rest ∧ front.length = n := by
  simp only [skip, Option.map_eq_some_iff, Prod.exists, splitExact?_eq_some_iff]
  constructor
  · rintro ⟨front, _, ⟨rfl, hlength⟩, rfl⟩
    exact ⟨front, rfl, hlength⟩
  · rintro ⟨front, rfl, hlength⟩
    exact ⟨front, rest, ⟨rfl, hlength⟩, rfl⟩

theorem refines_skip (n : Nat) : Refines (skip n) (skip n) := by
  intro octets rest h more
  obtain ⟨front, rfl, hlength⟩ := skip_eq_some_iff.1 h
  exact skip_eq_some_iff.2 ⟨front, List.append_assoc _ _ _, hlength⟩

theorem Refines.andThen (hw : Refines w w') (hv : Refines v v') :
    Refines (andThen w v) (andThen w' v') := by
  intro octets rest h more
  obtain ⟨between, hfirst, hsecond⟩ := Option.bind_eq_some_iff.1 h
  exact Option.bind_eq_some_iff.2 ⟨_, hw octets between hfirst more, hv between rest hsecond more⟩

theorem Refines.times (h : Refines w w') (n : Nat) : Refines (times w n) (times w' n) := by
  induction n with
  | zero => exact refines_nothing
  | succ n ih =>
    intro octets rest hn more
    rw [Acceptance.times] at hn ⊢
    cases hitem : w octets with
    | none => simp [hitem] at hn
    | some between =>
      rw [h octets between hitem more]
      exact ih between rest (by simpa only [hitem] using hn) more

theorem Refines.ite {p : Prop} [Decidable p] (hw : Refines w w') (hv : Refines v v') :
    Refines (if p then w else v) (if p then w' else v') := by
  split
  · exact hw
  · exact hv

theorem withU16_eq_some_iff {next : Nat → Walk} {octets rest : Bytes} :
    withU16 next octets = some rest ↔
      ∃ (n : UInt16) (back : Bytes), octets = be16 n ++ back ∧ next n.toNat back = some rest := by
  constructor
  · intro h
    match octets, h with
    | a :: b :: back, h => exact ⟨ofBe16 a b, back, by rw [be16_ofBe16]; rfl, h⟩
  · rintro ⟨n, back, rfl, h⟩
    obtain ⟨a, b, rfl⟩ := exists_ofBe16 n
    rw [be16_ofBe16]
    exact h

theorem withU32_eq_some_iff {next : Nat → Walk} {octets rest : Bytes} :
    withU32 next octets = some rest ↔
      ∃ (n : UInt32) (back : Bytes), octets = be32 n ++ back ∧ next n.toNat back = some rest := by
  constructor
  · intro h
    match octets, h with
    | a :: b :: c :: d :: back, h => exact ⟨ofBe32 a b c d, back, by rw [be32_ofBe32]; rfl, h⟩
  · rintro ⟨n, back, rfl, h⟩
    obtain ⟨a, b, c, d, rfl⟩ := exists_ofBe32 n
    rw [be32_ofBe32]
    exact h

theorem refines_withU8 {next next' : UInt8 → Walk} (h : ∀ n, Refines (next n) (next' n)) :
    Refines (withU8 next) (withU8 next') := by
  rintro (_ | ⟨a, octets⟩) rest hrest more
  · cases hrest
  · exact h a octets rest hrest more

theorem refines_withU16 {next next' : Nat → Walk} (h : ∀ n, Refines (next n) (next' n)) :
    Refines (withU16 next) (withU16 next') := by
  intro octets rest hrest more
  obtain ⟨n, back, rfl, hback⟩ := withU16_eq_some_iff.1 hrest
  exact withU16_eq_some_iff.2 ⟨n, _, List.append_assoc _ _ _, h _ back rest hback more⟩

theorem refines_withU32 {next next' : Nat → Walk} (h : ∀ n, Refines (next n) (next' n)) :
    Refines (withU32 next) (withU32 next') := by
  intro octets rest hrest more
  obtain ⟨n, back, rfl, hback⟩ := withU32_eq_some_iff.1 hrest
  exact withU32_eq_some_iff.2 ⟨n, _, List.append_assoc _ _ _, h _ back rest hback more⟩

theorem Refines.listU8 (h : Refines w w') : Refines (listU8 w) (listU8 w') :=
  refines_withU8 fun n => h.times n.toNat

theorem Refines.listU16 (h : Refines w w') : Refines (listU16 w) (listU16 w') :=
  refines_withU16 h.times

end Refines

/-! ## The walks of the grammar -/

theorem Refines.entryWith {value value' : Walk} (h : Refines value value') :
    Refines (entryWith value) (entryWith value') :=
  (refines_skip 2).andThen ((refines_skip 2).andThen h).listU16

theorem refines_elementValue {depth depth' : Nat} (hle : depth ≤ depth') :
    Refines (elementValue depth) (elementValue depth') := by
  induction depth generalizing depth' with
  | zero => exact refines_refused _
  | succ depth ih =>
    obtain ⟨depth', rfl⟩ : ∃ n, depth' = n + 1 := ⟨depth' - 1, by omega⟩
    have hvalue := ih (Nat.le_of_succ_le_succ hle)
    exact refines_withU8 fun tag => (refines_skip 2).ite <| (refines_skip 4).ite <|
      hvalue.entryWith.ite <| hvalue.listU16.ite <| refines_refused _

theorem refines_typeTarget : Refines typeTarget typeTarget :=
  refines_withU8 fun _ => (refines_skip 1).ite <| (refines_skip 2).ite <| (refines_skip 2).ite <|
    refines_nothing.ite <| (refines_skip 1).ite <| (refines_skip 2).ite <|
      (refines_skip 6).listU16.ite <| (refines_skip 2).ite <| (refines_skip 3).ite <|
        refines_refused _

theorem refines_frameType : Refines frameType frameType :=
  refines_withU8 fun _ => refines_nothing.ite <| (refines_skip 2).ite <| refines_refused _

theorem refines_stackFrame : Refines stackFrame stackFrame :=
  refines_withU8 fun _ => refines_nothing.ite <| refines_frameType.ite <|
    (refines_refused _).ite <| ((refines_skip 2).andThen refines_frameType).ite <|
      (refines_skip 2).ite <| ((refines_skip 2).andThen (refines_frameType.times _)).ite <|
        (refines_skip 2).andThen (refines_frameType.listU16.andThen refines_frameType.listU16)

theorem refines_formBody {inner inner' value value' : Walk} (hinner : Refines inner inner')
    (hvalue : Refines value value') (form : Form) :
    Refines (formBody inner value form) (formBody inner' value' form) := by
  cases form with
  | fixed size => exact refines_skip size
  | rows size => exact (refines_skip size).listU16
  | code =>
    exact (refines_skip 4).andThen ((refines_withU32 refines_skip).andThen
      ((refines_skip 8).listU16.andThen hinner.listU16))
  | entries => exact hvalue.entryWith.listU16
  | parameterEntries => exact hvalue.entryWith.listU16.listU8
  | typeEntries =>
    exact (refines_typeTarget.andThen ((refines_skip 2).listU8.andThen hvalue.entryWith)).listU16
  | defaultValue => exact hvalue
  | stackMap => exact refines_stackFrame.listU16
  | bootstraps => exact ((refines_skip 2).andThen (refines_skip 2).listU16).listU16
  | parameters => exact (refines_skip 4).listU8
  | record => exact ((refines_skip 4).andThen hinner.listU16).listU16

/-- Every name that is known by `slots` is known by `slots'`. -/
def Knows (slots' slots : Slots) : Prop :=
  ∀ index name, nameAt? slots index = some name → nameAt? slots' index = some name

/-- An attribute is the index of a name that is known, a length that is looked at for two names
only, and a body of the form that goes by the name. -/
theorem attributeWalk_eq_some_iff {slots : Slots} {depth : Nat} {octets rest : Bytes} :
    attributeWalk slots (depth + 1) octets = some rest ↔
      ∃ (index : UInt16) (length : UInt32) (body : Bytes) (name : String) (form : Form),
        octets = be16 index ++ (be32 length ++ body) ∧ nameAt? slots index.toNat = some name ∧
          formOf? name = some form ∧ (mustHold name = true → length.toNat ≤ body.length) ∧
            formBody (attributeWalk slots depth) (elementValue depth) form body = some rest := by
  rw [attributeWalk, withU16_eq_some_iff]
  simp only [withU32_eq_some_iff]
  constructor
  · rintro ⟨index, _, rfl, length, body, rfl, h⟩
    cases hname : nameAt? slots index.toNat with
    | none => simp [hname] at h
    | some name =>
      cases hform : formOf? name with
      | none => simp [hname, hform] at h
      | some form =>
        simp only [hname, hform, List.length_take, Bool.and_eq_true, decide_eq_true_eq] at h
        split at h
        · cases h
        · rename_i hholds
          refine ⟨index, length, body, name, form, rfl, hname, hform, fun hmust => ?_, h⟩
          exact Nat.le_of_not_lt fun hlt => hholds ⟨hmust, by omega⟩
  · rintro ⟨index, length, body, name, form, rfl, hname, hform, hholds, h⟩
    refine ⟨index, _, rfl, length, body, rfl, ?_⟩
    simp only [hname, hform, List.length_take, Bool.and_eq_true, decide_eq_true_eq]
    rw [if_neg, h]
    rintro ⟨hmust, hshort⟩
    have hlength := hholds hmust
    omega

/-- An attribute stays one when more follows, when it may nest deeper, and when more is known. -/
theorem refines_attributeWalk {slots slots' : Slots} (hknows : Knows slots' slots)
    {depth depth' : Nat} (hle : depth ≤ depth') :
    Refines (attributeWalk slots depth) (attributeWalk slots' depth') := by
  induction depth generalizing depth' with
  | zero => exact refines_refused _
  | succ depth ih =>
    obtain ⟨depth', rfl⟩ : ∃ n, depth' = n + 1 := ⟨depth' - 1, by omega⟩
    have hle := Nat.le_of_succ_le_succ hle
    intro octets rest h more
    obtain ⟨index, length, body, name, form, rfl, hname, hform, hholds, hbody⟩ :=
      attributeWalk_eq_some_iff.1 h
    refine attributeWalk_eq_some_iff.2 ⟨index, length, body ++ more, name, form,
      by simp only [List.append_assoc], hknows _ name hname, hform, fun hmust => ?_,
      refines_formBody (ih hle) (refines_elementValue hle) form body rest hbody more⟩
    rw [List.length_append]
    exact Nat.le_trans (hholds hmust) (Nat.le_add_right _ _)

/-! ## Octets that are passed over -/

/-- `w` passes over just these octets, in front of anything. -/
def Takes (w : Walk) (octets : Bytes) : Prop := ∀ rest, w (octets ++ rest) = some rest

theorem Refines.takes {w w' : Walk} (h : Refines w w') {octets : Bytes}
    (hw : w octets = some []) : Takes w' octets :=
  h octets [] hw

section Takes

variable {w v : Walk} {front back : Bytes}

theorem takes_skip {n : Nat} (h : front.length = n) : Takes (skip n) front := fun _ =>
  skip_eq_some_iff.2 ⟨front, rfl, h⟩

theorem Takes.andThen (hw : Takes w front) (hv : Takes v back) :
    Takes (andThen w v) (front ++ back) := by
  intro rest
  rw [List.append_assoc]
  exact Option.bind_eq_some_iff.2 ⟨_, hw _, hv rest⟩

theorem takes_withU8 {next : UInt8 → Walk} {a : UInt8} (h : Takes (next a) back) :
    Takes (withU8 next) (a :: back) := h

theorem takes_withU16 {next : Nat → Walk} {n : UInt16} (h : Takes (next n.toNat) back) :
    Takes (withU16 next) (be16 n ++ back) := fun rest =>
  withU16_eq_some_iff.2 ⟨n, _, List.append_assoc _ _ _, h rest⟩

theorem takes_withU32 {next : Nat → Walk} {n : UInt32} (h : Takes (next n.toNat) back) :
    Takes (withU32 next) (be32 n ++ back) := fun rest =>
  withU32_eq_some_iff.2 ⟨n, _, List.append_assoc _ _ _, h rest⟩

theorem takes_times {α : Type} {G : Grammar α} {words : Bytes} {as : List α}
    (hs : Sequence G words as) (h : ∀ word a, G word a → Takes w word) :
    Takes (times w as.length) words := by
  induction hs with
  | nil => exact fun _ => rfl
  | cons hword _ ih =>
    intro rest
    rw [List.append_assoc, List.length_cons, times, h _ _ hword]
    exact ih rest

theorem takes_listU16 {α : Type} {encode : α → Bytes} {as : List α} (hlength : as.length ≤ 65535)
    (h : ∀ a ∈ as, Takes w (encode a)) :
    Takes (listU16 w) (count16 as.length ++ as.flatMap encode) := by
  have hs : Sequence (fun word a => word = encode a ∧ Takes w (encode a)) (as.flatMap encode) as :=
    (sequence_iff_flatMap (fun _ _ => Iff.rfl) _ _).2 ⟨rfl, h⟩
  refine takes_withU16 ?_
  rw [toNat_ofNat16 hlength]
  exact takes_times hs fun word a hword => hword.1 ▸ hword.2

end Takes

/-! ## Element values -/

theorem isConstantTag_iff {tag : UInt8} : Annotations.isConstantTag tag = true ↔
    tag.toNat ∈ [0x42, 0x43, 0x44, 0x46, 0x49, 0x4a, 0x53, 0x5a, 0x73, 0x63] := by
  simp only [Annotations.isConstantTag, decide_eq_true_eq, List.mem_cons, List.not_mem_nil,
    or_false, ← UInt8.toNat_inj]
  rfl

theorem takes_pairs {depth : Nat} {word : Bytes}
    (hvalue : ∀ word u, Annotations.Value depth word u → Takes (elementValue depth) word)
    (h : Annotations.Pairs (Annotations.Value depth) word ()) :
    Takes (listU16 (andThen (skip 2) (elementValue depth))) word := by
  obtain ⟨n, words, us, rfl, hlength, hs⟩ := h
  refine takes_withU16 ?_
  rw [← hlength]
  refine takes_times hs ?_
  rintro _ u ⟨name, back, rfl, hback⟩
  exact (takes_skip (be16_length name)).andThen (hvalue back u hback)

/-- What the reader finds as an element value is one. -/
theorem takes_elementValue (depth : Nat) :
    ∀ word u, Annotations.Value depth word u → Takes (elementValue depth) word := by
  induction depth with
  | zero => exact fun _ _ h => h.elim
  | succ depth ih =>
    rintro _ u ⟨tag, fields, rfl, h⟩
    refine takes_withU8 ?_
    have h65 : tag.toNat = 0x65 ↔ tag = 0x65 := toNat_eq_iff (by decide)
    have h40 : tag.toNat = 0x40 ↔ tag = 0x40 := toNat_eq_iff (by decide)
    have h5b : tag.toNat = 0x5b ↔ tag = 0x5b := toNat_eq_iff (by decide)
    simp only [← isConstantTag_iff, h65, h40, h5b]
    by_cases hconstant : Annotations.isConstantTag tag = true
    · rw [if_pos hconstant] at h ⊢
      obtain ⟨index, rfl⟩ := h
      exact takes_skip (be16_length index)
    rw [if_neg hconstant] at h ⊢
    by_cases henum : tag = 0x65
    · rw [if_pos henum] at h ⊢
      obtain ⟨type, name, rfl⟩ := h
      exact takes_skip rfl
    rw [if_neg henum] at h ⊢
    by_cases hentry : tag = 0x40
    · rw [if_pos hentry] at h ⊢
      obtain ⟨type, pairs, rfl, hpairs⟩ := h
      exact (takes_skip (be16_length type)).andThen (takes_pairs ih hpairs)
    · rw [if_neg hentry] at h ⊢
      obtain ⟨harray, n, words, us, rfl, hlength, hs⟩ := h
      rw [if_pos harray]
      refine takes_withU16 ?_
      rw [← hlength]
      exact takes_times hs ih

/-- An entry of an annotation list, whose element pairs are those that the reader finds. -/
theorem takes_entry {l : AnnotationLayout} {depth : Nat}
    (h : Annotations.IsElements l.elements) (hle : l.elements.length ≤ depth) :
    Takes (entryWith (elementValue depth)) l.encode :=
  (takes_skip (be16_length l.type)).andThen
    (takes_pairs (takes_elementValue depth) ((Annotations.isElements_iff hle).2 h))

end Acceptance

end PlatformLink
