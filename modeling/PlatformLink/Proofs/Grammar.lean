import Mathlib.Data.List.Forall2
import PlatformLink.Reader

/-! # Grammars of readers

A grammar says which words stand for which values. `Reads item G` says that the reader `item`
succeeds exactly where a word of `G` stands in front, gives the value of that word and stops right
after it: nothing but words of `G` is accepted, and every word is accepted whatever stands before
and after it. The readers of the class-file format are built by `bind` from fields and counted
lists, and so are their grammars:

* `Reads.bind`, `Reads.pure`, `Reads.lift`: one word after another, and steps without a word;
* `Reads.bind_word`, `Reads.bind_valid`, `Reads.bind_lift`, `Reads.map`: the same where a value
  says its word, as in records of fields;
* `Reads.u16`, `Reads.u32`, `Reads.take`: fields;
* `Reads.many`, `Reads.counted16`, `Reads.skipMany`: sequences (`Sequence`);
* `Reads.det`: a word in front of some octets is the only one there.
-/

namespace PlatformLink
set_option autoImplicit false

/-! ## Numbers -/

theorem ofNat8_congr {n k : Nat} (h : n % 256 = k % 256) : UInt8.ofNat n = UInt8.ofNat k := by
  apply UInt8.toNat_inj.1
  simp only [UInt8.toNat_ofNat']
  omega

theorem be32_ofHalves32 (high low : UInt16) : be32 (ofHalves32 high low) = be16 high ++ be16 low := by
  have hh := high.toNat_lt
  have hl := low.toNat_lt
  have hn : (ofHalves32 high low).toNat = high.toNat * 65536 + low.toNat := by
    simp only [ofHalves32, UInt32.toNat_ofNat']
    omega
  have h0 : UInt8.ofNat ((ofHalves32 high low).toNat / 16777216) = UInt8.ofNat (high.toNat / 256) :=
    ofNat8_congr (by omega)
  have h1 : UInt8.ofNat ((ofHalves32 high low).toNat / 65536) = UInt8.ofNat high.toNat :=
    ofNat8_congr (by omega)
  have h2 : UInt8.ofNat ((ofHalves32 high low).toNat / 256) = UInt8.ofNat (low.toNat / 256) :=
    ofNat8_congr (by omega)
  have h3 : UInt8.ofNat (ofHalves32 high low).toNat = UInt8.ofNat low.toNat :=
    ofNat8_congr (by omega)
  rw [be32, h0, h1, h2, h3]
  rfl

theorem exists_ofHalves32 (n : UInt32) : ∃ high low, ofHalves32 high low = n := by
  have hn := n.toNat_lt
  refine ⟨UInt16.ofNat (n.toNat / 65536), UInt16.ofNat n.toNat, ?_⟩
  apply UInt32.toNat_inj.1
  simp only [ofHalves32, UInt32.toNat_ofNat', UInt16.toNat_ofNat']
  omega

theorem be64_ofHalves64 (high low : UInt32) : be64 (ofHalves64 high low) = be32 high ++ be32 low := by
  have hh := high.toNat_lt
  have hl := low.toNat_lt
  have hn : (ofHalves64 high low).toNat = high.toNat * 4294967296 + low.toNat := by
    simp only [ofHalves64, UInt64.toNat_ofNat']
    omega
  have h1 : UInt32.ofNat ((ofHalves64 high low).toNat / 4294967296) = high := by
    apply UInt32.toNat_inj.1
    simp only [hn, UInt32.toNat_ofNat']
    omega
  have h2 : UInt32.ofNat (ofHalves64 high low).toNat = low := by
    apply UInt32.toNat_inj.1
    simp only [hn, UInt32.toNat_ofNat']
    omega
  rw [be64, h1, h2]

theorem exists_ofHalves64 (n : UInt64) : ∃ high low, ofHalves64 high low = n := by
  have hn := n.toNat_lt
  refine ⟨UInt32.ofNat (n.toNat / 4294967296), UInt32.ofNat n.toNat, ?_⟩
  apply UInt64.toNat_inj.1
  simp only [ofHalves64, UInt64.toNat_ofNat', UInt32.toNat_ofNat']
  omega

theorem exists_ofBe16 (n : UInt16) : ∃ a b, ofBe16 a b = n := ⟨_, _, ofBe16_be16 n⟩

theorem be32_ofBe32 (a b c d : UInt8) : be32 (ofBe32 a b c d) = [a, b, c, d] := by
  rw [ofBe32, be32_ofHalves32, be16_ofBe16, be16_ofBe16]
  rfl

theorem exists_ofBe32 (n : UInt32) : ∃ a b c d, ofBe32 a b c d = n := by
  obtain ⟨high, low, rfl⟩ := exists_ofHalves32 n
  obtain ⟨a, b, rfl⟩ := exists_ofBe16 high
  obtain ⟨c, d, rfl⟩ := exists_ofBe16 low
  exact ⟨a, b, c, d, rfl⟩

theorem count16_toNat (n : UInt16) : count16 n.toNat = be16 n := by
  rw [count16, UInt16.ofNat_toNat]

theorem count32_toNat (n : UInt32) : count32 n.toNat = be32 n := by
  rw [count32, UInt32.ofNat_toNat]

theorem toNat_ofNat8 {n : Nat} (h : n ≤ 255) : (UInt8.ofNat n).toNat = n := by
  simp only [UInt8.toNat_ofNat']
  omega

theorem toNat_ofNat16 {n : Nat} (h : n ≤ 65535) : (UInt16.ofNat n).toNat = n := by
  simp only [UInt16.toNat_ofNat']
  omega

theorem toNat_ofInt16 {n : Int} (hlow : 0 ≤ n) (hhigh : n ≤ 65535) :
    (UInt16.ofInt n).toNat = n.toNat := by
  rw [UInt16.ofInt, toNat_ofNat16 (by omega)]
  omega

theorem toNat_ofNat32 {n : Nat} (h : n < 4294967296) : (UInt32.ofNat n).toNat = n := by
  simp only [UInt32.toNat_ofNat']
  omega

theorem toNat_eq_iff {a b : UInt8} {n : Nat} (h : b.toNat = n) : a.toNat = n ↔ a = b := by
  rw [← h, UInt8.toNat_inj]

theorem be16_inj {a b : UInt16} (h : be16 a = be16 b) : a = b := by
  rw [be16, be16, List.cons.injEq, List.cons.injEq] at h
  obtain ⟨hhigh, hlow, -⟩ := h
  rw [← ofBe16_be16 a, hhigh, hlow, ofBe16_be16]

theorem count16_inj {n k : Nat} (hn : n ≤ 65535) (hk : k ≤ 65535) (h : count16 n = count16 k) :
    n = k := by
  have hof : UInt16.ofNat n = UInt16.ofNat k := be16_inj h
  rw [← toNat_ofNat16 hn, hof, toNat_ofNat16 hk]

/-! ## Results -/

theorem bind_eq_ok_iff {ε α β : Type} {x : Except ε α} {f : α → Except ε β} {b : β} :
    (x >>= f) = .ok b ↔ ∃ a, x = .ok a ∧ f a = .ok b := by
  cases x with
  | error e => simp [bind, Except.bind]
  | ok a => simp [bind, Except.bind]

theorem mapM_eq_ok_iff {ε α β : Type} {f : α → Except ε β} {as : List α} {bs : List β} :
    as.mapM f = .ok bs ↔ List.Forall₂ (fun a b => f a = .ok b) as bs := by
  induction as generalizing bs with
  | nil =>
    rw [List.mapM_nil, List.forall₂_nil_left_iff]
    exact ⟨fun h => by cases h; rfl, fun h => by rw [h]; rfl⟩
  | cons a as ih =>
    rw [List.mapM_cons, List.forall₂_cons_left_iff]
    constructor
    · intro h
      obtain ⟨b, hb, h⟩ := bind_eq_ok_iff.1 h
      obtain ⟨bs', hbs, h⟩ := bind_eq_ok_iff.1 h
      cases h
      exact ⟨b, bs', hb, ih.1 hbs, rfl⟩
    · rintro ⟨b, bs', hb, hbs, rfl⟩
      rw [hb, ih.2 hbs]
      rfl

/-! ## Words -/

/-- Which words stand for which values. -/
abbrev Grammar (α : Type) := Bytes → α → Prop

/-- The words of a list of values: those of its members one after another. -/
inductive Sequence {α : Type} (G : Grammar α) : Grammar (List α)
  | nil : Sequence G [] []
  | cons {word words : Bytes} {a : α} {as : List α} (head : G word a) (tail : Sequence G words as) :
      Sequence G (word ++ words) (a :: as)

/-- Where every value has one word, so does every list. -/
theorem sequence_iff_flatMap {α : Type} {G : Grammar α} {encode : α → Bytes} {valid : α → Prop}
    (h : ∀ word a, G word a ↔ word = encode a ∧ valid a) (words : Bytes) (as : List α) :
    Sequence G words as ↔ words = as.flatMap encode ∧ ∀ a ∈ as, valid a := by
  constructor
  · intro hs
    induction hs with
    | nil => simp
    | cons head tail ih =>
      obtain ⟨rfl, hv⟩ := (h _ _).1 head
      obtain ⟨rfl, hvs⟩ := ih
      simpa using ⟨hv, hvs⟩
  · rintro ⟨rfl, hv⟩
    induction as with
    | nil => exact .nil
    | cons a as ih =>
      rw [List.flatMap_cons]
      exact .cons ((h _ _).2 ⟨rfl, hv a (by simp)⟩) (ih fun b hb => hv b (by simp [hb]))

/-- A grammar is needed on words that are no longer than the whole only. -/
theorem Sequence.imp {α : Type} {G H : Grammar α} {words : Bytes} {as : List α}
    (h : ∀ word a, word.length ≤ words.length → G word a → H word a) (hs : Sequence G words as) :
    Sequence H words as := by
  induction hs with
  | nil => exact .nil
  | cons head tail ih =>
    simp only [List.length_append] at h
    exact .cons (h _ _ (by omega) head) (ih fun word a hl => h word a (by omega))

/-- The words of a list whose members are described by some other values. -/
theorem sequence_iff_forall₂ {α β : Type} {G : Grammar α} {encode : β → Bytes} {R : β → α → Prop}
    (h : ∀ word a, G word a ↔ ∃ b, word = encode b ∧ R b a) (words : Bytes) (as : List α) :
    Sequence G words as ↔ ∃ bs, words = bs.flatMap encode ∧ List.Forall₂ R bs as := by
  constructor
  · intro hs
    induction hs with
    | nil => exact ⟨[], rfl, .nil⟩
    | cons head tail ih =>
      obtain ⟨b, rfl, hb⟩ := (h _ _).1 head
      obtain ⟨bs, rfl, hbs⟩ := ih
      exact ⟨b :: bs, rfl, .cons hb hbs⟩
  · rintro ⟨bs, rfl, hR⟩
    induction hR with
    | nil => exact .nil
    | cons hb hbs ih => exact .cons ((h _ _).2 ⟨_, rfl, hb⟩) ih

/-! ## Lists in step -/

theorem forall_mem_of_forall₂ {α β : Type} {R : α → β → Prop} {P : α → Prop} {Q : β → Prop}
    {as : List α} {bs : List β} (h : List.Forall₂ R as bs) (hR : ∀ a b, R a b → P a → Q b)
    (hP : ∀ a ∈ as, P a) : ∀ b ∈ bs, Q b := by
  induction h with
  | nil => simp
  | cons hab _ ih =>
    rw [List.forall_mem_cons] at hP ⊢
    exact ⟨hR _ _ hab hP.1, ih hP.2⟩

theorem forall_mem_right_of_forall₂ {α β : Type} {R : α → β → Prop} {Q : β → Prop}
    {as : List α} {bs : List β} (h : List.Forall₂ R as bs) (hR : ∀ a b, R a b → Q b) :
    ∀ b ∈ bs, Q b := by
  have htrue : ∀ a ∈ as, True := fun _ _ => trivial
  exact forall_mem_of_forall₂ h (fun a b hab _ => hR a b hab) htrue

theorem exists_mem_of_forall₂ {α β : Type} {R : α → β → Prop} {as : List α} {bs : List β}
    (h : List.Forall₂ R as bs) {a : α} (ha : a ∈ as) : ∃ b ∈ bs, R a b := by
  induction h with
  | nil => cases ha
  | cons hab _ ih =>
    rcases List.mem_cons.1 ha with rfl | ha
    · exact ⟨_, List.mem_cons_self, hab⟩
    · obtain ⟨b, hb, hR⟩ := ih ha
      exact ⟨b, List.mem_cons_of_mem _ hb, hR⟩

theorem length_flatten_le {parts : List Bytes} {n : Nat} (h : ∀ part ∈ parts, part.length ≤ n) :
    parts.flatten.length ≤ n * parts.length := by
  induction parts with
  | nil => simp
  | cons part parts ih =>
    obtain ⟨hpart, h⟩ := List.forall_mem_cons.1 h
    have hrest := ih h
    rw [List.flatten_cons, List.length_append, List.length_cons, Nat.mul_succ]
    omega

theorem length_flatMap_of_length {α : Type} {f : α → Bytes} {n : Nat} (h : ∀ a, (f a).length = n)
    (as : List α) : (as.flatMap f).length = n * as.length := by
  induction as with
  | nil => rfl
  | cons a as ih =>
    rw [List.flatMap_cons, List.length_append, h, ih, List.length_cons, Nat.mul_succ, Nat.add_comm]

theorem length_le_length_flatMap {α : Type} {f : α → Bytes} {a : α} {as : List α} (h : a ∈ as) :
    (f a).length ≤ (as.flatMap f).length := by
  rw [List.flatMap_def]
  exact (List.sublist_flatten_of_mem (List.mem_map_of_mem h)).length_le

theorem forall₂_congr_of_forall₂ {α β : Type} {D R S : α → β → Prop} {as : List α} {bs : List β}
    (h : List.Forall₂ D as bs) (hRS : ∀ a b, D a b → (R a b ↔ S a b)) :
    List.Forall₂ R as bs ↔ List.Forall₂ S as bs := by
  induction h with
  | nil => simp
  | cons hab _ ih => rw [List.forall₂_cons, List.forall₂_cons, hRS _ _ hab, ih]

theorem forall₂_join {α β γ : Type} {R : α → β → Prop} {S : α → γ → Prop} {as : List α}
    {bs : List β} {cs : List γ} (h : List.Forall₂ R as bs) (h' : List.Forall₂ S as cs) :
    List.Forall₂ (fun b c => ∃ a, R a b ∧ S a c) bs cs := by
  induction h generalizing cs with
  | nil =>
    cases h'
    exact .nil
  | cons hab _ ih =>
    cases h' with
    | cons hac hcs => exact .cons ⟨_, hab, hac⟩ (ih hcs)

theorem forall₂_append_left {α β : Type} {R : α → β → Prop} {as as' : List α} {bs : List β}
    (h : List.Forall₂ R (as ++ as') bs) :
    ∃ cs cs', bs = cs ++ cs' ∧ List.Forall₂ R as cs ∧ List.Forall₂ R as' cs' := by
  induction as generalizing bs with
  | nil => exact ⟨[], bs, rfl, .nil, h⟩
  | cons a as ih =>
    rw [List.cons_append] at h
    cases h with
    | cons hab hrest =>
      obtain ⟨cs, cs', rfl, hcs, hcs'⟩ := ih hrest
      exact ⟨_ :: cs, cs', rfl, .cons hab hcs, hcs'⟩

theorem exists_forall₂ {α β γ : Type} {R : α → γ → Prop} {S : β → γ → Prop} {as : List α}
    {bs : List β} (h : List.Forall₂ (fun a b => ∃ c, R a c ∧ S b c) as bs) :
    ∃ cs, List.Forall₂ R as cs ∧ List.Forall₂ S bs cs := by
  induction h with
  | nil => exact ⟨[], .nil, .nil⟩
  | cons hab _ ih =>
    obtain ⟨c, hR, hS⟩ := hab
    obtain ⟨cs, hRs, hSs⟩ := ih
    exact ⟨c :: cs, .cons hR hRs, .cons hS hSs⟩

/-! ## Reading -/

namespace Reader

/-- `item` reads the words of `G`, and stops right after one. -/
def Reads {α : Type} (item : Reader α) (G : Grammar α) : Prop :=
  ∀ (c : Cursor) (a : α) (c' : Cursor), item c = .ok (a, c') ↔
    ∃ word, G word a ∧ c.rest = word ++ c'.rest ∧ c'.offset = c.offset + word.length

theorem bind_apply {α β : Type} (x : Reader α) (f : α → Reader β) (c : Cursor) :
    (x >>= f) c = match x c with
      | .ok (a, c') => f a c'
      | .error e => .error e := by
  simp only [bind, StateT.bind, Except.bind]
  cases x c <;> rfl

theorem pure_apply {α : Type} (a : α) (c : Cursor) : (pure a : Reader α) c = .ok (a, c) := rfl

/-- To repeat a reader is to read once and then the rest. -/
theorem many_succ_eq_bind {α : Type} (item : Reader α) (n : Nat) :
    many (n + 1) item = (do let a ← item; let as ← many n item; return a :: as) := by
  funext c
  rw [many_succ, bind_apply]
  cases item c with
  | error e => rfl
  | ok r =>
    simp only [bind_apply]
    cases many n item r.2 <;> rfl

namespace Reads

variable {α β : Type}

theorem congr {item : Reader α} {G H : Grammar α} (h : Reads item G)
    (e : ∀ word a, G word a ↔ H word a) : Reads item H := by
  intro c a c'
  rw [h c a c']
  simp only [e]

theorem apply {item : Reader α} {G : Grammar α} (h : Reads item G) {word : Bytes} {a : α}
    (hw : G word a) (offset : Nat) (rest : Bytes) :
    item ⟨offset, word ++ rest⟩ = .ok (a, ⟨offset + word.length, rest⟩) :=
  (h _ _ _).2 ⟨word, hw, rfl, rfl⟩

/-- At most one word stands in front of some octets. -/
theorem det {item : Reader α} {G : Grammar α} (h : Reads item G) {word word' rest rest' : Bytes}
    {a a' : α} (hw : G word a) (hw' : G word' a') (e : word ++ rest = word' ++ rest') :
    a = a' ∧ word = word' ∧ rest = rest' := by
  have h1 := h.apply hw 0 rest
  have h2 := h.apply hw' 0 rest'
  rw [e, h2] at h1
  simp only [Except.ok.injEq, Prod.mk.injEq, Cursor.mk.injEq] at h1
  obtain ⟨rfl, -, rfl⟩ := h1
  exact ⟨rfl, List.append_cancel_right e, rfl⟩

theorem pure (a : α) : Reads (pure a) fun word b => word = [] ∧ b = a := by
  intro c b c'
  rw [pure_apply]
  constructor
  · intro h
    cases h
    exact ⟨[], ⟨rfl, rfl⟩, rfl, rfl⟩
  · rintro ⟨word, ⟨rfl, rfl⟩, hr, ho⟩
    cases c
    cases c'
    simp_all

theorem lift (e : Except ClassError α) :
    Reads (liftM e : Reader α) fun word a => word = [] ∧ e = .ok a := by
  intro c a c'
  cases e with
  | error e =>
    have hl : (liftM (Except.error e : Except ClassError α) : Reader α) c = .error e := rfl
    simp [hl]
  | ok b =>
    have hl : (liftM (Except.ok b : Except ClassError α) : Reader α) c = .ok (b, c) := rfl
    rw [hl]
    constructor
    · intro h
      cases h
      exact ⟨[], ⟨rfl, rfl⟩, rfl, rfl⟩
    · rintro ⟨word, ⟨rfl, hb⟩, hr, ho⟩
      cases hb
      cases c
      cases c'
      simp_all

theorem throw (e : ClassError) : Reads (throw e : Reader α) fun _ _ => False := by
  intro c a c'
  have ht : (MonadExcept.throw e : Reader α) c = .error e := rfl
  simp [ht]

theorem bind {x : Reader α} {f : α → Reader β} {G : Grammar α} {H : α → Grammar β}
    (hx : Reads x G) (hf : ∀ a, Reads (f a) (H a)) :
    Reads (x >>= f) fun word b => ∃ a front back, word = front ++ back ∧ G front a ∧ H a back b := by
  intro c b c''
  rw [bind_apply]
  constructor
  · intro h
    cases hc : x c with
    | error e => simp [hc] at h
    | ok r =>
      obtain ⟨a, c'⟩ := r
      rw [hc] at h
      obtain ⟨front, hfront, hr, ho⟩ := (hx _ _ _).1 hc
      obtain ⟨back, hback, hr', ho'⟩ := (hf a _ _ _).1 h
      refine ⟨front ++ back, ⟨a, front, back, rfl, hfront, hback⟩, ?_, ?_⟩
      · rw [hr, hr', List.append_assoc]
      · rw [ho', ho, List.length_append, Nat.add_assoc]
  · rintro ⟨word, ⟨a, front, back, rfl, hfront, hback⟩, hr, ho⟩
    have hc : c = ⟨c.offset, front ++ (back ++ c''.rest)⟩ := by
      rw [← List.append_assoc, ← hr]
    rw [hc, hx.apply hfront]
    refine (hf a _ _ _).2 ⟨back, hback, rfl, ?_⟩
    rw [ho, List.length_append, Nat.add_assoc]

theorem bind_valid {x : Reader α} {f : α → Reader β} {encode : α → Bytes} {valid : α → Prop}
    {H : α → Grammar β} (hx : Reads x fun word a => word = encode a ∧ valid a)
    (hf : ∀ a, Reads (f a) (H a)) :
    Reads (x >>= f) fun word b => ∃ a back, word = encode a ++ back ∧ valid a ∧ H a back b := by
  refine (hx.bind hf).congr fun word b => ?_
  constructor
  · rintro ⟨a, _, back, rfl, ⟨rfl, hv⟩, hb⟩
    exact ⟨a, back, rfl, hv, hb⟩
  · rintro ⟨a, back, rfl, hv, hb⟩
    exact ⟨a, _, back, rfl, ⟨rfl, hv⟩, hb⟩

theorem bind_word {x : Reader α} {f : α → Reader β} {encode : α → Bytes} {H : α → Grammar β}
    (hx : Reads x fun word a => word = encode a) (hf : ∀ a, Reads (f a) (H a)) :
    Reads (x >>= f) fun word b => ∃ a back, word = encode a ++ back ∧ H a back b := by
  have htrue : Reads x fun word a => word = encode a ∧ True :=
    hx.congr fun word a => by rw [and_true]
  refine (htrue.bind_valid hf).congr fun word b => ?_
  simp only [true_and]

theorem bind_lift (e : Except ClassError α) {f : α → Reader β} {H : α → Grammar β}
    (hf : ∀ a, Reads (f a) (H a)) :
    Reads ((liftM e : Reader α) >>= f) fun word b => ∃ a, e = .ok a ∧ H a word b := by
  refine ((lift e).bind hf).congr fun word b => ?_
  constructor
  · rintro ⟨a, _, back, rfl, ⟨rfl, he⟩, hb⟩
    exact ⟨a, he, hb⟩
  · rintro ⟨a, he, hb⟩
    exact ⟨a, [], word, rfl, ⟨rfl, he⟩, hb⟩

theorem map {x : Reader α} {G : Grammar α} (hx : Reads x G) (g : α → β) :
    Reads (do let a ← x; return g a) fun word b => ∃ a, G word a ∧ b = g a := by
  refine (hx.bind fun a => Reads.pure (g a)).congr fun word b => ?_
  constructor
  · rintro ⟨a, front, _, rfl, ha, rfl, rfl⟩
    exact ⟨a, by rwa [List.append_nil], rfl⟩
  · rintro ⟨a, ha, rfl⟩
    exact ⟨a, word, [], (List.append_nil _).symm, ha, rfl, rfl⟩

theorem ite {p : Prop} [Decidable p] {x y : Reader α} {G H : Grammar α} (hx : Reads x G)
    (hy : Reads y H) :
    Reads (if p then x else y) fun word a => if p then G word a else H word a := by
  by_cases h : p
  · simp only [if_pos h]
    exact hx
  · simp only [if_neg h]
    exact hy

/-! ### Fields -/

theorem take (n : Nat) : Reads (take n) fun word a => word = a ∧ a.length = n := by
  intro c a c'
  obtain ⟨offset, rest⟩ := c
  obtain ⟨offset', rest'⟩ := c'
  simp only [Reader.take]
  cases hs : splitExact? n rest with
  | none =>
    simp only [reduceCtorEq, false_iff, not_exists]
    rintro word ⟨⟨rfl, hl⟩, hr, -⟩
    rw [splitExact?_eq_some_iff.2 ⟨hr, hl⟩] at hs
    cases hs
  | some r =>
    obtain ⟨front, back⟩ := r
    obtain ⟨hr, hl⟩ := splitExact?_eq_some_iff.1 hs
    simp only [Except.ok.injEq, Prod.mk.injEq, Cursor.mk.injEq]
    constructor
    · rintro ⟨rfl, rfl, rfl⟩
      exact ⟨front, ⟨rfl, hl⟩, hr, by rw [hl]⟩
    · rintro ⟨word, ⟨rfl, hl'⟩, hr', ho⟩
      obtain ⟨rfl, rfl⟩ := List.append_inj (hr.symm.trans hr') (hl.trans hl'.symm)
      exact ⟨rfl, by rw [ho, hl], rfl⟩

theorem u8 : Reads u8 fun word a => word = [a] := by
  rintro ⟨offset, rest⟩ a ⟨offset', rest'⟩
  cases rest with
  | nil => simp [Reader.u8]
  | cons b rest =>
    simp only [Reader.u8, Except.ok.injEq, Prod.mk.injEq, Cursor.mk.injEq, exists_eq_left,
      List.cons_append, List.nil_append, List.cons.injEq, List.length_singleton]
    grind

theorem u16 : Reads u16 fun word a => word = be16 a := by
  rintro ⟨offset, rest⟩ n ⟨offset', rest'⟩
  simp only [exists_eq_left, be16_length]
  obtain ⟨a, b, rfl⟩ := exists_ofBe16 n
  rw [be16_ofBe16]
  match rest with
  | [] => simp [Reader.u16]
  | [_] => simp [Reader.u16]
  | a' :: b' :: rest =>
    simp only [Reader.u16, Except.ok.injEq, Prod.mk.injEq, Cursor.mk.injEq, List.cons_append,
      List.nil_append, List.cons.injEq]
    constructor
    · rintro ⟨hn, rfl, rfl⟩
      have hab : [a', b'] = [a, b] := by rw [← be16_ofBe16, ← be16_ofBe16, hn]
      simpa using hab
    · rintro ⟨⟨rfl, rfl, rfl⟩, rfl⟩
      exact ⟨rfl, rfl, rfl⟩

theorem u32 : Reads u32 fun word a => word = be32 a := by
  rintro ⟨offset, rest⟩ n ⟨offset', rest'⟩
  simp only [exists_eq_left, be32_length]
  obtain ⟨a, b, d, e, rfl⟩ := exists_ofBe32 n
  rw [be32_ofBe32]
  match rest with
  | [] => simp [Reader.u32]
  | [_] => simp [Reader.u32]
  | [_, _] => simp [Reader.u32]
  | [_, _, _] => simp [Reader.u32]
  | a' :: b' :: d' :: e' :: rest =>
    simp only [Reader.u32, Except.ok.injEq, Prod.mk.injEq, Cursor.mk.injEq, List.cons_append,
      List.nil_append, List.cons.injEq]
    constructor
    · rintro ⟨hn, rfl, rfl⟩
      have hab : [a', b', d', e'] = [a, b, d, e] := by rw [← be32_ofBe32, ← be32_ofBe32, hn]
      simpa using hab
    · rintro ⟨⟨rfl, rfl, rfl, rfl, rfl⟩, rfl⟩
      exact ⟨rfl, rfl, rfl⟩

/-- An index, for what is found under it. -/
theorem lookup (look : UInt16 → Except ClassError α) :
    Reads (do let index ← Reader.u16; liftM (look index)) fun word a =>
      ∃ index, word = be16 index ∧ look index = .ok a := by
  refine (u16.bind_word fun index => lift (look index)).congr fun word a => ?_
  constructor
  · rintro ⟨index, _, rfl, rfl, ha⟩
    exact ⟨index, List.append_nil _, ha⟩
  · rintro ⟨index, rfl, ha⟩
    exact ⟨index, [], (List.append_nil _).symm, rfl, ha⟩

theorem stepwise16 : Reads stepwise16 fun word a => word = be16 a := by
  have h := u8.bind_word fun a => u8.map fun b => ofBe16 a b
  refine h.congr fun word n => ?_
  constructor
  · rintro ⟨a, _, rfl, b, rfl, rfl⟩
    rw [be16_ofBe16]
    rfl
  · rintro rfl
    obtain ⟨a, b, rfl⟩ := exists_ofBe16 n
    exact ⟨a, [b], be16_ofBe16 a b, b, rfl, rfl⟩

theorem stepwise32 : Reads stepwise32 fun word a => word = be32 a := by
  have h := stepwise16.bind_word fun high => stepwise16.map fun low => ofHalves32 high low
  refine h.congr fun word n => ?_
  constructor
  · rintro ⟨high, _, rfl, low, rfl, rfl⟩
    rw [be32_ofHalves32]
  · rintro rfl
    obtain ⟨high, low, rfl⟩ := exists_ofHalves32 n
    exact ⟨high, be16 low, be32_ofHalves32 high low, low, rfl, rfl⟩

theorem stepwise64 : Reads stepwise64 fun word a => word = be64 a := by
  have h := stepwise32.bind_word fun high => stepwise32.map fun low => ofHalves64 high low
  refine h.congr fun word n => ?_
  constructor
  · rintro ⟨high, _, rfl, low, rfl, rfl⟩
    rw [be64_ofHalves64]
  · rintro rfl
    obtain ⟨high, low, rfl⟩ := exists_ofHalves64 n
    exact ⟨high, be32 low, be64_ofHalves64 high low, low, rfl, rfl⟩

/-! ### Sequences -/

theorem many {item : Reader α} {G : Grammar α} (h : Reads item G) (n : Nat) :
    Reads (many n item) fun word as => as.length = n ∧ Sequence G word as := by
  induction n with
  | zero =>
    refine (Reads.pure ([] : List α)).congr fun word as => ?_
    constructor
    · rintro ⟨rfl, rfl⟩
      exact ⟨rfl, .nil⟩
    · rintro ⟨hl, hs⟩
      cases hs with
      | nil => exact ⟨rfl, rfl⟩
      | cons _ _ => cases hl
  | succ n ih =>
    rw [many_succ_eq_bind]
    refine (h.bind fun a => ih.map fun as => a :: as).congr fun word bs => ?_
    constructor
    · rintro ⟨a, front, back, rfl, ha, as, ⟨rfl, has⟩, rfl⟩
      exact ⟨rfl, .cons ha has⟩
    · rintro ⟨hl, hs⟩
      cases hs with
      | nil => cases hl
      | cons head tail => exact ⟨_, _, _, rfl, head, _, ⟨by simpa using hl, tail⟩, rfl⟩

theorem counted16 {item : Reader α} {G : Grammar α} (h : Reads item G) :
    Reads (counted16 item) fun word as =>
      ∃ words, word = count16 as.length ++ words ∧ as.length ≤ 65535 ∧ Sequence G words as := by
  refine (Reads.u16.bind_word fun n => h.many n.toNat).congr fun word as => ?_
  constructor
  · rintro ⟨n, words, rfl, hl, hs⟩
    have hn := n.toNat_lt
    refine ⟨words, ?_, by omega, hs⟩
    rw [hl, count16_toNat]
  · rintro ⟨words, rfl, hl, hs⟩
    exact ⟨UInt16.ofNat as.length, words, rfl, (toNat_ofNat16 hl).symm, hs⟩

theorem counted16_flatMap {item : Reader α} {encode : α → Bytes} {valid : α → Prop}
    (h : Reads item fun word a => word = encode a ∧ valid a) :
    Reads (Reader.counted16 item) fun word as =>
      word = count16 as.length ++ as.flatMap encode ∧ as.length ≤ 65535 ∧ ∀ a ∈ as, valid a := by
  refine h.counted16.congr fun word as => ?_
  simp only [sequence_iff_flatMap (fun _ _ => Iff.rfl)]
  constructor
  · rintro ⟨words, rfl, hl, rfl, hv⟩
    exact ⟨rfl, hl, hv⟩
  · rintro ⟨rfl, hl, hv⟩
    exact ⟨_, rfl, hl, rfl, hv⟩

theorem counted16_words {item : Reader α} {encode : α → Bytes}
    (h : Reads item fun word a => word = encode a) :
    Reads (Reader.counted16 item) fun word as =>
      word = count16 as.length ++ as.flatMap encode ∧ as.length ≤ 65535 := by
  have htrue : Reads item fun word a => word = encode a ∧ True :=
    h.congr fun word a => by rw [and_true]
  refine htrue.counted16_flatMap.congr fun word as => ?_
  simp only [implies_true, and_true]

theorem skipMany {item : Reader Unit} {G : Grammar Unit} (h : Reads item G) (n : Nat) :
    Reads (skipMany item n) fun word _ => ∃ us : List Unit, us.length = n ∧ Sequence G word us := by
  have e : Reader.skipMany item n = (do let _ ← Reader.many n item; return ()) := by
    induction n with
    | zero => rfl
    | succ n ih =>
      funext c
      simp only [Reader.skipMany, bind_apply, many_succ]
      cases item c with
      | error e => rfl
      | ok r =>
        simp only [ih, bind_apply]
        cases Reader.many n item r.2 <;> rfl
  rw [e]
  refine ((h.many n).map fun _ => ()).congr fun word _ => ?_
  constructor
  · rintro ⟨us, hus, -⟩
    exact ⟨us, hus⟩
  · rintro ⟨us, hus⟩
    exact ⟨us, hus, rfl⟩

theorem skipCounted16 {item : Reader Unit} {G : Grammar Unit} (h : Reads item G) :
    Reads (do let n ← Reader.u16; Reader.skipMany item n.toNat) fun word _ =>
      ∃ (n : UInt16) (words : Bytes) (us : List Unit), word = be16 n ++ words ∧
        us.length = n.toNat ∧ Sequence G words us := by
  refine (Reads.u16.bind_word fun n => h.skipMany n.toNat).congr fun word u => ?_
  constructor
  · rintro ⟨n, words, rfl, us, hus, hs⟩
    exact ⟨n, words, us, rfl, hus, hs⟩
  · rintro ⟨n, words, us, rfl, hus, hs⟩
    exact ⟨n, words, rfl, us, hus, hs⟩

/-! ### Whole words -/

theorem consumed {item : Reader Unit} {G : Grammar Unit} (h : Reads item G) :
    Reads (consumed item) fun word a => word = a ∧ G a () := by
  intro c a c'
  simp only [Reader.consumed]
  cases hc : item c with
  | error e =>
    simp only [reduceCtorEq, false_iff, not_exists]
    rintro word ⟨⟨rfl, hw⟩, hr, ho⟩
    rw [(h c () c').2 ⟨_, hw, hr, ho⟩] at hc
    cases hc
  | ok r =>
    obtain ⟨u, c''⟩ := r
    obtain ⟨word, hw, hr, ho⟩ := (h _ _ _).1 hc
    have htake : c.rest.take (c''.offset - c.offset) = word := by
      rw [hr, ho, Nat.add_sub_cancel_left, List.take_left]
    simp only [htake, Except.ok.injEq, Prod.mk.injEq]
    constructor
    · rintro ⟨rfl, rfl⟩
      exact ⟨_, ⟨rfl, hw⟩, hr, ho⟩
    · rintro ⟨word', ⟨rfl, hw'⟩, hr', ho'⟩
      obtain ⟨-, hword, hrest⟩ := h.det hw hw' (hr.symm.trans hr')
      refine ⟨hword, ?_⟩
      cases c''
      cases c'
      simp_all

/-- What a reader finds in front of some octets. -/
theorem parse_eq_ok_iff {item : Reader α} {G : Grammar α} (h : Reads item G) (bytes : Bytes)
    (a : α) : parse item bytes = .ok a ↔ ∃ word rest, bytes = word ++ rest ∧ G word a := by
  simp only [parse]
  constructor
  · intro hp
    cases hc : item (Cursor.start bytes) with
    | error e => simp [hc, Except.map] at hp
    | ok r =>
      obtain ⟨b, c'⟩ := r
      obtain ⟨word, hw, hr, -⟩ := (h _ _ _).1 hc
      simp only [hc, Except.map, Except.ok.injEq] at hp
      exact ⟨word, c'.rest, hr, hp ▸ hw⟩
  · rintro ⟨word, rest, rfl, hw⟩
    rw [Cursor.start, h.apply hw]
    rfl

/-- What a reader finds that is followed by the end. -/
theorem parse_atEnd_eq_ok_iff {item : Reader α} {G : Grammar α} (h : Reads item G) (bytes : Bytes)
    (a : α) : parse (do let a ← item; atEnd; return a) bytes = .ok a ↔ G bytes a := by
  simp only [parse, bind_apply]
  constructor
  · intro hp
    cases hc : item (Cursor.start bytes) with
    | error e => simp [hc, Except.map] at hp
    | ok r =>
      obtain ⟨b, ⟨offset', rest'⟩⟩ := r
      obtain ⟨word, hw, hr, -⟩ := (h _ _ _).1 hc
      cases rest' with
      | cons _ _ => simp [hc, atEnd, Except.map] at hp
      | nil =>
        have hb : b = a := by simpa [hc, atEnd, Except.map, pure_apply] using hp
        rw [Cursor.start] at hr
        simp only [List.append_nil] at hr
        rw [hr, ← hb]
        exact hw
  · intro hw
    have hc := h.apply hw 0 []
    rw [List.append_nil] at hc
    rw [Cursor.start, hc]
    rfl

end Reads

end Reader

end PlatformLink
