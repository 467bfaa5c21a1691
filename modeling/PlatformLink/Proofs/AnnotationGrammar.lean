import PlatformLink.Annotations
import PlatformLink.Proofs.InterningSpec

/-! # The grammar of annotation lists

The payload of an annotation attribute with the index of every type in place is a list of
`AnnotationLayout`s. `AnnotationLayout.decode_eq_ok_iff` gives the grammar of payloads, with element
values that nest to any depth, and `Annotations.decode_eq_ok_iff` says that decoding one is laying
it out and looking the indices up. `Annotations.spec_encode` is the other direction: what is
written is a layout of the same entries under the smallest indices of their types.
-/

namespace PlatformLink
set_option autoImplicit false

open Reader

namespace Annotations

/-! ## Element values -/

/-- Element pairs: their number, then a name index and a value for each. -/
def Pairs (value : Grammar Unit) : Grammar Unit := fun word _ =>
  ∃ (n : UInt16) (words : Bytes) (us : List Unit), word = be16 n ++ words ∧ us.length = n.toNat ∧
    Sequence (fun word u => ∃ name back, word = be16 name ++ back ∧ value back u) words us

/-- Element values that nest at most `depth` deep: a tag, and what the tag asks for. -/
def Value : Nat → Grammar Unit
  | 0 => fun _ _ => False
  | depth + 1 => fun word _ => ∃ tag fields, word = tag :: fields ∧
    if isConstantTag tag then ∃ index, fields = be16 index
    else if tag = 0x65 then ∃ type name, fields = be16 type ++ be16 name
    else if tag = 0x40 then ∃ type pairs, fields = be16 type ++ pairs ∧ Pairs (Value depth) pairs ()
    else tag = 0x5b ∧ ∃ (n : UInt16) (words : Bytes) (us : List Unit), fields = be16 n ++ words ∧
      us.length = n.toNat ∧ Sequence (Value depth) words us

theorem reads_skipPairs {value : Reader Unit} {G : Grammar Unit} (h : Reads value G) :
    Reads (skipPairs value) (Pairs G) := by
  have hpair := Reads.u16.bind_word fun _ => h
  exact hpair.skipCounted16

theorem reads_badTag : Reads badTag fun _ _ => False := by
  intro c u c'
  simp [badTag]

theorem reads_skipValue (depth : Nat) : Reads (skipValue depth) (Value depth) := by
  induction depth with
  | zero =>
    intro c u c'
    simp [skipValue, truncatedHere, Value]
  | succ depth ih =>
    have hindex : Reads (do let _ ← Reader.u16; return ()) fun word _ =>
        ∃ index, word = be16 index :=
      (Reads.u16.map fun _ => ()).congr fun word u => by simp
    have hindices : Reads (do let _ ← Reader.u16; let _ ← Reader.u16; return ()) fun word _ =>
        ∃ type name, word = be16 type ++ be16 name := by
      refine (Reads.u16.bind_word fun _ => hindex).congr fun word u => ?_
      constructor
      · rintro ⟨type, _, rfl, name, rfl⟩
        exact ⟨type, name, rfl⟩
      · rintro ⟨type, name, rfl⟩
        exact ⟨type, _, rfl, name, rfl⟩
    have hpairs := Reads.u16.bind_word fun _ => reads_skipPairs ih
    have h := Reads.u8.bind_word fun tag =>
      hindex.ite (p := isConstantTag tag = true) (hindices.ite (p := tag = 0x65)
        (hpairs.ite (p := tag = 0x40) (ih.skipCounted16.ite (p := tag = 0x5b) reads_badTag)))
    refine h.congr fun word u => ?_
    simp only [Value, List.cons_append, List.nil_append, if_false_right]

/-! ## Depth -/

theorem Pairs.imp {value value' : Grammar Unit} {word : Bytes} {u : Unit}
    (h : ∀ back u, back.length < word.length → value back u → value' back u)
    (hp : Pairs value word u) : Pairs value' word u := by
  obtain ⟨n, words, us, rfl, hus, hs⟩ := hp
  refine ⟨n, words, us, rfl, hus, hs.imp fun piece v hl hv => ?_⟩
  obtain ⟨name, back, rfl, hb⟩ := hv
  refine ⟨name, back, rfl, h back v ?_ hb⟩
  simp only [List.length_append, be16_length] at hl ⊢
  omega

theorem Value.imp {depth depth' : Nat} {word : Bytes} {u : Unit}
    (h : ∀ back u, back.length < word.length → Value depth back u → Value depth' back u)
    (hv : Value (depth + 1) word u) : Value (depth' + 1) word u := by
  obtain ⟨tag, fields, rfl, ht⟩ := hv
  refine ⟨tag, fields, rfl, ?_⟩
  by_cases hc : isConstantTag tag = true
  · rw [if_pos hc] at ht ⊢
    exact ht
  rw [if_neg hc] at ht ⊢
  by_cases he : tag = 0x65
  · rw [if_pos he] at ht ⊢
    exact ht
  rw [if_neg he] at ht ⊢
  by_cases hp : tag = 0x40
  · rw [if_pos hp] at ht ⊢
    obtain ⟨type, pairs, rfl, hpairs⟩ := ht
    refine ⟨type, pairs, rfl, hpairs.imp fun back u hl => h back u ?_⟩
    simp only [List.length_cons, List.length_append, be16_length]
    omega
  · rw [if_neg hp] at ht ⊢
    obtain ⟨htag, n, words, us, rfl, hus, hs⟩ := ht
    refine ⟨htag, n, words, us, rfl, hus, hs.imp fun back u hl => h back u ?_⟩
    simp only [List.length_cons, List.length_append, be16_length]
    omega

/-- Every level of nesting takes an octet. -/
theorem Value.of_length_le {depth bound : Nat} {word : Bytes} {u : Unit} (h : Value depth word u)
    (hle : word.length ≤ bound) : Value bound word u := by
  induction depth generalizing bound word u with
  | zero => exact h.elim
  | succ depth ih =>
    have hpos : 0 < word.length := by
      obtain ⟨tag, fields, rfl, -⟩ := h
      exact Nat.succ_pos _
    obtain ⟨n, rfl⟩ : ∃ n, bound = n + 1 := ⟨bound - 1, by omega⟩
    -- the values inside are shorter by the tag at least, so one level less is enough for them
    exact h.imp fun back u hl hb => ih hb (by omega)

/-- Octets that are element pairs, with values that nest to any depth. -/
def IsElements (elements : Bytes) : Prop := ∃ depth, Pairs (Value depth) elements ()

theorem isElements_iff {elements : Bytes} {bound : Nat} (h : elements.length ≤ bound) :
    Pairs (Value bound) elements () ↔ IsElements elements := by
  constructor
  · exact fun hp => ⟨bound, hp⟩
  · rintro ⟨depth, hp⟩
    exact hp.imp fun back u hl hv => hv.of_length_le (by omega)

end Annotations

/-! ## Entries with the index of their type in place -/

structure AnnotationLayout where
  type : UInt16
  elements : Bytes
  deriving DecidableEq, Repr

namespace AnnotationLayout

def encode (l : AnnotationLayout) : Bytes := be16 l.type ++ l.elements

def encodeAll (ls : List AnnotationLayout) : Bytes := count16 ls.length ++ ls.flatMap encode

/-- One entry, with values that nest at most `depth` deep. -/
def read (depth : Nat) : Reader AnnotationLayout := do
  let type ← Reader.u16
  let elements ← Reader.consumed (Annotations.skipPairs (Annotations.skipValue depth))
  return ⟨type, elements⟩

def decode (payload : Bytes) : Except ClassError (List AnnotationLayout) :=
  Reader.parse (do
    let entries ← Reader.counted16 (read (payload.length + 1))
    Reader.atEnd
    return entries) payload

/-- `e` is the entry whose type is the text under the index of `l`. -/
structure Describes (pool : ConstantPool) (l : AnnotationLayout) (e : AnnotationEntry) : Prop where
  type : pool.text l.type = .ok e.descriptor
  elements : e.elements = l.elements

/-- `l` is what is written for `e`. -/
structure IsWritten (pool : ConstantPool) (e : AnnotationEntry) (l : AnnotationLayout) : Prop where
  type : pool.IsFirstText l.type e.descriptor
  elements : l.elements = e.elements

theorem IsWritten.describes {pool : ConstantPool} {e : AnnotationEntry} {l : AnnotationLayout}
    (h : l.IsWritten pool e) : l.Describes pool e :=
  ⟨h.type.text, h.elements.symm⟩

theorem reads_read (depth : Nat) :
    Reads (read depth) fun word l =>
      word = l.encode ∧ Annotations.Pairs (Annotations.Value depth) l.elements () := by
  have hpairs := Annotations.reads_skipPairs (Annotations.reads_skipValue depth)
  have h := Reads.u16.bind_word fun type => hpairs.consumed.map (AnnotationLayout.mk type)
  refine h.congr fun word l => ?_
  constructor
  · rintro ⟨type, _, rfl, elements, ⟨rfl, hp⟩, rfl⟩
    exact ⟨rfl, hp⟩
  · rintro ⟨rfl, hp⟩
    exact ⟨l.type, _, rfl, l.elements, ⟨rfl, hp⟩, rfl⟩

theorem length_encode_le {ls : List AnnotationLayout} {l : AnnotationLayout} (h : l ∈ ls) :
    l.elements.length ≤ (encodeAll ls).length := by
  have hle : l.encode.length ≤ (ls.flatMap encode).length := length_le_length_flatMap h
  simp only [encode, encodeAll, List.length_append, be16_length, count16_length] at hle ⊢
  omega

theorem decode_eq_ok_iff {payload : Bytes} {ls : List AnnotationLayout} :
    decode payload = .ok ls ↔ payload = encodeAll ls ∧ ls.length ≤ 65535 ∧
      ∀ l ∈ ls, Annotations.IsElements l.elements := by
  have h := (reads_read (payload.length + 1)).counted16_flatMap.parse_atEnd_eq_ok_iff payload ls
  have hbound (hp : payload = encodeAll ls) (l : AnnotationLayout) (hl : l ∈ ls) :
      Annotations.Pairs (Annotations.Value (payload.length + 1)) l.elements () ↔
        Annotations.IsElements l.elements := by
    have hle := length_encode_le hl
    exact Annotations.isElements_iff (by rw [hp]; omega)
  rw [decode, h]
  constructor
  · rintro ⟨hp, hl, hv⟩
    exact ⟨hp, hl, fun l hl => (hbound hp l hl).1 (hv l hl)⟩
  · rintro ⟨hp, hl, hv⟩
    exact ⟨hp, hl, fun l hl => (hbound hp l hl).2 (hv l hl)⟩

theorem isElements_of_isWritten {pool : ConstantPool} {es : List AnnotationEntry}
    {ls : List AnnotationLayout} (h : List.Forall₂ (fun e l => IsWritten pool e l) es ls)
    (he : ∀ e ∈ es, Annotations.IsElements e.elements) :
    ∀ l ∈ ls, Annotations.IsElements l.elements :=
  forall_mem_of_forall₂ h (fun _ _ hl he => by rwa [hl.elements]) he

/-- What is written for entries that can be read is laid out as it was meant. -/
theorem decode_of_isWritten {pool : ConstantPool} {es : List AnnotationEntry}
    {ls : List AnnotationLayout} (h : List.Forall₂ (fun e l => IsWritten pool e l) es ls)
    (hl : es.length ≤ 65535) (he : ∀ e ∈ es, Annotations.IsElements e.elements) :
    decode (encodeAll ls) = .ok ls :=
  decode_eq_ok_iff.2 ⟨rfl, h.length_eq ▸ hl, isElements_of_isWritten h he⟩

end AnnotationLayout

namespace Annotations

/-- The number of octets of the payload of some entries. -/
def payloadLength (es : List AnnotationEntry) : Nat :=
  es.foldr (fun e n => 2 + e.elements.length + n) 2

theorem length_encodeAll {es : List AnnotationEntry} {ls : List AnnotationLayout}
    (h : List.Forall₂ (fun e l => e.elements = AnnotationLayout.elements l) es ls) :
    (AnnotationLayout.encodeAll ls).length = payloadLength es := by
  induction h with
  | nil => rfl
  | cons he _ ih =>
    simp only [AnnotationLayout.encodeAll, List.length_append, count16_length, List.flatMap_cons,
      AnnotationLayout.encode, be16_length] at ih ⊢
    simp only [payloadLength, List.foldr_cons, he] at ih ⊢
    omega

theorem reads_readText (pool : ConstantPool) :
    Reads (readText pool) fun word text => ∃ index, word = be16 index ∧ pool.text index = .ok text :=
  Reads.lookup pool.text

theorem reads_readEntry (pool : ConstantPool) (depth : Nat) :
    Reads (readEntry pool depth) fun word e => ∃ l : AnnotationLayout, word = l.encode ∧
      Pairs (Value depth) l.elements () ∧ l.Describes pool e := by
  have hpairs := reads_skipPairs (reads_skipValue depth)
  have h := (reads_readText pool).bind fun descriptor =>
    hpairs.consumed.map (AnnotationEntry.mk descriptor)
  refine h.congr fun word e => ?_
  constructor
  · rintro ⟨descriptor, _, _, rfl, ⟨index, rfl, ht⟩, elements, ⟨rfl, hp⟩, rfl⟩
    exact ⟨⟨index, _⟩, rfl, hp, ht, rfl⟩
  · rintro ⟨l, rfl, hp, ht, he⟩
    rw [← he] at hp
    exact ⟨e.descriptor, _, _, rfl, ⟨l.type, rfl, ht⟩, e.elements, ⟨he.symm, hp⟩, rfl⟩

/-- To decode a payload is to lay it out and to look up the types. -/
theorem decode_eq_ok_iff {pool : ConstantPool} {payload : Bytes} {es : List AnnotationEntry} :
    decode pool payload = .ok es ↔
      ∃ ls, AnnotationLayout.decode payload = .ok ls ∧
        List.Forall₂ (AnnotationLayout.Describes pool) ls es := by
  have hread := (reads_readEntry pool (payload.length + 1)).counted16
  have hlayout (ls : List AnnotationLayout) :=
    (AnnotationLayout.reads_read (payload.length + 1)).counted16_flatMap.parse_atEnd_eq_ok_iff
      payload ls
  rw [decode, hread.parse_atEnd_eq_ok_iff]
  simp only [AnnotationLayout.decode, hlayout, sequence_iff_forall₂ (fun _ _ => Iff.rfl),
    List.forall₂_and_left]
  constructor
  · rintro ⟨_, rfl, hl, ls, rfl, hp, hd⟩
    rw [← hd.length_eq] at hl
    exact ⟨ls, ⟨by rw [hd.length_eq], hl, hp⟩, hd⟩
  · rintro ⟨ls, ⟨rfl, hl, hp⟩, hd⟩
    exact ⟨_, by rw [hd.length_eq], hd.length_eq ▸ hl, ls, rfl, hp, hd⟩

theorem readable_of_decode {pool : ConstantPool} {payload : Bytes} {es : List AnnotationEntry}
    (h : decode pool payload = .ok es) :
    es.length ≤ 65535 ∧ (∀ e ∈ es, IsElements e.elements) ∧ payload.length = payloadLength es := by
  obtain ⟨ls, hls, hd⟩ := decode_eq_ok_iff.1 h
  obtain ⟨rfl, hl, he⟩ := AnnotationLayout.decode_eq_ok_iff.1 hls
  refine ⟨hd.length_eq ▸ hl, forall_mem_of_forall₂ hd (fun _ _ hd he => by rwa [hd.elements]) he,
    length_encodeAll (List.Forall₂.flip (hd.imp fun _ _ hd => hd.elements))⟩

theorem decode_of_isWritten {pool : ConstantPool} {es : List AnnotationEntry}
    {ls : List AnnotationLayout}
    (h : List.Forall₂ (fun e l => AnnotationLayout.IsWritten pool e l) es ls)
    (hl : es.length ≤ 65535) (he : ∀ e ∈ es, IsElements e.elements) :
    decode pool (AnnotationLayout.encodeAll ls) = .ok es :=
  decode_eq_ok_iff.2 ⟨ls, AnnotationLayout.decode_of_isWritten h hl he,
    List.Forall₂.flip (h.imp fun _ _ hw => hw.describes)⟩

theorem length_of_isWritten {pool : ConstantPool} {es : List AnnotationEntry}
    {ls : List AnnotationLayout}
    (h : List.Forall₂ (fun e l => AnnotationLayout.IsWritten pool e l) es ls) :
    (AnnotationLayout.encodeAll ls).length = payloadLength es :=
  length_encodeAll (h.imp fun _ _ hw => hw.elements.symm)

theorem spec_encode (es : List AnnotationEntry) :
    Interning.Spec (encode es) fun pool payload =>
      ∃ ls, payload = AnnotationLayout.encodeAll ls ∧
        List.Forall₂ (fun e l => AnnotationLayout.IsWritten pool e l) es ls := by
  have hentry (e : AnnotationEntry) : Interning.Spec (encodeEntry e) fun pool word =>
      ∃ l : AnnotationLayout, word = l.encode ∧ l.IsWritten pool e := by
    refine ((Interning.Spec.text e.descriptor).bind fun index => Interning.Spec.pure _).congr
      fun pool word => ?_
    constructor
    · rintro ⟨index, hi, rfl⟩
      exact ⟨⟨index, e.elements⟩, rfl, hi, rfl⟩
    · rintro ⟨l, rfl, hi, he⟩
      exact ⟨l.type, hi, by rw [← he]; rfl⟩
  refine ((Interning.Spec.mapM_map hentry es).bind fun parts => Interning.Spec.pure _).congr
    fun pool payload => ?_
  constructor
  · rintro ⟨_, ⟨ls, rfl, hls⟩, rfl⟩
    exact ⟨ls, by rw [AnnotationLayout.encodeAll, hls.length_eq, List.flatMap_def], hls⟩
  · rintro ⟨ls, rfl, hls⟩
    exact ⟨_, ⟨ls, rfl, hls⟩, by rw [AnnotationLayout.encodeAll, hls.length_eq, List.flatMap_def]⟩

end Annotations

end PlatformLink
