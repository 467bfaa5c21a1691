import Mathlib.Data.List.OfFn
import Mathlib.Data.Set.List
import PlatformLink.Descriptor
import PlatformLink.Proofs.AnnotationGrammar

/-! # The trees of element values

An element value is a tree: a constant, an enumeration constant, an annotation with element pairs
of its own, or an array of values. `ElementValue.encode` are the octets of a tree, and
`isElements_iff_encode` says that the octets which are skipped as element pairs are those of trees.
`Annotations.decode_grammar` is the grammar of payloads in these terms.
-/

namespace PlatformLink
set_option autoImplicit false

/-! ## Trees -/

/-- What the index of a constant leads to: a number of a primitive type, a text, or the descriptor
of a class. -/
inductive ConstantKind where
  | primitive (type : Primitive)
  | text
  | descriptor
  deriving DecidableEq, Repr

def ConstantKind.tag : ConstantKind → UInt8
  | .primitive type => type.letter.toUInt8
  | .text => 's'.toUInt8
  | .descriptor => 'c'.toUInt8

/-- An element value with its indices. A list in it has as many members as its count says. -/
inductive ElementValue where
  | constant (kind : ConstantKind) (index : UInt16)
  | enumeration (type name : UInt16)
  | nested (type count : UInt16) (name : Fin count.toNat → UInt16)
      (value : Fin count.toNat → ElementValue)
  | array (count : UInt16) (value : Fin count.toNat → ElementValue)

/-- A count, and that many pieces one after another. -/
def encodeCounted (count : UInt16) (piece : Fin count.toNat → Bytes) : Bytes :=
  be16 count ++ (List.ofFn piece).flatten

theorem length_le_encodeCounted {count : UInt16} (piece : Fin count.toNat → Bytes)
    (i : Fin count.toNat) : (piece i).length ≤ (encodeCounted count piece).length := by
  have hmem : piece i ∈ List.ofFn piece := List.mem_ofFn.2 ⟨i, rfl⟩
  have hle := (List.sublist_flatten_of_mem hmem).length_le
  rw [encodeCounted, List.length_append]
  omega

def ElementValue.encode : ElementValue → Bytes
  | .constant kind index => kind.tag :: be16 index
  | .enumeration type name => 'e'.toUInt8 :: (be16 type ++ be16 name)
  | .nested type count name value =>
    '@'.toUInt8 :: (be16 type ++ encodeCounted count fun i => be16 (name i) ++ (value i).encode)
  | .array count value => '['.toUInt8 :: encodeCounted count fun i => (value i).encode

/-- The element pairs of an annotation: a name index and a value for each. -/
structure ElementPairs where
  count : UInt16
  name : Fin count.toNat → UInt16
  value : Fin count.toNat → ElementValue

def ElementPairs.encode (pairs : ElementPairs) : Bytes :=
  encodeCounted pairs.count fun i => be16 (pairs.name i) ++ (pairs.value i).encode

/-! ## Trees and the octets that are skipped -/

namespace Annotations

theorem isConstantTag_iff {tag : UInt8} :
    isConstantTag tag = true ↔ ∃ kind : ConstantKind, tag = kind.tag := by
  constructor
  · intro h
    simp only [isConstantTag, List.mem_cons, List.not_mem_nil, or_false, decide_eq_true_eq] at h
    rcases h with rfl | rfl | rfl | rfl | rfl | rfl | rfl | rfl | rfl | rfl
    · exact ⟨.primitive .byte, rfl⟩
    · exact ⟨.primitive .char, rfl⟩
    · exact ⟨.primitive .double, rfl⟩
    · exact ⟨.primitive .float, rfl⟩
    · exact ⟨.primitive .int, rfl⟩
    · exact ⟨.primitive .long, rfl⟩
    · exact ⟨.primitive .short, rfl⟩
    · exact ⟨.primitive .boolean, rfl⟩
    · exact ⟨.text, rfl⟩
    · exact ⟨.descriptor, rfl⟩
  · rintro ⟨kind, rfl⟩
    rcases kind with type | _ | _
    · cases type <;> rfl
    · rfl
    · rfl

theorem sequence_iff_pieces {G : Grammar Unit} {words : Bytes} {us : List Unit} :
    Sequence G words us ↔ ∃ pieces : List Bytes, words = pieces.flatten ∧
      List.Forall₂ (fun word u => G word u) pieces us := by
  rw [sequence_iff_forall₂ (fun word u => ⟨fun h => ⟨word, rfl, h⟩, fun ⟨_, hw, h⟩ => hw ▸ h⟩)]
  simp only [List.flatMap_id']

/-- A number of words of `G` one after another. -/
theorem sequence_iff_ofFn {G : Grammar Unit} {words : Bytes} {n : Nat} :
    (∃ us : List Unit, us.length = n ∧ Sequence G words us) ↔
      ∃ piece : Fin n → Bytes, words = (List.ofFn piece).flatten ∧ ∀ i, G (piece i) () := by
  constructor
  · rintro ⟨us, rfl, hs⟩
    obtain ⟨pieces, rfl, hG⟩ := sequence_iff_pieces.1 hs
    rw [← hG.length_eq]
    refine ⟨pieces.get, by rw [List.ofFn_get], fun i => ?_⟩
    exact hG.get i.isLt (hG.length_eq ▸ i.isLt)
  · rintro ⟨piece, rfl, hG⟩
    refine ⟨List.replicate n (), List.length_replicate, sequence_iff_pieces.2 ⟨_, rfl, ?_⟩⟩
    rw [List.forall₂_iff_get]
    exact ⟨by simp, fun i h h' => by simpa using hG _⟩

theorem counted_iff {G : Grammar Unit} {word : Bytes} :
    (∃ (n : UInt16) (words : Bytes) (us : List Unit), word = be16 n ++ words ∧
      us.length = n.toNat ∧ Sequence G words us) ↔
      ∃ (n : UInt16) (piece : Fin n.toNat → Bytes), word = encodeCounted n piece ∧
        ∀ i, G (piece i) () := by
  constructor
  · rintro ⟨n, words, us, rfl, hs⟩
    obtain ⟨piece, rfl, hG⟩ := sequence_iff_ofFn.1 ⟨us, hs⟩
    exact ⟨n, piece, rfl, hG⟩
  · rintro ⟨n, piece, rfl, hG⟩
    obtain ⟨us, hs⟩ := sequence_iff_ofFn.2 ⟨piece, rfl, hG⟩
    exact ⟨n, _, us, rfl, hs⟩

theorem pairs_iff {value : Grammar Unit} {word : Bytes} :
    Pairs value word () ↔ ∃ (n : UInt16) (name : Fin n.toNat → UInt16)
      (back : Fin n.toNat → Bytes), word = encodeCounted n (fun i => be16 (name i) ++ back i) ∧
        ∀ i, value (back i) () := by
  rw [Pairs, counted_iff]
  constructor
  · rintro ⟨n, piece, rfl, hpiece⟩
    choose name back hback hvalue using hpiece
    exact ⟨n, name, back, by rw [funext hback], hvalue⟩
  · rintro ⟨n, name, back, rfl, hvalue⟩
    exact ⟨n, _, rfl, fun i => ⟨name i, back i, rfl, hvalue i⟩⟩

/-- The octets of a value are those of a tree. -/
theorem Value.exists_encode {depth : Nat} {word : Bytes} (h : Value depth word ()) :
    ∃ v : ElementValue, word = v.encode := by
  induction depth generalizing word with
  | zero => exact h.elim
  | succ depth ih =>
    obtain ⟨tag, fields, rfl, ht⟩ := h
    by_cases hconstant : isConstantTag tag = true
    · rw [if_pos hconstant] at ht
      obtain ⟨index, rfl⟩ := ht
      obtain ⟨kind, rfl⟩ := isConstantTag_iff.1 hconstant
      exact ⟨.constant kind index, rfl⟩
    rw [if_neg hconstant] at ht
    by_cases henum : tag = 0x65
    · rw [if_pos henum] at ht
      obtain ⟨type, name, rfl⟩ := ht
      exact ⟨.enumeration type name, by rw [henum]; rfl⟩
    rw [if_neg henum] at ht
    by_cases hnested : tag = 0x40
    · rw [if_pos hnested] at ht
      obtain ⟨type, _, rfl, hpairs⟩ := ht
      obtain ⟨n, name, back, rfl, hvalue⟩ := pairs_iff.1 hpairs
      choose value hencode using fun i => ih (hvalue i)
      exact ⟨.nested type n name value, by rw [hnested, funext hencode]; rfl⟩
    · rw [if_neg hnested] at ht
      obtain ⟨harray, hcounted⟩ := ht
      obtain ⟨n, piece, rfl, hvalue⟩ := counted_iff.1 hcounted
      choose value hencode using fun i => ih (hvalue i)
      exact ⟨.array n value, by rw [harray, funext hencode]; rfl⟩

/-- A tree is skipped whole where no more levels are looked for than it has octets. -/
theorem value_encode (v : ElementValue) : Value v.encode.length v.encode () := by
  -- a value in the tree is skipped with the levels that its own octets allow, and there are more
  induction v with
  | constant kind index =>
    refine ⟨kind.tag, _, rfl, ?_⟩
    rw [if_pos (isConstantTag_iff.2 ⟨kind, rfl⟩)]
    exact ⟨index, rfl⟩
  | enumeration type name =>
    exact ⟨_, _, rfl, type, name, rfl⟩
  | nested type count name value ih =>
    refine ⟨_, _, rfl, type, _, rfl, pairs_iff.2 ⟨count, name, _, rfl, fun i => ?_⟩⟩
    have hle := length_le_encodeCounted (fun i => be16 (name i) ++ (value i).encode) i
    refine (ih i).of_length_le ?_
    simp only [List.length_append, be16_length] at hle ⊢
    omega
  | array count value ih =>
    refine ⟨_, _, rfl, rfl, counted_iff.2 ⟨count, _, rfl, fun i => ?_⟩⟩
    exact (ih i).of_length_le (length_le_encodeCounted (fun i => (value i).encode) i)

theorem isElements_iff_encode {elements : Bytes} :
    IsElements elements ↔ ∃ pairs : ElementPairs, elements = pairs.encode := by
  constructor
  · rintro ⟨depth, h⟩
    obtain ⟨n, name, back, rfl, hvalue⟩ := pairs_iff.1 h
    choose value hencode using fun i => (hvalue i).exists_encode
    exact ⟨⟨n, name, value⟩, by rw [ElementPairs.encode, funext hencode]⟩
  · rintro ⟨pairs, rfl⟩
    refine ⟨pairs.encode.length, pairs_iff.2 ⟨pairs.count, pairs.name, _, rfl, fun i => ?_⟩⟩
    have hle := length_le_encodeCounted
      (fun i => be16 (pairs.name i) ++ (pairs.value i).encode) i
    refine (value_encode _).of_length_le (Nat.le_trans ?_ hle)
    rw [List.length_append]
    omega

end Annotations

/-! ## Payloads -/

/-- An annotation with the index of its type. -/
structure AnnotationTree where
  type : UInt16
  pairs : ElementPairs

namespace AnnotationTree

def encode (t : AnnotationTree) : Bytes := be16 t.type ++ t.pairs.encode

def layout (t : AnnotationTree) : AnnotationLayout := ⟨t.type, t.pairs.encode⟩

/-- A payload is the number of its annotations, and these one after another. -/
structure IsPayload (payload : Bytes) (ts : List AnnotationTree) : Prop where
  octets : payload = count16 ts.length ++ ts.flatMap encode
  count : ts.length ≤ 65535

theorem encodeAll_map_layout (ts : List AnnotationTree) :
    AnnotationLayout.encodeAll (ts.map layout) = count16 ts.length ++ ts.flatMap encode := by
  rw [AnnotationLayout.encodeAll, List.length_map, List.flatMap_map]
  rfl

theorem exists_layout_iff {ls : List AnnotationLayout} :
    (∀ l ∈ ls, Annotations.IsElements l.elements) ↔
      ∃ ts : List AnnotationTree, ts.map layout = ls := by
  have hlayout (l : AnnotationLayout) :
      Annotations.IsElements l.elements ↔ l ∈ Set.range layout := by
    rw [Annotations.isElements_iff_encode]
    constructor
    · rintro ⟨pairs, h⟩
      exact ⟨⟨l.type, pairs⟩, by rw [layout, ← h]⟩
    · rintro ⟨t, rfl⟩
      exact ⟨t.pairs, rfl⟩
  have hrange := Set.range_list_map layout
  simp only [hlayout]
  exact (Set.ext_iff.1 hrange ls).symm

theorem decode_layout_eq_ok_iff {payload : Bytes} {ls : List AnnotationLayout} :
    AnnotationLayout.decode payload = .ok ls ↔ ∃ ts, IsPayload payload ts ∧ ts.map layout = ls := by
  rw [AnnotationLayout.decode_eq_ok_iff, exists_layout_iff]
  constructor
  · rintro ⟨rfl, hcount, ts, rfl⟩
    exact ⟨ts, ⟨encodeAll_map_layout ts, by simpa using hcount⟩, rfl⟩
  · rintro ⟨ts, ⟨rfl, hcount⟩, rfl⟩
    exact ⟨(encodeAll_map_layout ts).symm, by simpa using hcount, ts, rfl⟩

end AnnotationTree

namespace Annotations

theorem decode_eq_ok_iff_tree {pool : ConstantPool} {payload : Bytes} {es : List AnnotationEntry} :
    decode pool payload = .ok es ↔ ∃ ts, AnnotationTree.IsPayload payload ts ∧
      List.Forall₂ (fun t e => AnnotationLayout.Describes pool t.layout e) ts es := by
  simp only [decode_eq_ok_iff, AnnotationTree.decode_layout_eq_ok_iff]
  constructor
  · rintro ⟨_, ⟨ts, hpayload, rfl⟩, hd⟩
    exact ⟨ts, hpayload, List.forall₂_map_left_iff.1 hd⟩
  · rintro ⟨ts, hpayload, hd⟩
    exact ⟨_, ⟨ts, hpayload, rfl⟩, List.forall₂_map_left_iff.2 hd⟩

/-- Indices that lead to texts have entries, with the octets of their element pairs. -/
theorem exists_describes_iff {pool : ConstantPool} {ts : List AnnotationTree} :
    (∃ es, List.Forall₂ (fun t e => AnnotationLayout.Describes pool t.layout e) ts es) ↔
      ∀ t ∈ ts, ∃ text, pool.text t.type = .ok text := by
  induction ts with
  | nil => simp
  | cons t ts ih =>
    rw [List.forall_mem_cons, ← ih]
    constructor
    · rintro ⟨_, hd | ⟨hd, hds⟩⟩
      exact ⟨⟨_, hd.type⟩, _, hds⟩
    · rintro ⟨⟨text, htext⟩, es, hds⟩
      exact ⟨⟨text, t.pairs.encode⟩ :: es, .cons ⟨htext, rfl⟩ hds⟩

theorem flatten_zipWith {pool : ConstantPool} {ts : List AnnotationTree} {es : List AnnotationEntry}
    (h : List.Forall₂ (fun t e => AnnotationLayout.Describes pool t.layout e) ts es) :
    ts.flatMap AnnotationTree.encode =
      (List.zipWith (fun index e => be16 index ++ e.elements) (ts.map (·.type)) es).flatten := by
  induction h with
  | nil => rfl
  | cons hd _ ih =>
    rw [List.flatMap_cons, ih, List.map_cons, List.zipWith_cons_cons, List.flatten_cons,
      hd.elements]
    rfl

/-- A payload is read where it is a count and as many annotations, whose types are texts of the
pool. The entries are these annotations in order, and with the indices of their types they are the
payload again. -/
theorem decode_grammar (pool : ConstantPool) (payload : Bytes) :
    ((∃ es, decode pool payload = .ok es) ↔
        ∃ ts, AnnotationTree.IsPayload payload ts ∧ ∀ t ∈ ts, ∃ text, pool.text t.type = .ok text) ∧
      (∀ es, decode pool payload = .ok es ↔ ∃ ts, AnnotationTree.IsPayload payload ts ∧
        List.Forall₂ (fun t e => AnnotationLayout.Describes pool t.layout e) ts es) ∧
      ∀ es, decode pool payload = .ok es → ∃ indices : List UInt16,
        List.Forall₂ (fun index e => pool.text index = .ok e.descriptor) indices es ∧
          payload = count16 es.length ++
            (List.zipWith (fun index e => be16 index ++ e.elements) indices es).flatten := by
  refine ⟨?_, fun es => decode_eq_ok_iff_tree, fun es h => ?_⟩
  · simp only [decode_eq_ok_iff_tree, ← exists_describes_iff]
    constructor
    · rintro ⟨es, ts, hpayload, hd⟩
      exact ⟨ts, hpayload, es, hd⟩
    · rintro ⟨ts, hpayload, es, hd⟩
      exact ⟨es, ts, hpayload, hd⟩
  · obtain ⟨ts, hpayload, hd⟩ := decode_eq_ok_iff_tree.1 h
    refine ⟨ts.map (·.type), List.forall₂_map_left_iff.2 (hd.imp fun _ _ hd => hd.type), ?_⟩
    rw [hpayload.octets, flatten_zipWith hd, hd.length_eq]

/-- A pool with the names of an annotation. -/
def samplePool : ConstantPool := ⟨#[.utf8 [0x76], .integer 7, .utf8 [0x4c, 0x54, 0x3b]], by decide⟩

/-- An array of a number, twice, in the only pair of an annotation. -/
def samplePayload : Bytes := [0, 1, 0, 3, 0, 1, 0, 1, 0x5b, 0, 2, 0x49, 0, 2, 0x49, 0, 2]

def sampleEntry : AnnotationEntry := ⟨"LT;", samplePayload.drop 4⟩

theorem decode_grammar_array :
    decode samplePool samplePayload = .ok [sampleEntry] ∧ ∃ indices : List UInt16,
      List.Forall₂ (fun index e => samplePool.text index = .ok (AnnotationEntry.descriptor e))
        indices [sampleEntry] ∧
      samplePayload = count16 1 ++ (List.zipWith (fun index e =>
        be16 index ++ AnnotationEntry.elements e) indices [sampleEntry]).flatten := by
  have hread : decode samplePool samplePayload = .ok [sampleEntry] := by decide +kernel
  exact ⟨hread, (decode_grammar samplePool samplePayload).2.2 _ hread⟩

end Annotations

end PlatformLink
