import PlatformLink.ClassFile.Writing
import PlatformLink.Proofs.Grammar
import PlatformLink.Proofs.InstructionOctets

/-! # Class files with their indices in place

A `ClassLayout` is a class file with every index and attribute as it stands in the octets.
`ClassLayout.parse_eq_ok_iff`: the layouts that can be written down (`ClassLayout.Fits`) are found
again from their octets, and only these. Attributes, fields and handlers have no other form;
a body has one beside its pool, `Body.reads_read`.
-/

namespace PlatformLink
set_option autoImplicit false

open Reader

/-! ## Parts that are carried through -/

namespace Attribute

/-- The length of the payload fits its field. -/
def Fits (a : Attribute) : Prop := a.payload.length < 4294967296

def AllFit (as : List Attribute) : Prop := as.length ≤ 65535 ∧ ∀ a ∈ as, a.Fits

theorem reads_read : Reads read fun word a => word = a.encode ∧ a.Fits := by
  have h := Reads.u16.bind_word fun name => Reads.u32.bind_word fun length =>
    (Reads.take length.toNat).map (Attribute.mk name)
  refine h.congr fun word a => ?_
  constructor
  · rintro ⟨name, _, rfl, length, _, rfl, payload, ⟨rfl, hl⟩, rfl⟩
    have hn := length.toNat_lt
    refine ⟨?_, ?_⟩
    · rw [encode, hl, count32_toNat]
    · rw [Fits, hl]
      exact hn
  · rintro ⟨rfl, hf⟩
    have hl := (toNat_ofNat32 hf).symm
    exact ⟨a.name, _, rfl, UInt32.ofNat a.payload.length, _, rfl, a.payload, ⟨rfl, hl⟩, rfl⟩

theorem reads_readAll : Reads readAll fun word as => word = encodeAll as ∧ AllFit as :=
  reads_read.counted16_flatMap

end Attribute

namespace Field

def Fits (f : Field) : Prop := Attribute.AllFit f.attributes

theorem reads_read : Reads read fun word f => word = f.encode ∧ f.Fits := by
  have h := Reads.u16.bind_word fun access => Reads.u16.bind_word fun name =>
    Reads.u16.bind_word fun descriptor =>
      Attribute.reads_readAll.map (Field.mk access name descriptor)
  refine h.congr fun word f => ?_
  constructor
  · rintro ⟨access, _, rfl, name, _, rfl, descriptor, _, rfl, attributes, ⟨rfl, hf⟩, rfl⟩
    exact ⟨rfl, hf⟩
  · rintro ⟨rfl, hf⟩
    exact ⟨f.access, _, rfl, f.name, _, rfl, f.descriptor, _, rfl, f.attributes, ⟨rfl, hf⟩, rfl⟩

end Field

theorem Handler.reads_read : Reads Handler.read fun word h => word = h.encode := by
  have h := Reads.u16.bind_word fun start => Reads.u16.bind_word fun stop =>
    Reads.u16.bind_word fun target => Reads.u16.map (Handler.mk start stop target)
  refine h.congr fun word x => ?_
  constructor
  · rintro ⟨start, _, rfl, stop, _, rfl, target, _, rfl, catchType, rfl, rfl⟩
    rfl
  · rintro rfl
    exact ⟨x.start, _, rfl, x.stop, _, rfl, x.target, _, rfl, x.catchType, rfl, rfl⟩

/-! ## Bodies -/

theorem ConstantPool.checkNames_eq_ok_iff {pool : ConstantPool} {attributes : List Attribute} :
    pool.checkNames attributes = .ok () ↔
      ∀ a ∈ attributes, ∃ name, pool.text a.name = .ok name := by
  induction attributes with
  | nil => simp [checkNames, pure, Except.pure]
  | cons a attributes ih =>
    have hcons : pool.checkNames (a :: attributes) = (pool.text a.name).bind fun _ =>
        pool.checkNames attributes := by
      cases h : pool.text a.name <;> simp [checkNames, h, bind, Except.bind, pure, Except.pure]
    rw [hcons, List.forall_mem_cons, ← ih]
    cases pool.text a.name <;> simp [Except.bind]

/-- `body` has the frame `frame` and the instructions with the octets `parts`, and is found in
their payload. -/
structure Body.Readable (pool : ConstantPool) (frame : FrameSize) (parts : List Bytes)
    (body : Body) : Prop where
  frame : body.frame = some frame
  instructions : body.instructions = parts.map .raw
  split : Bytecode.split parts.flatten = .ok parts
  length : parts.flatten.length < 4294967296
  handlers : body.handlers.length ≤ 65535
  attributes : Attribute.AllFit body.attributes
  names : ∀ a ∈ body.attributes, ∃ name, pool.text a.name = .ok name

theorem Body.reads_read (pool : ConstantPool) :
    Reads (Body.read pool) fun word body => ∃ frame parts,
      word = Method.bodyPayload frame parts.flatten body ∧ Readable pool frame parts body := by
  have h := Reads.u16.bind_word fun stack => Reads.u16.bind_word fun locals =>
    Reads.u32.bind_word fun length => (Reads.take length.toNat).bind_valid fun code =>
      Reads.bind_lift (Bytecode.split code) fun parts =>
        Handler.reads_read.counted16_words.bind_valid fun handlers =>
          Attribute.reads_readAll.bind_valid fun attributes =>
            Reads.bind_lift (pool.checkNames attributes) fun _ =>
              Reads.pure (Body.mk (some ⟨stack, locals⟩) (parts.map .raw) handlers attributes)
  refine h.congr fun word body => ?_
  constructor
  · rintro ⟨stack, _, rfl, locals, _, rfl, length, _, rfl, code, _, rfl, hl, parts, hsplit,
      handlers, _, rfl, hh, attributes, _, rfl, ha, _, hn, rfl, rfl⟩
    have hlt := length.toNat_lt
    have hcode := Bytecode.flatten_of_split hsplit
    refine ⟨⟨stack, locals⟩, parts, ?_, rfl, rfl, ?_, ?_, hh, ha,
      ConstantPool.checkNames_eq_ok_iff.1 hn⟩
    · rw [Method.bodyPayload, hcode, hl, count32_toNat]
      simp only [List.append_nil, List.append_assoc]
    · rw [hcode, hsplit]
    · rw [hcode, hl]
      exact hlt
  · rintro ⟨⟨stack, locals⟩, parts, rfl, hr⟩
    obtain ⟨frame, instructions, handlers, attributes⟩ := body
    obtain ⟨rfl, rfl, hsplit, hlt, hh, ha, hn⟩ := hr
    have hword : Method.bodyPayload ⟨stack, locals⟩ parts.flatten
          ⟨some ⟨stack, locals⟩, parts.map .raw, handlers, attributes⟩ =
        be16 stack ++ (be16 locals ++ (count32 parts.flatten.length ++ (parts.flatten ++
          ((count16 handlers.length ++ handlers.flatMap Handler.encode) ++
            Attribute.encodeAll attributes)))) := by
      rw [Method.bodyPayload, List.append_assoc]
    have hl := (toNat_ofNat32 hlt).symm
    have hnames := ConstantPool.checkNames_eq_ok_iff.2 hn
    exact ⟨stack, _, hword, locals, _, rfl, UInt32.ofNat parts.flatten.length, _, rfl,
      parts.flatten, _, rfl, hl, parts, hsplit, handlers, _, rfl, hh, attributes, [],
      (List.append_nil _).symm, ha, (), hnames, rfl, rfl⟩

/-! ## Methods -/

structure MethodLayout where
  access : UInt16
  name : UInt16
  descriptor : UInt16
  attributes : List Attribute
  deriving DecidableEq, Repr

namespace MethodLayout

def encode (l : MethodLayout) : Bytes :=
  be16 l.access ++ (be16 l.name ++ (be16 l.descriptor ++ Attribute.encodeAll l.attributes))

def Fits (l : MethodLayout) : Prop := Attribute.AllFit l.attributes

def read : Reader MethodLayout := do
  let access ← Reader.u16
  let name ← Reader.u16
  let descriptor ← Reader.u16
  let attributes ← Attribute.readAll
  return ⟨access, name, descriptor, attributes⟩

theorem reads_read : Reads read fun word l => word = l.encode ∧ l.Fits := by
  have h := Reads.u16.bind_word fun access => Reads.u16.bind_word fun name =>
    Reads.u16.bind_word fun descriptor =>
      Attribute.reads_readAll.map (MethodLayout.mk access name descriptor)
  refine h.congr fun word l => ?_
  constructor
  · rintro ⟨access, _, rfl, name, _, rfl, descriptor, _, rfl, attributes, ⟨rfl, hf⟩, rfl⟩
    exact ⟨rfl, hf⟩
  · rintro ⟨rfl, hf⟩
    exact ⟨l.access, _, rfl, l.name, _, rfl, l.descriptor, _, rfl, l.attributes, ⟨rfl, hf⟩, rfl⟩

end MethodLayout

/-! ## Classes -/

/-- A class file with its indices in place; index 0 stands for no super class. -/
structure ClassLayout where
  minor : UInt16
  major : UInt16
  pool : ConstantPool
  access : UInt16
  name : UInt16
  superName : UInt16
  interfaces : List UInt16
  fields : List Field
  methods : List MethodLayout
  attributes : List Attribute

namespace ClassLayout

def encodeMembers (l : ClassLayout) : Bytes :=
  be16 l.access ++ (be16 l.name ++ (be16 l.superName ++
    (count16 l.interfaces.length ++ (l.interfaces.flatMap be16 ++
      (count16 l.fields.length ++ (l.fields.flatMap Field.encode ++
        (count16 l.methods.length ++ (l.methods.flatMap MethodLayout.encode ++
          Attribute.encodeAll l.attributes))))))))

def encode (l : ClassLayout) : Bytes :=
  be32 magic ++ (be16 l.minor ++ (be16 l.major ++ (l.pool.encode ++ l.encodeMembers)))

/-- Every count and length fits its field, and the pool can be read back. -/
structure Fits (l : ClassLayout) : Prop where
  pool : ConstantPool.Slotted l.pool.entries.toList
  interfaces : l.interfaces.length ≤ 65535
  fields : l.fields.length ≤ 65535 ∧ ∀ f ∈ l.fields, f.Fits
  methods : l.methods.length ≤ 65535 ∧ ∀ m ∈ l.methods, m.Fits
  attributes : Attribute.AllFit l.attributes

def readFront : Reader ClassLayout := do
  let found ← Reader.u32
  if found ≠ magic then throw (.badMagic found)
  let minor ← Reader.u16
  let major ← Reader.u16
  let pool ← ConstantPool.read
  let access ← Reader.u16
  let name ← Reader.u16
  let superName ← Reader.u16
  let interfaces ← Reader.counted16 Reader.u16
  let fields ← Reader.counted16 Field.read
  let methods ← Reader.counted16 MethodLayout.read
  let attributes ← Attribute.readAll
  return ⟨minor, major, pool, access, name, superName, interfaces, fields, methods, attributes⟩

/-- The layout that some octets are, to the last one. -/
def parse (octets : Bytes) : Except ClassError ClassLayout :=
  Reader.parse (do
    let l ← readFront
    Reader.atEnd
    return l) octets

theorem reads_afterMagic {α : Type} {rest : Reader α} {G : Grammar α} (h : Reads rest G) :
    Reads (do
        let found ← Reader.u32
        if found ≠ magic then throw (.badMagic found)
        rest)
      fun word a => ∃ back, word = be32 magic ++ back ∧ G back a := by
  have hbad (found : UInt32) := (@Reads.throw PUnit (.badMagic found)).bind fun _ => h
  have hite (found : UInt32) := (hbad found).ite (p := found ≠ magic) h
  refine (Reads.u32.bind_word hite).congr fun word a => ?_
  constructor
  · rintro ⟨found, back, rfl, hG⟩
    by_cases hm : found = magic
    · rw [if_neg (not_not.2 hm)] at hG
      exact ⟨back, by rw [hm], hG⟩
    · rw [if_pos hm] at hG
      obtain ⟨_, _, _, -, hthrow, -⟩ := hG
      exact hthrow.elim
  · rintro ⟨back, rfl, hG⟩
    refine ⟨magic, back, rfl, ?_⟩
    rw [if_neg (not_not.2 rfl)]
    exact hG

theorem reads_readFront : Reads readFront fun word l => word = l.encode ∧ l.Fits := by
  have h := reads_afterMagic <| Reads.u16.bind_word fun minor => Reads.u16.bind_word fun major =>
    ConstantPool.reads_read.bind_valid fun pool => Reads.u16.bind_word fun access =>
      Reads.u16.bind_word fun name => Reads.u16.bind_word fun superName =>
        Reads.u16.counted16_words.bind_valid fun interfaces =>
          Field.reads_read.counted16_flatMap.bind_valid fun fields =>
            MethodLayout.reads_read.counted16_flatMap.bind_valid fun methods =>
              Attribute.reads_readAll.map (ClassLayout.mk minor major pool access name superName
                interfaces fields methods)
  refine h.congr fun word l => ?_
  constructor
  · rintro ⟨_, rfl, minor, _, rfl, major, _, rfl, pool, _, rfl, hpool, access, _, rfl, name, _, rfl,
      superName, _, rfl, interfaces, _, rfl, hi, fields, _, rfl, hf, methods, _, rfl, hm,
      attributes, ⟨rfl, ha⟩, rfl⟩
    refine ⟨?_, hpool, hi, hf, hm, ha⟩
    simp only [encode, encodeMembers, List.append_assoc]
  · rintro ⟨rfl, hpool, hi, hf, hm, ha⟩
    have hmembers : l.encodeMembers = be16 l.access ++ (be16 l.name ++ (be16 l.superName ++
        ((count16 l.interfaces.length ++ l.interfaces.flatMap be16) ++
          ((count16 l.fields.length ++ l.fields.flatMap Field.encode) ++
            ((count16 l.methods.length ++ l.methods.flatMap MethodLayout.encode) ++
              Attribute.encodeAll l.attributes))))) := by
      simp only [encodeMembers, List.append_assoc]
    exact ⟨_, rfl, l.minor, _, rfl, l.major, _, rfl, l.pool, _, rfl, hpool, l.access, _, hmembers,
      l.name, _, rfl, l.superName, _, rfl, l.interfaces, _, rfl, hi, l.fields, _, rfl, hf,
      l.methods, _, rfl, hm, l.attributes, ⟨rfl, ha⟩, rfl⟩

/-- The layouts that can be written down are found again from their octets, and only these. -/
theorem parse_eq_ok_iff {octets : Bytes} {l : ClassLayout} :
    parse octets = .ok l ↔ octets = l.encode ∧ l.Fits :=
  reads_readFront.parse_atEnd_eq_ok_iff octets l

end ClassLayout

end PlatformLink
