import PlatformLink.PlatformClass
import PlatformLink.Proofs.ForwardedBody
import PlatformLink.Proofs.Idempotence
import PlatformLink.Proofs.WritingOutcome

/-! # The helper class is read back

The class that a run emits itself can always be built. What is written for it is a class that the
reader accepts, with one method that pushes the platform's name and returns it, whatever texts the
pool shares (`PlatformClass.build_spec`). No edit acts on it (`PlatformClass.read_of_build`).
-/

namespace PlatformLink
set_option autoImplicit false

namespace PlatformClass

/-- The method that returns the platform's name. -/
def getterMethod (platform : String) : Method :=
  (Method.bare 0x0009 getter getterDescriptor).append [.pushString platform, .plain 0xb0]

def getterBody (platform : String) : Body := ⟨none, [.pushString platform, .plain 0xb0], [], []⟩

theorem body_getterMethod (platform : String) :
    (getterMethod platform).body = some (getterBody platform) := rfl

theorem classFile_eq (name platform : String) : classFile name platform =
    { ClassFile.bare 52 0x0011 name (some "java/lang/Object") with
      methods := [getterMethod platform] } := rfl

theorem rereadable_body (pool : ConstantPool) (m : Method) (platform : String) :
    Body.Rereadable pool m (getterBody platform) := by
  intro pool' frame parts hle hframe hparts
  simp only [getterBody, List.forall₂_cons_left_iff, List.forall₂_nil_left_iff] at hparts
  obtain ⟨_, _, ⟨index, -, rfl⟩, ⟨_, _, rfl, rfl, rfl⟩, rfl⟩ := hparts
  have hreturn : Bytecode.IsInstruction [0xb0] := Instruction.isInstruction_returnOpcode .reference
  have hpush := Instruction.isInstruction_push index
  have hlength : (if index.toNat ≤ 255 then [0x12, UInt8.ofNat index.toNat]
      else (0x13 :: be16 index : Bytes)).length ≤ 3 := by
    split <;> simp [be16_length]
  generalize (if index.toNat ≤ 255 then [0x12, UInt8.ofNat index.toNat]
      else (0x13 :: be16 index : Bytes)) = push at hpush hlength
  have hsplit : Bytecode.split [push, [0xb0]].flatten = .ok [push, [0xb0]] :=
    Bytecode.split_flatten (by simp [hpush, hreturn])
  have hflatten : [push, [0xb0]].flatten.length ≤ 4 := by
    rw [List.flatten_cons, List.flatten_cons, List.flatten_nil, List.append_nil,
      List.length_append, List.length_singleton]
    omega
  refine ⟨⟨rfl, rfl, hsplit, by omega, Nat.zero_le _, ?_,
    by simp [getterBody, Body.reread]⟩, ?_⟩
  · simp [getterBody, Body.reread, Attribute.AllFit]
  · simp only [getterBody, Method.bodyPayload, Attribute.encodeAll, List.length_append, be16_length,
      count32_length, count16_length, List.flatMap_nil, List.length_nil]
    omega

theorem written_getterMethod (platform : String) : (getterMethod platform).written = [.body] := rfl

theorem rereadable_getterMethod (pool : ConstantPool) (platform : String) :
    (getterMethod platform).Rereadable pool where
  body := by
    rintro body ⟨rfl⟩
    exact rereadable_body pool _ platform
  visible := by
    rintro es ⟨⟩
  invisible := by
    rintro es ⟨⟩
  others := by simp [getterMethod, Method.append, Method.mapBody, Method.bare]
  ordered := by simp [written_getterMethod, Method.Ordered, Method.Admits]
  count := by simp [written_getterMethod]

theorem rereadable_classFile {name platform : String} (hname : ModifiedUtf8.Fits name)
    (hplatform : ModifiedUtf8.Fits platform) : (classFile name platform).Rereadable where
  pool := .nil
  texts := by
    have htexts : (classFile name platform).texts =
        [name, "java/lang/Object", getter, getterDescriptor, platform] := rfl
    rw [htexts]
    simp only [List.forall_mem_cons]
    exact ⟨hname, by decide, by decide, by decide, hplatform, by simp⟩
  interfaces := Nat.zero_le _
  fields := ⟨Nat.zero_le _, by simp [classFile_eq, ClassFile.bare]⟩
  methods := by
    rw [classFile_eq, List.forall_mem_singleton]
    exact ⟨by simp, rereadable_getterMethod _ platform⟩
  attributes := by simp [classFile_eq, ClassFile.bare, Attribute.AllFit]

theorem not_isPending_getterMethod (platform : String) : ¬ (getterMethod platform).IsPending := by
  intro h
  obtain ⟨marker, hmarker⟩ := Option.isSome_iff_exists.1 (Method.marker?_isSome_iff.2 h.marked)
  cases hmarker

/-- What is built for the helper class is read back, and none of its methods waits for an edit. -/
theorem read_of_build {s : Settings} {name : String} {octets : Bytes}
    (hbuild : build s name = .ok octets) (hname : ModifiedUtf8.Fits name)
    (hplatform : ∀ platform, s.platformName = .ok platform → ModifiedUtf8.Fits platform) :
    ∃ c, ClassFile.read octets = .ok c ∧
      ∀ m ∈ c.methods, ¬ (m.IsPending ∧ m.isStatic = true) := by
  obtain ⟨platform, hs, hwrite⟩ := bind_eq_ok_iff.1 hbuild
  obtain ⟨l, c, -, -, -, hback, hread⟩ :=
    ClassFile.read_of_write (rereadable_classFile hname (hplatform platform hs)) hwrite
  refine ⟨c, hread, forall_mem_of_forall₂ hback.methods
    (fun _ _ => Forwarding.not_pending_of_readBack) ?_⟩
  rw [classFile_eq, List.forall_mem_singleton]
  exact fun hpending => not_isPending_getterMethod platform hpending.1

/-! ## What is built -/

theorem frameOf_getterMethod (platform : String) :
    (getterMethod platform).frameOf (getterBody platform) = .ok ⟨1, 0⟩ := by
  have hd : MethodDescriptor.ofString (getterMethod platform).descriptor =
      .ok ⟨[], ⟨0, .object "java/lang/String"⟩⟩ := by
    show MethodDescriptor.ofString getterDescriptor = _
    decide +kernel
  have heffects : [Instruction.pushString platform, .plain 0xb0].mapM
      (Frame.effect (getterMethod platform)) = .ok [⟨0, 1⟩, ⟨1, 0⟩] := by
    simp only [List.mapM_cons, List.mapM_nil]
    rfl
  have hstatic : (getterMethod platform).isStatic = true := by
    show ((0x0009 : UInt16).toNat / 8 % 2 == 1) = true
    decide
  have hdepth : (Frame.Depth.run ⟨0, 0⟩ [⟨0, 1⟩, ⟨1, 0⟩]).greatest = 1 := by decide
  show Frame.compute (getterMethod platform) [.pushString platform, .plain 0xb0] = _
  rw [Frame.compute, hd]
  simp only [bind, Except.bind] at heffects ⊢
  rw [heffects]
  simp only [hdepth, hstatic]
  rfl

theorem computable_classFile (name platform : String) : (classFile name platform).Computable := by
  rw [classFile_eq, ClassFile.Computable, List.forall_mem_singleton]
  intro body hbody
  obtain rfl : getterBody platform = body := Option.some.inj hbody
  refine ⟨⟨_, frameOf_getterMethod platform⟩, ?_⟩
  simp [getterBody, Instruction.Encodable]

/-- Whatever the texts are, and however many of them coincide, the pool stays small. -/
theorem length_finalLedger_le (name platform : String) :
    (classFile name platform).finalLedger.length ≤ 36 := by
  have hrequests : (classFile name platform).requests =
      [.className name, .className "java/lang/Object", .text getter, .text getterDescriptor,
        .text bodyName, .string platform] := rfl
  have hpool : Ledger.ofPool (classFile name platform).pool = [] := rfl
  have hlength := Ledger.length_after_le (classFile name platform).requests []
  rw [ClassFile.finalLedger, hpool]
  simp only [hrequests, List.length_cons, List.length_nil] at hlength ⊢
  exact hlength

theorem exists_build {s : Settings} {platform : String} (hs : s.platformName = .ok platform)
    (name : String) :
    ∃ octets, build s name = .ok octets ∧ (classFile name platform).write = .ok octets := by
  obtain ⟨octets, hwrite⟩ := (computable_classFile name platform).exists_write
    (Nat.lt_of_le_of_lt (length_finalLedger_le name platform) (by decide))
  refine ⟨octets, ?_, hwrite⟩
  rw [build, hs]
  exact hwrite

/-- The getter as it is read back: `index` is that of the string it pushes. -/
def readGetter (index : UInt8) : Method where
  access := 0x0009
  name := "getCurrentTarget"
  descriptor := "()Ljava/lang/String;"
  body := some ⟨some ⟨1, 0⟩, [.raw [0x12, index], .raw [0xb0]], [], []⟩
  visible := none
  invisible := none
  order := [.body]

/-- The class `name` that answers with `platform`: public and final, with nothing but one public
static method, which pushes the string under a one-octet index and returns it. -/
structure IsHelper (name platform : String) (c : ClassFile) : Prop where
  minor : c.minor = 0
  major : c.major = 52
  access : c.access = 0x0011
  name : c.name = name
  superName : c.superName = some "java/lang/Object"
  interfaces : c.interfaces = []
  fields : c.fields = []
  attributes : c.attributes = []
  methods : ∃ index : UInt8, c.methods = [readGetter index] ∧
    ∃ textIndex, c.pool.get (UInt16.ofNat index.toNat) = .ok (.string textIndex) ∧
      c.pool.text textIndex = .ok platform

theorem exists_readGetter {pool : ConstantPool} {m : Method} {platform : String}
    (h : (getterMethod platform).ReadBack pool m) (hsize : pool.entries.size ≤ 255) :
    ∃ index : UInt8, m = readGetter index ∧
      pool.IsFirstString (UInt16.ofNat index.toNat) platform := by
  obtain ⟨frame, parts, hframe, hparts, hbody⟩ := h.body _ (body_getterMethod platform)
  obtain rfl : frame = ⟨1, 0⟩ := Except.ok.inj (hframe.symm.trans (frameOf_getterMethod platform))
  simp only [getterBody, List.forall₂_cons_left_iff, List.forall₂_nil_left_iff] at hparts
  obtain ⟨_, _, ⟨index, hindex, rfl⟩, ⟨_, _, rfl, rfl, rfl⟩, rfl⟩ := hparts
  -- the pool is too small for an index that does not fit one octet
  have hle : index.toNat ≤ 255 := by
    obtain ⟨_, -, hstring⟩ := hindex
    have hlt := (Array.getElem?_eq_some_iff.1 hstring.1.2).1
    omega
  have hoctet : (UInt8.ofNat index.toNat).toNat = index.toNat := by
    rw [UInt8.toNat_ofNat']
    omega
  refine ⟨UInt8.ofNat index.toNat, ?_, ?_⟩
  · rw [if_pos hle] at hbody
    rw [show m = ⟨m.access, m.name, m.descriptor, m.body, m.visible, m.invisible, m.order⟩ from rfl,
      h.access, h.name, h.descriptor, hbody, h.visible, h.invisible, h.order,
      written_getterMethod]
    rfl
  · rwa [hoctet, UInt16.ofNat_toNat]

/-- The helper class is built, whatever its name and the platform's are, and what is built for it
is read back as what it has to be. -/
theorem build_spec {s : Settings} {name platform : String} (hs : s.platformName = .ok platform)
    (hname : ModifiedUtf8.Fits name) (hplatform : ModifiedUtf8.Fits platform) :
    ∃ octets c, build s name = .ok octets ∧ ClassFile.read octets = .ok c ∧
      IsHelper name platform c := by
  obtain ⟨octets, hbuild, hwrite⟩ := exists_build hs name
  have hcomputable := computable_classFile name platform
  have hrereadable := rereadable_classFile hname hplatform
  obtain ⟨l, rfl, hpool, hle, hl⟩ := ClassFile.exists_isWritten_of_write hwrite
  obtain ⟨c, hd, hback, hfits⟩ := hrereadable.exists_readBack hpool hle hl
  refine ⟨_, c, hbuild,
    ClassFile.read_eq_ok_iff.2 ⟨l, ClassLayout.parse_eq_ok_iff.2 ⟨rfl, hfits⟩, hd⟩, ?_⟩
  have hsize : c.pool.entries.size ≤ 255 := by
    have hledger := hcomputable.ofPool_of_write hwrite
    have hlength := length_finalLedger_le name platform
    rw [← hledger, ← hpool, ← hd.pool, Ledger.length_ofPool] at hlength
    omega
  have hmethods := hback.methods
  rw [classFile_eq] at hmethods
  obtain ⟨m, _, hm, hnil, hc⟩ := List.forall₂_cons_left_iff.1 hmethods
  obtain rfl := List.forall₂_nil_left_iff.1 hnil
  obtain ⟨index, rfl, hfirst⟩ := exists_readGetter hm hsize
  refine ⟨hback.minor, hback.major, hback.access, hback.name, hback.superName, hback.interfaces,
    hback.fields, hback.attributes, index, hc, ?_⟩
  exact Request.IsFirstFor.foundAt (r := .string platform) hfirst

/-- The name of the class is that of an attribute, and the platform's is that of the method. -/
theorem build_spec_sample :
    ∃ octets c, build (Forwarding.ofPlatform "getCurrentTarget") "Code" = .ok octets ∧
      ClassFile.read octets = .ok c ∧ IsHelper "Code" "getCurrentTarget" c :=
  build_spec (by decide) (by decide) (by decide)

end PlatformClass

end PlatformLink
