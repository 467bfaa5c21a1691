import PlatformLink.Proofs.WriteAfterRead

/-! # Writing a body that was read

A body that was read is written as the part of its payload that was read, whatever pool it is
written for: `Body.attribute_of_read`. What follows this part is not looked at, and is not written.
-/

namespace PlatformLink
set_option autoImplicit false

open Reader

/-- Octets that were read as instructions are written as they are, and need no constants. -/
theorem Instruction.mapM_encode_raw (parts : List Bytes) :
    (parts.map Instruction.raw).mapM Instruction.encode =
      (pure parts : Interning (List Bytes)) := by
  rw [List.mapM_map]
  exact (List.mapM_pure (f := id)).trans (by rw [List.map_id])

namespace Body

variable {pool : ConstantPool} {frame : FrameSize} {parts : List Bytes} {body : Body}

theorem Readable.bodyAttribute_eq (h : body.Readable pool frame parts) (m : Method) :
    m.bodyAttribute body = do
      let name ← Interning.text bodyName
      return ⟨name, Method.bodyPayload frame parts.flatten body⟩ := by
  have hframe : m.frameOf body = .ok frame := by rw [Method.frameOf, h.frame]
  rw [Method.bodyAttribute, hframe, h.instructions, Instruction.mapM_encode_raw]
  rfl

theorem Readable.parse_eq (h : body.Readable pool frame parts) (rest : Bytes) :
    Reader.parse (Body.read pool) (Method.bodyPayload frame parts.flatten body ++ rest) =
      .ok body :=
  ((reads_read pool).parse_eq_ok_iff _ _).2 ⟨_, rest, rfl, frame, parts, rfl, h⟩

/-- A payload ends with its body when nothing is left after the body. -/
theorem Readable.endsWithBody_iff (h : body.Readable pool frame parts) {item : Attribute}
    {rest : Bytes} (hpayload : item.payload = Method.bodyPayload frame parts.flatten body ++ rest) :
    item.EndsWithBody pool ↔ rest = [] := by
  have hends := (reads_read pool).parse_atEnd_eq_ok_iff item.payload
  constructor
  · rintro ⟨body', hbody'⟩
    obtain ⟨frame', parts', hpayload', h'⟩ := (hends body').1 hbody'
    -- two bodies in front of the same octets are one
    have hword : Method.bodyPayload frame parts.flatten body ++ rest =
        Method.bodyPayload frame' parts'.flatten body' ++ [] := by
      rw [← hpayload, hpayload', List.append_nil]
    obtain ⟨-, -, hrest⟩ :=
      (reads_read pool).det ⟨frame, parts, rfl, h⟩ ⟨frame', parts', rfl, h'⟩ hword
    exact hrest
  · rintro rfl
    rw [List.append_nil] at hpayload
    exact ⟨body, (hends body).2 ⟨frame, parts, hpayload, h⟩⟩

/-- The payload of a body is written as it was read up to where the body ends, with what follows it
lost; so it is written whole exactly when nothing follows. What follows may be anything. -/
theorem attribute_of_read {item : Attribute}
    (h : Reader.parse (Body.read pool) item.payload = .ok body) :
    ∃ kept rest, item.payload = kept ++ rest ∧
      (∀ m : Method, m.bodyAttribute body = do
        let name ← Interning.text bodyName
        return ⟨name, kept⟩) ∧
      (kept = item.payload ↔ item.EndsWithBody pool) ∧
      ∀ rest', Reader.parse (Body.read pool) (kept ++ rest') = .ok body := by
  obtain ⟨_, rest, hpayload, frame, parts, rfl, hreadable⟩ :=
    ((reads_read pool).parse_eq_ok_iff _ _).1 h
  refine ⟨_, rest, hpayload, hreadable.bodyAttribute_eq, ?_, hreadable.parse_eq⟩
  rw [hreadable.endsWithBody_iff hpayload, hpayload, List.self_eq_append_right]

/-- A body that returns at once. -/
def sample : Body := ⟨some ⟨0, 0⟩, [.raw [0xb1]], [], []⟩

/-- The payload of a body with an octet after its attributes. -/
def trailing : Attribute := ⟨1, [0, 0, 0, 0, 0, 0, 0, 1, 0xb1, 0, 0, 0, 0, 0xff]⟩

theorem attribute_of_read_trailing :
    Reader.parse (Body.read .empty) trailing.payload = .ok sample ∧
      ∃ kept rest, trailing.payload = kept ++ rest ∧
        (∀ m : Method, m.bodyAttribute sample = do
          let name ← Interning.text bodyName
          return ⟨name, kept⟩) ∧
        (kept = trailing.payload ↔ trailing.EndsWithBody .empty) ∧
        ∀ rest', Reader.parse (Body.read .empty) (kept ++ rest') = .ok sample := by
  have hread : Reader.parse (Body.read .empty) trailing.payload = .ok sample := by decide +kernel
  exact ⟨hread, attribute_of_read hread⟩

/-- The octet after the attributes is accepted, and it is not written again. -/
theorem trailing_not_written :
    Reader.parse (Body.read .empty) trailing.payload = .ok sample ∧
      (Method.bodyAttribute (.bare 8 "f" "()V") sample .empty).1 =
        .ok ⟨1, [0, 0, 0, 0, 0, 0, 0, 1, 0xb1, 0, 0, 0, 0]⟩ := by
  decide +kernel

end Body

end PlatformLink
