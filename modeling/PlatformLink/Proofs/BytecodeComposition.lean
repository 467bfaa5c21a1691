import PlatformLink.Proofs.BytecodeLayout

/-! # Cutting code that is put together

An instruction is found by its own octets and by where it stands modulo four
(`Bytecode.lengthAt_local`). So code is cut into some parts exactly when it is these parts one
after another and each is an instruction in its place (`Bytecode.splitAfter_eq_ok_iff`), and code
that is put together at a multiple of four is cut where its two halves are
(`Bytecode.split_compositional`).
-/

namespace PlatformLink
set_option autoImplicit false

namespace Bytecode

/-! ## What a length depends on -/

theorem padding_congr {offset offset' : Nat} (h : offset' % 4 = offset % 4) :
    padding offset' = padding offset := by
  unfold padding
  omega

theorem take_drop_congr {position n : Nat} {code code' : Bytes} (hn : position + 4 ≤ n)
    (hfront : code'.take n = code.take n) :
    (code'.drop position).take 4 = (code.drop position).take 4 := by
  have hinside (octets : Bytes) :
      (octets.drop position).take 4 = ((octets.take n).drop position).take 4 := by
    have hmin : min 4 (n - position) = 4 := by omega
    rw [List.drop_take, List.take_take, hmin]
  rw [hinside code', hfront, ← hinside code]

theorem signedAt_local {offset position n : Nat} {code code' : Bytes} {number : Int}
    (h : signedAt offset position code = .ok number) (hn : position + 4 ≤ n)
    (hfront : code'.take n = code.take n) (offset' : Nat) :
    signedAt offset' position code' = .ok number := by
  have hfour := take_drop_congr hn hfront
  unfold signedAt at h ⊢
  split at h
  · rename_i a b c d rest hcode
    rw [hcode] at hfour
    match hcode' : code'.drop position with
    | a' :: b' :: c' :: d' :: rest' =>
      rw [hcode'] at hfour
      simp only [List.take_succ_cons, List.take_zero, List.cons.injEq] at hfour
      obtain ⟨rfl, rfl, rfl, rfl, -⟩ := hfour
      exact h
    | [] | [_] | [_, _] | [_, _, _] => simp [hcode'] at hfour
  · cases h

theorem guarded_eq_ok_iff {p : Prop} [Decidable p] {e : ClassError} {n m : Nat} :
    (do
      if p then throw e
      return n : Except ClassError Nat) = .ok m ↔ ¬ p ∧ n = m := by
  by_cases h : p
  · simp [h, throw, throwThe, MonadExceptOf.throw, bind, Except.bind]
  · simp [h, pure, Except.pure]

theorem tableSwitchLength_eq_ok {offset n : Nat} {code : Bytes}
    (h : tableSwitchLength offset code = .ok n) :
    ∃ low high, signedAt offset (1 + padding offset + 4) code = .ok low ∧
      signedAt offset (1 + padding offset + 8) code = .ok high ∧ low ≤ high + 1 ∧
        n = 1 + padding offset + 12 + 4 * (high - low + 1).toNat := by
  simp only [tableSwitchLength, bind_eq_ok_iff, guarded_eq_ok_iff] at h
  obtain ⟨low, hlow, high, hhigh, hcount, hn⟩ := h
  exact ⟨low, high, hlow, hhigh, by omega, hn.symm⟩

theorem lookupSwitchLength_eq_ok {offset n : Nat} {code : Bytes}
    (h : lookupSwitchLength offset code = .ok n) :
    ∃ pairs, signedAt offset (1 + padding offset + 4) code = .ok pairs ∧ 0 ≤ pairs ∧
      n = 1 + padding offset + 8 + 8 * pairs.toNat := by
  simp only [lookupSwitchLength, bind_eq_ok_iff, guarded_eq_ok_iff] at h
  obtain ⟨pairs, hpairs, hcount, hn⟩ := h
  exact ⟨pairs, hpairs, by omega, hn.symm⟩

theorem tableSwitchLength_local {offset offset' n : Nat} {code code' : Bytes}
    (h : tableSwitchLength offset code = .ok n) (hoffset : offset' % 4 = offset % 4)
    (hfront : code'.take n = code.take n) : tableSwitchLength offset' code' = .ok n := by
  obtain ⟨low, high, hlow, hhigh, hle, rfl⟩ := tableSwitchLength_eq_ok h
  -- even a table without entries is long enough to hold both of its bounds
  have hlow' := signedAt_local hlow (by omega) hfront offset'
  have hhigh' := signedAt_local hhigh (by omega) hfront offset'
  rw [← padding_congr hoffset] at hlow' hhigh' ⊢
  exact tableSwitchLength_eq hlow' hhigh' hle

theorem lookupSwitchLength_local {offset offset' n : Nat} {code code' : Bytes}
    (h : lookupSwitchLength offset code = .ok n) (hoffset : offset' % 4 = offset % 4)
    (hfront : code'.take n = code.take n) : lookupSwitchLength offset' code' = .ok n := by
  obtain ⟨pairs, hpairs, hle, rfl⟩ := lookupSwitchLength_eq_ok h
  have hpairs' := signedAt_local hpairs (by omega) hfront offset'
  rw [← padding_congr hoffset] at hpairs' ⊢
  exact lookupSwitchLength_eq hpairs' hle

theorem wideLength_local {offset offset' n : Nat} {operands operands' : Bytes}
    (h : wideLength offset operands = .ok n) (hfront : operands'.take (n - 1) = operands.take (n - 1)) :
    wideLength offset' operands' = .ok n := by
  cases operands with
  | nil => cases h
  | cons widened rest =>
    have hn : Except.ok (if widened = 0x84 then 6 else 4) = Except.ok n := h
    have hlong : 2 ≤ n := by
      cases hn
      split <;> omega
    obtain ⟨k, rfl⟩ : ∃ k, n = k + 2 := ⟨n - 2, by omega⟩
    cases operands' with
    | nil => simp at hfront
    | cons widened' rest' =>
      simp only [Nat.add_one_sub_one, List.take_succ_cons, List.cons.injEq] at hfront
      rw [hfront.1]
      exact h

/-- The octets that a length is read off lie inside of it, whatever the opcode. -/
theorem wantedLength_local {offset offset' n : Nat} {code code' : Bytes}
    (h : wantedLength offset code = .ok n) (hoffset : offset' % 4 = offset % 4)
    (hfront : code'.take n = code.take n) : wantedLength offset' code' = .ok n := by
  obtain ⟨k, rfl⟩ : ∃ k, n = k + 1 := ⟨n - 1, by have := wantedLength_pos h; omega⟩
  cases code with
  | nil => cases h
  | cons opcode operands =>
    cases code' with
    | nil => simp at hfront
    | cons opcode' operands' =>
      obtain ⟨rfl, hoperands⟩ : opcode' = opcode ∧ operands'.take k = operands.take k := by
        simpa only [List.take_succ_cons, List.cons.injEq] using hfront
      simp only [wantedLength] at h ⊢
      by_cases hwide : opcode' = 0xc4
      · rw [if_pos hwide] at h ⊢
        exact wideLength_local h hoperands
      rw [if_neg hwide] at h ⊢
      by_cases htable : opcode' = 0xaa
      · rw [if_pos htable] at h ⊢
        exact tableSwitchLength_local h hoffset hfront
      rw [if_neg htable] at h ⊢
      by_cases hlookup : opcode' = 0xab
      · rw [if_pos hlookup] at h ⊢
        exact lookupSwitchLength_local h hoffset hfront
      rw [if_neg hlookup] at h ⊢
      exact h

/-- Code that starts with the same octets, at an offset that is the same modulo four, starts with
the same instruction. -/
theorem lengthAt_local {offset offset' n : Nat} {code code' : Bytes}
    (h : lengthAt offset code = .ok n) (hoffset : offset' % 4 = offset % 4)
    (hfront : code'.take n = code.take n) : lengthAt offset' code' = .ok n := by
  obtain ⟨hwanted, hn⟩ := lengthAt_eq_ok_iff.1 h
  have hlength := congrArg List.length hfront
  rw [List.length_take, List.length_take] at hlength
  exact lengthAt_eq_ok_iff.2 ⟨wantedLength_local hwanted hoffset hfront, by omega⟩

/-! ## Parts in their places -/

theorem isInstructionAt_take {offset n : Nat} {code : Bytes} (h : lengthAt offset code = .ok n) :
    IsInstructionAt offset (code.take n) := by
  obtain ⟨-, hn⟩ := lengthAt_bounds h
  have hlength : (code.take n).length = n := by rw [List.length_take, Nat.min_eq_left hn]
  intro rest
  rw [hlength]
  apply lengthAt_local h rfl
  rw [List.take_append_of_le_length (by omega), List.take_take, Nat.min_self]

theorem IsInstructionAt.ne_nil {offset : Nat} {octets : Bytes} (h : IsInstructionAt offset octets) :
    octets ≠ [] := by
  rintro rfl
  have hpos := (lengthAt_bounds (h [])).1
  exact absurd hpos (Nat.lt_irrefl 0)

theorem IsInstructionAt.congr {offset offset' : Nat} {octets : Bytes}
    (h : IsInstructionAt offset octets) (hoffset : offset' % 4 = offset % 4) :
    IsInstructionAt offset' octets := fun rest => lengthAt_local (h rest) hoffset rfl

/-- Instructions where they stand, one after another, the first at `offset`. -/
def InPlace (offset : Nat) : List Bytes → Prop
  | [] => True
  | part :: parts => IsInstructionAt offset part ∧ InPlace (offset + part.length) parts

theorem InPlace.congr {offset offset' : Nat} {parts : List Bytes} (h : InPlace offset parts)
    (hoffset : offset' % 4 = offset % 4) : InPlace offset' parts := by
  induction parts generalizing offset offset' with
  | nil => trivial
  | cons part parts ih => exact ⟨h.1.congr hoffset, ih h.2 (by omega)⟩

theorem InPlace.ne_nil {offset : Nat} {parts : List Bytes} (h : InPlace offset parts) :
    ∀ part ∈ parts, part ≠ [] := by
  induction parts generalizing offset with
  | nil => simp
  | cons part parts ih => exact List.forall_mem_cons.2 ⟨h.1.ne_nil, ih h.2⟩

theorem exists_lengthAt_of_splitAfter {offset : Nat} {code part : Bytes} {parts : List Bytes}
    (h : splitAfter [] offset code = .ok (part :: parts)) :
    ∃ n, lengthAt offset code = .ok n ∧ part = code.take n ∧
      splitAfter [] (offset + n) (code.drop n) = .ok parts := by
  cases hlength : lengthAt offset code with
  | error e =>
    rw [splitAfter] at h
    split at h
    · cases h
    · split at h
      · cases h
      · rename_i n hn
        rw [hlength] at hn
        cases hn
  | ok n =>
    rw [splitAfter_of_lengthAt hlength] at h
    cases hrest : splitAfter [] (offset + n) (code.drop n) with
    | error e => simp [hrest, Except.map] at h
    | ok others =>
      simp only [hrest, Except.map, Except.ok.injEq, List.cons.injEq] at h
      exact ⟨n, rfl, h.1.symm, hrest.trans (congrArg Except.ok h.2)⟩

theorem InPlace.splitAfter_append {offset : Nat} {parts : List Bytes} (h : InPlace offset parts)
    (back : Bytes) :
    splitAfter [] offset (parts.flatten ++ back) =
      (splitAfter [] (offset + parts.flatten.length) back).map (parts ++ ·) := by
  induction parts generalizing offset with
  | nil =>
    rw [List.flatten_nil, List.nil_append, List.length_nil, Nat.add_zero]
    cases splitAfter [] offset back <;> rfl
  | cons part parts ih =>
    rw [List.flatten_cons, List.append_assoc, Bytecode.splitAfter_append h.1, ih h.2,
      List.length_append, Nat.add_assoc]
    cases splitAfter [] (offset + (part.length + parts.flatten.length)) back <;> rfl

/-- Code is cut into the parts that it consists of, each an instruction in its place. -/
theorem splitAfter_eq_ok_iff {offset : Nat} {code : Bytes} {parts : List Bytes} :
    splitAfter [] offset code = .ok parts ↔ InPlace offset parts ∧ parts.flatten = code := by
  constructor
  · intro h
    refine ⟨?_, flatten_of_splitAfter h⟩
    induction parts generalizing offset code with
    | nil => trivial
    | cons part parts ih =>
      obtain ⟨n, hlength, rfl, hrest⟩ := exists_lengthAt_of_splitAfter h
      have hn : (code.take n).length = n := by
        rw [List.length_take, Nat.min_eq_left (lengthAt_bounds hlength).2]
      refine ⟨isInstructionAt_take hlength, ?_⟩
      rw [hn]
      exact ih hrest
  · rintro ⟨h, rfl⟩
    have hall := h.splitAfter_append []
    rw [List.append_nil, splitAfter_nil] at hall
    rw [hall]
    exact congrArg Except.ok (List.append_nil parts)

theorem splitAfter_congr {offset offset' : Nat} {code : Bytes} {parts : List Bytes}
    (hoffset : offset' % 4 = offset % 4) :
    splitAfter [] offset' code = .ok parts ↔ splitAfter [] offset code = .ok parts := by
  rw [splitAfter_eq_ok_iff, splitAfter_eq_ok_iff]
  constructor
  · exact fun h => ⟨h.1.congr hoffset.symm, h.2⟩
  · exact fun h => ⟨h.1.congr hoffset, h.2⟩

/-! ## Code that is put together -/

/-- Cutting loses no octet and gives no empty part. Behind code that ends at a multiple of four,
other code is cut as it is on its own. An instruction is found by its own octets and by its offset
modulo four, and lies within the code. -/
theorem split_compositional :
    (∀ code parts, split code = .ok parts → (∀ part ∈ parts, part ≠ []) ∧ parts.flatten = code) ∧
      (∀ front back parts, front.length % 4 = 0 → split front = .ok parts → ∀ whole,
        split (front ++ back) = .ok whole ↔
          ∃ others, split back = .ok others ∧ whole = parts ++ others) ∧
      ∀ offset code n, lengthAt offset code = .ok n → 0 < n ∧ n ≤ code.length ∧
        ∀ offset' code', offset' % 4 = offset % 4 → code'.take n = code.take n →
          lengthAt offset' code' = .ok n := by
  refine ⟨?_, ?_, ?_⟩
  · intro code parts h
    obtain ⟨hparts, hflatten⟩ := splitAfter_eq_ok_iff.1 h
    exact ⟨hparts.ne_nil, hflatten⟩
  · intro front back parts hfront h whole
    obtain ⟨hparts, rfl⟩ := splitAfter_eq_ok_iff.1 h
    -- what follows starts at a multiple of four, which is as good as the start
    have hback (others : List Bytes) :
        splitAfter [] (0 + parts.flatten.length) back = .ok others ↔ split back = .ok others :=
      splitAfter_congr (by omega)
    rw [split, hparts.splitAfter_append back]
    simp only [← hback]
    cases splitAfter [] (0 + parts.flatten.length) back with
    | error e => simp [Except.map]
    | ok others => simp [Except.map, eq_comm]
  · intro offset code n h
    obtain ⟨hpos, hn⟩ := lengthAt_bounds h
    exact ⟨hpos, hn, fun offset' code' => lengthAt_local h⟩

/-- An instruction, and a `tableswitch` without entries: its low key is above its high one. -/
def emptyTable : Bytes := [0x03, 0xaa, 9, 9, 0, 0, 0, 20, 0, 0, 0, 1, 0, 0, 0, 0]

/-- A `lookupswitch` without pairs, and an instruction. -/
def emptyLookup : Bytes := [0xab, 7, 7, 7, 0, 0, 0, 12, 0, 0, 0, 0, 0xb1]

theorem split_compositional_sample :
    split emptyTable = .ok [[0x03], emptyTable.drop 1] ∧
      (∀ part ∈ [[0x03], emptyTable.drop 1], part ≠ []) ∧
      split emptyLookup = .ok [emptyLookup.take 12, [0xb1]] ∧ emptyTable.length % 4 = 0 ∧
      split (emptyTable ++ emptyLookup) =
        .ok [[0x03], emptyTable.drop 1, emptyLookup.take 12, [0xb1]] ∧
      lengthAt 1 (emptyTable.drop 1) = .ok 15 ∧ lengthAt 5 (emptyTable.drop 1 ++ [0xff]) = .ok 15 := by
  have hfront : split emptyTable = .ok [[0x03], emptyTable.drop 1] := by decide +kernel
  have hback : split emptyLookup = .ok [emptyLookup.take 12, [0xb1]] := by decide +kernel
  have hlength : lengthAt 1 (emptyTable.drop 1) = .ok 15 := by decide +kernel
  obtain ⟨hlossless, happend, hlocal⟩ := split_compositional
  exact ⟨hfront, (hlossless _ _ hfront).1, hback, rfl,
    (happend _ _ _ rfl hfront _).2 ⟨_, hback, rfl⟩, hlength, (hlocal _ _ _ hlength).2.2 5 _ rfl rfl⟩

end Bytecode

end PlatformLink
