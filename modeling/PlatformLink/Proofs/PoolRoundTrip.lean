import PlatformLink.Proofs.AddedConstants
import PlatformLink.Proofs.PoolRequests

/-! # Pools and their octets

A pool that was read is written in the octets that it was read from, and no others. A pool that
came about by requests for texts that fit (`ConstantPool.Reached`) keeps the shape in which pools
are read, a slot for every entry and a second one behind a wide entry, and so it is read back from
what is written for it (`ConstantPool.octets_round_trip`).
-/

namespace PlatformLink
set_option autoImplicit false

namespace Request

def texts : Request → List String
  | .text value => [value]
  | .className name => [name]
  | .string value => [value]
  | .nameAndType name descriptor => [name, descriptor]
  | .methodRef owner name descriptor _ => [owner, name, descriptor]

theorem adds_perform {r : Request} (h : ∀ text ∈ r.texts, ModifiedUtf8.Fits text) :
    Interning.Adds Constant.IsNarrow r.perform := by
  cases r with
  | text value => exact Interning.adds_text (h value (by simp [texts]))
  | className name => exact Interning.adds_className (h name (by simp [texts]))
  | string value => exact Interning.adds_string (h value (by simp [texts]))
  | nameAndType name descriptor =>
    exact Interning.adds_nameAndType (h name (by simp [texts])) (h descriptor (by simp [texts]))
  | methodRef owner name descriptor interface =>
    exact Interning.adds_methodRef interface (h owner (by simp [texts])) (h name (by simp [texts]))
      (h descriptor (by simp [texts]))

end Request

namespace ConstantPool

/-- The empty pool, the pools that are read, and what requests for texts that fit make of them,
those that fail included. -/
inductive Reached : ConstantPool → Prop
  | empty : Reached empty
  | read {start stop : Cursor} {pool : ConstantPool}
    (h : ConstantPool.read start = .ok (pool, stop)) : Reached pool
  | request {pool : ConstantPool} (h : Reached pool) (r : Request)
    (fits : ∀ text ∈ r.texts, ModifiedUtf8.Fits text) : Reached (r.perform pool).2

theorem slotted_perform {pool : ConstantPool} (h : Slotted pool.entries.toList) {r : Request}
    (fits : ∀ text ∈ r.texts, ModifiedUtf8.Fits text) :
    Slotted (r.perform pool).2.entries.toList := by
  obtain ⟨added, hadded, hnarrow⟩ := Request.adds_perform fits pool
  rw [hadded]
  exact slotted_append h hnarrow

theorem Reached.slotted {pool : ConstantPool} (h : Reached pool) : Slotted pool.entries.toList := by
  induction h with
  | empty => exact .nil
  | read h =>
    obtain ⟨_, ⟨-, hslotted⟩, -⟩ := (reads_read _ _ _).1 h
    exact hslotted
  | request _ r fits ih => exact slotted_perform ih fits

/-- What is read as a pool is the octets written for the pool, whatever follows them. What is
written for a pool that has come about is read as that pool, to the last octet. -/
theorem octets_round_trip :
    (∀ base octets pool stop, read ⟨base, octets⟩ = .ok (pool, stop) →
      ∃ n, n ≤ octets.length ∧ stop = ⟨base + n, octets.drop n⟩ ∧ pool.encode = octets.take n ∧
        ∀ base' suffix,
          read ⟨base', octets.take n ++ suffix⟩ = .ok (pool, ⟨base' + n, suffix⟩)) ∧
      ∀ pool, Reached pool → ∀ base suffix,
        read ⟨base, pool.encode ++ suffix⟩ = .ok (pool, ⟨base + pool.encode.length, suffix⟩) := by
  have hback (pool : ConstantPool) (h : Slotted pool.entries.toList) (base : Nat) (suffix : Bytes) :
      read ⟨base, pool.encode ++ suffix⟩ = .ok (pool, ⟨base + pool.encode.length, suffix⟩) :=
    reads_read.apply ⟨rfl, h⟩ base suffix
  constructor
  · rintro base octets pool ⟨offset, rest⟩ h
    obtain ⟨_, ⟨rfl, hslotted⟩, hoctets, hoffset⟩ := (reads_read _ _ _).1 h
    have hfront : octets = pool.encode ++ rest := hoctets
    have htake : octets.take pool.encode.length = pool.encode := by rw [hfront, List.take_left]
    refine ⟨pool.encode.length, ?_, ?_, htake.symm, fun base' suffix => ?_⟩
    · rw [hfront, List.length_append]
      exact Nat.le_add_right _ _
    · rw [hfront, List.drop_left]
      exact congrArg (Cursor.mk · rest) hoffset
    · rw [htake]
      exact hback pool hslotted base' suffix
  · exact fun pool h => hback pool h.slotted

/-- A wide entry and a text, and an octet that is not part of the pool. -/
def wideOctets : Bytes := [0, 4, 5, 0, 0, 0, 0, 0, 0, 0, 42, 1, 0, 2, 0x68, 0x69, 0xff]

def widePool : ConstantPool := ⟨#[.long 42, .unusable, .utf8 [0x68, 0x69]], by decide⟩

/-- The pool after a request that finds the text it holds and adds five entries. -/
def grownPool : ConstantPool := ((Request.methodRef "hi" "run" "()V" true).perform widePool).2

theorem octets_round_trip_sample :
    read ⟨7, wideOctets⟩ = .ok (widePool, ⟨23, [0xff]⟩) ∧
      (∃ n, n ≤ wideOctets.length ∧ ⟨23, [0xff]⟩ = Cursor.mk (7 + n) (wideOctets.drop n) ∧
        widePool.encode = wideOctets.take n ∧ ∀ base' suffix,
          read ⟨base', wideOctets.take n ++ suffix⟩ = .ok (widePool, ⟨base' + n, suffix⟩)) ∧
      Reached grownPool ∧ read ⟨3, grownPool.encode ++ [0xff]⟩ =
        .ok (grownPool, ⟨3 + grownPool.encode.length, [0xff]⟩) := by
  have hread : read ⟨7, wideOctets⟩ = .ok (widePool, ⟨23, [0xff]⟩) := by decide +kernel
  have hreached : Reached grownPool := .request (.read hread) _ (by decide +kernel)
  exact ⟨hread, octets_round_trip.1 _ _ _ _ hread, hreached,
    octets_round_trip.2 _ hreached 3 [0xff]⟩

end ConstantPool

end PlatformLink
