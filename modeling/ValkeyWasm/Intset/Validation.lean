import ValkeyWasm.Intset.Intset

/-! Checking an untrusted intset payload on the 32-bit target.
The payload is read from a memory of 32-bit addresses, and `size_t` has 32 bits, so both
the addresses of the records and the size that the check computes wrap. -/
namespace ValkeyWasm.Intset
open Library.Memory Nat

def payload (mem : BitVec 32 → BitVec 8) (p : BitVec 32) : Bytes := fun i => mem (p + BitVec.ofNat 32 i)

def payloadEncoding (bytes : Bytes) : Nat := readLE bytes 0 4

def payloadLength (bytes : Bytes) : Nat := readLE bytes 4 4

def recordEncoding (encoding : Nat) : Option Encoding :=
  if encoding = 8 then some .int64 else if encoding = 4 then some .int32 else if encoding = 2 then some .int16 else none

def payloadGet (bytes : Bytes) (enc : Encoding) (pos : Nat) : Int :=
  signed enc.bytes (readLE bytes (headerSize + pos * enc.bytes) enc.bytes)

def ascending (bytes : Bytes) (enc : Encoding) : Nat → Nat → Int → Bool
  | 0, _, _ => true
  | left + 1, i, prev =>
    let cur := payloadGet bytes enc i
    if cur ≤ prev then false else ascending bytes enc left (i + 1) cur

def intsetValidateIntegrity (mem : BitVec 32 → BitVec 8) (p size : BitVec 32) (deep : Bool) : Bool :=
  let bytes := payload mem p
  if size.toNat < headerSize then false
  else
    match recordEncoding (payloadEncoding bytes) with
    | none => false
    | some enc =>
      let count := payloadLength bytes
      if (headerSize + count * enc.bytes) % 2^32 ≠ size.toNat then false
      else if count = 0 then false
      else if !deep then true
      else ascending bytes enc (count - 1) 1 (payloadGet bytes enc 0)

theorem recordEncoding_some {encoding : Nat} {enc : Encoding} (known : recordEncoding encoding = some enc) : encoding = enc.bytes := by
  unfold recordEncoding at known
  split at known
  · cases known; assumption
  split at known
  · cases known; assumption
  · split at known
    · cases known; assumption
    · cases known

theorem size_of_accepted {mem : BitVec 32 → BitVec 8} {p size : BitVec 32} {deep : Bool}
    (accepted : intsetValidateIntegrity mem p size deep = true) :
    (headerSize + payloadLength (payload mem p) * payloadEncoding (payload mem p)) % 2^32 = size.toNat := by
  unfold intsetValidateIntegrity at accepted
  dsimp only at accepted
  split at accepted
  · cases accepted
  split at accepted
  · cases accepted
  rename_i enc known
  split at accepted
  · cases accepted
  · rename_i sized
    rw [recordEncoding_some known]
    exact not_ne_iff.mp sized

/-- An accepted payload has the size its header states, with every record inside, exactly
when that size does not wrap. -/
theorem intsetValidateIntegrity_size (mem : BitVec 32 → BitVec 8) (p size : BitVec 32) (deep : Bool)
    (accepted : intsetValidateIntegrity mem p size deep = true) :
    (headerSize + payloadLength (payload mem p) * payloadEncoding (payload mem p) = size.toNat ∧
      ∀ pos < payloadLength (payload mem p), ∀ k < payloadEncoding (payload mem p), ∃ offset < size.toNat,
        p + BitVec.ofNat 32 (headerSize + pos * payloadEncoding (payload mem p) + k) = p + BitVec.ofNat 32 offset) ↔
    headerSize + payloadLength (payload mem p) * payloadEncoding (payload mem p) < 2^32 := by
  have sized := size_of_accepted accepted
  constructor
  · rintro ⟨stated,-⟩
    rw [stated]
    exact size.isLt
  intro fits
  rw [mod_eq_of_lt fits] at sized
  refine ⟨sized,?_⟩
  intro pos inside k below
  refine ⟨headerSize + pos * payloadEncoding (payload mem p) + k,?_,rfl⟩
  -- record `pos` ends where record `pos + 1` starts
  have next := cell_le inside (payloadEncoding (payload mem p))
  omega

def pairPayload : BitVec 32 → BitVec 8 := fun a =>
  if a = 0 then 2 else if a = 4 then 2 else if a = 8 then 1 else if a = 10 then 2 else 0

theorem intsetValidateIntegrity_size_pair :
    intsetValidateIntegrity pairPayload 0 12 true = true ∧ headerSize + payloadLength (payload pairPayload 0) * payloadEncoding (payload pairPayload 0) = 12 := by
  have accepted : intsetValidateIntegrity pairPayload 0 12 true = true := by decide
  exact ⟨accepted,((intsetValidateIntegrity_size pairPayload 0 12 true accepted).mpr (by decide)).1⟩

def wrappingPayload : BitVec 32 → BitVec 8 := fun a =>
  if a = 0 then 8 else if a = 4 then 1 else if a = 7 then 0x20 else 0

theorem intsetValidateIntegrity_wraps :
    intsetValidateIntegrity wrappingPayload 0 16 false = true ∧
    headerSize + payloadLength (payload wrappingPayload 0) * payloadEncoding (payload wrappingPayload 0) ≠ 16 ∧
    1 < payloadLength (payload wrappingPayload 0) ∧
    ∀ offset < 16, (0 : BitVec 32) + BitVec.ofNat 32 (headerSize + 1 * payloadEncoding (payload wrappingPayload 0)) ≠ 0 + BitVec.ofNat 32 offset := by
  decide

end ValkeyWasm.Intset
