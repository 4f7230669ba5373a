import ValkeyWasm.Listpack.Validation

/-! The validation loop on the 32-bit target.
The end of an entry is a 32-bit address, so an entry with a length near 2^32 can end before
it starts. As long as no accepted entry does, the cursor climbs and the loop ends. -/
namespace ValkeyWasm.Listpack
open Option Bool
open Hashtable (Layout)

variable {L : Layout}

namespace Block

variable {lp : Block L} {p : Nat}

theorem load_inside (inside : p < lp.size) : lp.load p = some (lp.bytes p).toNat := load_eq_some.mpr ⟨inside,rfl⟩

theorem encodedSize_returns {byte : Nat} (inside : p < lp.size) (loaded : lp.load p = some byte)
    (ahead : headerSize ≤ plus L p (kind byte).lenbytes) (readable : plus L p (kind byte).lenbytes < lp.size) :
    ∃ size, lp.lpCurrentEncodedSizeUnsafe p = some size := by
  have fits := lp.size_le
  rw [lpCurrentEncodedSizeUnsafe,loaded]
  change ∃ size, lp.sizeUnsafe p byte (kind byte) = some size
  have whole : plus L p (kind byte).lenbytes = p + (kind byte).lenbytes :=
    plus_eq_of_ahead (by omega) (by cases kind byte <;> decide) ahead
  rw [whole] at readable
  cases shape : kind byte <;> rw [shape] at readable
  case str12 =>
    change p + 2 < lp.size at readable
    rw [sizeUnsafe,plus_eq (by omega),load_inside (by omega)]
    exact ⟨_,rfl⟩
  case str32 =>
    change p + 5 < lp.size at readable
    rw [sizeUnsafe,plus_eq (by omega),loadLE_inside (by omega)]
    exact ⟨_,rfl⟩
  all_goals exact ⟨_,rfl⟩

theorem decodeLoop_returns {rounds : Nat} (shift val : Nat) (inside : p < lp.size) (behind : rounds ≤ p + 1) :
    ∃ prevlen, lp.decodeLoop rounds p shift val = some prevlen := by
  have fits := lp.size_le
  induction rounds generalizing p shift val with
  | zero => exact ⟨_,rfl⟩
  | succ rounds ih =>
    rw [decodeLoop,load_inside inside,bind_eq_bind,bind_some]
    dsimp only
    split
    · exact ⟨_,rfl⟩
    cases rounds with
    | zero => exact ⟨_,rfl⟩
    | succ rounds =>
      rw [minus_eq (by omega) (by omega)]
      exact ih _ _ (by omega) (by omega)

theorem decode_returns (inside : p < lp.size) (behind : 4 ≤ p) : ∃ prevlen, lp.lpDecodeBacklen p = some prevlen :=
  decodeLoop_returns 0 0 inside (by omega)

theorem validateNext_returns (within : Within lp lp.size) (pointer : p < 2^L.sizeBits) :
    ∃ verdict, lp.lpValidateNext (some p) lp.size = some verdict := by
  have fits := lp.size_le
  unfold lpValidateNext
  dsimp only
  split
  · exact ⟨_,rfl⟩
  rename_i range
  rw [not_eq_true,outOfRange_false within pointer] at range
  have loaded := load_inside range.2
  rw [loaded,bind_eq_bind,bind_some]
  split
  · split <;> exact ⟨_,rfl⟩
  rw [lpCurrentEncodedSizeBytes,loaded]
  simp only [bind_eq_bind,bind_some,pure_def]
  split
  · exact ⟨_,rfl⟩
  split
  · exact ⟨_,rfl⟩
  rename_i readable
  rw [not_eq_true,outOfRange_false within (plus_lt L _ _)] at readable
  obtain ⟨size,sized⟩ := encodedSize_returns range.2 loaded readable.1 readable.2
  rw [entryLength,sized]
  simp only [bind_eq_bind,bind_some,pure_def]
  split
  · exact ⟨_,rfl⟩
  rename_i ends
  rw [not_eq_true,outOfRange_false within (plus_lt L _ _)] at ends
  have behind := ends.1
  unfold headerSize at behind
  rw [minus_eq (by omega) (plus_lt L _ _)]
  have back : plus L p ((size + backlenSize size) % 2^L.sizeBits) - 1 < lp.size := by omega
  obtain ⟨prevlen,decoded⟩ := decode_returns back (by omega)
  rw [decoded,bind_some]
  split <;> exact ⟨_,rfl⟩

variable {next : Nat}

theorem Accepted.entryLength_pos {lp : Block .bits32} {entrylen : Nat} (accepted : Accepted lp lp.size p next)
    (length : lp.entryLength p = some entrylen) : 0 < entrylen ∧ entrylen < 2^32 ∧ next = plus .bits32 p entrylen := by
  obtain ⟨size,prevlen,sized,reaches,decoded,agree⟩ := accepted.lengths
  rw [entryLength,sized] at length
  cases length
  have small := encodedSize_lt sized
  have backlen := backlenSize_le size
  refine ⟨?_,Nat.mod_lt _ (by decide),reaches⟩
  by_contra zero
  simp only [Layout.sizeBits] at agree zero
  rcases decode_cases decoded with below | broken
  · have positive := backlenSize_pos size
    omega
  unfold uint64Max at broken
  -- the decoder has failed and the backlen has one byte, so the entry is short and does not wrap
  have one : backlenSize size = 1 := by omega
  have short : size ≤ 127 := by
    unfold backlenSize at one
    grind
  omega

theorem Accepted.climbs_iff {lp : Block .bits32} {entrylen : Nat} (accepted : Accepted lp lp.size p next)
    (length : lp.entryLength p = some entrylen) : p < next ↔ lp.address + p + entrylen < 2^32 := by
  obtain ⟨positive,word,reaches⟩ := accepted.entryLength_pos length
  have fits := lp.fits
  have inside := accepted.range
  have target := accepted.target
  unfold plus at reaches
  simp only [Layout.sizeBits] at reaches fits
  omega

theorem Accepted.entryLength (accepted : Accepted lp lp.size p next) : ∃ entrylen, lp.entryLength p = some entrylen := by
  obtain ⟨size,prevlen,sized,-,-,-⟩ := accepted.lengths
  rw [Block.entryLength,sized]
  exact ⟨_,rfl⟩

theorem validateLoop_ends (within : Within lp lp.size) (climbs : ∀ p next, Accepted lp lp.size p next → p < next)
    {rounds : Nat} (count : Nat) (inside : p < lp.size) (enough : lp.size ≤ rounds + p) :
    ∃ result, lp.validateLoop lp.size rounds (some p) count = some (.done result) := by
  have fits := lp.size_le
  induction rounds generalizing p count with
  | zero => omega
  | succ rounds ih =>
    rw [validateLoop,load_inside inside,bind_eq_bind,bind_some]
    split
    · exact ⟨_,rfl⟩
    rename_i entry
    obtain ⟨verdict,validated⟩ := validateNext_returns within (p := p) (by omega)
    rw [validated,bind_eq_bind,bind_some]
    cases verdict with
    | invalid => exact ⟨_,rfl⟩
    | valid next =>
      obtain ⟨terminator,-⟩ | ⟨q,rfl,accepted⟩ := validateNext_cases within (by omega) validated
      · exact absurd (load_eq_some.mp terminator).2 entry
      · have up := climbs p q accepted
        exact ih _ accepted.target.2 (by omega)

theorem validateIntegrity_ends (climbs : ∀ p next, Accepted lp lp.size p next → p < next) :
    ∃ answer, lp.lpValidateIntegrity lp.size lp.size true = some (.done answer) := by
  unfold lpValidateIntegrity
  split
  · exact ⟨_,rfl⟩
  rename_i large
  unfold headerSize at large
  have total : lp.lpGetTotalBytes = some _ := loadLE_inside (by omega)
  have counted : lp.lpGetNumElements = some _ := loadLE_inside (by omega)
  rw [total,bind_eq_bind,bind_some]
  split
  · exact ⟨_,rfl⟩
  rename_i sized
  rw [not_ne_iff] at sized
  rw [load_inside (by omega),bind_eq_bind,bind_some]
  split
  · exact ⟨_,rfl⟩
  have within : Within lp lp.size := ⟨by unfold headerSize; omega,le_rfl⟩
  obtain ⟨result,looped⟩ := validateLoop_ends within climbs 0 within.nonempty (show lp.size ≤ lp.size + headerSize by omega)
  rw [counted,sized]
  simp only [Bool.not_true,Bool.false_eq_true,if_false,bind_some,looped,pure_def]
  match result with
  | none => exact ⟨_,rfl⟩
  | some (p,count) =>
    dsimp only
    split
    · exact ⟨_,rfl⟩
    · split <;> exact ⟨_,rfl⟩

end Block

/-- With 32-bit addresses a successful `lpValidateNext` moves the cursor up exactly when the entry
ends below 2^32, and when all accepted entries do, the validation ends after at most `size` entries. -/
theorem lpValidateIntegrity_terminates (lp : Block .bits32) (nonempty : headerSize < lp.size) :
    (∀ p next entrylen, p < 2^32 → lp.lpValidateNext (some p) lp.size = some (.valid (some next)) → lp.entryLength p = some entrylen →
      (p < next ↔ lp.address + p + entrylen < 2^32)) ∧
    ((∀ p next entrylen, p < 2^32 → lp.lpValidateNext (some p) lp.size = some (.valid (some next)) → lp.entryLength p = some entrylen →
      lp.address + p + entrylen < 2^32) → ∃ answer, lp.lpValidateIntegrity lp.size lp.size true = some (.done answer)) := by
  constructor
  · intro p next entrylen pointer validated length
    obtain ⟨-,impossible⟩ | ⟨q,same,accepted⟩ := Block.validateNext_cases ⟨nonempty,le_rfl⟩ pointer validated
    · cases impossible
    · cases same
      exact accepted.climbs_iff length
  · intro unwrapped
    apply Block.validateIntegrity_ends
    intro p next accepted
    have pointer : p < 2^32 := lt_of_lt_of_le accepted.range.2 lp.size_le
    obtain ⟨entrylen,length⟩ := accepted.entryLength
    exact (accepted.climbs_iff length).mpr (unwrapped p next entrylen pointer (accepted.validateNext ⟨nonempty,le_rfl⟩) length)

def singleBlock : Block .bits32 := ⟨1024,9,fun i => [9,0,0,0,1,0,5,1,0xFF].getD i 0,by decide⟩

theorem lpValidateIntegrity_terminates_single : 6 < 8 ↔ singleBlock.address + 6 + 2 < 2^32 :=
  (lpValidateIntegrity_terminates singleBlock (by decide)).1 6 8 2 (by decide) (by decide) (by decide)

/-- An entry of two bytes, then a string whose length takes the cursor back to the first entry; the
header doubles as the stored length of that string. -/
def cyclicBlock : Block .bits32 :=
  ⟨1024,0xFFFF0F00,fun i => if i = 0xFFFF0EFF then 0xFF else [0,0x0F,0xFF,0xFF,0xFF,0xF9,1,1,0xF0,0xF4,0xFF,0xFF,0xFF].getD i 0,by decide⟩

theorem cyclicBlock_runs (rounds count : Nat) :
    cyclicBlock.validateLoop cyclicBlock.size rounds (some 6) count = some .running ∧
    cyclicBlock.validateLoop cyclicBlock.size rounds (some 8) count = some .running := by
  have first : cyclicBlock.lpValidateNext (some 6) cyclicBlock.size = some (.valid (some 8)) := by decide
  have second : cyclicBlock.lpValidateNext (some 8) cyclicBlock.size = some (.valid (some 6)) := by decide
  induction rounds generalizing count with
  | zero => exact ⟨rfl,rfl⟩
  | succ rounds ih =>
    constructor
    · rw [Block.validateLoop,first]
      exact (ih _).2
    · rw [Block.validateLoop,second]
      exact (ih _).1

theorem lpValidateIntegrity_cycles :
    cyclicBlock.lpValidateNext (some 8) cyclicBlock.size = some (.valid (some 6)) ∧
    ∀ rounds, cyclicBlock.lpValidateIntegrity rounds cyclicBlock.size true = some .running := by
  refine ⟨by decide,?_⟩
  intro rounds
  have total : cyclicBlock.lpGetTotalBytes = some cyclicBlock.size := by decide
  have last : cyclicBlock.load (cyclicBlock.size - 1) = some eof := by decide
  have counted : cyclicBlock.lpGetNumElements = some 0xF9FF := by decide
  have large : ¬cyclicBlock.size < headerSize + 1 := by decide
  have start : cyclicBlock.validateLoop cyclicBlock.size rounds (some headerSize) 0 = some .running := (cyclicBlock_runs rounds 0).1
  rw [Block.lpValidateIntegrity,if_neg large,total]
  simp only [bind_eq_bind,bind_some,ne_eq,not_true_eq_false,if_false,last,counted,start,Bool.not_true,Bool.false_eq_true,
    pure_def]

end ValkeyWasm.Listpack
