import ValkeyWasm.Listpack.Block
import Mathlib.Tactic.NormNum

/-! What acceptance of a listpack says.
An accepted entry is inverted once into its facts. Along the accepted entries the forward
traversal follows the encoded sizes and the backward one the stored lengths, and the
validation has compared the two. -/
namespace ValkeyWasm.Listpack
open Library.Memory List Option Bool Nat
open Hashtable (Layout)

variable {L : Layout}

theorem two_pow_le (L : Layout) : 2^32 ≤ 2^L.sizeBits := by
  cases L <;> decide

variable {p n : Nat}

theorem plus_eq (below : p + n < 2^L.sizeBits) : plus L p n = p + n := mod_eq_of_lt below

theorem plus_lt (L : Layout) (p n : Nat) : plus L p n < 2^L.sizeBits := mod_lt _ (by cases L <;> decide)

theorem minus_eq (le : n ≤ p) (below : p < 2^L.sizeBits) : minus L p n = p - n := by
  unfold minus
  rw [mod_eq_of_lt (lt_of_le_of_lt le below),show p + 2^L.sizeBits - n = p - n + 2^L.sizeBits by omega,add_mod_right]
  exact mod_eq_of_lt (by omega)

theorem backlenSize_pos (l : Nat) : 0 < backlenSize l := by
  unfold backlenSize
  grind

theorem backlenSize_le (l : Nat) : backlenSize l ≤ 5 := by
  unfold backlenSize
  grind

namespace Block

variable {lp : Block L} {byte : Nat}

theorem load_eq_some : lp.load p = some byte ↔ p < lp.size ∧ (lp.bytes p).toNat = byte := by
  unfold load
  split <;> simp [*]

theorem size_le (lp : Block L) : lp.size ≤ 2^L.sizeBits := le_trans (le_add_left _ _) lp.fits

theorem loadLE_lt {width value : Nat} (loaded : lp.loadLE p width = some value) : value < 256^width := by
  induction width generalizing p value with
  | zero =>
    cases loaded
    exact one_pos
  | succ width ih =>
    simp only [loadLE,bind_eq_bind,bind_eq_some_iff,Option.pure_def,Option.some.injEq] at loaded
    obtain ⟨byte,first,rest,others,rfl⟩ := loaded
    obtain ⟨-,same⟩ := load_eq_some.mp first
    have high := ih others
    rw [pow_succ]
    omega

structure Within (lp : Block L) (n : Nat) : Prop where
  nonempty : headerSize < n
  le : n ≤ lp.size

theorem Within.le_word (within : Within lp n) : n ≤ 2^L.sizeBits := within.le.trans lp.size_le

theorem outOfRange_iff {lp : Block L} (within : Within lp n) (pointer : p < 2^L.sizeBits) :
    lp.outOfRange n p = true ↔ p < headerSize ∨ n ≤ p := by
  have fits : lp.address + n ≤ 2^L.sizeBits := le_trans (Nat.add_le_add_left within.le _) lp.fits
  have nonempty := within.nonempty
  unfold headerSize at nonempty ⊢
  have first : plus L lp.address 6 = lp.address + 6 := plus_eq (by omega)
  have last : minus L (plus L lp.address n) 1 = lp.address + n - 1 := by
    rcases lt_or_ge (lp.address + n) (2^L.sizeBits) with below | full
    · rw [plus_eq below,minus_eq (by omega) below]
    have whole : lp.address + n = 2^L.sizeBits := le_antisymm fits full
    unfold plus minus
    rw [whole,mod_self,mod_eq_of_lt (show 1 < 2^L.sizeBits by omega),zero_add]
    exact mod_eq_of_lt (by omega)
  unfold outOfRange headerSize
  rw [or_eq_true,decide_eq_true_iff,decide_eq_true_iff,first,last]
  rcases lt_or_ge (lp.address + p) (2^L.sizeBits) with below | beyond
  · rw [plus_eq below]
    omega
  have wrapped : plus L lp.address p = lp.address + p - 2^L.sizeBits := by
    unfold plus
    rw [mod_eq_sub_mod beyond]
    exact mod_eq_of_lt (by omega)
  rw [wrapped]
  omega

variable {size : Nat}

theorem sizeUnsafe_lt {shape : Kind} (read : lp.sizeUnsafe p byte shape = some size) : size < 2^32 := by
  cases shape
  case str12 =>
    simp only [sizeUnsafe,bind_eq_bind,bind_eq_some_iff,Option.pure_def,Option.some.injEq] at read
    obtain ⟨low,second,rfl⟩ := read
    obtain ⟨-,same⟩ := load_eq_some.mp second
    omega
  case str32 =>
    simp only [sizeUnsafe,bind_eq_bind,bind_eq_some_iff,Option.pure_def,Option.some.injEq] at read
    obtain ⟨len,-,rfl⟩ := read
    exact mod_lt _ (by decide)
  all_goals
    cases read
    omega

theorem encodedSize_lt (read : lp.lpCurrentEncodedSizeUnsafe p = some size) : size < 2^32 := by
  obtain ⟨byte,-,read⟩ := bind_eq_some_iff.mp read
  exact sizeUnsafe_lt read

variable {rounds : Nat}

theorem decodeLoop_cases {shift val result : Nat} (decoded : lp.decodeLoop rounds p shift val = some result)
    (bits : shift + 7 * rounds = 35) (small : val < 2^shift) : result < 2^35 ∨ result = uint64Max := by
  induction rounds generalizing p shift val with
  | zero =>
    cases decoded
    exact Or.inr rfl
  | succ rounds ih =>
    simp only [decodeLoop,bind_eq_bind,bind_eq_some_iff] at decoded
    obtain ⟨byte,-,decoded⟩ := decoded
    have group : val + byte % 2^7 * 2^shift < 2^(shift + 7) := by
      have top : byte % 2^7 ≤ 127 := by omega
      have scaled := mul_le_mul_right (2^shift) top
      rw [pow_add]
      omega
    split at decoded
    · cases decoded
      exact Or.inl (lt_of_lt_of_le group (Nat.pow_le_pow_right (by decide) (by omega)))
    · exact ih decoded (by omega) group

theorem decode_cases {prevlen : Nat} (decoded : lp.lpDecodeBacklen p = some prevlen) :
    prevlen < 2^35 ∨ prevlen = uint64Max :=
  decodeLoop_cases decoded (by decide) (by decide)

structure Accepted (lp : Block L) (n p next : Nat) : Prop where
  range : headerSize ≤ p ∧ p < n
  entry : ∃ byte, lp.load p = some byte ∧ byte ≠ eof
  lenbytes : ∃ k, lp.lpCurrentEncodedSizeBytes p = some k ∧ k ≠ 0 ∧ headerSize ≤ plus L p k ∧ plus L p k < n
  target : headerSize ≤ next ∧ next < n
  lengths : ∃ size prevlen, lp.lpCurrentEncodedSizeUnsafe p = some size ∧ next = plus L p ((size + backlenSize size) % 2^L.sizeBits) ∧
    lp.lpDecodeBacklen (minus L next 1) = some prevlen ∧
    (prevlen + backlenSize size) % 2^64 = (size + backlenSize size) % 2^L.sizeBits

theorem outOfRange_false (within : Within lp n) (pointer : p < 2^L.sizeBits) :
    lp.outOfRange n p = false ↔ headerSize ≤ p ∧ p < n := by
  rw [← not_eq_true,outOfRange_iff within pointer]
  omega

theorem validateNext_cases (within : Within lp n) {next : Option Nat} (pointer : p < 2^L.sizeBits)
    (accepted : lp.lpValidateNext (some p) n = some (.valid next)) :
    (lp.load p = some eof ∧ next = none) ∨ ∃ q, next = some q ∧ Accepted lp n p q := by
  unfold lpValidateNext entryLength at accepted
  dsimp only at accepted
  split at accepted
  · cases accepted
  rename_i inside
  simp only [bind_eq_bind,bind_eq_some_iff] at accepted
  obtain ⟨byte,loaded,accepted⟩ := accepted
  split at accepted
  · rename_i terminator
    subst terminator
    split at accepted
    · cases accepted
    · cases accepted
      exact Or.inl ⟨loaded,rfl⟩
  rename_i other
  rw [bind_eq_some_iff] at accepted
  obtain ⟨k,bytes,accepted⟩ := accepted
  split at accepted
  · cases accepted
  rename_i known
  split at accepted
  · cases accepted
  rename_i readable
  simp only [bind_eq_some_iff] at accepted
  obtain ⟨size,sized,entrylen,⟨_,resized,length⟩,accepted⟩ := accepted
  rw [sized] at resized
  cases resized
  cases length
  split at accepted
  · cases accepted
  rename_i ends
  rw [bind_eq_some_iff] at accepted
  obtain ⟨prevlen,decoded,accepted⟩ := accepted
  split at accepted
  · cases accepted
  rename_i same
  cases accepted
  rw [not_eq_true,outOfRange_false within pointer] at inside
  rw [not_eq_true,outOfRange_false within (plus_lt L _ _)] at readable ends
  exact Or.inr ⟨_,rfl,inside,⟨byte,loaded,other⟩,⟨k,bytes,known,readable⟩,ends,size,prevlen,sized,rfl,decoded,not_ne_iff.mp same⟩

variable {next : Nat}

theorem Accepted.validateNext (within : Within lp n) (accepted : Accepted lp n p next) :
    lp.lpValidateNext (some p) n = some (.valid (some next)) := by
  obtain ⟨inside,⟨byte,loaded,other⟩,⟨k,bytes,known,readable⟩,ends,size,prevlen,sized,rfl,decoded,same⟩ := accepted
  have first := (outOfRange_false within (lt_of_lt_of_le inside.2 within.le_word)).mpr inside
  have second := (outOfRange_false within (plus_lt L p k)).mpr readable
  have third := (outOfRange_false within (plus_lt L p _)).mpr ends
  unfold lpValidateNext entryLength
  simp only [first,loaded,other,bytes,known,second,sized,third,decoded,same,bind_eq_bind,bind_some,Option.pure_def,
    if_false,false_eq_true,ne_eq,not_true_eq_false]

inductive Chain (lp : Block L) (n : Nat) : Nat → List Nat → Prop
  | stop (terminator : lp.load (n - 1) = some eof) : Chain lp n (n - 1) []
  | entry {p next : Nat} {ps : List Nat} (accepted : Accepted lp n p next) (rest : Chain lp n next ps) : Chain lp n p (p :: ps)

theorem chain_of_validateLoop (within : Within lp n) {count total : Nat} (pointer : p < 2^L.sizeBits)
    (looped : lp.validateLoop n rounds (some p) count = some (.done (some (some (n - 1),total)))) (counted : count < 2^32) :
    ∃ ps, Chain lp n p ps ∧ total = (count + ps.length) % 2^32 := by
  induction rounds generalizing p count with
  | zero => cases looped
  | succ rounds ih =>
    simp only [validateLoop,bind_eq_bind,bind_eq_some_iff] at looped
    obtain ⟨byte,loaded,looped⟩ := looped
    split at looped
    · rename_i terminator
      obtain ⟨rfl,rfl⟩ := looped
      subst terminator
      exact ⟨[],.stop loaded,(mod_eq_of_lt counted).symm⟩
    rename_i entry
    rw [bind_eq_some_iff] at looped
    obtain ⟨verdict,validated,looped⟩ := looped
    cases verdict with
    | invalid => cases looped
    | valid next =>
      obtain ⟨terminator,-⟩ | ⟨q,rfl,accepted⟩ := validateNext_cases within pointer validated
      · rw [loaded] at terminator
        exact absurd (Option.some.inj terminator) entry
      have fits := within.le_word
      have target := accepted.target
      obtain ⟨ps,chain,same⟩ := ih (by omega) looped (mod_lt _ (by decide))
      refine ⟨p :: ps,.entry accepted chain,?_⟩
      rw [same,length_cons,mod_add_mod]
      congr 1
      omega

theorem assertValidEntry_of_accepted (within : Within lp n) (accepted : Accepted lp n p next) :
    lp.lpAssertValidEntry n p = some () := by
  unfold lpAssertValidEntry
  rw [accepted.validateNext within]
  rfl

variable {ps : List Nat}

theorem Chain.entryAt (within : Within lp n) (chain : Chain lp n p ps) :
    lp.entryAt n p = some ps.head? := by
  have nonempty := within.nonempty
  unfold Block.entryAt
  cases chain with
  | stop terminator =>
    have last : plus L (n - 1) 1 = n % 2^L.sizeBits := by
      unfold plus
      congr 1
      omega
    rw [terminator]
    simp [last]
  | entry accepted rest =>
    obtain ⟨byte,loaded,other⟩ := accepted.entry
    rw [loaded]
    simp [other,assertValidEntry_of_accepted within accepted]

theorem Chain.validateLoop {count : Nat} (within : Within lp n) (chain : Chain lp n p ps)
    (enough : ps.length < rounds) (small : count + ps.length < 2^32) :
    lp.load (n - 1) = some eof ∧ lp.validateLoop n rounds (some p) count = some (.done (some (some (n - 1),count + ps.length))) := by
  induction chain generalizing rounds count with
  | stop terminator =>
    obtain ⟨rounds,rfl⟩ := exists_eq_succ_of_ne_zero (ne_zero_of_lt enough)
    rw [Block.validateLoop,terminator]
    exact ⟨rfl,rfl⟩
  | entry accepted rest ih =>
    obtain ⟨rounds,rfl⟩ := exists_eq_succ_of_ne_zero (ne_zero_of_lt enough)
    obtain ⟨byte,loaded,other⟩ := accepted.entry
    rw [length_cons] at enough small
    rw [Block.validateLoop,loaded,bind_eq_bind,bind_some,if_neg other,accepted.validateNext within,bind_eq_bind,bind_some]
    dsimp only
    rw [mod_eq_of_lt (show count + 1 < 2^32 by omega),length_cons,← Nat.add_assoc,add_right_comm]
    apply ih (lt_of_succ_lt_succ enough)
    omega

theorem Accepted.lpSkip (accepted : Accepted lp n p next) : lp.lpSkip p = some next := by
  obtain ⟨size,prevlen,sized,rfl,-,-⟩ := accepted.lengths
  unfold Block.lpSkip entryLength
  rw [sized]
  rfl

section
variable (within : Within lp n) (total : lp.lpGetTotalBytes = some n)
include within total

theorem Accepted.lpNext
    (accepted : Accepted lp n p next) (rest : Chain lp n next ps) : lp.lpNext p = some ps.head? := by
  rw [Block.lpNext,accepted.lpSkip,total]
  exact rest.entryAt within

theorem traverse_next
    (chain : Chain lp n p ps) (enough : ps.length ≤ rounds) : traverse lp.lpNext rounds ps.head? = some ps := by
  induction chain generalizing rounds with
  | stop terminator => cases rounds <;> rfl
  | entry accepted rest ih =>
    obtain ⟨rounds,rfl⟩ : ∃ k, rounds = k + 1 := ⟨rounds - 1,by rw [length_cons] at enough; omega⟩
    rw [head?_cons,traverse,accepted.lpNext within total rest]
    simp [ih (by simpa using enough)]

theorem countLoop_chain
    (chain : Chain lp n p ps) {count : Nat} (enough : ps.length ≤ rounds) (small : count + ps.length < 2^32) :
    lp.countLoop rounds ps.head? count = some (count + ps.length) := by
  induction chain generalizing rounds count with
  | stop terminator => cases rounds <;> rfl
  | entry accepted rest ih =>
    rw [length_cons] at enough small
    obtain ⟨rounds,rfl⟩ : ∃ k, rounds = k + 1 := ⟨rounds - 1,by omega⟩
    rw [head?_cons,countLoop,accepted.lpNext within total rest]
    simp only [bind_eq_bind,bind_some]
    rw [mod_eq_of_lt (by omega),ih (by omega) (by omega),length_cons]
    congr 1
    omega

end

structure Linked (lp : Block L) (p next size : Nat) : Prop where
  sized : lp.lpCurrentEncodedSizeUnsafe p = some size
  reaches : next = p + (size + backlenSize size)
  decoded : lp.lpDecodeBacklen (next - 1) = some size

theorem minus_wrapped {q : Nat} (positive : 0 < n) (le : n ≤ q + 1) (below : q < 2^L.sizeBits) :
    minus L q (n + uint64Max) = q + 1 - n := by
  have borrow : (n + uint64Max) % 2^L.sizeBits = (n - 1) % 2^L.sizeBits := by
    have words : 2^64 = 2^L.sizeBits * 2^(64 - L.sizeBits) := by cases L <;> rfl
    have split : n + uint64Max = n - 1 + 2^64 := by
      unfold uint64Max
      omega
    rw [split,words,add_mul_mod_self_left]
  have back := minus_eq (p := q) (n := n - 1) (by omega) below
  unfold minus at back ⊢
  rw [borrow,back]
  omega

theorem previous_eq (reaches : next = p + (size + backlenSize size)) (small : size < 2^32) (below : next < 2^L.sizeBits) :
    previous L next size = p := by
  have backlen := backlenSize_le size
  have positive := backlenSize_pos size
  have whole : (size + backlenSize size) % 2^64 = size + backlenSize size := mod_eq_of_lt (by omega)
  unfold previous
  rw [whole,minus_eq (by omega) below,minus_wrapped (by omega) (by omega) (by omega)]
  omega

theorem lpPrev_eq (lp : Block L) (p : Nat) : lp.lpPrev p = if p = headerSize then some none else
    (lp.lpDecodeBacklen (minus L p 1)).bind fun prevlen => lp.lpGetTotalBytes.bind fun bytes =>
      (lp.lpAssertValidEntry bytes (previous L p prevlen)).bind fun _ => some (some (previous L p prevlen)) := rfl

theorem Linked.lpPrev (within : Within lp n) (total : lp.lpGetTotalBytes = some n)
    (linked : Linked lp p next size) (accepted : Accepted lp n p next) : lp.lpPrev next = some (some p) := by
  have inside := accepted.range
  have target := accepted.target
  have fits := within.le_word
  have positive := backlenSize_pos size
  have reaches := linked.reaches
  have later : next ≠ headerSize := by omega
  have back : minus L next 1 = next - 1 := minus_eq (by omega) (by omega)
  have far : previous L next size = p := previous_eq reaches (encodedSize_lt linked.sized) (by omega)
  rw [lpPrev_eq,if_neg later,back,linked.decoded,bind_some,total,bind_some,far,
    assertValidEntry_of_accepted within accepted,bind_some]

theorem traverse_prev (within : Within lp n) (total : lp.lpGetTotalBytes = some n)
    (chain : Chain lp n p ps) (links : ∀ q ∈ ps, ∀ next, Accepted lp n q next → ∃ size, Linked lp q next size)
    {before : Option Nat} {visited : List Nat} (previous : lp.lpPrev p = some before)
    (walked : traverse lp.lpPrev rounds before = some visited) :
    ∃ last, lp.lpPrev (n - 1) = some last ∧ traverse lp.lpPrev (rounds + ps.length) last = some (ps.reverse ++ visited) := by
  induction chain generalizing rounds before visited with
  | stop terminator => exact ⟨before,previous,by simpa using walked⟩
  | @entry p next ps accepted rest ih =>
    obtain ⟨size,linked⟩ := links p mem_cons_self next accepted
    -- walking back from `next` first visits `p` and then what was walked from `p`
    have longer : traverse lp.lpPrev (rounds + 1) (some p) = some (p :: visited) := by
      rw [traverse,previous]
      simp [walked]
    obtain ⟨last,ends,all⟩ := ih (fun q member => links q (mem_cons_of_mem p member)) (linked.lpPrev within total accepted) longer
    refine ⟨last,ends,?_⟩
    rw [length_cons,reverse_cons,append_assoc,singleton_append,← all]
    congr 1
    omega

theorem traverse_mono {next : Nat → Option (Option Nat)} {more : Nat} {p : Option Nat}
    (walked : traverse next rounds p = some ps) (le : rounds ≤ more) : traverse next more p = some ps := by
  induction rounds generalizing more p ps with
  | zero =>
    cases p with
    | none => cases more <;> exact walked
    | some p => cases walked
  | succ rounds ih =>
    cases p with
    | none => cases more <;> exact walked
    | some p =>
      obtain ⟨more,rfl⟩ : ∃ k, more = k + 1 := ⟨more - 1,by omega⟩
      simp only [traverse,bind_eq_bind,bind_eq_some_iff] at walked ⊢
      obtain ⟨q,stepped,rest,walked,same⟩ := walked
      exact ⟨q,stepped,rest,ih walked (by omega),same⟩

theorem loadLE_inside {width : Nat} (inside : p + width ≤ lp.size) : lp.loadLE p width = some (readLE lp.bytes p width) := by
  have fits := lp.size_le
  induction width generalizing p with
  | zero => rfl
  | succ width ih =>
    have here : lp.load p = some (lp.bytes p).toNat := load_eq_some.mpr ⟨by omega,rfl⟩
    rw [loadLE,here]
    cases width with
    | zero => rfl
    | succ width =>
      rw [plus_eq (by omega),ih (by omega)]
      rfl

theorem decode_low {prevlen : Nat} (decoded : lp.lpDecodeBacklen p = some prevlen) (loaded : lp.load p = some byte)
    (short : prevlen < 2^35) : prevlen % 2^7 = byte % 2^7 := by
  -- later groups are multiples of `2^7`
  have groups : ∀ rounds q shift val result, lp.decodeLoop rounds q (7 + shift) val = some result → result < 2^35 → result % 2^7 = val % 2^7 := by
    intro rounds
    induction rounds with
    | zero =>
      intro q shift val result looped small
      cases looped
      unfold uint64Max at small
      omega
    | succ rounds ih =>
      intro q shift val result looped small
      simp only [decodeLoop,bind_eq_bind,bind_eq_some_iff] at looped
      obtain ⟨next,-,looped⟩ := looped
      have multiple : (val + next % 2^7 * 2^(7 + shift)) % 2^7 = val % 2^7 := by
        rw [pow_add,show next % 2^7 * (2^7 * 2^shift) = 2^7 * (next % 2^7 * 2^shift) by ring,add_mul_mod_self_left]
      split at looped
      · cases looped
        exact multiple
      · rw [← multiple]
        exact ih _ _ _ _ (by rwa [add_assoc] at looped) small
  simp only [lpDecodeBacklen,decodeLoop,loaded,bind_eq_bind,bind_some] at decoded
  split at decoded
  · cases decoded
    omega
  · have low := groups 4 (minus L p 1) 0 _ _ decoded short
    omega

theorem Linked.not_wrapped {len : Nat} (linked : Linked lp p next size) (long : lp.load p = some 0xF0)
    (lens : lp.loadLE (p + 1) 4 = some len) (inside : p + 5 < lp.size) (sized : size = (5 + len) % 2^32) : size = 5 + len := by
  by_contra wrapped
  have bound := loadLE_lt lens
  rw [loadLE_inside (by omega)] at lens
  simp only [readLE,Option.some.injEq,add_assoc,Nat.reduceAdd,mul_zero,add_zero] at lens
  have reaches := linked.reaches
  have decoded := linked.decoded
  rw [show backlenSize size = 1 from if_pos (by omega)] at reaches
  rw [reaches,show p + (size + 1) - 1 = p + size by omega] at decoded
  have low := decode_low decoded (load_eq_some.mpr ⟨by omega,rfl⟩) (by omega)
  have first := (load_eq_some.mp long).2
  rcases (by omega : size = 0 ∨ size = 1 ∨ size = 2 ∨ size = 3 ∨ size = 4) with rfl | rfl | rfl | rfl | rfl
  · rw [add_zero] at low
    omega
  all_goals omega

theorem kind_str32 (shape : kind byte = .str32) : byte = 0xF0 := by
  unfold kind at shape
  grind [eof]

theorem kind_eof (shape : kind byte = .eof) : byte = eof := by
  unfold kind at shape
  grind [eof]

theorem plus_eq_of_ahead (pointer : p < 2^L.sizeBits) (short : n ≤ 5) (ahead : headerSize ≤ plus L p n) : plus L p n = p + n := by
  rcases lt_or_ge (p + n) (2^L.sizeBits) with below | beyond
  · exact plus_eq below
  have word := two_pow_le L
  have wrapped : plus L p n = p + n - 2^L.sizeBits := by
    unfold plus
    rw [mod_eq_sub_mod beyond]
    exact mod_eq_of_lt (by omega)
  unfold headerSize at ahead
  omega

theorem get_of_accepted (within : Within lp n) (linked : Linked lp p next size) (accepted : Accepted lp n p next) :
    ∃ element, lp.lpGet p = some element ∧ (∀ value, element ≠ .unrecognized value) ∧
      ∀ start len, element = .string start len → p < start ∧ start + len < n := by
  obtain ⟨byte,loaded,other⟩ := accepted.entry
  obtain ⟨k,lenbytes,known,ahead,readable⟩ := accepted.lenbytes
  have target := accepted.target.2
  have fits := within.le_word
  have le := within.le
  have sized := linked.sized
  have reaches := linked.reaches
  rw [lpCurrentEncodedSizeBytes,loaded] at lenbytes
  rw [lpCurrentEncodedSizeUnsafe,loaded] at sized
  change some (kind byte).lenbytes = some k at lenbytes
  change lp.sizeUnsafe p byte (kind byte) = some size at sized
  rw [lpGet,loaded]
  change ∃ element, lp.element p byte (kind byte) = some element ∧ _
  cases shape : kind byte <;> rw [shape] at lenbytes sized
  case uint7 => exact ⟨_,rfl,by simp,by simp⟩
  case str6 =>
    cases sized
    refine ⟨_,rfl,by simp,?_⟩
    intro start len same
    cases same
    rw [plus_eq (by omega)]
    omega
  case int13 =>
    cases sized
    rw [element,plus_eq (by omega),load_eq_some.mpr ⟨by omega,rfl⟩]
    exact ⟨_,rfl,by simp,by simp⟩
  case int16 | int24 | int32 | int64 =>
    cases sized
    rw [element,plus_eq (by omega),loadLE_inside (by omega)]
    exact ⟨_,rfl,by simp,by simp⟩
  case str12 =>
    obtain ⟨low,second,same⟩ := bind_eq_some_iff.mp sized
    cases same
    rw [element,second]
    refine ⟨_,rfl,by simp,?_⟩
    intro start len same
    cases same
    rw [plus_eq (by omega)]
    omega
  case str32 =>
    cases lenbytes
    change plus L p 5 < n at readable
    have whole : plus L p 5 = p + 5 := plus_eq_of_ahead (by omega) (by omega) ahead
    rw [whole] at readable
    have second : plus L p 1 = p + 1 := plus_eq (by omega)
    obtain ⟨len,lens,same⟩ := bind_eq_some_iff.mp sized
    rw [second] at lens
    have plain := linked.not_wrapped (by rw [loaded,kind_str32 shape]) lens (by omega) (Option.some.inj same).symm
    rw [element,second,lens,whole]
    refine ⟨_,rfl,by simp,?_⟩
    intro start len same
    cases same
    omega
  case eof => exact absurd (kind_eof shape) other
  case unknown =>
    cases lenbytes
    exact absurd rfl known

theorem Accepted.linked {lp : Block .bits64} (short : n < 2^32) (accepted : Accepted lp n p next) :
    ∃ size, Linked lp p next size := by
  obtain ⟨size,prevlen,sized,reaches,decoded,agree⟩ := accepted.lengths
  have small := encodedSize_lt sized
  have backlen := backlenSize_le size
  have positive := backlenSize_pos size
  have inside := accepted.range
  simp only [Layout.sizeBits] at reaches agree
  rw [mod_eq_of_lt (a := size + backlenSize size) (by omega)] at reaches agree
  rw [plus_eq (by simp only [Layout.sizeBits]; omega)] at reaches
  rw [minus_eq (by omega) (by simp only [Layout.sizeBits]; omega)] at decoded
  have same : prevlen = size := by
    rcases decode_cases decoded with below | broken
    · rwa [mod_eq_of_lt (by omega),add_right_cancel_iff] at agree
    · unfold uint64Max at broken
      omega
  rw [same] at decoded
  exact ⟨size,sized,reaches,decoded⟩

theorem Chain.bounds (within : Within lp n) (chain : Chain lp n p ps)
    (links : ∀ q ∈ ps, ∀ next, Accepted lp n q next → ∃ size, Linked lp q next size) : p + ps.length < n := by
  induction chain with
  | stop terminator =>
    have nonempty := within.nonempty
    simp only [length_nil]
    omega
  | @entry p next ps accepted rest ih =>
    obtain ⟨size,linked⟩ := links p mem_cons_self next accepted
    have above := ih (fun q member => links q (mem_cons_of_mem p member))
    have positive := backlenSize_pos size
    have reaches := linked.reaches
    rw [length_cons]
    omega

theorem Chain.mem_accepted {q : Nat} (chain : Chain lp n p ps) (member : q ∈ ps) :
    ∃ next, Accepted lp n q next := by
  induction chain with
  | stop terminator => cases member
  | @entry p next ps accepted rest ih =>
    rcases mem_cons.mp member with rfl | later
    · exact ⟨next,accepted⟩
    · exact ih later

theorem chain_of_valid (valid : lp.lpValidateIntegrity rounds lp.size true = some (.done true)) :
    Within lp lp.size ∧ lp.lpGetTotalBytes = some lp.size ∧ ∃ ps numele, Chain lp lp.size headerSize ps ∧ lp.lpGetNumElements = some numele ∧
      (numele = numeleUnknown ∨ numele = ps.length % 2^32) := by
  unfold lpValidateIntegrity at valid
  split at valid
  · cases valid
  simp only [bind_eq_bind,bind_eq_some_iff] at valid
  obtain ⟨bytes,total,valid⟩ := valid
  split at valid
  · cases valid
  rename_i sized
  rw [not_ne_iff] at sized
  subst sized
  rw [bind_eq_some_iff] at valid
  obtain ⟨last,-,valid⟩ := valid
  split at valid
  · cases valid
  simp only [Bool.not_true,false_eq_true,if_false,bind_eq_some_iff] at valid
  obtain ⟨numele,counted,progress,looped,valid⟩ := valid
  have within : Within lp lp.size := ⟨by omega,le_rfl⟩
  have pointer : headerSize < 2^L.sizeBits := lt_of_lt_of_le within.nonempty within.le_word
  refine ⟨within,total,?_⟩
  match progress with
  | .running => cases valid
  | .done none => cases valid
  | .done (some (p,tally)) =>
    dsimp only at valid
    split at valid
    · cases valid
    rename_i ended
    rw [not_ne_iff] at ended
    subst ended
    split at valid
    · cases valid
    obtain ⟨ps,chain,same⟩ := chain_of_validateLoop within pointer looped (by decide)
    refine ⟨ps,numele,chain,counted,?_⟩
    rw [zero_add] at same
    omega

end Block

/-- A listpack of 64-bit addresses that the deep validation accepts is read alike from both ends:
no assertion fails and no byte outside is read, every element has a known encoding and lies
inside, and the length is the number of entries. -/
theorem lpValidateIntegrity_sound (lp : Block .bits64) (rounds : Nat) (valid : lp.lpValidateIntegrity rounds lp.size true = some (.done true)) :
    ∃ ps : List Nat, ∃ first last, lp.lpFirst = some first ∧ lp.lpLast = some last ∧ ∀ more, ps.length ≤ more →
      Block.traverse lp.lpNext more first = some ps ∧ Block.traverse lp.lpPrev more last = some ps.reverse ∧
      (lp.lpLength more).map (·.1) = some ps.length ∧
      ∀ p ∈ ps, ∃ element, lp.lpGet p = some element ∧ (∀ value, element ≠ .unrecognized value) ∧
        ∀ start len, element = .string start len → p < start ∧ start + len < lp.size := by
  obtain ⟨within,total,ps,numele,chain,counted,agrees⟩ := Block.chain_of_valid valid
  have short : lp.size < 2^32 := Block.loadLE_lt total
  have links : ∀ q ∈ ps, ∀ next, Block.Accepted lp lp.size q next → ∃ size, Block.Linked lp q next size :=
    fun q _ next accepted => accepted.linked short
  have bounds := chain.bounds within links
  have first : lp.lpFirst = some ps.head? := by
    rw [Block.lpFirst,total]
    exact chain.entryAt within
  have start : lp.lpPrev headerSize = some none := by rw [Block.lpPrev_eq,if_pos rfl]
  have none_before : Block.traverse lp.lpPrev 0 none = some [] := rfl
  obtain ⟨last,ends,back⟩ := Block.traverse_prev within total chain links start none_before
  rw [zero_add,append_nil] at back
  have fromEnd : lp.lpLast = some last := by
    have step : minus .bits64 lp.size 1 = lp.size - 1 := minus_eq (by omega) (by simp only [Layout.sizeBits]; omega)
    rw [Block.lpLast,total,bind_eq_bind,bind_some,step,ends]
  refine ⟨ps,ps.head?,last,first,fromEnd,?_⟩
  intro more enough
  refine ⟨Block.traverse_next within total chain enough,Block.traverse_mono back enough,?_,?_⟩
  · unfold Block.lpLength
    rw [counted]
    simp only [bind_eq_bind,bind_some]
    split
    · rename_i stated
      rw [Option.pure_def,map_some,agrees.resolve_left stated,mod_eq_of_lt (by omega)]
    · rw [first,bind_some,Block.countLoop_chain within total chain enough (by omega),bind_some,zero_add]
      split <;> rfl
  · intro p member
    obtain ⟨next,accepted⟩ := chain.mem_accepted member
    obtain ⟨size,linked⟩ := links p member next accepted
    exact Block.get_of_accepted within linked accepted

def pairBlock : Block .bits64 := ⟨4096,12,fun i => [12,0,0,0,2,0,5,1,0x81,0x61,2,0xFF].getD i 0,by decide⟩

theorem lpValidateIntegrity_sound_pair : ∃ ps first last, pairBlock.lpFirst = some first ∧ pairBlock.lpLast = some last ∧
    Block.traverse pairBlock.lpNext ps.length first = some ps ∧ Block.traverse pairBlock.lpPrev ps.length last = some ps.reverse := by
  obtain ⟨ps,first,last,start,ends,all⟩ := lpValidateIntegrity_sound pairBlock 3 (by decide)
  obtain ⟨forward,backward,-,-⟩ := all ps.length le_rfl
  exact ⟨ps,first,last,start,ends,forward,backward⟩

end ValkeyWasm.Listpack
