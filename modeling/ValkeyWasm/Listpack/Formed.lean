import ValkeyWasm.Listpack.Termination
import ValkeyWasm.Listpack.Edit

/-! Well-formed listpacks and what is read from them.
A well-formed listpack holds a list of encoded elements, each followed by its own length. -/
namespace ValkeyWasm.Listpack
open Library.Memory Util Function List Option Nat
open Hashtable (Layout)

variable {L : Layout}

def view (e : Str) : Bytes := fun i => e.getD i 0

def statedSize (b : Bytes) : Kind → Nat
  | .uint7 => 1
  | .str6 => 1 + (b 0).toNat % 2^6
  | .int13 => 2
  | .int16 => 3
  | .int24 => 4
  | .int32 => 5
  | .int64 => 9
  | .str12 => 2 + ((b 0).toNat % 2^4 * 2^8 + (b 1).toNat)
  | .str32 => 5 + readLE b 1 4
  | .eof | .unknown => 0

def integerOf (b : Bytes) : Kind → Option Int
  | .uint7 => some ((b 0).toNat % 2^7 : Nat)
  | .int13 => some (fromUnsigned ((b 0).toNat % 2^5 * 2^8 + (b 1).toNat) (2^12) 8191)
  | .int16 => some (fromUnsigned (readLE b 1 2) (2^15) (2^16 - 1))
  | .int24 => some (fromUnsigned (readLE b 1 3) (2^23) (2^24 - 1))
  | .int32 => some (fromUnsigned (readLE b 1 4) (2^31) (2^32 - 1))
  | .int64 => some (fromUnsigned (readLE b 1 8) (2^63) (2^64 - 1))
  | _ => none

def kindOf (e : Str) : Kind := kind (view e 0).toNat

structure Encoded (e : Str) : Prop where
  positive : 0 < e.length
  size : e.length = statedSize (view e) (kindOf e)
  short : e.length < 2^32

def textOf (intbuf : Bytes) (e : Str) : Str :=
  match integerOf (view e) (kindOf e) with
  | some v => ll2string intbuf intbufSize v
  | none => e.drop (kindOf e).lenbytes

def entryBytes (e : Str) : Str := e ++ lpEncodeBacklen e.length

def body (es : List Str) : Str := es.flatMap entryBytes

def totalBytes (es : List Str) : Nat := headerSize + (body es).length + 1

structure Formed (lp : Block L) (es : List Str) : Prop where
  encoded : ∀ e ∈ es, Encoded e
  short : totalBytes es ≤ uint32Max
  room : totalBytes es ≤ lp.size
  placed : lp.address + lp.size < 2^L.sizeBits
  total : readLE lp.bytes 0 4 = totalBytes es
  count : readLE lp.bytes 4 2 = es.length ∨ readLE lp.bytes 4 2 = numeleUnknown
  holds : Holds lp.bytes headerSize (body es ++ [0xFF])

def pointers (p : Nat) : List Str → List Nat
  | [] => []
  | e :: es => p :: pointers (p + (entryBytes e).length) es

@[simp] theorem length_lpEncodeBacklen (l : Nat) : (lpEncodeBacklen l).length = backlenSize l := by
  unfold lpEncodeBacklen backlenSize
  grind

theorem length_entryBytes (e : Str) : (entryBytes e).length = e.length + backlenSize e.length := by
  rw [entryBytes,length_append,length_lpEncodeBacklen]

@[simp] theorem body_cons (e : Str) (es : List Str) : body (e :: es) = entryBytes e ++ body es := flatMap_cons

@[simp] theorem body_append (es fs : List Str) : body (es ++ fs) = body es ++ body fs := flatMap_append

@[simp] theorem length_pointers (p : Nat) (es : List Str) : (pointers p es).length = es.length := by
  induction es generalizing p with
  | nil => rfl
  | cons e es ih => rw [pointers,length_cons,length_cons,ih]

theorem toNat_byteOf {v : Nat} (small : v < 256) : (byteOf v).toNat = v := by
  rw [byteOf,BitVec.toNat_ofNat]
  exact mod_eq_of_lt small

theorem backlen_groups {l : Nat} (short : l < 2^35) : ∃ k, backlenSize l = k + 1 ∧
    (∀ i < k, (lpEncodeBacklen l)[k - i]? = some (byteOf (l / 2^(7 * i) % 2^7 + 2^7))) ∧
    (lpEncodeBacklen l)[0]? = some (byteOf (l / 2^(7 * k))) ∧ l / 2^(7 * k) < 2^7 := by
  unfold lpEncodeBacklen backlenSize
  by_cases one : l ≤ 127
  · simp only [if_pos one]
    exact ⟨0,rfl,fun i below => absurd below (not_lt_zero i),by simp,by omega⟩
  by_cases two : l ≤ 16383
  · simp only [if_neg one,if_pos two]
    refine ⟨1,rfl,?_,rfl,by omega⟩
    intro i below
    interval_cases i
    simp
  by_cases three : l ≤ 2097151
  · simp only [if_neg one,if_neg two,if_pos three]
    refine ⟨2,rfl,?_,rfl,by omega⟩
    intro i below
    interval_cases i <;> simp
  by_cases four : l ≤ 268435455
  · simp only [if_neg one,if_neg two,if_neg three,if_pos four]
    refine ⟨3,rfl,?_,rfl,by omega⟩
    intro i below
    interval_cases i <;> simp
  simp only [if_neg one,if_neg two,if_neg three,if_neg four]
  refine ⟨4,rfl,?_,rfl,by omega⟩
  intro i below
  interval_cases i <;> simp

variable {e : Str}

theorem Encoded.kind_ne (encoded : Encoded e) : kindOf e ≠ .eof ∧ kindOf e ≠ .unknown := by
  have positive := encoded.positive
  have size := encoded.size
  constructor
  · intro shape
    rw [shape,statedSize] at size
    omega
  · intro shape
    rw [shape,statedSize] at size
    omega

theorem Encoded.lenbytes_le (encoded : Encoded e) : 0 < (kindOf e).lenbytes ∧ (kindOf e).lenbytes ≤ e.length := by
  have size := encoded.size
  obtain ⟨-,known⟩ := encoded.kind_ne
  cases shape : kindOf e <;> rw [shape] at size known <;> simp only [statedSize] at size <;> simp only [Kind.lenbytes]
  case unknown => exact absurd rfl known
  all_goals have positive := encoded.positive
  all_goals omega

variable {p : Nat}

theorem view_of_holds {mem : Bytes} (holds : Holds mem p e) {i : Nat} (inside : i < e.length) : mem (p + i) = view e i := by
  have found : e[i]? = some (view e i) := by
    unfold view
    rw [getD_eq_getElem?_getD,getElem?_eq_getElem inside]
    rfl
  exact holds i _ found

variable {es : List Str} {lp : Block L}

namespace Block

structure Stands (lp : Block L) (p : Nat) (e : Str) : Prop where
  encoded : Encoded e
  inside : p + e.length < lp.size
  holds : Holds lp.bytes p e

section
variable (stands : Stands lp p e)
include stands

theorem Stands.load {i : Nat} (below : i < e.length) :
    lp.load (p + i) = some (view e i).toNat := by
  have inside := stands.inside
  rw [load_inside (by omega),view_of_holds stands.holds below]

theorem Stands.first : lp.load p = some (view e 0).toNat :=
  stands.load (i := 0) stands.encoded.positive

theorem Stands.loadLE {width : Nat} (below : 1 + width ≤ e.length) :
    lp.loadLE (p + 1) width = some (readLE (view e) 1 width) := by
  have inside := stands.inside
  rw [loadLE_inside (by omega)]
  congr 1
  apply readLE_congr
  intro i under
  rw [Nat.add_assoc]
  exact view_of_holds stands.holds (by omega)

theorem Stands.second (below : 1 < e.length) : plus L p 1 = p + 1 := by
  have fits := lp.size_le
  have inside := stands.inside
  exact plus_eq (by omega)

theorem Stands.encodedSize : lp.lpCurrentEncodedSizeUnsafe p = some e.length := by
  have size := stands.encoded.size
  have short := stands.encoded.short
  obtain ⟨ended,known⟩ := stands.encoded.kind_ne
  rw [lpCurrentEncodedSizeUnsafe,stands.first]
  change lp.sizeUnsafe p (view e 0).toNat (kindOf e) = some e.length
  cases shape : kindOf e <;> rw [shape] at size ended known <;> simp only [statedSize] at size
  case str12 =>
    rw [sizeUnsafe,stands.second (by omega),stands.load (i := 1) (by omega),size]
    rfl
  case str32 =>
    rw [sizeUnsafe,stands.second (by omega),stands.loadLE (by omega)]
    change some ((5 + readLE (view e) 1 4) % 2^32) = some e.length
    rw [← size,mod_eq_of_lt short]
  case eof => exact absurd rfl ended
  case unknown => exact absurd rfl known
  all_goals rw [sizeUnsafe,size]

end

theorem loadBytes_inside {len : Nat} (inside : p + len ≤ lp.size) :
    lp.loadBytes p len = some ((List.range len).map (fun i => lp.bytes (p + i))) := by
  have fits := lp.size_le
  induction len generalizing p with
  | zero => rfl
  | succ len ih =>
    have here : byteOf (lp.bytes p).toNat = lp.bytes p := by
      rw [byteOf,BitVec.ofNat_toNat]
      exact BitVec.setWidth_eq _
    rw [loadBytes,load_inside (by omega)]
    cases len with
    | zero => simp [loadBytes,here]
    | succ len =>
      rw [plus_eq (by omega),ih (by omega),range_succ_eq_map (n := len + 1),map_cons,List.map_map]
      simp [comp_def,Nat.add_assoc,add_comm 1,here]

theorem Stands.text {k len : Nat} (stands : Stands lp p e) (whole : e.length = k + len) :
    lp.loadBytes (p + k) len = some (e.drop k) := by
  have inside := stands.inside
  rw [loadBytes_inside (by omega)]
  congr 1
  apply ext_getElem
  · rw [length_map,length_range,length_drop]
    omega
  intro i below _
  rw [length_map,length_range] at below
  rw [getElem_map,getElem_range,getElem_drop,Nat.add_assoc]
  exact stands.holds (k + i) _ (getElem?_eq_getElem (by omega))

theorem Stands.getString (stands : Stands lp p e) (intbuf : Bytes) :
    lp.lpGetString intbuf p = some (textOf intbuf e) := by
  have fits := lp.size_le
  have inside := stands.inside
  have size := stands.encoded.size
  obtain ⟨ended,known⟩ := stands.encoded.kind_ne
  rw [lpGetString,lpGet,stands.first]
  change (lp.element p (view e 0).toNat (kindOf e)).bind _ = _
  unfold textOf
  cases shape : kindOf e <;> rw [shape] at size ended known <;> simp only [statedSize] at size
  case uint7 => rfl
  case int13 =>
    rw [element,stands.second (by omega),stands.load (i := 1) (by omega)]
    rfl
  case int16 | int24 | int32 | int64 =>
    rw [element,stands.second (by omega),stands.loadLE (by omega)]
    rfl
  case str6 =>
    rw [element,plus_eq (by omega)]
    exact stands.text (k := 1) size
  case str12 =>
    rw [element,stands.second (by omega),stands.load (i := 1) (by omega),plus_eq (by omega)]
    exact stands.text (k := 2) size
  case str32 =>
    rw [element,stands.second (by omega),stands.loadLE (by omega),plus_eq (by omega)]
    exact stands.text (k := 5) size
  case eof => exact absurd rfl ended
  case unknown => exact absurd rfl known

theorem Stands.getWithSize (stands : Stands lp p e) {v : Int} (integer : integerOf (view e) (kindOf e) = some v) :
    lp.lpGetWithSize p = some (.integer v,some (e.length + backlenSize e.length)) := by
  have size := stands.encoded.size
  rw [lpGetWithSize,stands.first]
  rw [bind_eq_bind,bind_some,show kind (view e 0).toNat = kindOf e from rfl]
  cases shape : kindOf e <;> rw [shape] at size integer <;> simp only [statedSize] at size <;>
    simp only [integerOf,some.injEq,reduceCtorEq] at integer <;> rw [element,size]
  case uint7 =>
    rw [integer]
    rfl
  case int13 =>
    rw [stands.second (by omega),stands.load (i := 1) (by omega),bind_eq_bind,bind_eq_bind,bind_some,integer]
    rfl
  all_goals
    rw [stands.second (by omega),stands.loadLE (by omega),bind_eq_bind,bind_eq_bind,bind_some,integer]
    rfl

theorem decodeLoop_groups {k : Nat} : ∀ {rounds p l : Nat} (shift val : Nat), k < rounds → k ≤ p → p < lp.size →
    (∀ i < k, (lp.bytes (p - i)).toNat = l / 2^(7 * i) % 2^7 + 2^7) → (lp.bytes (p - k)).toNat = l / 2^(7 * k) → l / 2^(7 * k) < 2^7 →
    lp.decodeLoop rounds p shift val = some (val + l * 2^shift) := by
  have fits := lp.size_le
  induction k with
  | zero =>
    intro rounds p l shift val enough le inside _ last top
    obtain ⟨rounds,rfl⟩ : ∃ r, rounds = r + 1 := ⟨rounds - 1,by omega⟩
    simp only [Nat.mul_zero,pow_zero,Nat.div_one,Nat.sub_zero] at last top
    rw [decodeLoop,load_inside inside,bind_eq_bind,bind_some,last]
    rw [if_pos (by omega),mod_eq_of_lt top]
    rfl
  | succ k ih =>
    intro rounds p l shift val enough le inside groups last top
    obtain ⟨rounds,rfl⟩ : ∃ r, rounds = r + 1 := ⟨rounds - 1,by omega⟩
    have low := groups 0 (by omega)
    simp only [Nat.mul_zero,pow_zero,Nat.div_one,Nat.sub_zero] at low
    have scale : ∀ i, l / 2^(7 * (i + 1)) = l / 2^7 / 2^(7 * i) := by
      intro i
      rw [Nat.div_div_eq_div_mul,← pow_add]
      congr 2
      omega
    have rest : lp.decodeLoop rounds (p - 1) (shift + 7) (val + l % 2^7 * 2^shift) =
        some (val + l % 2^7 * 2^shift + l / 2^7 * 2^(shift + 7)) := by
      refine ih _ _ (by omega) (by omega) (by omega) ?_ ?_ (by rw [← scale]; exact top)
      · intro i below
        rw [← scale,← groups (i + 1) (by omega),show p - 1 - i = p - (i + 1) by omega]
      · rw [← scale,← last,show p - 1 - k = p - (k + 1) by omega]
    rw [decodeLoop,load_inside inside,bind_eq_bind,bind_some,low]
    rw [if_neg (by omega),minus_eq (by omega) (by omega),show (l % 2^7 + 2^7) % 2^7 = l % 2^7 by omega,rest]
    congr 1
    rw [Nat.add_assoc,pow_add,Nat.mul_comm (2^shift),← Nat.mul_assoc,← Nat.add_mul,Nat.mod_add_div']

theorem decode_of_holds {l : Nat} (holds : Holds lp.bytes p (lpEncodeBacklen l)) (short : l < 2^35)
    (inside : p + backlenSize l ≤ lp.size) : lp.lpDecodeBacklen (p + backlenSize l - 1) = some l := by
  obtain ⟨k,size,groups,last,top⟩ := backlen_groups short
  rw [size] at inside ⊢
  have decoded : lp.decodeLoop 5 (p + k) 0 0 = some (0 + l * 2^0) := by
    have few := backlenSize_le l
    refine decodeLoop_groups 0 0 (by omega) (by omega) (by omega) ?_ ?_ top
    · intro i below
      rw [show p + k - i = p + (k - i) by omega,holds _ _ (groups i below),toNat_byteOf (by omega)]
    rw [Nat.add_sub_cancel]
    have first := holds 0 _ last
    rw [add_zero] at first
    rw [first,toNat_byteOf (by omega)]
  rw [show p + (k + 1) - 1 = p + k by omega,lpDecodeBacklen,decoded]
  congr 1
  omega

/-- The entries that stand from an offset up to the terminator. -/
structure Rest (lp : Block L) (n p : Nat) (es : List Str) : Prop where
  encoded : ∀ e ∈ es, Encoded e
  ahead : headerSize ≤ p
  whole : p + (body es).length + 1 = n
  holds : Holds lp.bytes p (body es ++ [0xFF])

variable {n : Nat}

theorem Rest.tail (rest : Rest lp n p (e :: es)) :
    Rest lp n (p + (entryBytes e).length) es := by
  have whole := rest.whole
  have holds := rest.holds
  have ahead := rest.ahead
  rw [body_cons,length_append] at whole
  rw [body_cons,append_assoc,holds_append] at holds
  exact ⟨fun f member => rest.encoded f (mem_cons_of_mem e member),by omega,by omega,holds.2⟩

section
variable (within : Within lp n)
include within

theorem Rest.head (rest : Rest lp n p (e :: es)) :
    Stands lp p e ∧ Holds lp.bytes (p + e.length) (lpEncodeBacklen e.length) := by
  have whole := rest.whole
  have holds := rest.holds
  have le := within.le
  rw [body_cons,length_append,length_entryBytes] at whole
  rw [body_cons,append_assoc,holds_append,entryBytes,holds_append] at holds
  exact ⟨⟨rest.encoded e mem_cons_self,by omega,holds.1.1⟩,holds.1.2⟩

theorem Rest.accepted (short : n ≤ uint32Max)
    (rest : Rest lp n p (e :: es)) :
    Accepted lp n p (p + (entryBytes e).length) ∧ Linked lp p (p + (entryBytes e).length) e.length := by
  obtain ⟨stands,backlen⟩ := rest.head within
  have whole := rest.whole
  have ahead := rest.ahead
  have le := within.le
  have word := two_pow_le L
  obtain ⟨first,lenbytes⟩ := stands.encoded.lenbytes_le
  obtain ⟨ended,-⟩ := stands.encoded.kind_ne
  unfold uint32Max at short
  rw [body_cons,length_append,length_entryBytes] at whole
  rw [length_entryBytes]
  have decoded : lp.lpDecodeBacklen (p + (e.length + backlenSize e.length) - 1) = some e.length := by
    rw [← Nat.add_assoc]
    exact decode_of_holds backlen (lt_of_lt_of_le stands.encoded.short (by decide)) (by omega)
  refine ⟨⟨⟨ahead,by omega⟩,⟨_,stands.first,?_⟩,⟨(kindOf e).lenbytes,?_,by omega,?_,?_⟩,⟨by omega,by omega⟩,?_⟩,
    stands.encodedSize,rfl,decoded⟩
  · intro terminator
    apply ended
    rw [kindOf,terminator]
    rfl
  · rw [lpCurrentEncodedSizeBytes,stands.first]
    rfl
  · rw [plus_eq (by omega)]
    omega
  · rw [plus_eq (by omega)]
    omega
  refine ⟨e.length,e.length,stands.encodedSize,?_,?_,?_⟩
  · rw [mod_eq_of_lt (by omega),plus_eq (by omega)]
  · rw [minus_eq (by omega) (by omega)]
    exact decoded
  · rw [mod_eq_of_lt (by omega),mod_eq_of_lt (by omega)]

theorem Rest.chain (short : n ≤ uint32Max) (rest : Rest lp n p es) :
    Chain lp n p (pointers p es) := by
  induction es generalizing p with
  | nil =>
    have whole := rest.whole
    have le := within.le
    simp only [body,flatMap_nil,length_nil,add_zero] at whole
    have same : p = n - 1 := by omega
    have last : lp.load p = some eof := by
      rw [load_inside (by omega)]
      have byte := rest.holds 0 0xFF rfl
      rw [add_zero] at byte
      rw [byte]
      rfl
    subst same
    exact .stop last
  | cons e es ih => exact .entry (rest.accepted within short).1 (ih rest.tail)

theorem Rest.links (short : n ≤ uint32Max) (rest : Rest lp n p es) :
    ∀ q ∈ pointers p es, ∀ next, Accepted lp n q next → ∃ size, Linked lp q next size := by
  induction es generalizing p with
  | nil => exact nofun
  | cons e es ih =>
    intro q member next accepted
    rcases mem_cons.mp member with rfl | later
    · -- the next entry is a function of this one
      obtain ⟨here,linked⟩ := rest.accepted within short
      have same : next = q + (entryBytes e).length := Option.some.inj (accepted.lpSkip.symm.trans here.lpSkip)
      rw [same]
      exact ⟨e.length,linked⟩
    · exact ih rest.tail q later next accepted

theorem Rest.texts (intbuf : Bytes) (rest : Rest lp n p es) :
    (pointers p es).mapM (lp.lpGetString intbuf) = some (es.map (textOf intbuf)) := by
  induction es generalizing p with
  | nil => rfl
  | cons e es ih =>
    obtain ⟨stands,-⟩ := rest.head within
    rw [pointers,mapM_cons,stands.getString intbuf,ih rest.tail]
    rfl

end

theorem hop_traverse {next : Nat → Option (Option Nat)} {rounds : Nat} {start : Option Nat} {ps : List Nat}
    (walked : traverse next rounds start = some ps) (steps : Nat) : hop next steps start = some ps[steps]? := by
  induction rounds generalizing start ps steps with
  | zero =>
    cases start with
    | some p => cases walked
    | none =>
      cases walked
      cases steps <;> rfl
  | succ rounds ih =>
    cases start with
    | none =>
      cases walked
      cases steps <;> rfl
    | some p =>
      simp only [traverse,bind_eq_bind,bind_eq_some_iff,Option.pure_def,Option.some.injEq] at walked
      obtain ⟨q,stepped,rest,walked,rfl⟩ := walked
      cases steps with
      | zero => rfl
      | succ steps =>
        rw [hop,stepped]
        exact ih walked steps

end Block

section
variable (formed : Formed lp es)
include formed

theorem Formed.within : Block.Within lp (totalBytes es) :=
  ⟨by unfold totalBytes; omega,formed.room⟩

theorem Formed.rest : Block.Rest lp (totalBytes es) headerSize es :=
  ⟨formed.encoded,le_rfl,rfl,formed.holds⟩

theorem Formed.lpGetTotalBytes : lp.lpGetTotalBytes = some (totalBytes es) := by
  have room := formed.room
  rw [Block.lpGetTotalBytes,Block.loadLE_inside (by unfold totalBytes headerSize at room; omega),formed.total]

theorem Formed.lpGetNumElements :
    lp.lpGetNumElements = some (readLE lp.bytes 4 2) := by
  have room := formed.room
  exact Block.loadLE_inside (by unfold totalBytes headerSize at room; omega)

theorem Formed.chain : Block.Chain lp (totalBytes es) headerSize (pointers headerSize es) :=
  formed.rest.chain formed.within formed.short

theorem Formed.lpFirst : lp.lpFirst = some (pointers headerSize es).head? := by
  rw [Block.lpFirst,formed.lpGetTotalBytes]
  exact formed.chain.entryAt formed.within

theorem Formed.length_lt : headerSize + es.length < totalBytes es := by
  have bounds := formed.chain.bounds formed.within (formed.rest.links formed.within formed.short)
  rwa [length_pointers] at bounds

theorem Formed.forward {rounds : Nat} (enough : es.length ≤ rounds) :
    Block.traverse lp.lpNext rounds (pointers headerSize es).head? = some (pointers headerSize es) :=
  Block.traverse_next formed.within formed.lpGetTotalBytes formed.chain (by rwa [length_pointers])

theorem Formed.backward :
    ∃ last, lp.lpLast = some last ∧ ∀ rounds, es.length ≤ rounds → Block.traverse lp.lpPrev rounds last = some (pointers headerSize es).reverse := by
  have start : lp.lpPrev headerSize = some none := by rw [Block.lpPrev_eq,if_pos rfl]
  have none_before : Block.traverse lp.lpPrev 0 none = some [] := rfl
  obtain ⟨last,ends,back⟩ := Block.traverse_prev formed.within formed.lpGetTotalBytes formed.chain
    (formed.rest.links formed.within formed.short) start none_before
  rw [zero_add,append_nil,length_pointers] at back
  refine ⟨last,?_,fun rounds enough => Block.traverse_mono back enough⟩
  have word := two_pow_le L
  have short := formed.short
  have nonempty := formed.length_lt
  unfold uint32Max at short
  rw [Block.lpLast,formed.lpGetTotalBytes]
  change lp.lpPrev (minus L (totalBytes es) 1) = some last
  rw [minus_eq (by omega) (by omega),ends]

end

end ValkeyWasm.Listpack
