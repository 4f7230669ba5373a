import ValkeyWasm.Listpack.Formed

/-! The listpack as a list of strings.
Every edit splices the bytes of one entry, and after any edits the listpack reads as the
list of strings that the same edits make of the old one. -/
namespace ValkeyWasm.Listpack
open Library.Memory Util List Option Nat
open Hashtable (Layout)

variable {L : Layout}

theorem view_cons (c : BitVec 8) (l : Str) (i : Nat) : view (c :: l) (1 + i) = view l i := by
  unfold view
  rw [add_comm,getD_cons_succ]

theorem readLE_cons_bytesLE (c : BitVec 8) (width v : Nat) (s : Str) : readLE (view (c :: (bytesLE width v ++ s))) 1 width = v % 256^width := by
  apply readLE_digits
  intro i below
  rw [view_cons]
  unfold view bytesLE
  rw [getD_eq_getElem?_getD,getElem?_append_left (by simpa using below),getElem?_map,getElem?_range below]
  rfl

variable {v : Int}

theorem fromUnsigned_stored (bits : Nat) (positive : 0 < bits) (low : -2^(bits - 1) ≤ v) (high : v < 2^(bits - 1)) :
    stored bits v < 2^bits ∧ fromUnsigned (stored bits v) (2^(bits - 1)) (2^bits - 1) = v := by
  obtain ⟨k,rfl⟩ : ∃ k, bits = k + 1 := ⟨bits - 1,by omega⟩
  rw [Nat.add_sub_cancel] at low high ⊢
  have double : (2 : Int)^(k + 1) = 2 * 2^k := by ring
  have halves : 2^(k + 1) = 2 * 2^k := by ring
  have cast : ((2^k : Nat) : Int) = 2^k := by norm_num
  unfold fromUnsigned stored
  rw [double,halves]
  constructor
  · split <;> omega
  · split <;> split <;> omega

structure EncodesInteger (e : Str) (v : Int) : Prop where
  encoded : Encoded e
  integer : integerOf (view e) (kindOf e) = some v

theorem encodesInteger_bytesLE {marker : BitVec 8} (width : Nat) {shape : Kind} (positive : 0 < width) (few : width ≤ 8)
    (marked : kind marker.toNat = shape) (size : ∀ b, statedSize b shape = 1 + width)
    (read : ∀ b, integerOf b shape = some (fromUnsigned (readLE b 1 width) (2^(8 * width - 1)) (2^(8 * width) - 1)))
    (low : -2^(8 * width - 1) ≤ v) (high : v < 2^(8 * width - 1)) : EncodesInteger (marker :: bytesLE width (stored (8 * width) v)) v := by
  have length : (marker :: bytesLE width (stored (8 * width) v)).length = 1 + width := by
    rw [length_cons,bytesLE,length_map,length_range,add_comm]
  have shaped : kindOf (marker :: bytesLE width (stored (8 * width) v)) = shape := marked
  obtain ⟨small,back⟩ := fromUnsigned_stored (8 * width) (by omega) low high
  refine ⟨⟨by omega,by rw [length,shaped,size],by omega⟩,?_⟩
  have digits := readLE_cons_bytesLE marker width (stored (8 * width) v) []
  rw [append_nil,mod_eq_of_lt (by rwa [show (256 : Nat) = 2^8 by rfl,← pow_mul])] at digits
  rw [shaped,read,digits,back]

theorem lpEncodeIntegerGetType_encodes (low : -2^63 ≤ v) (high : v < 2^63) : EncodesInteger (lpEncodeIntegerGetType v) v := by
  unfold lpEncodeIntegerGetType
  split
  · rename_i range
    have byte : (view [byteOf v.toNat] 0).toNat = v.toNat := toNat_byteOf (by omega)
    have shape : kindOf [byteOf v.toNat] = .uint7 := by
      rw [kindOf,byte]
      exact if_pos (by omega)
    refine ⟨⟨one_pos,by rw [shape]; rfl,(by decide : 1 < 2^32)⟩,?_⟩
    rw [shape,integerOf,byte]
    congr 1
    omega
  split
  · rename_i range
    obtain ⟨small,back⟩ := fromUnsigned_stored 13 (v := v) (by decide) (by omega) (by omega)
    have first : (view [byteOf (0xC0 + stored 13 v / 2^8),byteOf (stored 13 v)] 0).toNat = 0xC0 + stored 13 v / 2^8 := toNat_byteOf (by omega)
    have second : (view [byteOf (0xC0 + stored 13 v / 2^8),byteOf (stored 13 v)] 1).toNat = stored 13 v % 2^8 := rfl
    have shape : kindOf [byteOf (0xC0 + stored 13 v / 2^8),byteOf (stored 13 v)] = .int13 := by
      rw [kindOf,first,kind,if_neg (by omega),if_neg (by omega),if_pos (by omega)]
    refine ⟨⟨two_pos,by rw [shape]; rfl,(by decide : 2 < 2^32)⟩,?_⟩
    rw [shape,integerOf,first,second,show (0xC0 + stored 13 v / 2^8) % 2^5 * 2^8 + stored 13 v % 2^8 = stored 13 v by omega]
    exact congrArg some back
  split
  · rename_i range
    exact encodesInteger_bytesLE 2 (by decide) (by decide) rfl (fun _ => rfl) (fun _ => rfl) (by omega) (by omega)
  split
  · rename_i range
    exact encodesInteger_bytesLE 3 (by decide) (by decide) rfl (fun _ => rfl) (fun _ => rfl) (by omega) (by omega)
  split
  · rename_i range
    exact encodesInteger_bytesLE 4 (by decide) (by decide) rfl (fun _ => rfl) (fun _ => rfl) (by omega) (by omega)
  · exact encodesInteger_bytesLE 8 (by decide) (by decide) rfl (fun _ => rfl) (fun _ => rfl) low high

theorem lpEncodeString_encoded (s : Str) (intbuf : Bytes) :
    ((lpEncodeString s).length < 2^32 → Encoded (lpEncodeString s)) ∧ textOf intbuf (lpEncodeString s) = s := by
  unfold lpEncodeString
  split
  · rename_i small
    have first : (view (byteOf (0x80 + s.length) :: s) 0).toNat = 0x80 + s.length := toNat_byteOf (by omega)
    have shape : kindOf (byteOf (0x80 + s.length) :: s) = .str6 := by
      rw [kindOf,first,kind,if_neg (by omega),if_pos (by omega)]
    refine ⟨fun short => ⟨by simp,?_,short⟩,?_⟩
    · rw [shape,statedSize,first,length_cons]
      omega
    · rw [textOf,shape]
      rfl
  split
  · rename_i large small
    have first : (view (byteOf (0xE0 + s.length / 2^8) :: byteOf s.length :: s) 0).toNat = 0xE0 + s.length / 2^8 := toNat_byteOf (by omega)
    have second : (view (byteOf (0xE0 + s.length / 2^8) :: byteOf s.length :: s) 1).toNat = s.length % 2^8 := rfl
    have shape : kindOf (byteOf (0xE0 + s.length / 2^8) :: byteOf s.length :: s) = .str12 := by
      rw [kindOf,first,kind,if_neg (by omega),if_neg (by omega),if_neg (by omega),if_neg (by omega),if_neg (by omega),if_neg (by omega),
        if_neg (by omega),if_pos (by omega)]
    refine ⟨fun short => ⟨by simp,?_,short⟩,?_⟩
    · rw [shape,statedSize,first,second,length_cons,length_cons]
      omega
    · rw [textOf,shape]
      rfl
  · have length : (0xF0 :: (bytesLE 4 s.length ++ s)).length = 5 + s.length := by
      simp only [length_cons,length_append,bytesLE,length_map,length_range]
      omega
    have shape : kindOf (0xF0 :: (bytesLE 4 s.length ++ s)) = .str32 := by
      change kind (0xF0 : BitVec 8).toNat = .str32
      decide
    refine ⟨fun short => ⟨by omega,?_,short⟩,?_⟩
    · rw [length] at short
      rw [length,shape,statedSize,readLE_cons_bytesLE,mod_eq_of_lt (by omega)]
    rw [textOf,shape]
    change (0xF0 :: (bytesLE 4 s.length ++ s)).drop 5 = s
    rw [drop_succ_cons]
    exact drop_left' (by simp [bytesLE])

namespace Block

theorem relocate_spec {lp : Block L} (alloc : Allocator L) {old new gap dst src : Nat} (room : new ≤ uint32Max) (held : old ≤ lp.size)
    (placed : lp.address + lp.size < 2^L.sizeBits) (below : gap ≤ src ∧ src ≤ old) (after : gap ≤ dst) (ends : dst + (old - src) = new) :
    new ≤ (lp.relocate alloc old room dst src).size ∧
    (lp.relocate alloc old room dst src).address + (lp.relocate alloc old room dst src).size < 2^L.sizeBits ∧
    ∀ i < new, i < gap ∨ dst ≤ i → (lp.relocate alloc old room dst src).bytes i = memmove lp.bytes dst src (old - src) i := by
  unfold relocate
  generalize grows : (if new > old ∧ new > lp.size then lp.realloc (alloc new room) else lp) = grown
  have kept : ∀ i < old, grown.bytes i = lp.bytes i := by
    intro i inside
    rw [← grows]
    split
    · exact if_pos (by omega)
    · rfl
  have size : new ≤ grown.size ∨ new < old ∧ old ≤ grown.size := by
    rw [← grows]
    split
    · exact Or.inl (alloc new room).roomy
    · omega
  have strict : grown.address + grown.size < 2^L.sizeBits := by
    rw [← grows]
    split
    · exact (alloc new room).fits
    · exact placed
  have moved : ∀ i < new, i < gap ∨ dst ≤ i → memmove grown.bytes dst src (old - src) i = memmove lp.bytes dst src (old - src) i := by
    intro i inside outside
    unfold memmove
    split
    · exact kept _ (by omega)
    · exact kept _ (by omega)
  split
  · refine ⟨(alloc new room).roomy,(alloc new room).fits,?_⟩
    intro i inside outside
    rw [← moved i inside outside]
    exact if_pos (by dsimp only; omega)
  · exact ⟨by dsimp only; omega,strict,moved⟩

end Block

inductive Item where
  | string (s : Str)
  | integer (v : BitVec 64)

def Item.input : Item → Input
  | string s => .string s
  | integer v => .integer (lpEncodeIntegerGetType v.toInt)

def Item.bytes (x : Item) : Str := (Block.encode x.input).1

def Item.text (intbuf : Bytes) : Item → Str
  | string s => s
  | integer v => ll2string intbuf intbufSize v.toInt

theorem length_lpEncodeString (s : Str) :
    (lpEncodeString s).length = if s.length < 64 then 1 + s.length else if s.length < 4096 then 2 + s.length else 5 + s.length := by
  unfold lpEncodeString
  split
  · rw [length_cons,add_comm]
  split
  · rw [length_cons,length_cons,add_comm 2]
  · simp only [length_cons,length_append,bytesLE,length_map,length_range]
    omega

theorem encode_of_integer {s : Str} (read : string2ll s = some v) :
    Block.encode (.string s) = (lpEncodeIntegerGetType v,(lpEncodeIntegerGetType v).length) := by
  rw [Block.encode,lpEncodeGetType,read]

theorem encode_of_string {s : Str} (read : string2ll s = none) : Block.encode (.string s) = (lpEncodeString s,(lpEncodeString s).length) := by
  rw [Block.encode,lpEncodeGetType,read,length_lpEncodeString]

theorem encode_input (x : Item) : Block.encode x.input = (x.bytes,x.bytes.length) := by
  unfold Item.bytes
  cases x with
  | integer v => rfl
  | string s =>
    rw [Item.input]
    cases read : string2ll s with
    | some v => rw [encode_of_integer read]
    | none => rw [encode_of_string read]

theorem Item.encoded (x : Item) (intbuf : Bytes) : (x.bytes.length < 2^32 → Encoded x.bytes) ∧ textOf intbuf x.bytes = x.text intbuf := by
  have integer : ∀ {e : Str} {v : Int}, EncodesInteger e v → (e.length < 2^32 → Encoded e) ∧ textOf intbuf e = ll2string intbuf intbufSize v := by
    intro e v encodes
    refine ⟨fun _ => encodes.encoded,?_⟩
    rw [textOf,encodes.integer]
  cases x with
  | integer v =>
    have low := BitVec.le_toInt v
    have high := BitVec.toInt_lt (x := v)
    exact integer (lpEncodeIntegerGetType_encodes low high)
  | string s =>
    cases read : string2ll s with
    | some v =>
      have bytes : (Item.string s).bytes = lpEncodeIntegerGetType v := by rw [Item.bytes,Item.input,encode_of_integer read]
      obtain ⟨low,high⟩ := string2ll_range read
      have spelled : ll2string intbuf intbufSize v = s := ll2string_string2ll intbuf read
      rw [bytes,Item.text,← spelled]
      exact integer (lpEncodeIntegerGetType_encodes low high)
    | none =>
      have bytes : (Item.string s).bytes = lpEncodeString s := by rw [Item.bytes,Item.input,encode_of_string read]
      rw [bytes]
      exact lpEncodeString_encoded s intbuf

/-- The bytes of an entry, its own length behind it, stand in the block. -/
structure Block.Entry (lp : Block L) (p : Nat) (e : Str) : Prop where
  inside : p + (entryBytes e).length ≤ lp.size
  holds : Holds lp.bytes p (entryBytes e)

theorem Block.Entry.stands {lp : Block L} {p : Nat} {e : Str} (entry : Block.Entry lp p e) (encoded : Encoded e) : Block.Stands lp p e := by
  have inside := entry.inside
  have behind := backlenSize_pos e.length
  rw [length_entryBytes] at inside
  exact ⟨encoded,by omega,(holds_append.mp entry.holds).1⟩

/-- Whatever is encoded at any place of a block is decoded from it. -/
theorem listpack_codec_round_trip (lp : Block L) (p : Nat) :
    (∀ v : BitVec 64, lp.Entry p (lpEncodeIntegerGetType v.toInt) →
      lp.lpGetWithSize p = some (.integer v.toInt,some (entryBytes (lpEncodeIntegerGetType v.toInt)).length)) ∧
    (∀ s : Str, s.length < 2^32 - 5 → string2ll s = none → lp.Entry p (lpEncodeString s) → ∀ intbuf, lp.lpGetString intbuf p = some s) ∧
    (∀ s : Str, s.length < 2^32 - 5 → lp.Entry p (Block.encode (.string s)).1 → lp.lpCurrentEncodedSizeUnsafe p = some (lpEncodeGetType s).2) ∧
    ∀ l < 2^35, p + (lpEncodeBacklen l).length ≤ lp.size → Holds lp.bytes p (lpEncodeBacklen l) →
      lp.lpDecodeBacklen (p + (lpEncodeBacklen l).length - 1) = some l := by
  have fits : ∀ s : Str, s.length < 2^32 - 5 → Encoded (lpEncodeString s) := by
    intro s short
    apply (lpEncodeString_encoded s lp.bytes).1
    rw [length_lpEncodeString]
    split
    · omega
    · split <;> omega
  refine ⟨?_,?_,?_,?_⟩
  · intro v entry
    obtain ⟨encoded,integer⟩ := lpEncodeIntegerGetType_encodes (BitVec.le_toInt v) (BitVec.toInt_lt (x := v))
    rw [length_entryBytes]
    exact (entry.stands encoded).getWithSize integer
  · intro s short _ entry intbuf
    rw [(entry.stands (fits s short)).getString intbuf,(lpEncodeString_encoded s intbuf).2]
  · intro s short entry
    rw [lpEncodeGetType]
    cases read : string2ll s with
    | some v =>
      obtain ⟨low,high⟩ := string2ll_range read
      rw [encode_of_integer read] at entry
      exact (entry.stands (lpEncodeIntegerGetType_encodes low high).encoded).encodedSize
    | none =>
      rw [encode_of_string read] at entry
      dsimp only
      rw [← length_lpEncodeString]
      exact (entry.stands (fits s short)).encodedSize
  · intro l short inside holds
    rw [length_lpEncodeBacklen] at inside ⊢
    exact Block.decode_of_holds holds short inside

theorem getElem?_pointers (p : Nat) (pre rest : List Str) :
    (pointers p (pre ++ rest))[pre.length]? = (pointers (p + (body pre).length) rest).head? := by
  induction pre generalizing p with
  | nil =>
    rw [nil_append,length_nil,← head?_eq_getElem?]
    rfl
  | cons e pre ih =>
    rw [cons_append,pointers,length_cons,getElem?_cons_succ,ih,body_cons,length_append,add_assoc]

theorem totalBytes_eq (pre mid post : List Str) :
    totalBytes (pre ++ (mid ++ post)) = headerSize + (body pre).length + (body mid).length + ((body post).length + 1) := by
  unfold totalBytes
  rw [body_append,body_append,length_append,length_append]
  omega

variable {lp : Block L} {pre es : List Str}

theorem Formed.rest_of (formed : Formed lp (pre ++ es)) :
    Block.Rest lp (totalBytes (pre ++ es)) (headerSize + (body pre).length) es := by
  refine ⟨fun e member => formed.encoded e (mem_append_right pre member),le_add_right _ _,?_,?_⟩
  · unfold totalBytes
    rw [body_append,length_append]
    omega
  · have holds := formed.holds
    rw [body_append,append_assoc,holds_append] at holds
    exact holds.2

theorem Formed.assertIntegrity (formed : Formed lp es) {p len : Nat} (ahead : headerSize ≤ p)
    (inside : p + len < totalBytes es) : lp.assertIntegrity p len = some () := by
  have room := formed.room
  have placed := formed.placed
  unfold Block.assertIntegrity
  rw [formed.lpGetTotalBytes,bind_eq_bind,bind_some,plus_eq (by omega),plus_eq (by omega),plus_eq (p := p) (by omega),plus_eq (by omega),
    plus_eq (by omega)]
  exact if_pos (by omega)

theorem Formed.replacedLen {post : List Str} {m : Str} (formed : Formed lp (pre ++ (m :: post))) :
    lp.replacedLen (headerSize + (body pre).length) true = some (entryBytes m).length := by
  obtain ⟨stands,-⟩ := formed.rest_of.head formed.within
  have short := formed.short
  have whole := totalBytes_eq pre [m] post
  rw [singleton_append,body_cons,length_append,length_entryBytes] at whole
  unfold uint32Max at short
  have plain : (m.length + backlenSize m.length) % 2^32 = m.length + backlenSize m.length := mod_eq_of_lt (by omega)
  unfold Block.replacedLen
  rw [if_pos rfl,stands.encodedSize,bind_eq_bind,bind_some]
  dsimp only
  rw [plain,formed.assertIntegrity (by omega) (by omega),length_entryBytes]
  rfl

structure Writes (ele : Input) (ins : List Str) (encoded backlen : Str) : Prop where
  encodes : Block.encode ele = (encoded,encoded.length)
  ends : (if ele ≠ .delete then lpEncodeBacklen encoded.length else []) = backlen
  spells : body ins = encoded ++ backlen
  inserts : ins.length = if ele = .delete then 0 else 1

theorem writes_item (x : Item) : Writes x.input [x.bytes] x.bytes (lpEncodeBacklen x.bytes.length) := by
  have other : x.input ≠ .delete := by cases x <;> simp [Item.input]
  exact ⟨encode_input x,if_pos other,by simp [body,entryBytes],by rw [if_neg other]; rfl⟩

theorem writes_delete : Writes .delete [] [] [] := ⟨rfl,rfl,rfl,rfl⟩

inductive Counts (ele : Input) (n m : Nat) : Bool → Prop
  | insert (other : ele ≠ .delete) (grows : m = n + 1) : Counts ele n m false
  | delete (same : ele = .delete) (shrinks : n = m + 1) : Counts ele n m true
  | replace (other : ele ≠ .delete) (keeps : m = n) : Counts ele n m true

theorem countElement_spec {ele : Input} {n m : Nat} {replace : Bool} (room : headerSize ≤ lp.size) (counts : Counts ele n m replace)
    (count : readLE lp.bytes 4 2 = n ∨ readLE lp.bytes 4 2 = numeleUnknown) :
    ∃ counted : Block L, lp.countElement ele replace = some counted ∧ counted.address = lp.address ∧ counted.size = lp.size ∧
      (∀ i, headerSize ≤ i → counted.bytes i = lp.bytes i) ∧ (readLE counted.bytes 4 2 = m ∨ readLE counted.bytes 4 2 = numeleUnknown) := by
  unfold headerSize at room ⊢
  have loaded : lp.lpGetNumElements = some (readLE lp.bytes 4 2) := Block.loadLE_inside (by omega)
  have bound := readLE_lt lp.bytes 4 2
  have update : ∀ v, ∃ counted : Block L, some (lp.lpSetNumElements v) = some counted ∧ counted.address = lp.address ∧ counted.size = lp.size ∧
      (∀ i, 6 ≤ i → counted.bytes i = lp.bytes i) ∧ readLE counted.bytes 4 2 = v % 256^2 := by
    intro v
    exact ⟨_,rfl,rfl,rfl,fun i after => writeLE_outside _ _ (Or.inr after),readLE_writeLE _ _ _ _⟩
  unfold Block.countElement
  rw [loaded,bind_eq_bind,bind_some]
  unfold numeleUnknown at count ⊢
  cases counts with
  | insert other grows =>
    rw [if_pos (Or.inl rfl)]
    split
    · obtain ⟨counted,set,address,size,kept,now⟩ := update (readLE lp.bytes 4 2 + 1)
      exact ⟨counted,set,address,size,kept,by omega⟩
    · exact ⟨lp,rfl,rfl,rfl,fun _ _ => rfl,by omega⟩
  | delete same shrinks =>
    rw [if_pos (Or.inr same)]
    split
    · obtain ⟨counted,set,address,size,kept,now⟩ := update (readLE lp.bytes 4 2 - 1)
      rw [if_neg (not_not_intro same)]
      exact ⟨counted,set,address,size,kept,by omega⟩
    · exact ⟨lp,rfl,rfl,rfl,fun _ _ => rfl,by omega⟩
  | replace other keeps =>
    rw [if_neg (by simp [other])]
    exact ⟨lp,rfl,rfl,rfl,fun _ _ => rfl,by omega⟩

theorem pointers_head? {n p : Nat} (within : Block.Within lp n) (rest : Block.Rest lp n p es) :
    (do
      let first ← lp.load p
      if first = eof then return none else return some p) = some (pointers p es).head? := by
  cases es with
  | nil =>
    have whole := rest.whole
    have le := within.le
    have byte := rest.holds 0 0xFF rfl
    rw [add_zero] at byte
    rw [Block.load_inside (by omega),byte]
    rfl
  | cons e es =>
    obtain ⟨stands,-⟩ := rest.head within
    have other : (view e 0).toNat ≠ eof := by
      intro terminator
      apply stands.encoded.kind_ne.1
      rw [kindOf,terminator]
      rfl
    rw [stands.first,bind_eq_bind,bind_some,if_neg other]
    rfl

/-- A block after its bytes were moved: all but the gap for the new entries is in place. -/
structure Moved (lp moved : Block L) (pre mid post ins : List Str) : Prop where
  room : totalBytes (pre ++ (ins ++ post)) ≤ moved.size
  placed : moved.address + moved.size < 2^L.sizeBits
  bytes : ∀ i < totalBytes (pre ++ (ins ++ post)), i < headerSize + (body pre).length ∨ headerSize + (body pre).length + (body ins).length ≤ i →
    moved.bytes i = memmove lp.bytes (headerSize + (body pre).length + (body ins).length) (headerSize + (body pre).length + (body mid).length)
      ((body post).length + 1) i

section Splice
variable {lp moved : Block L} {pre mid post ins : List Str} {ele : Input} {encoded backlen : Str} {replace : Bool}

section
variable (spliced : Moved lp moved pre mid post ins)
include spliced

theorem Moved.stored (writes : Writes ele ins encoded backlen) {i : Nat}
    (inside : i < totalBytes (pre ++ (ins ++ post))) :
    (moved.store (headerSize + (body pre).length) encoded encoded.length backlen).bytes i =
      writeBytes (memmove lp.bytes (headerSize + (body pre).length + (body ins).length) (headerSize + (body pre).length + (body mid).length)
        ((body post).length + 1)) (headerSize + (body pre).length) (body ins) i := by
  rw [Block.store,writeBytes_append,← writes.spells]
  exact writeBytes_congr (spliced.bytes i inside)

theorem Moved.holds (formed : Formed lp (pre ++ (mid ++ post))) (writes : Writes ele ins encoded backlen) :
    Holds (moved.store (headerSize + (body pre).length) encoded encoded.length backlen).bytes headerSize (body (pre ++ (ins ++ post)) ++ [0xFF]) := by
  have whole := totalBytes_eq pre ins post
  have holds := formed.holds
  simp only [body_append,append_assoc] at holds ⊢
  refine (holds_splice holds (body ins)).congr ?_
  intro i from_ below
  simp only [length_append,length_singleton] at below
  rw [spliced.stored writes (by omega),length_append,length_singleton]

theorem Moved.count (writes : Writes ele ins encoded backlen) :
    readLE (moved.store (headerSize + (body pre).length) encoded encoded.length backlen).bytes 4 2 = readLE lp.bytes 4 2 := by
  have whole := totalBytes_eq pre ins post
  apply readLE_congr
  intro i below
  unfold headerSize at whole
  rw [spliced.stored writes (by omega)]
  unfold headerSize
  rw [writeBytes_outside _ (by omega),memmove_outside _ _ (by omega)]

theorem Moved.newPointer (formed : Formed lp (pre ++ (mid ++ post)))
    (writes : Writes ele ins encoded backlen) (valid : ∀ e ∈ pre ++ (ins ++ post), Encoded e) :
    moved.newPointer ele (headerSize + (body pre).length) = some (pointers headerSize (pre ++ (ins ++ post)))[pre.length]? := by
  have whole := totalBytes_eq pre ins post
  rw [getElem?_pointers]
  have inserts := writes.inserts
  unfold Block.newPointer
  split
  · rename_i same
    rw [if_pos same] at inserts
    obtain rfl : ins = [] := eq_nil_of_length_eq_zero inserts
    have empty : encoded = [] ∧ backlen = [] := append_eq_nil_iff.mp writes.spells.symm
    have holds := spliced.holds formed writes
    rw [Block.store,writeBytes_append,empty.1,empty.2,append_nil] at holds
    rw [writeBytes_nil,nil_append,body_append,append_assoc,holds_append] at holds
    have within : Block.Within moved (totalBytes (pre ++ ([] ++ post))) := ⟨by unfold totalBytes; omega,spliced.room⟩
    refine pointers_head? within ⟨?_,le_add_right _ _,?_,holds.2⟩
    · exact fun e member => valid e (mem_append_right pre member)
    · rw [whole]
      rfl
  · rename_i other
    rw [if_neg other] at inserts
    obtain ⟨e,rfl⟩ := length_eq_one_iff.mp inserts
    rfl

theorem Moved.complete (formed : Formed lp (pre ++ (mid ++ post)))
    (writes : Writes ele ins encoded backlen) (valid : ∀ e ∈ pre ++ (ins ++ post), Encoded e)
    (counts : Counts ele (pre ++ (mid ++ post)).length (pre ++ (ins ++ post)).length replace)
    (small : totalBytes (pre ++ (ins ++ post)) ≤ uint32Max) :
    ∃ lp', moved.complete ele replace (headerSize + (body pre).length) encoded encoded.length backlen (totalBytes (pre ++ (ins ++ post))) =
        some (lp',(pointers headerSize (pre ++ (ins ++ post)))[pre.length]?) ∧ Formed lp' (pre ++ (ins ++ post)) := by
  have room : headerSize ≤ (moved.store (headerSize + (body pre).length) encoded encoded.length backlen).size := by
    have room := spliced.room
    unfold totalBytes at room
    exact le_trans (by omega) room
  have numbered := formed.count
  rw [← spliced.count writes] at numbered
  obtain ⟨counted,set,address,size,kept,now⟩ := countElement_spec room counts numbered
  refine ⟨counted.lpSetTotalBytes (totalBytes (pre ++ (ins ++ post))),?_,valid,small,?_,?_,?_,?_,?_⟩
  · rw [Block.complete,spliced.newPointer formed writes valid,bind_eq_bind,bind_some,set]
    rfl
  · exact spliced.room.trans_eq size.symm
  · exact (congrArg₂ (· + ·) address size).trans_lt spliced.placed
  · rw [Block.lpSetTotalBytes,readLE_writeLE]
    unfold uint32Max at small
    exact mod_eq_of_lt (by omega)
  · rw [Block.lpSetTotalBytes,readLE_writeLE_disjoint _ _ (by omega)]
    exact now
  refine (spliced.holds formed writes).congr ?_
  intro i from_ _
  rw [← kept i from_]
  exact writeLE_outside _ _ (by unfold headerSize at from_; omega)

end

end Splice

theorem insertAt_spec (alloc : Allocator L) {mid post ins : List Str} {ele : Input} {encoded backlen : Str} {replace : Bool}
    (formed : Formed lp (pre ++ (mid ++ post))) (writes : Writes ele ins encoded backlen)
    (valid : totalBytes (pre ++ (ins ++ post)) ≤ uint32Max → ∀ e ∈ ins, Encoded e)
    (counts : Counts ele (pre ++ (mid ++ post)).length (pre ++ (ins ++ post)).length replace)
    (replaced : lp.replacedLen (headerSize + (body pre).length) replace = some (body mid).length) :
    if totalBytes (pre ++ (ins ++ post)) ≤ uint32Max then
      ∃ lp', lp.insertAt alloc ele (headerSize + (body pre).length) replace =
        some (some (lp',(pointers headerSize (pre ++ (ins ++ post)))[pre.length]?)) ∧ Formed lp' (pre ++ (ins ++ post))
    else lp.insertAt alloc ele (headerSize + (body pre).length) replace = some none := by
  have before := totalBytes_eq pre mid post
  have after := totalBytes_eq pre ins post
  have spelled : (body ins).length = encoded.length + backlen.length := by rw [writes.spells,length_append]
  have new : totalBytes (pre ++ (mid ++ post)) + encoded.length + backlen.length - (body mid).length = totalBytes (pre ++ (ins ++ post)) := by omega
  have moves : headerSize + (body pre).length + encoded.length + backlen.length = headerSize + (body pre).length + (body ins).length := by omega
  unfold Block.insertAt
  rw [writes.encodes]
  dsimp only
  rw [writes.ends,formed.lpGetTotalBytes,bind_eq_bind,bind_some,replaced,bind_eq_bind,bind_some]
  simp only [new,moves]
  split
  · rename_i small
    have member : ∀ e ∈ pre ++ (ins ++ post), Encoded e := by
      intro e found
      rcases mem_append.mp found with first | found
      · exact formed.encoded e (mem_append_left _ first)
      rcases mem_append.mp found with middle | last
      · exact valid small e middle
      · exact formed.encoded e (mem_append_right _ (mem_append_right _ last))
    have relocated := Block.relocate_spec alloc small formed.room formed.placed
      (show headerSize + (body pre).length ≤ headerSize + (body pre).length + (body mid).length ∧ _ ≤ _ by omega)
      (show headerSize + (body pre).length ≤ headerSize + (body pre).length + (body ins).length by omega) (by omega)
    obtain ⟨room,placed,bytes⟩ := relocated
    rw [show totalBytes (pre ++ (mid ++ post)) - (headerSize + (body pre).length + (body mid).length) = (body post).length + 1 by omega] at bytes
    have spliced : Moved lp _ pre mid post ins := ⟨room,placed,bytes⟩
    obtain ⟨lp',completed,again⟩ := spliced.complete formed writes member counts small
    rw [completed]
    exact ⟨lp',rfl,again⟩
  · rfl

end ValkeyWasm.Listpack
