import ValkeyWasm.Rdb.StringCodec

/-! What is saved is loaded again, and what a load returns against what the file says. -/
namespace ValkeyWasm.Rdb
open Library.Memory Library.ByteOrder Util List Nat
open Hashtable (Layout)

def Saves (save : Sink → Option (Sink × Nat)) (enc : Str) : Prop :=
  ∀ rdb, save rdb = (rdb.rdbWriteRaw enc).bind fun rdb => some (rdb,enc.length)

theorem Sink.rdbWriteRaw_bind {α : Type} (rdb : Sink) (p q : Str) (next : Sink → Option α) :
    ((rdb.rdbWriteRaw p).bind fun rdb => (rdb.rdbWriteRaw q).bind next) = (rdb.rdbWriteRaw (p ++ q)).bind next := by
  unfold Sink.rdbWriteRaw
  rw [List.length_append]
  split
  · rw [Option.bind_some]
    rw [List.length_append,List.append_assoc,add_assoc]
  · rw [if_neg (by omega)]
    rfl

def lenBytes (len : Nat) : Str :=
  if len < 2^6 then [byteOf len]
  else if len < 2^14 then [byteOf (len / 2^8 + 2^6),byteOf len]
  else if len ≤ uint32Max then 0x80 :: bigEndian 4 len
  else 0x81 :: bigEndian 8 len

theorem saves_len (len : Nat) : Saves (fun rdb => rdbSaveLen rdb len) (lenBytes len) := by
  intro rdb
  unfold rdbSaveLen lenBytes
  simp only [Option.bind_eq_bind,Option.pure_def,Sink.rdbWriteRaw_bind,List.singleton_append]
  split
  · rfl
  · split
    · rfl
    · split <;> simp only [length_cons,length_bigEndian]

theorem rioRead_append (p rest : Str) : rioRead (p ++ rest) p.length = some (p,rest) := by
  rw [rioRead,if_pos (by rw [List.length_append]; omega),take_left,drop_left]

variable {len : Nat}

theorem rdbLoadLen_lenBytes (word : len < lenErr) (rest : Str) : rdbLoadLen (lenBytes len ++ rest) = some (false,len,rest) := by
  have loaded : rdbLoadLenByRef (lenBytes len ++ rest) = some (false,len,rest) := by
    unfold lenErr at word
    unfold lenBytes
    split
    · rename_i small
      have byte : (byteOf len).toNat = len := by
        rw [byteOf,BitVec.toNat_ofNat]
        omega
      rw [List.singleton_append,rdbLoadLenByRef]
      simp only [byte]
      rw [if_neg (by unfold encVal; omega),if_pos (by omega),mod_eq_of_lt small]
    · split
      · have first : (byteOf (len / 2^8 + 2^6)).toNat = len / 2^8 + 2^6 := by
          rw [byteOf,BitVec.toNat_ofNat]
          omega
        have second : ofBigEndian [byteOf len] = len % 2^8 := by
          simp [ofBigEndian,ofLittleEndian,byteOf]
        have read := rioRead_append [byteOf len] rest
        rw [List.cons_append,rdbLoadLenByRef]
        rw [if_neg (by unfold encVal; omega),if_neg (by omega),if_pos (by omega)]
        rw [List.length_singleton] at read
        rw [read,Option.bind_eq_bind,Option.bind_some]
        simp only [Option.pure_def,Option.some.injEq,Prod.mk.injEq,true_and,and_true]
        omega
      · split
        · rename_i large short
          have read := rioRead_append (bigEndian 4 len) rest
          rw [length_bigEndian] at read
          rw [List.cons_append,rdbLoadLenByRef]
          simp only [encVal]
          rw [if_neg (by decide),if_neg (by decide),if_neg (by decide),if_pos trivial,read,Option.bind_eq_bind,Option.bind_some,
            ofBigEndian_bigEndian (by unfold uint32Max at short; omega)]
          rfl
        · have read := rioRead_append (bigEndian 8 len) rest
          rw [length_bigEndian] at read
          rw [List.cons_append,rdbLoadLenByRef]
          simp only [encVal]
          rw [if_neg (by decide),if_neg (by decide),if_neg (by decide),if_neg (by decide),if_pos trivial,read,Option.bind_eq_bind,Option.bind_some,
            ofBigEndian_bigEndian (by omega)]
          rfl
  rw [rdbLoadLen,loaded,Option.bind_eq_bind,Option.bind_some]
  dsimp only
  rw [guard,if_pos (show len ≠ lenErr by omega)]
  rfl

theorem saves_verbatim (s : Str) : Saves (fun rdb => saveVerbatim rdb s) (lenBytes s.length ++ s) := by
  intro rdb
  simp only [saveVerbatim,saves_len s.length rdb,Option.bind_eq_bind,Option.pure_def,Option.bind_assoc,Option.bind_some]
  split
  · rw [Sink.rdbWriteRaw_bind,List.length_append]
  · rename_i empty
    rw [eq_nil_of_length_eq_zero (Nat.eq_zero_of_not_pos empty),append_nil]

theorem saves_lzf (data : Str) (originalLen : Nat) : Saves (fun rdb => rdbSaveLzfBlob rdb data originalLen)
    (byteOf (encVal * 2^6 + 3) :: (lenBytes data.length ++ (lenBytes originalLen ++ data))) := by
  intro rdb
  have len := fun rdb => saves_len data.length rdb
  have original := fun rdb => saves_len originalLen rdb
  simp only [rdbSaveLzfBlob,len,original,Option.bind_eq_bind,Option.bind_assoc,Option.bind_some,Sink.rdbWriteRaw_bind]
  simp only [length_cons,List.length_append]
  congr 1
  funext rdb
  congr 2
  omega

def rawBytes (lzf : Lzf) (compression : Bool) (s : Str) : Str :=
  match if s.length ≤ 11 then rdbTryIntegerEncoding s else none with
  | some enc => enc
  | none =>
    if (compression && decide (20 < s.length)) && decide (lzf.compress s (s.length - 4) ≠ []) then
      byteOf (encVal * 2^6 + 3) :: (lenBytes (lzf.compress s (s.length - 4)).length ++ (lenBytes s.length ++ lzf.compress s (s.length - 4)))
    else lenBytes s.length ++ s

theorem saves_raw (lzf : Lzf) (compression : Bool) (s : Str) :
    Saves (fun rdb => rdbSaveRawString lzf compression rdb s) (rawBytes lzf compression s) := by
  intro rdb
  have verbatim := saves_verbatim s rdb
  unfold rdbSaveRawString rawBytes
  cases (if s.length ≤ 11 then rdbTryIntegerEncoding s else none) with
  | some enc =>
    dsimp only
    cases rdb.rdbWriteRaw enc <;> rfl
  | none =>
    cases long : compression && decide (20 < s.length) with
    | false => exact verbatim
    | true =>
      rw [Bool.and_eq_true,decide_eq_true_eq] at long
      by_cases none_ : lzf.compress s (s.length - 4) = []
      · simp only [rdbSaveLzfStringObject,none_,if_true,ite_self,Option.bind_eq_bind,Option.bind_some,verbatim]
        rfl
      · have blob := saves_lzf (lzf.compress s (s.length - 4)) s.length rdb
        simp only [rdbSaveLzfStringObject,none_,if_false,if_neg (show ¬ s.length ≤ 4 by omega),blob,Option.bind_eq_bind,Option.bind_assoc,
          Option.bind_some,length_cons,zero_lt_succ,if_true,Option.pure_def,ne_eq,not_false_eq_true,decide_true,Bool.and_self]

def Loaded.text : Loaded → Str
  | bytes s => s
  | object s => s
  | integer v => decimal v

theorem Mode.text_wrap (mode : Mode) (s : Str) : (mode.wrap s).text = s := by cases mode <;> rfl

variable (L : Layout) (lzf : Lzf) (memory : Nat → Bool) (buf : Bytes)

/-- The bytes load as the string, with its length where a length is asked for, and the input
behind them is left. -/
def Loads (enc s : Str) : Prop :=
  ∀ mode rest, ∃ r, rdbGenericLoadStringObject L lzf memory buf mode (enc ++ rest) = some r ∧ r.rest = rest ∧ r.value.text = s ∧
    (∀ n, r.len = some n → n = s.length) ∧ (mode = .plain ∨ mode = .sds → r.len = some s.length)

variable {L lzf memory buf}

theorem sizeT_eq {n : Nat} (fits : n + 1 < 2^L.sizeBits) : sizeT L n = n ∧ n < lenErr := by
  have wide : 2^L.sizeBits ≤ 2^64 := by cases L <;> decide
  refine ⟨mod_eq_of_lt (by omega),?_⟩
  unfold lenErr
  omega

variable {s : Str}

theorem loads_verbatim (fits : s.length + 1 < 2^L.sizeBits) (free : memory s.length = true) :
    Loads L lzf memory buf (lenBytes s.length ++ s) s := by
  intro mode rest
  obtain ⟨size,word⟩ := sizeT_eq fits
  rw [List.append_assoc,rdbGenericLoadStringObject,rdbLoadLen_lenBytes word]
  simp only [Option.bind_eq_bind,Option.bind_some,size,free,rioRead_append]
  cases mode <;> simp [Loaded.text]

theorem loads_lzf (fits : s.length + 1 < 2^L.sizeBits) (free : ∀ n ≤ s.length, memory n = true)
    (compressed : lzf.compress s (s.length - 4) ≠ []) :
    Loads L lzf memory buf
      (byteOf (encVal * 2^6 + 3) :: (lenBytes (lzf.compress s (s.length - 4)).length ++ (lenBytes s.length ++ lzf.compress s (s.length - 4)))) s := by
  intro mode rest
  have shorter := lzf.compress_le s (s.length - 4)
  have back := lzf.decompress_compress s (s.length - 4) compressed
  generalize lzf.compress s (s.length - 4) = c at shorter back
  obtain ⟨size,word⟩ := sizeT_eq fits
  have cfits : c.length + 1 < 2^L.sizeBits := by omega
  obtain ⟨csize,cword⟩ := sizeT_eq cfits
  have code : ∀ input, rdbLoadLen (byteOf (encVal * 2^6 + 3) :: input) = some (true,3,input) := fun input => rfl
  rw [List.cons_append,List.append_assoc,List.append_assoc,rdbGenericLoadStringObject,code]
  simp only [Option.bind_eq_bind,Option.bind_some]
  rw [rdbLoadLzfStringObject,rdbLoadLen_lenBytes cword]
  unfold guard
  simp only [Option.bind_eq_bind,Option.bind_some,rdbLoadLen_lenBytes word,size,csize,free _ (le_refl _),free c.length (by omega),if_true,
    Option.pure_def,rioRead_append,back]
  exact ⟨_,rfl,rfl,mode.text_wrap s,fun n found => (Option.some.inj found).symm,fun _ => rfl⟩

variable {v : Int}

theorem rdbEncodeInteger_cases {enc : Str} (encoded : rdbEncodeInteger v = some enc) :
    ∃ width code, (width,code) ∈ [(1,0),(2,1),(4,2)] ∧ Fits width v ∧ enc = byteOf (encVal * 2^6 + code) :: littleEndian width (unsigned width v) := by
  unfold rdbEncodeInteger at encoded
  split at encoded
  · cases encoded
    exact ⟨1,0,by simp,by unfold Fits; omega,rfl⟩
  split at encoded
  · cases encoded
    exact ⟨2,1,by simp,by unfold Fits; omega,rfl⟩
  split at encoded
  · cases encoded
    exact ⟨4,2,by simp,by unfold Fits; omega,rfl⟩
  · cases encoded

section
variable {width code : Nat} (kind : (width,code) ∈ [(1,0),(2,1),(4,2)])
include kind

theorem kind_cases : (width = 1 ∧ code = 0) ∨ (width = 2 ∧ code = 1) ∨ width = 4 ∧ code = 2 := by simpa using kind

theorem kind_pos : 0 < width := by
  have := kind_cases kind
  omega

theorem kind_range (fits : Fits width v) : -2^63 ≤ v ∧ v < 2^63 := by
  unfold Fits at fits
  rcases kind_cases kind with ⟨rfl,-⟩ | ⟨rfl,-⟩ | ⟨rfl,-⟩ <;> omega

end

theorem loads_integer {enc : Str} (encoded : rdbEncodeInteger v = some enc) : Loads L lzf memory buf enc (decimal v) := by
  intro mode rest
  obtain ⟨width,code,kind,fits,rfl⟩ := rdbEncodeInteger_cases encoded
  have loaded : rdbLoadLen (byteOf (encVal * 2^6 + code) :: (littleEndian width (unsigned width v) ++ rest)) =
      some (true,code,littleEndian width (unsigned width v) ++ rest) := by
    rcases kind_cases kind with ⟨rfl,rfl⟩ | ⟨rfl,rfl⟩ | ⟨rfl,rfl⟩ <;> rfl
  have read := rioRead_append (littleEndian width (unsigned width v)) rest
  rw [length_littleEndian] at read
  have value : signed width (ofLittleEndian (littleEndian width (unsigned width v))) = v := by
    rw [ofLittleEndian_littleEndian]
    exact signed_unsigned (kind_pos kind) fits
  have small := kind_range kind fits
  have text := ll2string_eq buf (le_refl longStrSize) small.1 small.2
  rw [List.cons_append,rdbGenericLoadStringObject,loaded]
  rcases kind_cases kind with ⟨rfl,rfl⟩ | ⟨rfl,rfl⟩ | ⟨rfl,rfl⟩ <;>
    simp only [Option.bind_eq_bind,Option.bind_some,rdbLoadIntegerObject,read,value,text] <;>
    cases mode <;> simp [Loaded.text]

theorem loads_raw (compression : Bool) (fits : s.length + 1 < 2^L.sizeBits) (free : ∀ n ≤ s.length, memory n = true) :
    Loads L lzf memory buf (rawBytes lzf compression s) s := by
  unfold rawBytes
  split
  · rename_i enc tried
    split at tried
    · obtain ⟨v,read,encoded⟩ := Option.bind_eq_some_iff.mp tried
      obtain ⟨low,high⟩ := string2ll_range read
      have text := ll2string_string2ll buf read
      rw [ll2string_eq buf (le_refl longStrSize) low high] at text
      rw [← text]
      exact loads_integer encoded
    · cases tried
  · split
    · rename_i compressed
      simp only [Bool.and_eq_true,decide_eq_true_eq] at compressed
      exact loads_lzf fits free compressed.2
    · exact loads_verbatim fits (free s.length (le_refl _))

def integerBytes (v : Int) : Str :=
  match rdbEncodeInteger v with
  | some enc => enc
  | none => lenBytes (decimal v).length ++ decimal v

theorem saves_integer (stack : Bytes) (low : -2^63 ≤ v) (high : v < 2^63) :
    Saves (fun rdb => rdbSaveLongLongAsStringObject stack rdb v) (integerBytes v) := by
  intro rdb
  have short : (decimal v).length < 21 := length_decimal_lt low high
  unfold rdbSaveLongLongAsStringObject integerBytes
  cases rdbEncodeInteger v with
  | some enc =>
    dsimp only
    cases rdb.rdbWriteRaw enc <;> rfl
  | none =>
    have room : longStrSize ≤ 32 := by decide
    have len := saves_len (decimal v).length rdb
    unfold guard
    simp only [ll2string_eq stack room low high,show (decimal v).length < 32 by omega,if_true,Option.bind_eq_bind,Option.pure_def,Option.bind_some,len,
      Option.bind_assoc,Sink.rdbWriteRaw_bind,List.length_append]

theorem loads_integerBytes (low : -2^63 ≤ v) (high : v < 2^63) (free : memory (decimal v).length = true) :
    Loads L lzf memory buf (integerBytes v) (decimal v) := by
  have short : (decimal v).length < 21 := length_decimal_lt low high
  have wide : 2^32 ≤ 2^L.sizeBits := by cases L <;> decide
  unfold integerBytes
  split
  · rename_i enc encoded
    exact loads_integer encoded
  · exact loads_verbatim (by omega) free

/-- What the file says about a string, with lengths as unbounded numbers. -/
inductive Announced where
  | text (s : Str)
  | length (n : Nat)
  deriving DecidableEq, Repr

def announcedEncoded (enctype : Nat) (input : Str) : Option Announced :=
  match enctype with
  | 0 => (rioRead input 1).map fun (enc,_) => .text (decimal (signed 1 (ofLittleEndian enc)))
  | 1 => (rioRead input 2).map fun (enc,_) => .text (decimal (signed 2 (ofLittleEndian enc)))
  | 2 => (rioRead input 4).map fun (enc,_) => .text (decimal (signed 4 (ofLittleEndian enc)))
  | 3 => do
    let (_,_,input) ← rdbLoadLen input
    let (_,len,_) ← rdbLoadLen input
    return .length len
  | _ => none

def announced (input : Str) : Option Announced := do
  let (isencoded,len,input) ← rdbLoadLen input
  if isencoded then announcedEncoded len input else return .length len

def Announced.Matches : Announced → Str → Prop
  | text s, loaded => loaded = s
  | length n, loaded => loaded.length = n

def Announced.Fits (L : Layout) : Announced → Prop
  | text _ => True
  | length n => n < 2^L.sizeBits

variable {input : Str}

theorem rioRead_length {rest : Str} (read : rioRead input len = some (s,rest)) : s.length = len := by
  unfold rioRead at read
  split at read
  · cases read
    rw [length_take]
    omega
  · cases read

theorem of_guard {p : Prop} [Decidable p] {u : Unit} (passed : (guard p : Option Unit) = some u) : p := by
  by_contra fails
  rw [guard,if_neg fails] at passed
  cases passed

variable {mode : Mode} {r : Load}

theorem load_integer {width code : Nat} (kind : (width,code) ∈ [(1,0),(2,1),(4,2)])
    (loaded : rdbLoadIntegerObject buf code mode input = some r) :
    ∃ enc rest, rioRead input width = some (enc,rest) ∧ r.value.text = decimal (signed width (ofLittleEndian enc)) := by
  rcases kind_cases kind with ⟨rfl,rfl⟩ | ⟨rfl,rfl⟩ | ⟨rfl,rfl⟩
  all_goals
    obtain ⟨⟨enc,rest⟩,read,result⟩ := Option.bind_eq_some_iff.mp (show (rioRead input _).bind _ = some r from loaded)
    refine ⟨enc,rest,read,?_⟩
    obtain ⟨low,high⟩ := kind_range kind (fits_signed (kind_pos kind) (ofLittleEndian enc))
    have text := ll2string_eq buf (le_refl longStrSize) low high
    simp only [text] at result
    cases mode <;> cases result <;> rfl

theorem load_lzf (loaded : rdbLoadLzfStringObject L lzf memory mode input = some r) :
    ∃ a b n, ((rdbLoadLen input).bind fun (_,_,input) => rdbLoadLen input) = some (a,n,b) ∧ r.value.text.length = n ∧ n < 2^L.sizeBits := by
  obtain ⟨⟨_,clen,first⟩,cread,loaded⟩ := Option.bind_eq_some_iff.mp loaded
  obtain ⟨⟨_,len,second⟩,lread,loaded⟩ := Option.bind_eq_some_iff.mp loaded
  obtain ⟨_,-,loaded⟩ := Option.bind_eq_some_iff.mp loaded
  obtain ⟨_,-,loaded⟩ := Option.bind_eq_some_iff.mp loaded
  obtain ⟨⟨c,rest⟩,-,loaded⟩ := Option.bind_eq_some_iff.mp loaded
  obtain ⟨_,whole,result⟩ := Option.bind_eq_some_iff.mp loaded
  have size : (lzf.decompress c (sizeT L len)).length = len := of_guard whole
  cases result
  refine ⟨_,_,len,by rw [cread]; exact lread,?_,?_⟩
  · rw [mode.text_wrap]
    exact size
  · have most := lzf.decompress_le c (sizeT L len)
    have below : sizeT L len < 2^L.sizeBits := mod_lt len (by positivity)
    omega

theorem load_encoded {rest : Str} (loaded : (match len with
      | 0 | 1 | 2 => rdbLoadIntegerObject buf len mode rest
      | 3 => rdbLoadLzfStringObject L lzf memory mode rest
      | _ => none) = some r) : ∃ a, announcedEncoded len rest = some a ∧ a.Matches r.value.text ∧ a.Fits L := by
  have integer : ∀ width code, (width,code) ∈ [(1,0),(2,1),(4,2)] → rdbLoadIntegerObject buf code mode rest = some r →
      ∃ a, ((rioRead rest width).map fun (enc,_) => Announced.text (decimal (signed width (ofLittleEndian enc)))) = some a ∧
        a.Matches r.value.text ∧ a.Fits L := by
    intro width code kind number
    obtain ⟨enc,left,read,text⟩ := load_integer kind number
    refine ⟨.text (decimal (signed width (ofLittleEndian enc))),?_,text,trivial⟩
    rw [read,Option.map_some]
  split at loaded
  · exact integer 1 0 (by simp) loaded
  · exact integer 2 1 (by simp) loaded
  · exact integer 4 2 (by simp) loaded
  · obtain ⟨a,b,n,read,size,small⟩ := load_lzf loaded
    obtain ⟨⟨_,_,next⟩,cread,lread⟩ := Option.bind_eq_some_iff.mp read
    refine ⟨.length n,?_,size,small⟩
    rw [announcedEncoded,cread,Option.bind_eq_bind,Option.bind_some]
    dsimp only at lread ⊢
    rw [lread]
    rfl
  · cases loaded

theorem load_matches (loaded : rdbGenericLoadStringObject L lzf memory buf mode input = some r) :
    ∃ a, announced input = some a ∧ (a.Matches r.value.text ↔ a.Fits L) := by
  obtain ⟨⟨isencoded,len,rest⟩,first,loaded⟩ := Option.bind_eq_some_iff.mp loaded
  rw [announced,first]
  cases isencoded with
  | false =>
    obtain ⟨_,-,loaded⟩ := Option.bind_eq_some_iff.mp loaded
    obtain ⟨⟨s,left⟩,read,result⟩ := Option.bind_eq_some_iff.mp loaded
    refine ⟨.length len,rfl,?_⟩
    have text : r.value.text = s := by cases mode <;> cases result <;> rfl
    rw [Announced.Matches,text,rioRead_length read]
    exact mod_eq_iff_lt (by positivity)
  | true =>
    obtain ⟨a,found,holds,fits⟩ := load_encoded loaded
    exact ⟨a,found,iff_of_true holds fits⟩

variable (L lzf memory buf) in
/-- Strings and 64-bit numbers that were saved are loaded again in every mode. A load of any other
bytes returns what the file announces exactly when the announced length is a `size_t`: a longer one
is cut to its low bits. -/
theorem rdb_string_codec (stack : Bytes) :
    (∀ compression (s : Str), s.length + 1 < 2^L.sizeBits → (∀ n ≤ s.length, memory n = true) →
      ∃ enc, Saves (fun rdb => rdbSaveRawString lzf compression rdb s) enc ∧ Loads L lzf memory buf enc s) ∧
    (∀ v : Int, -2^63 ≤ v → v < 2^63 → memory (decimal v).length = true →
      ∃ enc, Saves (fun rdb => rdbSaveLongLongAsStringObject stack rdb v) enc ∧ Loads L lzf memory buf enc (decimal v)) ∧
    ∀ mode input r, rdbGenericLoadStringObject L lzf memory buf mode input = some r →
      ∃ a, announced input = some a ∧ (a.Matches r.value.text ↔ a.Fits L) := by
  refine ⟨?_,?_,?_⟩
  · intro compression s fits free
    exact ⟨rawBytes lzf compression s,saves_raw lzf compression s,loads_raw compression fits free⟩
  · intro v low high free
    exact ⟨integerBytes v,saves_integer stack low high,loads_integerBytes low high free⟩
  · intro mode input r loaded
    exact load_matches loaded

def noLzf : Lzf where
  compress _ _ := []
  decompress _ _ := []
  compress_le _ room := Nat.zero_le room
  decompress_le _ room := Nat.zero_le room
  decompress_compress _ _ some_ := absurd rfl some_

/-- On the 32-bit target a string of 2^32 + 1 bytes loads as its first byte. -/
theorem rdb_load_cut : rdbGenericLoadStringObject .bits32 noLzf (fun _ => true) (fun _ => 0) .sds [0x81,0,0,0,1,0,0,0,1,97] =
      some ⟨.bytes [97],some 1,[]⟩ ∧
    announced [0x81,0,0,0,1,0,0,0,1,97] = some (.length (2^32 + 1)) := by
  decide

end ValkeyWasm.Rdb
