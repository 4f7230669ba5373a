import ValkeyWasm.Library.Decimal
import ValkeyWasm.Library.Memory
import Mathlib.Data.Nat.Log
import Mathlib.Tactic.IntervalCases

/-! Strings and 64-bit integers: `string2ll` and `ll2string`.
`string2ll` accepts only the one spelling that `ll2string` writes. -/
namespace ValkeyWasm.Util
open Library.Decimal Library.Memory List Option Bool Nat

variable (dst : Bytes)

abbrev Str := List (BitVec 8)

def longStrSize : Nat := 21
def ullongMax : Nat := 2^64 - 1

def isDigit (c : BitVec 8) : Bool := decide (48 ≤ c.toNat) && decide (c.toNat ≤ 57)

def digit (c : BitVec 8) : Nat := c.toNat - 48

def digitLoop (v : Nat) : Str → Option (Nat × Str)
  | [] => some (v,[])
  | c :: p =>
    if isDigit c then
      if v > ullongMax / 10 then none
      else if v * 10 > ullongMax - digit c then none
      else digitLoop (v * 10 + digit c) p
    else some (v,c :: p)

def magnitude (negative : Bool) : Str → Option Int
  | [] => none
  | c :: p =>
    if isDigit c && decide (49 ≤ c.toNat) then
      match digitLoop (digit c) p with
      | none => none
      | some (_,_ :: _) => none
      | some (v,[]) =>
        if negative then
          if v > 2^63 then none else some (-v)
        else if v > 2^63 - 1 then none else some v
    else none

def string2ll (s : Str) : Option Int :=
  match s with
  | [] => none
  | c :: p =>
    if s.length ≥ longStrSize then none
    else if p = [] ∧ isDigit c then some (digit c)
    else if c.toNat = 45 then magnitude true p
    else magnitude false s

def shortDigits10 (v : Nat) : Nat :=
  if v < 10 then 1
  else if v < 100 then 2
  else if v < 1000 then 3
  else if v < 100000000 then
    if v < 1000000 then
      if v < 10000 then 4 else 5 + (if v ≥ 100000 then 1 else 0)
    else 7 + (if v ≥ 10000000 then 1 else 0)
  else if v < 10000000000 then 9 + (if v ≥ 1000000000 then 1 else 0)
  else 11 + (if v ≥ 100000000000 then 1 else 0)

/-- The recursive call of `digits10` is on a 64-bit number divided by 10^12. -/
def digits10 (v : Nat) : Nat := if v < 1000000000000 then shortDigits10 v else 12 + shortDigits10 (v / 1000000000000)

def char (d : Nat) : BitVec 8 := BitVec.ofNat 8 (48 + d)

def pair (next v : Nat) : Bytes := fun i => if i = next then char (v % 10) else if i + 1 = next then char (v / 10) else dst i

def pairLoop : Nat → Nat → Nat → Bytes → Bytes
  | 0, _, _, dst => dst
  | rounds + 1, value, next, dst =>
    if value ≥ 100 then pairLoop rounds (value / 100) (next - 2) (pair dst next (value % 100))
    else if value < 10 then fun i => if i = next then char value else dst i
    else pair dst next value

/-- The `length` characters in `dst`; a 64-bit number has at most ten pairs. -/
def ull2string (dstlen value : Nat) : Str :=
  let length := digits10 value
  if length ≥ dstlen then []
  else (List.range length).map (pairLoop 11 value (length - 1) dst)

def ll2string (dstlen : Nat) (svalue : Int) : Str :=
  if svalue < 0 then
    if dstlen < 2 then []
    else
      match ull2string dst (dstlen - 1) (-svalue).toNat with
      | [] => []
      | s => 45 :: s
  else ull2string dst dstlen svalue.toNat

variable {d : Nat}

theorem digits10_eq {v : Nat} (word : v < 2^64) (low : 10^d ≤ v ∨ d = 0) (high : v < 10^(d + 1)) : digits10 v = d + 1 := by
  have bound : d < 20 := by
    by_contra large
    have := Nat.pow_le_pow_right (show 0 < 10 by decide) (Nat.le_of_not_lt large)
    omega
  unfold digits10 shortDigits10
  interval_cases d <;> grind

variable {value : Nat}

theorem last_digits {next : Nat} (short : value < 100) (low : 10^next ≤ value ∨ next = 0) (high : value < 10^(next + 1)) :
    (∀ k ≤ next, (if value < 10 then fun i => if i = next then char value else dst i else pair dst next value) (next - k) =
      char (value / 10^k % 10)) ∧
    ∀ i, next < i → (if value < 10 then fun i => if i = next then char value else dst i else pair dst next value) i = dst i := by
  split
  · have first : next = 0 := by
      rcases low with least | zero
      · by_contra positive
        have := Nat.pow_le_pow_right (show 0 < 10 by decide) (show 1 ≤ next by omega)
        omega
      · exact zero
    subst first
    refine ⟨?_,fun i after => if_neg (by omega)⟩
    intro k inside
    obtain rfl : k = 0 := by omega
    dsimp only
    rw [if_pos rfl,pow_zero,Nat.div_one]
    congr 1
    omega
  · have second : next = 1 := by
      have above : ¬2 ≤ next := by
        intro two
        rcases low with least | zero
        · have := Nat.pow_le_pow_right (show 0 < 10 by decide) two
          omega
        · omega
      have nonzero : next ≠ 0 := by
        rintro rfl
        omega
      omega
    subst second
    refine ⟨?_,fun i after => by rw [pair,if_neg (by omega),if_neg (by omega)]⟩
    intro k inside
    rcases (by omega : k = 0 ∨ k = 1) with rfl | rfl
    · rw [pair,if_pos rfl,pow_zero,Nat.div_one]
    · rw [pair,if_neg (by decide),if_pos rfl,pow_one]
      congr 1
      omega

theorem pairLoop_spec {rounds next : Nat} (enough : value < 100^(rounds + 1)) (low : 10^next ≤ value ∨ next = 0)
    (high : value < 10^(next + 1)) :
    (∀ k ≤ next, pairLoop (rounds + 1) value next dst (next - k) = char (value / 10^k % 10)) ∧
    ∀ i, next < i → pairLoop (rounds + 1) value next dst i = dst i := by
  induction rounds generalizing value next dst with
  | zero =>
    rw [pairLoop,if_neg (by omega)]
    exact last_digits dst (by omega) low high
  | succ rounds ih =>
    rw [pairLoop]
    split
    · rename_i large
      obtain ⟨m,rfl⟩ : ∃ m, next = m + 2 := by
        refine ⟨next - 2,?_⟩
        by_contra short
        have := Nat.pow_le_pow_right (show 0 < 10 by decide) (show next + 1 ≤ 2 by omega)
        omega
      have above : 10^(m + 2 + 1) = 10^(m + 1) * 100 := pow_add 10 (m + 1) 2
      have fewer : value / 100 < 100^(rounds + 1) := by omega
      have least : 10^m ≤ value / 100 ∨ m = 0 := by omega
      obtain ⟨written,kept⟩ := ih (pair dst (m + 2) (value % 100)) fewer least (by omega)
      rw [show m + 2 - 2 = m by omega]
      refine ⟨?_,fun i after => ?_⟩
      · intro k inside
        rcases (show k = 0 ∨ k = 1 ∨ ∃ j, k = j + 2 from by rcases k with _ | _ | j <;> simp) with rfl | rfl | ⟨j,rfl⟩
        · rw [kept _ (by omega),pair,if_pos (by omega)]
          congr 1
          omega
        · rw [kept _ (by omega),pair,if_neg (by omega),if_pos (by omega)]
          congr 1
          omega
        · have scaled : 10^(j + 2) = 100 * 10^j := (pow_add 10 j 2).trans (mul_comm _ _)
          rw [show m + 2 - (j + 2) = m - j by omega,written j (by omega),Nat.div_div_eq_div_mul,scaled]
      · rw [kept i (by omega),pair,if_neg (by omega),if_neg (by omega)]
    · rename_i short
      exact last_digits dst (by omega) low high

variable {dstlen : Nat}

theorem ull2string_eq (word : value < 2^64) (low : 10^d ≤ value ∨ d = 0)
    (high : value < 10^(d + 1)) (room : d + 1 < dstlen) : ull2string dst dstlen value = (numeral (d + 1) value).map char := by
  unfold ull2string
  rw [digits10_eq word low high,if_neg (by omega),Nat.add_sub_cancel]
  have enough : value < 100^(10 + 1) := by omega
  obtain ⟨written,-⟩ := pairLoop_spec dst enough low high
  apply ext_getElem?
  intro i
  rw [getElem?_map,getElem?_map]
  rcases Nat.lt_or_ge i (d + 1) with inside | past
  · have digits := getElem?_numeral value (show d - i < d + 1 by omega)
    rw [show d + 1 - 1 - (d - i) = i by omega] at digits
    have char_at := written (d - i) (by omega)
    rw [show d - (d - i) = i by omega] at char_at
    rw [digits,getElem?_range inside,map_some,map_some,char_at]
  · rw [getElem?_eq_none (by rw [length_range]; omega),getElem?_eq_none (by rw [length_numeral]; omega)]
    rfl

def decimal (v : Int) : Str :=
  if v < 0 then 45 :: (numeral (Nat.log 10 v.natAbs + 1) v.natAbs).map char else (numeral (Nat.log 10 v.natAbs + 1) v.natAbs).map char

theorem log_bounds (value : Nat) : (10^Nat.log 10 value ≤ value ∨ Nat.log 10 value = 0) ∧ value < 10^(Nat.log 10 value + 1) := by
  refine ⟨?_,lt_pow_succ_log_self (by decide) value⟩
  rcases Nat.eq_zero_or_pos value with rfl | positive
  · exact Or.inr (log_zero_right 10)
  · exact Or.inl (pow_log_le_self 10 positive.ne')

theorem digits10_log (word : value < 2^64) : digits10 value = Nat.log 10 value + 1 :=
  digits10_eq word (log_bounds value).1 (log_bounds value).2

theorem ull2string_log (word : value < 2^64) (room : digits10 value < dstlen) :
    ull2string dst dstlen value = (numeral (Nat.log 10 value + 1) value).map char :=
  ull2string_eq dst word (log_bounds value).1 (log_bounds value).2 (digits10_log word ▸ room)

def sdigits10 (v : Int) : Nat := if v < 0 then digits10 (-v).toNat + 1 else digits10 v.toNat

variable {v : Int}

theorem ll2string_decimal (room : sdigits10 v < dstlen) (low : -2^63 ≤ v) (high : v < 2^63) :
    ll2string dst dstlen v = decimal v := by
  rw [ll2string,decimal]
  unfold sdigits10 at room
  split at room
  · rename_i negative
    have size : (-v).toNat = v.natAbs := by omega
    rw [size] at room
    rw [if_pos negative,if_pos negative,if_neg (by omega),size,ull2string_log dst (by omega) (by omega),numeral]
    simp
  · rename_i positive
    have size : v.toNat = v.natAbs := by omega
    rw [size] at room
    rw [if_neg positive,if_neg positive,size]
    exact ull2string_log dst (by omega) room

theorem sdigits10_le (low : -2^63 ≤ v) (high : v < 2^63) : sdigits10 v < longStrSize := by
  unfold sdigits10 longStrSize
  split
  · have fewer : Nat.log 10 (-v).toNat < 19 := log_lt_of_lt_pow' (by decide) (by omega)
    rw [digits10_log (by omega)]
    omega
  · have fewer : Nat.log 10 v.toNat < 19 := log_lt_of_lt_pow' (by decide) (by omega)
    rw [digits10_log (by omega)]
    omega

theorem length_decimal (low : -2^63 ≤ v) (high : v < 2^63) : (decimal v).length = sdigits10 v := by
  unfold decimal sdigits10
  split
  · rw [digits10_log (by omega),length_cons,length_map,length_numeral,show (-v).toNat = v.natAbs by omega]
  · rw [digits10_log (by omega),length_map,length_numeral,show v.toNat = v.natAbs by omega]

theorem length_decimal_lt (low : -2^63 ≤ v) (high : v < 2^63) : (decimal v).length < longStrSize := length_decimal low high ▸ sdigits10_le low high

theorem ll2string_eq (room : longStrSize ≤ dstlen) (low : -2^63 ≤ v) (high : v < 2^63) :
    ll2string dst dstlen v = decimal v :=
  ll2string_decimal dst ((sdigits10_le low high).trans_le room) low high

variable {c : BitVec 8}

theorem char_digit (shape : isDigit c = true) : char (digit c) = c := by
  simp only [isDigit,and_eq_true,decide_eq_true_iff] at shape
  unfold char digit
  rw [show 48 + (c.toNat - 48) = c.toNat by omega]
  exact BitVec.ofNat_toNat 8 c |>.trans (by simp)

theorem digit_lt (shape : isDigit c = true) : digit c < 10 := by
  simp only [isDigit,and_eq_true,decide_eq_true_iff] at shape
  unfold digit
  omega

theorem digit_char (small : d < 10) : isDigit (char d) = true ∧ digit (char d) = d := by
  have value : (char d).toNat = 48 + d := by
    rw [char,BitVec.toNat_ofNat]
    omega
  simp only [isDigit,digit,value,and_eq_true,decide_eq_true_eq]
  omega

variable {negative : Bool} {p s : Str}

theorem digitLoop_iff {u : Nat} (word : u ≤ ullongMax) :
    digitLoop u p = some (value,[]) ↔ (∀ c ∈ p, isDigit c = true) ∧ horner u (p.map digit) = value ∧ value ≤ ullongMax := by
  induction p generalizing u with
  | nil =>
    constructor
    · rintro ⟨⟩
      exact ⟨nofun,rfl,word⟩
    · rintro ⟨-,rfl,-⟩
      rfl
  | cons c p ih =>
    have overflows : ullongMax < u * 10 + digit c → ¬(horner (u * 10 + digit c) (p.map digit) = value ∧ value ≤ ullongMax) := by
      rintro above ⟨rfl,fits⟩
      have least := le_horner (u * 10 + digit c) (p.map digit)
      have power : 0 < 10^(p.map digit).length := Nat.pow_pos (by decide)
      have := Nat.le_mul_of_pos_right (u * 10 + digit c) power
      omega
    have step : horner u ((c :: p).map digit) = horner (u * 10 + digit c) (p.map digit) := rfl
    rw [digitLoop,forall_mem_cons,step]
    split
    · rename_i shape
      have small := digit_lt shape
      unfold ullongMax at *
      split
      · exact ⟨nofun,fun read => absurd read.2 (overflows (by omega))⟩
      split
      · exact ⟨nofun,fun read => absurd read.2 (overflows (by omega))⟩
      · rw [ih (by omega),and_iff_right shape]
    · rename_i other
      exact ⟨nofun,fun read => absurd read.1.1 other⟩

/-- The digits `p` after the sign spell `v`: no leading zero, and `v` is in range. -/
structure Spells (negative : Bool) (p : Str) (v : Int) : Prop where
  digits : ∀ c ∈ p, isDigit c = true
  leading : ∃ c, p.head? = some c ∧ 1 ≤ digit c
  bound : horner 0 (p.map digit) ≤ 2^63
  below : negative = false → horner 0 (p.map digit) < 2^63
  value : v = if negative then -(horner 0 (p.map digit) : Int) else horner 0 (p.map digit)

theorem magnitude_iff : magnitude negative p = some v ↔ Spells negative p v := by
  cases p with
  | nil =>
    constructor
    · intro read
      cases read
    · intro spells
      simpa using spells.leading
  | cons c rest =>
    have whole : horner (digit c) (rest.map digit) = horner 0 ((c :: rest).map digit) := by simp [horner]
    have first : 49 ≤ c.toNat ↔ 1 ≤ digit c := by
      unfold digit
      omega
    have small : isDigit c = true → digit c ≤ ullongMax := fun shape => (digit_lt shape).le.trans (by decide)
    constructor
    · intro read
      rw [magnitude] at read
      split at read
      · rename_i shape
        rw [and_eq_true,decide_eq_true_iff] at shape
        rcases looped : digitLoop (digit c) rest with _ | ⟨value,_ | _⟩
        · rw [looped] at read
          cases read
        · obtain ⟨digits,same,-⟩ := (digitLoop_iff (small shape.1)).mp looped
          rw [looped] at read
          rw [whole] at same
          have digits : ∀ e ∈ c :: rest, isDigit e = true := forall_mem_cons.mpr ⟨shape.1,digits⟩
          have leading := first.mp shape.2
          cases negative with
          | true =>
            simp only [if_true] at read
            split at read
            · cases read
            · cases read
              exact ⟨digits,⟨c,rfl,leading⟩,by omega,by simp,by rw [same]; rfl⟩
          | false =>
            simp only [false_eq_true,if_false] at read
            split at read
            · cases read
            · cases read
              exact ⟨digits,⟨c,rfl,leading⟩,by omega,fun _ => by omega,by rw [same]; rfl⟩
        · rw [looped] at read
          cases read
      · cases read
    · rintro ⟨digits,⟨_,⟨⟩,leading⟩,bound,below,rfl⟩
      obtain ⟨shape,rest_digits⟩ := forall_mem_cons.mp digits
      have looped := (digitLoop_iff (small shape)).mpr ⟨rest_digits,whole,by rw [ullongMax]; omega⟩
      rw [magnitude,shape,looped]
      have large := first.mpr leading
      cases negative with
      | true => simpa [large] using bound
      | false => simpa [large] using le_sub_one_of_lt (below rfl)

theorem digits_numeral (n : Nat) : (∀ c ∈ (numeral (Nat.log 10 n + 1) n).map char, isDigit c = true) ∧
    horner 0 (((numeral (Nat.log 10 n + 1) n).map char).map digit) = n := by
  have small := numeral_lt (Nat.log 10 n + 1) n
  have back : ((numeral (Nat.log 10 n + 1) n).map char).map digit = numeral (Nat.log 10 n + 1) n := by
    rw [List.map_map]
    apply (map_congr_left (g := id) fun e inside => (digit_char (small e inside)).2).trans
    exact map_id _
  refine ⟨?_,back.symm ▸ horner_numeral (lt_pow_succ_log_self (by decide) n)⟩
  intro c member
  obtain ⟨d,inside,rfl⟩ := mem_map.mp member
  exact (digit_char (small d inside)).1

theorem spells_iff : Spells negative p v ↔ ∃ n, p = (numeral (Nat.log 10 n + 1) n).map char ∧ 0 < n ∧ n ≤ 2^63 ∧
    (negative = false → n < 2^63) ∧ v = if negative then -(n : Int) else n := by
  constructor
  · rintro ⟨digits,⟨c,first,leading⟩,bound,below,rfl⟩
    obtain ⟨rest,rfl⟩ : ∃ rest, p = c :: rest := head?_eq_some_iff.mp first
    have small : ∀ d ∈ (c :: rest).map digit, d < 10 := by
      intro d member
      obtain ⟨e,inside,rfl⟩ := mem_map.mp member
      exact digit_lt (digits e inside)
    have least : 10^rest.length ≤ horner 0 ((c :: rest).map digit) := by
      have above := le_horner (digit c) (rest.map digit)
      rw [length_map] at above
      rw [map_cons,horner,foldl_cons,Nat.zero_mul,zero_add]
      exact (Nat.le_mul_of_pos_left _ leading).trans above
    have most := horner_lt 0 small
    have back := numeral_horner 0 small
    rw [length_map,length_cons] at back
    rw [length_map,length_cons,zero_add,one_mul] at most
    refine ⟨_,?_,(Nat.pow_pos (by decide)).trans_le least,bound,below,rfl⟩
    rw [log_eq_of_pow_le_of_lt_pow least most,back,List.map_map]
    symm
    apply (map_congr_left (g := id) fun e inside => char_digit (digits e inside)).trans
    exact map_id _
  · rintro ⟨n,rfl,positive,bound,below,rfl⟩
    obtain ⟨digits,value⟩ := digits_numeral n
    refine ⟨digits,?_,?_,?_,?_⟩
    · have small := numeral_lt (Nat.log 10 n + 1) n
      have low : 10^Nat.log 10 n ≤ n := pow_log_le_self 10 positive.ne'
      have leading : 1 ≤ n / 10^Nat.log 10 n := (one_le_div_iff (Nat.pow_pos (by decide))).mpr low
      have high : n < 10^(Nat.log 10 n + 1) := lt_pow_succ_log_self (by decide) n
      have first : n / 10^Nat.log 10 n % 10 = n / 10^Nat.log 10 n :=
        mod_eq_of_lt (Nat.div_lt_of_lt_mul (by rwa [pow_succ] at high))
      rw [numeral_succ,first] at small ⊢
      exact ⟨_,rfl,(digit_char (small _ mem_cons_self)).2.symm ▸ leading⟩
    all_goals rw [value]
    · exact bound
    · exact below

variable {n : Nat}

theorem decimal_natCast (n : Nat) : decimal n = (numeral (Nat.log 10 n + 1) n).map char := by
  rw [decimal,if_neg (by omega),Int.natAbs_natCast]

theorem decimal_neg (positive : 0 < n) : decimal (-n) = 45 :: (numeral (Nat.log 10 n + 1) n).map char := by
  rw [decimal,if_pos (by omega),Int.natAbs_neg,Int.natAbs_natCast]

theorem decimal_digit (small : n < 10) : decimal n = [char n] := by
  rw [decimal_natCast,log_of_lt small,numeral_succ,pow_zero,Nat.div_one,mod_eq_of_lt small]
  rfl

/-- `string2ll` reads the decimal numerals of the 64-bit integers and no other string. -/
theorem string2ll_iff : string2ll s = some v ↔ (-2^63 ≤ v ∧ v < 2^63) ∧ decimal v = s := by
  constructor
  · intro read
    cases s with
    | nil => cases read
    | cons c p =>
      rw [string2ll] at read
      split at read
      · cases read
      split at read
      · rename_i single
        obtain ⟨rfl,shape⟩ := single
        cases read
        have small := digit_lt shape
        rw [decimal_digit small,char_digit shape]
        exact ⟨by omega,rfl⟩
      split at read
      · rename_i minus
        obtain ⟨n,rfl,positive,bound,-,rfl⟩ := spells_iff.mp (magnitude_iff.mp read)
        obtain rfl : c = 45 := BitVec.eq_of_toNat_eq minus
        rw [if_pos rfl,decimal_neg positive]
        exact ⟨by omega,rfl⟩
      · obtain ⟨n,text,-,-,below,rfl⟩ := spells_iff.mp (magnitude_iff.mp read)
        have bound := below rfl
        rw [if_neg (by decide),decimal_natCast,text]
        exact ⟨by omega,rfl⟩
  · rintro ⟨⟨low,high⟩,rfl⟩
    have short := length_decimal_lt low high
    obtain ⟨n,rfl | rfl⟩ := v.eq_nat_or_neg
    · by_cases small : n < 10
      · obtain ⟨shape,same⟩ := digit_char small
        rw [decimal_digit small,string2ll,if_neg (by simp [longStrSize]),if_pos ⟨rfl,shape⟩,same]
      have spells : Spells false (decimal n) n :=
        spells_iff.mpr ⟨n,decimal_natCast n,by omega,by omega,fun _ => by omega,rfl⟩
      have longer : 1 ≤ Nat.log 10 n := log_pos (by decide) (by omega)
      have length : (decimal n).length = Nat.log 10 n + 1 := by rw [decimal_natCast,length_map,length_numeral]
      cases text : decimal n with
      | nil => simp [text] at length
      | cons c p =>
        rw [text] at spells short length
        have shape := spells.digits c mem_cons_self
        simp only [isDigit,and_eq_true,decide_eq_true_iff] at shape
        have more : p ≠ [] := by
          rintro rfl
          rw [length_singleton] at length
          omega
        rw [string2ll,if_neg (by omega),if_neg (fun alone => more alone.1),if_neg (by omega)]
        exact magnitude_iff.mpr spells
    · by_cases zero : n = 0
      · subst zero
        decide
      have positive : 0 < n := by omega
      rw [decimal_neg positive] at short ⊢
      have more : (numeral (Nat.log 10 n + 1) n).map char ≠ [] := by simp [numeral]
      rw [string2ll,if_neg (by omega),if_neg (fun alone => more alone.1),if_pos (by rfl)]
      exact magnitude_iff.mpr (spells_iff.mpr ⟨n,rfl,positive,by omega,by simp,rfl⟩)

theorem string2ll_range (read : string2ll s = some v) : -2^63 ≤ v ∧ v < 2^63 := (string2ll_iff.mp read).1

theorem ll2string_string2ll (read : string2ll s = some v) : ll2string dst longStrSize v = s := by
  obtain ⟨⟨low,high⟩,text⟩ := string2ll_iff.mp read
  exact (ll2string_eq dst le_rfl low high).trans text

theorem string2ll_decimal (low : -2^63 ≤ v) (high : v < 2^63) : string2ll (decimal v) = some v := string2ll_iff.mpr ⟨⟨low,high⟩,rfl⟩

theorem decimal_line : ∀ c ∈ decimal v, 45 ≤ c.toNat := by
  have digits : ∀ c ∈ (numeral (Nat.log 10 v.natAbs + 1) v.natAbs).map char, 45 ≤ c.toNat := by
    intro c member
    have shape := (digits_numeral v.natAbs).1 c member
    simp only [isDigit,and_eq_true,decide_eq_true_eq] at shape
    omega
  intro c member
  unfold decimal at member
  split at member
  · rcases mem_cons.mp member with rfl | later
    · decide
    · exact digits c later
  · exact digits c member

end ValkeyWasm.Util
