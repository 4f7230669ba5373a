import ValkeyWasm.Streams.Groups
import ValkeyWasm.Util.Amounts

/-! Stream IDs as text: what the parser of client arguments takes for an ID. -/
namespace ValkeyWasm.Streams
open Library.Decimal Library.Memory Util List Option

/-- The argument is a C string with its length. -/
def string2ull (einval : Bool) (s : Str) : Option Nat :=
  match string2ll s with
  | some ll => if ll < 0 then none else some ll.toNat
  | none =>
    let read := strtoull einval s
    if read.errno ≠ none ∨ ¬(s ≠ [] ∧ read.rest = []) then none else some read.value

/-- The two halves around the first dash, read by `number`; the flag is `*seq_given`. -/
def halves (number : Str → Option Nat) (missingSeq : Nat) (seqGiven : Bool) (buf : Str) : Option (Nat × Nat × Bool) := do
  let ms ← number (buf.takeWhile (· ≠ 45))
  match buf.dropWhile (· ≠ 45) with
  | [] => some (ms,missingSeq,true)
  | _ :: seq => if seqGiven ∧ seq = [42] then some (ms,0,false) else return (ms,← number seq,true)

def streamGenericParseIDOrReply (einval : Bool) (o : Str) (missingSeq : Nat) (strict seqGiven : Bool) : Option (Nat × Nat × Bool) :=
  let buf := o.takeWhile (· ≠ 0)
  if o.length > 127 then none
  else if strict ∧ (buf = [45] ∨ buf = [43]) then none
  else if buf = [45] then some (0,0,true)
  else if buf = [43] then some (ullongMax,ullongMax,true)
  else halves (string2ull einval) missingSeq seqGiven buf

def streamID2string (buffer : Bytes) (id : StreamID) : Str :=
  ull2string buffer longStrSize id.ms.toNat ++ 45 :: ull2string buffer longStrSize id.seq.toNat

/-- A decimal number of 64 bits. -/
def number (s : Str) : Option Nat :=
  if s ≠ [] ∧ (∀ c ∈ s, isDigit c = true) ∧ horner 0 (s.map digit) < 2^64 then some (horner 0 (s.map digit)) else none

theorem number_numeral {n : Nat} (word : n < 2^64) : number ((numeral (Nat.log 10 n + 1) n).map char) = some n := by
  obtain ⟨digits,value⟩ := digits_numeral n
  unfold number
  rw [value]
  exact if_pos ⟨by simp [numeral],digits,word⟩

theorem number_some {s : Str} {n : Nat} (read : number s = some n) : s.head?.any isDigit = true ∧ 0 ∉ s := by
  obtain ⟨⟨some_,digits,-⟩,-⟩ := ite_none_right_eq_some.mp read
  obtain ⟨c,rest,rfl⟩ := exists_cons_of_ne_nil some_
  exact ⟨digits c mem_cons_self,fun zero => absurd (digits 0 zero) (by decide)⟩

theorem number_takeWhile (s : Str) :
    number s = if s.takeWhile isDigit = [] ∨ horner 0 ((s.takeWhile isDigit).map digit) > ullongMax ∨ s.dropWhile isDigit ≠ [] then none
      else some (horner 0 ((s.takeWhile isDigit).map digit)) := by
  by_cases digits : ∀ c ∈ s, isDigit c = true
  · rw [takeWhile_eq_self_iff.mpr digits,dropWhile_eq_nil_iff.mpr digits,number]
    split
    · rename_i read
      rw [if_neg]
      rintro (empty | large | rest)
      · exact read.1 empty
      · unfold ullongMax at large
        omega
      · exact rest rfl
    · rename_i refused
      rw [if_pos]
      by_contra others
      simp only [not_or,ullongMax] at others
      exact refused ⟨others.1,digits,by omega⟩
  · have rest : s.dropWhile isDigit ≠ [] := digits ∘ dropWhile_eq_nil_iff.mp
    rw [if_pos (Or.inr (Or.inr rest)),number,if_neg]
    exact fun read => digits read.2.1

/-- Blanks and a sign before the number. A negative one counts modulo 2^64, but not where `string2ll` reads it. -/
def lenient (s : Str) : Option Nat :=
  let body := s.dropWhile isSpace
  if (string2ll s).any (· < 0) then none
  else (number (if body.head? = some 45 ∨ body.head? = some 43 then body.tail else body)).map fun n =>
    if body.head? = some 45 then (2^64 - n) % 2^64 else n

theorem lenient_number {s : Str} {n : Nat} (read : number s = some n) : lenient s = some n := by
  have starts := (number_some read).1
  have positive : (string2ll s).any (· < 0) = false := by
    rw [Option.any_eq_false]
    intro v found
    obtain ⟨-,rfl⟩ := string2ll_iff.mp found
    apply decide_eq_false
    intro negative
    rw [decimal,if_pos negative] at starts
    cases starts
  obtain ⟨body,minus,plus⟩ := unsigned_digit starts
  unfold lenient
  dsimp only
  rw [positive,body,if_neg (not_or.mpr ⟨minus,plus⟩),read]
  exact congrArg some (if_neg minus)

theorem string2ull_lenient (einval : Bool) (s : Str) : string2ull einval s = lenient s := by
  cases read : string2ll s with
  | some ll =>
    unfold string2ull
    rw [read]
    by_cases negative : ll < 0
    · simp [negative,lenient,read]
    obtain ⟨⟨-,high⟩,rfl⟩ := string2ll_iff.mp read
    lift ll to Nat using not_lt.mp negative
    dsimp only
    rw [if_neg negative,decimal_natCast,lenient_number (number_numeral (by omega)),Int.toNat_natCast]
  | none =>
    unfold string2ull lenient strtoull
    rw [read]
    dsimp only
    rw [number_takeWhile]
    generalize cut : (if (s.dropWhile isSpace).head? = some 45 ∨ (s.dropWhile isSpace).head? = some 43 then (s.dropWhile isSpace).tail
      else s.dropWhile isSpace) = unsigned
    by_cases empty : unsigned.takeWhile isDigit = []
    · rw [if_pos empty,if_pos,if_pos (Or.inl empty)]
      · rfl
      · exact Or.inr fun both => both.1 both.2
    rw [if_neg empty]
    by_cases large : horner 0 ((unsigned.takeWhile isDigit).map digit) > ullongMax
    · rw [if_pos large,if_pos (Or.inr (Or.inl large))]
      rfl
    have some_ : s ≠ [] := by
      rintro rfl
      exact empty (cut ▸ rfl)
    rw [if_neg large]
    by_cases rest : unsigned.dropWhile isDigit = []
    · have strict : ¬(unsigned.takeWhile isDigit = [] ∨ horner 0 ((unsigned.takeWhile isDigit).map digit) > ullongMax ∨
          unsigned.dropWhile isDigit ≠ []) := by
        rintro (nothing | over_ | more)
        exacts [empty nothing,large over_,more rest]
      rw [if_neg strict,if_neg (by simp [rest,some_])]
      rfl
    · rw [if_pos (Or.inr fun both => rest both.2),if_pos (Or.inr (Or.inr rest))]
      rfl

variable {seqGiven : Bool} {missingSeq : Nat} {s : Str} {id : Nat × Nat × Bool}

theorem halves_mono {f g : Str → Option Nat} (finer : ∀ s n, f s = some n → g s = some n)
    (read : halves f missingSeq seqGiven s = some id) : halves g missingSeq seqGiven s = some id := by
  unfold halves at ⊢
  obtain ⟨ms,first,read⟩ := bind_eq_some_iff.mp read
  rw [finer _ _ first]
  split at read
  · exact read
  split at read
  · rename_i star
    exact (if_pos star).trans read
  rename_i digits
  obtain ⟨n,second,read⟩ := bind_eq_some_iff.mp read
  refine (if_neg digits).trans ?_
  rw [finer _ _ second]
  exact read

theorem halves_nonzero (read : halves number missingSeq seqGiven s = some id) : s.takeWhile (· ≠ 0) = s := by
  obtain ⟨ms,first,read⟩ := bind_eq_some_iff.mp read
  have whole := takeWhile_append_dropWhile (p := (· ≠ (45 : BitVec 8))) (l := s)
  rw [takeWhile_eq_self_iff]
  intro c member
  apply decide_eq_true
  rintro rfl
  rw [← whole,mem_append] at member
  have inside : 0 ∈ s.dropWhile (· ≠ 45) := member.resolve_left (number_some first).2
  split at read
  · rename_i none_
    rw [none_] at inside
    cases inside
  rename_i dash seq cut
  have sign := head_dropWhile_not (p := (· ≠ (45 : BitVec 8))) (l := s) (by rw [cut]; exact nofun)
  simp only [cut] at sign
  rw [cut,mem_cons] at inside
  have later : 0 ∈ seq := inside.resolve_left (by rintro rfl; cases sign)
  split at read
  · rename_i star
    rw [star.2] at later
    exact absurd later (by decide)
  · obtain ⟨n,second,-⟩ := bind_eq_some_iff.mp read
    exact (number_some second).2 later

theorem parse_eq (einval : Bool) (s : Str) (missingSeq : Nat) (seqGiven : Bool) :
    streamGenericParseIDOrReply einval s missingSeq true seqGiven =
      if s.length > 127 then none else halves lenient missingSeq seqGiven (s.takeWhile (· ≠ 0)) := by
  rw [← funext (string2ull_lenient einval)]
  unfold streamGenericParseIDOrReply
  dsimp only
  split
  · rfl
  split
  · rename_i sign
    rcases sign.2 with minus | plus
    · rw [minus]
      cases einval <;> rfl
    · rw [plus]
      cases einval <;> rfl
  · rename_i other
    rw [if_neg (fun minus => other ⟨rfl,Or.inl minus⟩),if_neg (fun plus => other ⟨rfl,Or.inr plus⟩)]

theorem ull2string_number (buffer : Bytes) {n : Nat} (word : n < 2^64) : number (ull2string buffer longStrSize n) = some n ∧
    (∀ c ∈ ull2string buffer longStrSize n, isDigit c = true) ∧ (ull2string buffer longStrSize n).length ≤ 20 := by
  have few : Nat.log 10 n < 20 := Nat.log_lt_of_lt_pow' (by decide) (by omega)
  rw [ull2string_log buffer word (by rw [digits10_log word,longStrSize]; omega)]
  refine ⟨number_numeral word,(digits_numeral n).1,?_⟩
  rw [length_map,length_numeral]
  omega

theorem halves_streamID2string (buffer : Bytes) (id : StreamID) (missingSeq : Nat) (seqGiven : Bool) :
    halves number missingSeq seqGiven (streamID2string buffer id) = some (id.ms.toNat,id.seq.toNat,true) ∧
      (streamID2string buffer id).length ≤ 127 := by
  obtain ⟨ms,digits,fewer⟩ := ull2string_number buffer id.ms.toNat_lt
  obtain ⟨seq,later,few⟩ := ull2string_number buffer id.seq.toNat_lt
  have dashless : ∀ c ∈ ull2string buffer longStrSize id.ms.toNat, decide (c ≠ 45) = true := by
    intro c member
    refine decide_eq_true fun dash => ?_
    rw [dash] at member
    cases digits _ member
  have unstarred : ull2string buffer longStrSize id.seq.toNat ≠ [42] := by
    intro star
    rw [star] at later
    cases later 42 mem_cons_self
  constructor
  · unfold halves streamID2string
    rw [takeWhile_append_of_pos dashless,dropWhile_append_of_pos dashless]
    simpa [ms,seq] using fun _ => unstarred
  · rw [streamID2string,length_append,length_cons]
    omega

/-- The parser reads the numbers around the first dash, and nothing else, unless a well-formed text is too long for its
buffer or another text, up to its first zero byte, is one of lenient numbers. The text of an ID is read back. -/
theorem streamParseStrictID_exact_iff (einval : Bool) (s : Str) (missingSeq : Nat) (seqGiven : Bool) (buffer : Bytes) (id : StreamID) :
    (streamGenericParseIDOrReply einval s missingSeq true seqGiven = halves number missingSeq seqGiven s ↔
      ¬(s.length > 127 ∧ halves number missingSeq seqGiven s ≠ none) ∧
      ¬(s.length ≤ 127 ∧ halves number missingSeq seqGiven s = none ∧
        halves lenient missingSeq seqGiven (s.takeWhile (· ≠ 0)) ≠ none)) ∧
    streamGenericParseIDOrReply einval (streamID2string buffer id) missingSeq true seqGiven = some (id.ms.toNat,id.seq.toNat,true) := by
  have accepted : ∀ s id, halves number missingSeq seqGiven s = some id →
      halves lenient missingSeq seqGiven (s.takeWhile (· ≠ 0)) = some id := by
    intro s id read
    rw [halves_nonzero read]
    exact halves_mono (fun _ _ => lenient_number) read
  constructor
  · rw [parse_eq]
    cases read : halves number missingSeq seqGiven s with
    | none =>
      split
      · rename_i long
        simp [long]
      · rename_i short
        simp [not_lt.mp short]
    | some id =>
      rw [accepted s id read]
      simp
  · obtain ⟨read,short⟩ := halves_streamID2string buffer id missingSeq seqGiven
    rw [parse_eq,if_neg (not_lt.mpr short),accepted _ _ read]

theorem streamParseStrictID_sign : streamGenericParseIDOrReply true [43,53] 0 true false = some (5,0,true) ∧
    halves number 0 false [43,53] = none := by
  decide

end ValkeyWasm.Streams
