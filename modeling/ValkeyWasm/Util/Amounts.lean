import ValkeyWasm.Util.Case
import Mathlib.Data.List.TakeWhile

/-! `strtoull` of the C library, and the amounts of memory that `memtoull` reads with it. -/
namespace ValkeyWasm.Util
open Library.Decimal List

inductive Errno
  | EINVAL | ERANGE
deriving DecidableEq

/-- The returned value, `errno` and the text at `endptr`. -/
structure Converted where
  value : Nat
  errno : Option Errno
  rest : Str

def isSpace (c : BitVec 8) : Bool := c.toNat = 32 || decide (9 ≤ c.toNat) && decide (c.toNat ≤ 13)

/-- Libraries differ in `errno` where there is no digit: `einval` is what this one does. -/
def strtoull (einval : Bool) (s : Str) : Converted :=
  let body := s.dropWhile isSpace
  let unsigned := if body.head? = some 45 ∨ body.head? = some 43 then body.tail else body
  let digits := unsigned.takeWhile isDigit
  let n := horner 0 (digits.map digit)
  let rest := unsigned.dropWhile isDigit
  if digits = [] then ⟨0,if einval then some .EINVAL else none,s⟩
  else if n > ullongMax then ⟨ullongMax,some .ERANGE,rest⟩
  else ⟨if body.head? = some 45 then (2^64 - n) % 2^64 else n,none,rest⟩

/-- The units without regard to case, and what they stand for. -/
def units : List (Str × Nat) :=
  [([],1),([98],1),([107],1000),([107,98],1024),([109],1000 * 1000),([109,98],1024 * 1024),([103],1000 * 1000 * 1000),
    ([103,98],1024 * 1024 * 1024)]

/-- The value, or nothing where `err` is set. -/
def memtoull (einval : Bool) (p : Str) : Option Nat :=
  if p.head? = some 45 then none
  else
    match units.find? fun unit => strcasecmp (p.dropWhile isDigit) unit.1 with
    | none => none
    | some (_,mul) =>
      let digits := p.takeWhile isDigit
      if digits.length ≥ 128 then none
      else
        let val := strtoull einval digits
        if val.errno = some .ERANGE ∨ val.value = 0 ∧ val.errno = some .EINVAL ∨ val.rest ≠ [] then none
        else some (val.value * mul % 2^64)

variable {s : Str}

theorem unsigned_digit (starts : s.head?.any isDigit = true) :
    s.dropWhile isSpace = s ∧ s.head? ≠ some 45 ∧ s.head? ≠ some 43 := by
  obtain _ | ⟨c,rest⟩ := s
  · cases starts
  have code : 48 ≤ c.toNat ∧ c.toNat ≤ 57 := by simpa [isDigit] using starts
  have space : isSpace c = false := by
    simp [isSpace]
    omega
  refine ⟨by rw [dropWhile_cons,space]; rfl,?_,?_⟩ <;> rintro ⟨⟩ <;> exact absurd code.1 (by decide)

theorem strtoull_unsigned (einval : Bool) (starts : s.head?.any isDigit = true) :
    strtoull einval s = if horner 0 ((s.takeWhile isDigit).map digit) > ullongMax then ⟨ullongMax,some .ERANGE,s.dropWhile isDigit⟩
      else ⟨horner 0 ((s.takeWhile isDigit).map digit),none,s.dropWhile isDigit⟩ := by
  obtain ⟨body,minus,plus⟩ := unsigned_digit starts
  have some_ : s.takeWhile isDigit ≠ [] := by
    obtain _ | ⟨c,rest⟩ := s
    · cases starts
    · simpa using starts
  unfold strtoull
  dsimp only
  rw [body,if_neg (not_or.mpr ⟨minus,plus⟩),if_neg some_,if_neg minus]

theorem find_unit {u : Str} {unit : Str × Nat} :
    (units.find? fun unit => strcasecmp u unit.1) = some unit ↔ unit ∈ units ∧ foldCase u = unit.1 := by
  have folded : ∀ unit ∈ units, foldCase unit.1 = unit.1 := by decide
  have distinct : ∀ a ∈ units, ∀ b ∈ units, a.1 = b.1 → a = b := by decide
  constructor
  · intro found
    have member := mem_of_find?_eq_some found
    have same := find?_some found
    rw [strcasecmp,decide_eq_true_iff,folded unit member] at same
    exact ⟨member,same⟩
  · rintro ⟨member,same⟩
    have named : strcasecmp u unit.1 = true := decide_eq_true (same.trans (folded unit member).symm)
    obtain ⟨other,found⟩ := Option.isSome_iff_exists.mp ((find?_isSome (p := fun unit => strcasecmp u unit.1)).mpr ⟨unit,member,named⟩)
    have also_ := find?_some found
    rw [strcasecmp,decide_eq_true_iff,same,folded other (mem_of_find?_eq_some found)] at also_
    rw [found,distinct other (mem_of_find?_eq_some found) unit member also_.symm]

/-- The number before the unit. -/
def amount (p : Str) : Nat := horner 0 ((p.takeWhile isDigit).map digit)

/-- A value that is read is the number times the unit, over unbounded integers. -/
def Exact (p : Str) (result : Option Nat) : Prop :=
  ∀ v, result = some v → p.takeWhile isDigit ≠ [] ∧ ∃ unit ∈ units, foldCase (p.dropWhile isDigit) = unit.1 ∧ v = amount p * unit.2

/-- The library refuses an empty number, and a number of 64 bits times its unit is one. -/
def Fits (einval : Bool) (p : Str) : Prop := ∀ unit ∈ units, foldCase (p.dropWhile isDigit) = unit.1 →
  (p.takeWhile isDigit = [] → einval = true) ∧ ((p.takeWhile isDigit).length < 128 → amount p < 2^64 → amount p * unit.2 < 2^64)

theorem memtoull_exact_iff (einval : Bool) (p : Str) : Exact p (memtoull einval p) ↔ Fits einval p := by
  unfold memtoull
  cases found : units.find? fun unit => strcasecmp (p.dropWhile isDigit) unit.1 with
  | none =>
    refine iff_of_true ?_ ?_
    · intro v read
      split at read <;> cases read
    · intro unit member same
      rw [find_unit.mpr ⟨member,same⟩] at found
      cases found
  | some unit =>
    obtain ⟨member,same⟩ := find_unit.mp found
    have only : ∀ other ∈ units, foldCase (p.dropWhile isDigit) = other.1 → other = unit := by
      intro other also_ alike
      rw [find_unit.mpr ⟨also_,alike⟩] at found
      exact Option.some.inj found
    have unsigned : p.head? ≠ some 45 := by
      intro minus
      obtain ⟨rest,rfl⟩ := head?_eq_some_iff.mp minus
      have table : ∀ unit ∈ units, unit.1.head? ≠ some 45 := by decide
      exact table unit member (same ▸ rfl)
    rw [if_neg unsigned]
    dsimp only
    split
    · rename_i long
      refine iff_of_true nofun (fun other _ _ => ⟨fun empty => ?_,fun short => absurd short (not_lt.mpr long)⟩)
      rw [empty] at long
      exact absurd long (by decide)
    by_cases empty : p.takeWhile isDigit = []
    · have zero : amount p = 0 := by rw [amount,empty]; rfl
      rw [empty]
      cases einval with
      | true => exact iff_of_true nofun (fun _ _ _ => ⟨fun _ => rfl,fun _ _ => by rw [zero]; omega⟩)
      | false =>
        refine iff_of_false (fun exact_ => (exact_ _ rfl).1 empty) (fun fits => ?_)
        exact absurd ((fits unit member same).1 empty) (by decide)
    · have digits : ∀ c ∈ p.takeWhile isDigit, isDigit c = true := fun c inside => mem_takeWhile_imp inside
      obtain ⟨c,rest,cut⟩ := exists_cons_of_ne_nil empty
      have starts : (p.takeWhile isDigit).head?.any isDigit = true := by
        rw [cut] at digits ⊢
        exact digits c mem_cons_self
      have read := strtoull_unsigned einval starts
      rw [takeWhile_eq_self_iff.mpr digits,dropWhile_eq_nil_iff.mpr digits,← amount] at read
      by_cases large : amount p > ullongMax
      · rw [read,if_pos large,if_pos (Or.inl rfl)]
        refine iff_of_true nofun (fun _ _ _ => ⟨fun none_ => absurd none_ empty,fun _ small => absurd small ?_⟩)
        unfold ullongMax at large
        omega
      rw [read,if_neg large,if_neg (by simp)]
      unfold ullongMax at large
      constructor
      · intro exact_ other also_ alike
        obtain ⟨-,held,inside,alike',value⟩ := exact_ _ rfl
        rw [only other also_ alike,← only held inside alike',← value]
        exact ⟨fun none_ => absurd none_ empty,fun _ _ => Nat.mod_lt _ (by decide)⟩
      · rintro fits v ⟨⟩
        refine ⟨empty,unit,member,same,Nat.mod_eq_of_lt ((fits unit member same).2 (by omega) (by omega))⟩

theorem memtoull_wraps : ¬Exact [50,48,48,48,48,48,48,48,48,48,48,71] (memtoull true [50,48,48,48,48,48,48,48,48,48,48,71]) := by
  intro exact_
  have wrapped : memtoull true [50,48,48,48,48,48,48,48,48,48,48,71] = some 1553255926290448384 := by decide
  obtain ⟨-,unit,member,-,value⟩ := exact_ _ wrapped
  have differs : ∀ unit ∈ units, 1553255926290448384 ≠ amount [50,48,48,48,48,48,48,48,48,48,48,71] * unit.2 := by decide
  exact differs unit member value

end ValkeyWasm.Util
