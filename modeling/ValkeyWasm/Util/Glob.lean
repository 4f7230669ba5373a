import ValkeyWasm.Util.Case
import Mathlib.Data.List.TakeWhile
import Mathlib.Data.List.Infix

/-! Glob patterns: the backtracking matcher with its early termination, and the language of a pattern. -/
namespace ValkeyWasm.Util
open List

variable (nocase : Bool) (c : BitVec 8)

def fold : BitVec 8 → BitVec 8 := if nocase then lower else id

def sameByte (p : BitVec 8) : Bool := fold nocase p = fold nocase c

/-- The loop over the members of a class: whether one of them is the byte, and the pattern behind the class. -/
def classLoop (found : Bool) : Str → Bool × Str
  | [] => (found,[])
  | 92 :: q :: rest => classLoop (found || decide (q = c)) rest
  | 93 :: rest => (found,rest)
  | p :: 45 :: r :: rest =>
    let start := if p.toInt > r.toInt then r else p
    let finish := if p.toInt > r.toInt then p else r
    classLoop (found || decide ((fold nocase start).toInt ≤ (fold nocase c).toInt ∧ (fold nocase c).toInt ≤ (fold nocase finish).toInt)) rest
  | p :: rest => classLoop (found || sameByte nocase c p) rest

def classElement (body : Str) : Bool × Str :=
  let notOp := decide (body.head? = some 94)
  let read := classLoop nocase c false (if notOp then body.tail else body)
  (if notOp then !read.1 else read.1,read.2)

/-- The pattern left where its first element, which is no star, takes the byte. -/
def take : Str → Option Str
  | [] => none
  | 63 :: rest => some rest
  | 91 :: rest => if (classElement nocase c rest).1 then some (classElement nocase c rest).2 else none
  | 92 :: p :: rest => if sameByte nocase c p then some rest else none
  | p :: rest => if sameByte nocase c p then some rest else none

def skipStars (pattern : Str) : Str := pattern.dropWhile (· = 42)

/-- The loop of a star over the suffixes of the string, with `*skipLongerMatches` at the end; `early` is whether it is tested. -/
def starLoop (early : Bool) (attempt : Str → Bool × Bool) : Str → Bool × Bool
  | [] => (false,true)
  | b :: string =>
    let tried := attempt (b :: string)
    if tried.1 then tried
    else if early && tried.2 then (false,true)
    else starLoop early attempt string

/-- The result and `*skipLongerMatches`. Every round shortens the pattern, so the rounds of `stringmatchlen` are enough. -/
def stringmatchlenImpl (nocase early : Bool) : Nat → Nat → Str → Str → Bool × Bool
  | 0, _, _, _ => (false,false)
  | rounds + 1, nesting, pattern, string =>
    if nesting > 1000 then (false,false)
    else
      match pattern, string with
      | [], string => (string.isEmpty,false)
      | _, [] => (false,false)
      | p :: pattern, b :: string =>
        if p = 42 then
          let rest := skipStars pattern
          if rest = [] then (true,false)
          else starLoop early (stringmatchlenImpl nocase early rounds (nesting + 1) rest) (b :: string)
        else
          match take nocase b (p :: pattern) with
          | none => (false,false)
          | some rest =>
            if string = [] then (decide (skipStars rest = []),false)
            else stringmatchlenImpl nocase early rounds nesting rest string

def stringmatchlen (early : Bool) (pattern string : Str) : Bool :=
  (stringmatchlenImpl nocase early (pattern.length + 1) 0 pattern string).1

def prefixmatchlen (pattern string : Str) : Bool :=
  if pattern = [42] then true
  else if pattern ≠ [] ∧ pattern.getLast? ≠ some 42 then false
  else stringmatchlen nocase true pattern string

example : classLoop false 98 false [97,45,99,93,120] = (true,[120]) := by decide

/-- The language of a pattern: a star stands for any bytes, and `element c p rest` says that the first element of `p`, which
is no star, stands for the byte and leaves the pattern `rest`. -/
inductive Matches (element : BitVec 8 → Str → Str → Prop) : Str → Str → Prop
  | nil : Matches element [] []
  | star {p s t : Str} (later : Matches element p t) (suffix : t <:+ s) : Matches element (42 :: p) s
  | byte {p rest s : Str} {c : BitVec 8} (taken : element c p rest) (later : Matches element rest s) : Matches element p (c :: s)

def Takes (c : BitVec 8) (p rest : Str) : Prop := p.head? ≠ some 42 ∧ take nocase c p = some rest

variable {nocase c} {p : BitVec 8} {ps rest s t : Str} {b d : BitVec 8}

theorem classLoop_suffix (found : Bool) (body : Str) : (classLoop nocase c found body).2 <:+ body := by
  fun_induction classLoop nocase c found body with
  | case1 found => exact suffix_rfl
  | case2 found q rest ih => exact ih.trans ⟨[92,q],rfl⟩
  | case3 found rest => exact suffix_cons _ _
  | case4 found p r rest _ _ start finish ih => exact ih.trans ⟨[p,45,r],rfl⟩
  | case5 found p rest _ _ _ ih => exact ih.trans (suffix_cons p rest)

theorem classLoop_rest (found : Bool) (d : BitVec 8) (other : Bool) (body : Str) :
    (classLoop nocase c found body).2 = (classLoop nocase d other body).2 := by
  fun_induction classLoop nocase c found body generalizing other with
  | case1 found => rfl
  | case2 found q rest ih => exact ih _
  | case3 found rest => simp [classLoop]
  | case4 found p r rest _ _ start finish ih => simpa [classLoop, *] using ih _
  | case5 found p rest _ _ _ ih => simpa [classLoop, *] using ih _

/-- The first element of a pattern, whichever it is: the bytes it takes, and what is left behind it. -/
theorem take_element (nocase : Bool) (p : BitVec 8) (ps : Str) :
    ∃ (reads : BitVec 8 → Bool) (rest : Str), rest <:+ ps ∧ ∀ b, take nocase b (p :: ps) = if reads b then some rest else none := by
  by_cases any_ : p = 63
  · subst any_
    exact ⟨fun _ => true,ps,suffix_rfl,fun _ => rfl⟩
  by_cases class_ : p = 91
  · subst class_
    have behind : (classElement nocase 0 ps).2 <:+ ps := by
      apply (classLoop_suffix _ _).trans
      split
      · exact tail_suffix ps
      · exact suffix_rfl
    refine ⟨fun b => (classElement nocase b ps).1,_,behind,fun b => ?_⟩
    have same : (classElement nocase b ps).2 = (classElement nocase 0 ps).2 := classLoop_rest _ _ _ _
    rw [← same]
    rfl
  by_cases escape : p = 92 ∧ ps ≠ []
  · obtain ⟨rfl,some_⟩ := escape
    obtain ⟨q,body,rfl⟩ := exists_cons_of_ne_nil some_
    exact ⟨_,body,suffix_cons q body,fun _ => rfl⟩
  · refine ⟨fun b => sameByte nocase b p,ps,suffix_rfl,fun b => ?_⟩
    rw [take]
    · exact any_
    · exact class_
    · rintro q body rfl rfl
      exact escape ⟨rfl,cons_ne_nil q body⟩

theorem matches_byte (plain : p ≠ 42) : Matches (Takes nocase) (p :: ps) s ↔
    ∃ b t rest, s = b :: t ∧ take nocase b (p :: ps) = some rest ∧ Matches (Takes nocase) rest t := by
  constructor
  · intro matched
    cases matched with
    | star => exact absurd rfl plain
    | byte taken later => exact ⟨_,_,_,rfl,taken.2,later⟩
  · rintro ⟨b,t,rest,rfl,taken,later⟩
    exact .byte ⟨by simpa using plain,taken⟩ later

theorem matches_star : Matches (Takes nocase) (42 :: ps) s ↔ ∃ t, t <:+ s ∧ Matches (Takes nocase) ps t := by
  constructor
  · intro matched
    cases matched with
    | star later suffix => exact ⟨_,suffix,later⟩
    | byte taken => exact absurd rfl taken.1
  · rintro ⟨t,suffix,later⟩
    exact .star later suffix

theorem skipStars_cons (p : BitVec 8) (ps : Str) : skipStars (p :: ps) = if p = 42 then skipStars ps else p :: ps := by
  simp only [skipStars,dropWhile_cons,decide_eq_true_eq]

theorem matches_skipStars (ps : Str) : (∃ t, t <:+ s ∧ Matches (Takes nocase) ps t) ↔ ∃ t, t <:+ s ∧ Matches (Takes nocase) (skipStars ps) t := by
  induction ps generalizing s with
  | nil => rfl
  | cons p ps ih =>
    rw [skipStars_cons]
    split
    · rename_i star
      subst star
      rw [← ih]
      constructor
      · rintro ⟨t,suffix,accepted⟩
        obtain ⟨u,more,later⟩ := matches_star.mp accepted
        exact ⟨u,more.trans suffix,later⟩
      · rintro ⟨t,suffix,later⟩
        exact ⟨t,suffix,.star later suffix_rfl⟩
    · rfl

theorem matches_empty : Matches (Takes nocase) ps [] ↔ skipStars ps = [] := by
  induction ps with
  | nil => exact iff_of_true .nil rfl
  | cons p ps ih =>
    rw [skipStars_cons]
    split
    · rename_i star
      subst star
      rw [matches_star,← ih]
      simp
    · rename_i plain
      rw [matches_byte plain]
      simp

/-- What an attempt says: the result, and that no suffix is accepted where longer matches are skipped. -/
structure Tells (nocase : Bool) (pattern string : Str) (answer : Bool × Bool) : Prop where
  result : answer.1 = true ↔ Matches (Takes nocase) pattern string
  skip : answer.2 = true → ¬∃ t, t <:+ string ∧ Matches (Takes nocase) pattern t

theorem starLoop_tells (early : Bool) {attempt : Str → Bool × Bool} {pattern : Str} (never : ¬Matches (Takes nocase) pattern [])
    (tells : ∀ string, string ≠ [] → Tells nocase pattern string (attempt string)) (string : Str) :
    ((starLoop early attempt string).1 = true ↔ ∃ t, t <:+ string ∧ Matches (Takes nocase) pattern t) ∧
      ((starLoop early attempt string).2 = true → ¬∃ t, t <:+ string ∧ Matches (Takes nocase) pattern t) := by
  induction string with
  | nil => simp [starLoop,never]
  | cons b string ih =>
    obtain ⟨result,skip⟩ := tells (b :: string) (cons_ne_nil b string)
    unfold starLoop
    dsimp only
    split
    · rename_i found
      have accepted := result.mp found
      exact ⟨iff_of_true found ⟨_,suffix_rfl,accepted⟩,fun set _ => skip set ⟨_,suffix_rfl,accepted⟩⟩
    · rename_i missed
      split
      · rename_i stop
        have none_ := skip (Bool.and_eq_true_iff.mp stop).2
        exact ⟨iff_of_false Bool.false_ne_true none_,fun _ => none_⟩
      · have later : (∃ t, t <:+ b :: string ∧ Matches (Takes nocase) pattern t) ↔ ∃ t, t <:+ string ∧ Matches (Takes nocase) pattern t := by
          constructor
          · rintro ⟨t,suffix,accepted⟩
            rcases suffix_cons_iff.mp suffix with rfl | shorter
            · exact absurd (result.mpr accepted) missed
            · exact ⟨t,shorter,accepted⟩
          · rintro ⟨t,suffix,accepted⟩
            exact ⟨t,suffix.trans (suffix_cons b string),accepted⟩
        rwa [later]

theorem impl_tells (early : Bool) (rounds nesting : Nat) (pattern string : Str) (enough : pattern.length < rounds)
    (few : nesting + pattern.count 42 ≤ 1000) (some_ : string ≠ []) :
    Tells nocase pattern string (stringmatchlenImpl nocase early rounds nesting pattern string) := by
  induction rounds generalizing nesting pattern string with
  | zero => omega
  | succ rounds ih =>
    obtain ⟨b,string,rfl⟩ := exists_cons_of_ne_nil some_
    unfold stringmatchlenImpl
    rw [if_neg (by omega)]
    cases pattern with
    | nil =>
      refine ⟨iff_of_false Bool.false_ne_true fun matched => ?_,nofun⟩
      cases matched with
      | byte taken => exact nomatch taken.2
    | cons p pattern =>
      rw [length_cons] at enough
      dsimp only
      split
      · rename_i star
        subst star
        rw [count_cons_self] at few
        have left : skipStars pattern <:+ pattern := dropWhile_suffix _
        have count := left.sublist.count_le 42
        have length := left.length_le
        have accepts : ∀ s, Matches (Takes nocase) (42 :: pattern) s ↔ ∃ t, t <:+ s ∧ Matches (Takes nocase) (skipStars pattern) t :=
          fun s => matches_star.trans (matches_skipStars pattern)
        split
        · rename_i all
          refine ⟨iff_of_true rfl ((accepts _).mpr ⟨[],nil_suffix,?_⟩),nofun⟩
          rw [all]
          exact .nil
        · rename_i more
          have never : ¬Matches (Takes nocase) (skipStars pattern) [] := by
            intro accepted
            obtain ⟨t,suffix,later⟩ := (matches_skipStars pattern).mpr ⟨[],suffix_rfl,accepted⟩
            rw [suffix_nil.mp suffix] at later
            exact more (matches_empty.mp later)
          obtain ⟨result,skip⟩ := starLoop_tells early never
            (fun string some_ => ih (nesting + 1) _ string (by omega) (by omega) some_) (b :: string)
          refine ⟨result.trans (accepts _).symm,?_⟩
          rintro set ⟨t,suffix,accepted⟩
          obtain ⟨u,shorter,later⟩ := (accepts t).mp accepted
          exact skip set ⟨u,shorter.trans suffix,later⟩
      · rename_i plain
        obtain ⟨reads,rest,left,taken⟩ := take_element nocase p pattern
        have count := (left.sublist.count_le 42).trans (count_le_count_cons (a := 42) (b := p) (l := pattern))
        have length := left.length_le
        have accepts : ∀ b s, Matches (Takes nocase) (p :: pattern) (b :: s) ↔ reads b = true ∧ Matches (Takes nocase) rest s := by
          intro b s
          rw [matches_byte plain]
          constructor
          · rintro ⟨_,_,other,⟨⟩,left,later⟩
            obtain ⟨read,⟨⟩⟩ := Option.ite_none_right_eq_some.mp ((taken b).symm.trans left)
            exact ⟨read,later⟩
          · rintro ⟨read,later⟩
            exact ⟨b,s,rest,rfl,(taken b).trans (if_pos read),later⟩
        rw [taken]
        cases read : reads b with
        | false => exact ⟨iff_of_false Bool.false_ne_true fun accepted => by simp [accepts,read] at accepted,nofun⟩
        | true =>
          rw [if_pos rfl]
          dsimp only
          split
          · rename_i last
            subst last
            refine ⟨?_,nofun⟩
            rw [accepts,read,decide_eq_true_iff,matches_empty]
            simp
          · rename_i more
            obtain ⟨result,skip⟩ := ih nesting rest string (by omega) (by omega) more
            refine ⟨by rw [result,accepts,read]; simp,?_⟩
            rintro set ⟨t,suffix,accepted⟩
            cases t with
            | nil => simp [matches_byte plain] at accepted
            | cons d t =>
              apply skip set
              refine ⟨t,?_,((accepts d t).mp accepted).2⟩
              rcases suffix_cons_iff.mp suffix with same | shorter
              · rw [(cons.inj same).2]
              · exact (suffix_cons d t).trans shorter

theorem stringmatchlen_matches (early : Bool) {pattern string : Str} (few : pattern.count 42 ≤ 1000) :
    stringmatchlen nocase early pattern string = true ↔ Matches (Takes nocase) pattern string ∧ (string = [] → pattern = []) := by
  cases string with
  | nil =>
    cases pattern with
    | nil => exact iff_of_true rfl ⟨.nil,fun _ => rfl⟩
    | cons p pattern => exact iff_of_false Bool.false_ne_true fun both => cons_ne_nil p pattern (both.2 rfl)
  | cons b string =>
    rw [stringmatchlen,(impl_tells early _ 0 pattern _ (Nat.lt_succ_self _) (by omega) (cons_ne_nil b string)).result]
    simp

theorem stringmatchlen_early (nocase : Bool) (pattern string : Str) (few : pattern.count 42 ≤ 1000) :
    stringmatchlen nocase true pattern string = stringmatchlen nocase false pattern string := by
  rw [Bool.eq_iff_iff,stringmatchlen_matches true few,stringmatchlen_matches false few]

theorem stringmatchlen_early_stars : stringmatchlen false true [42,97,42,98] [97,97] = stringmatchlen false false [42,97,42,98] [97,97] :=
  stringmatchlen_early false _ _ (by decide)

/-- The members of a class as ranges, up to its end, and the pattern behind it. -/
def members : Str → List (BitVec 8 × BitVec 8) × Str
  | [] => ([],[])
  | 92 :: q :: rest => ((q,q) :: (members rest).1,(members rest).2)
  | 93 :: rest => ([],rest)
  | p :: 45 :: r :: rest => ((p,r) :: (members rest).1,(members rest).2)
  | p :: rest => ((p,p) :: (members rest).1,(members rest).2)

/-- Between the end points of a range, given in either order. -/
def within (c : BitVec 8) (range : BitVec 8 × BitVec 8) : Bool :=
  decide (range.1.toInt ≤ c.toInt ∧ c.toInt ≤ range.2.toInt ∨ range.2.toInt ≤ c.toInt ∧ c.toInt ≤ range.1.toInt)

/-- The elements of a pattern other than the star. -/
inductive Element (c : BitVec 8) : Str → Str → Prop
  | any (p : Str) : Element c (63 :: p) p
  | member {body : Str} (plain : body.head? ≠ some 94) (inside : (members body).1.any (within c) = true) : Element c (91 :: body) (members body).2
  | others {body : Str} (outside : (members body).1.any (within c) = false) : Element c (91 :: 94 :: body) (members body).2
  | escape (p : Str) : Element c (92 :: c :: p) p
  | literal {p : Str} (plain : c ≠ 42 ∧ c ≠ 63 ∧ c ≠ 91 ∧ (c = 92 → p = [])) : Element c (c :: p) p

theorem within_self (p : BitVec 8) : within c (p,p) = decide (p = c) := by
  simp only [within,or_self,decide_eq_decide]
  rw [← BitVec.toInt_inj]
  omega

theorem classLoop_members (found : Bool) (body : Str) :
    classLoop false c found body = (found || (members body).1.any (within c),(members body).2) := by
  fun_induction classLoop false c found body with
  | case1 found => simp [members]
  | case2 found q rest ih =>
    rw [ih]
    simp [members,within_self,Bool.or_assoc]
  | case3 found rest => simp [members]
  | case4 found p r rest _ _ start finish ih =>
    have ordered : decide ((fold false start).toInt ≤ (fold false c).toInt ∧ (fold false c).toInt ≤ (fold false finish).toInt) =
        within c (p,r) := by
      simp only [fold,Bool.false_eq_true,if_false,id,within,decide_eq_decide,start,finish]
      split <;> omega
    rw [ih,ordered]
    simp [members,Bool.or_assoc, *]
  | case5 found p rest _ _ _ ih =>
    rw [ih]
    simp [members,within_self,sameByte,fold,Bool.or_assoc, *]

theorem classElement_plain {body : Str} (plain : body.head? ≠ some 94) :
    classElement false c body = ((members body).1.any (within c),(members body).2) := by
  simp only [classElement,decide_eq_false plain,Bool.false_eq_true,if_false,classLoop_members,Bool.false_or]

theorem classElement_others (body : Str) : classElement false c (94 :: body) = (!(members body).1.any (within c),(members body).2) := by
  simp only [classElement,head?_cons,decide_true,if_true,tail_cons,classLoop_members,Bool.false_or]

theorem take_class (body : Str) : take nocase c (91 :: body) =
    if (classElement nocase c body).1 then some (classElement nocase c body).2 else none := rfl

theorem sameByte_eq : sameByte false c p = true ↔ p = c := decide_eq_true_iff

theorem takes_element {p rest : Str} : Takes false c p rest ↔ Element c p rest := by
  constructor
  · rintro ⟨plain,taken⟩
    unfold take at taken
    split at taken
    · cases taken
    · cases taken
      exact .any _
    · rename_i body
      obtain ⟨inside,⟨⟩⟩ := Option.ite_none_right_eq_some.mp taken
      by_cases caret : body.head? = some 94
      · obtain ⟨tail,rfl⟩ := head?_eq_some_iff.mp caret
        rw [classElement_others] at inside ⊢
        exact .others (by simpa using inside)
      · rw [classElement_plain caret] at inside ⊢
        exact .member caret inside
    · obtain ⟨same,⟨⟩⟩ := Option.ite_none_right_eq_some.mp taken
      obtain rfl := sameByte_eq.mp same
      exact .escape _
    · rename_i any_ class_ escape
      obtain ⟨same,⟨⟩⟩ := Option.ite_none_right_eq_some.mp taken
      obtain rfl := sameByte_eq.mp same
      refine .literal ⟨by simpa using plain,any_,class_,fun slash => ?_⟩
      cases rest with
      | nil => rfl
      | cons q rest => exact absurd rfl (escape q rest slash)
  · intro element
    cases element with
    | any p => exact ⟨by simp,rfl⟩
    | member plain inside => exact ⟨by simp,by rw [take_class,classElement_plain plain,if_pos inside]⟩
    | others outside => exact ⟨by simp,by rw [take_class,classElement_others,outside]; rfl⟩
    | escape p => exact ⟨by simp,if_pos (sameByte_eq.mpr rfl)⟩
    | literal plain =>
      obtain ⟨star,any_,class_,escape⟩ := plain
      refine ⟨by simpa using star,?_⟩
      rw [take,if_pos (sameByte_eq.mpr rfl)]
      · exact any_
      · exact class_
      · rintro q body rfl rfl
        cases escape rfl

theorem stringmatchlen_language_iff (pattern string : Str) (few : pattern.count 42 ≤ 1000) :
    ((stringmatchlen false true pattern string = true ↔ Matches Element pattern string) ↔
      ¬(string = [] ∧ pattern ≠ [] ∧ ∀ p ∈ pattern, p = 42)) ∧
    (prefixmatchlen false [42] string = stringmatchlen false true [42] string ↔ string ≠ []) := by
  have language : Matches Element pattern string ↔ Matches (Takes false) pattern string := by
    have same : Takes false = Element := by
      ext c p rest
      exact takes_element
    rw [same]
  have empty : skipStars pattern = [] ↔ ∀ p ∈ pattern, p = 42 := by simp [skipStars,dropWhile_eq_nil_iff]
  refine ⟨?_,?_⟩
  · rw [stringmatchlen_matches true few,language]
    cases string with
    | nil =>
      rw [matches_empty,empty]
      tauto
    | cons b string => simp
  · cases string with
    | nil => decide
    | cons b string =>
      have all : Matches (Takes false) [42] (b :: string) := .star .nil nil_suffix
      exact iff_of_true ((stringmatchlen_matches true (by decide)).mpr ⟨all,nofun⟩).symm (cons_ne_nil b string)

theorem stringmatchlen_language_iff_class : stringmatchlen false true [91,97,45,99,93,42] [98,120] = true ↔ Matches Element [91,97,45,99,93,42] [98,120] :=
  (stringmatchlen_language_iff _ _ (by decide)).1.mpr nofun

theorem stringmatchlen_empty : stringmatchlen false true [42] [] = false ∧ Matches Element [42] [] ∧ prefixmatchlen false [42] [] = true :=
  ⟨rfl,.star .nil suffix_rfl,rfl⟩

end ValkeyWasm.Util
