import Mathlib.Data.List.Nodup

/-! Lists whose elements have heights, and the links between them at one level.
At level `i` an element of height more than `i` is linked to the next such element, and the link
counts the steps to it; the start of the list is linked at every level. -/
namespace ValkeyWasm.Library.Tower
open List Option

variable {α : Type} {h : α → Nat} {i : Nat}

/-- From before a list: the first element above the level and the steps to it, or to the end. -/
def reach (h : α → Nat) (i : Nat) : List α → Option α × Nat
  | [] => (none,0)
  | x :: l => if i < h x then (some x,1) else ((reach h i l).1,(reach h i l).2 + 1)

def Low (h : α → Nat) (i : Nat) (l : List α) : Prop := ∀ x ∈ l, h x ≤ i

def Ends (h : α → Nat) (i : Nat) (l : List α) : Prop := ∀ x, l.getLast? = some x → i < h x

structure Upto (h : α → Nat) (i : Nat) (pre a : List α) : Prop where
  ends : Ends h i a
  low : ∃ b, pre = a ++ b ∧ Low h i b

variable {l m : List α}

theorem Low.append (left : Low h i l) (right : Low h i m) : Low h i (l ++ m) := by
  intro x member
  exact (mem_append.mp member).elim (left x) (right x)

theorem reach_low_append (low : Low h i l) (m : List α) : reach h i (l ++ m) = ((reach h i m).1,l.length + (reach h i m).2) := by
  induction l with
  | nil => simp
  | cons x l ih =>
    have first := low x mem_cons_self
    rw [cons_append,reach,if_neg (by omega),ih fun y member => low y (mem_cons_of_mem x member),length_cons]
    simp only [Prod.mk.injEq,true_and]
    omega

theorem reach_append_of_not_low (high : ¬ Low h i l) (m : List α) : reach h i (l ++ m) = reach h i l := by
  induction l with
  | nil => exact absurd nofun high
  | cons x l ih =>
    rw [cons_append,reach,reach]
    split
    · rfl
    rename_i short
    rw [ih]
    intro low
    apply high
    intro y member
    rcases mem_cons.mp member with rfl | later
    · omega
    · exact low y later

theorem reach_cons_of_lt {x : α} (tall : i < h x) (l : List α) : reach h i (x :: l) = (some x,1) := if_pos tall

theorem reach_cases (h : α → Nat) (i : Nat) (l : List α) :
    (Low h i l ∧ reach h i l = (none,l.length)) ∨
    ∃ s x r, l = s ++ x :: r ∧ Low h i s ∧ i < h x ∧ reach h i l = (some x,s.length + 1) := by
  induction l with
  | nil => exact Or.inl ⟨nofun,rfl⟩
  | cons y l ih =>
    rcases Nat.lt_or_ge i (h y) with tall | short
    · exact Or.inr ⟨[],y,l,rfl,nofun,tall,reach_cons_of_lt tall l⟩
    have first : Low h i [y] := by
      intro x member
      rwa [mem_singleton.mp member]
    have next := reach_low_append first l
    rcases ih with ⟨low,ends⟩ | ⟨s,x,r,split,low,tall,found⟩
    · refine Or.inl ⟨first.append low,?_⟩
      rw [← singleton_append,next,ends,length_append]
    refine Or.inr ⟨y :: s,x,r,by rw [split,cons_append],first.append low,tall,?_⟩
    rw [← singleton_append,next,found]
    simp only [length_cons,length_nil,Prod.mk.injEq,true_and]
    omega

theorem reach_congr {h' : α → Nat} (same : ∀ x ∈ l, h x = h' x) : reach h i l = reach h' i l := by
  induction l with
  | nil => rfl
  | cons x l ih => rw [reach,reach,same x mem_cons_self,ih fun y member => same y (mem_cons_of_mem x member)]

variable {e : List α}

theorem Ends.eq_nil {a : List α} (ends : Ends h i (a ++ e)) (low : Low h i e) : e = [] := by
  rcases eq_nil_or_concat' e with rfl | ⟨e',x,rfl⟩
  · rfl
  · have tall := ends x (by rw [← append_assoc,getLast?_concat])
    have short := low x (mem_append_right _ (mem_singleton_self x))
    omega

theorem upto_unique {pre a a' : List α} (one : Upto h i pre a) (two : Upto h i pre a') : a = a' := by
  obtain ⟨ends,b,split,low⟩ := one
  obtain ⟨ends',b',split',low'⟩ := two
  rcases append_eq_append_iff.mp (split.symm.trans split') with ⟨e,whole,rest⟩ | ⟨e,whole,rest⟩
  · have empty := Ends.eq_nil (whole ▸ ends') fun x member => low x (rest ▸ mem_append_left _ member)
    rw [whole,empty,append_nil]
  · have empty := Ends.eq_nil (whole ▸ ends) fun x member => low' x (rest ▸ mem_append_left _ member)
    rw [whole,empty,append_nil]

variable {d c : List α}

theorem prefix_unique {c' d' : List α} (distinct : (c ++ d).Nodup) (same : c ++ d = c' ++ d') (last : c.getLast? = c'.getLast?) : c = c' := by
  rcases eq_nil_or_concat' c with rfl | ⟨k,x,rfl⟩
  · rw [getLast?_nil] at last
    exact (getLast?_eq_none_iff.mp last.symm).symm
  rw [getLast?_concat] at last
  obtain ⟨k',rfl⟩ := getLast?_eq_some_iff.mp last.symm
  have here : (k ++ [x] ++ d)[k.length]? = some x := by simp
  have there : (k ++ [x] ++ d)[k'.length]? = some x := by simp [same]
  have lengths := (getElem?_inj (List.getElem?_eq_some_iff.mp here).1 distinct).mp (here.trans there.symm)
  exact (append_inj same (by simp [lengths])).1

structure Link (α : Type) where
  forward : Option α
  span : Int

abbrev Column (α : Type) := Option α → Link α

/-- The links of level `i`; the span of level 0 means something else. -/
def Chained (h : α → Nat) (i : Nat) (col : Column α) (l : List α) : Prop :=
  ∀ c d, l = c ++ d → Ends h i c → (col c.getLast?).forward = (reach h i d).1 ∧ (0 < i → (col c.getLast?).span = (reach h i d).2)

variable {col : Column α}

theorem Chained.congr {col' : Column α} (chained : Chained h i col l)
    (same : ∀ p, (col' p).forward = (col p).forward ∧ (0 < i → (col' p).span = (col p).span)) : Chained h i col' l := by
  intro c d split ends
  obtain ⟨forward,span⟩ := chained c d split ends
  exact ⟨(same _).1.trans forward,fun level => ((same _).2 level).trans (span level)⟩

theorem Chained.congr_heights {h' : α → Nat} (chained : Chained h i col l) (same : ∀ x ∈ l, h' x = h x) :
    Chained h' i col l := by
  intro c d split ends
  have rest : reach h' i d = reach h i d := reach_congr fun x member => same x (split ▸ mem_append_right c member)
  rw [rest]
  refine chained c d split fun x last => ?_
  rw [← same x (split ▸ mem_append_left d (List.mem_of_getLast? last))]
  exact ends x last

theorem Chained.bottom (chained : Chained h 0 col l) (positive : ∀ x ∈ l, 1 ≤ h x) (split : l = c ++ d) :
    (col c.getLast?).forward = d.head? := by
  have link := (chained c d split fun x last => positive x (split ▸ mem_append_left d (List.mem_of_getLast? last))).1
  rw [link]
  cases d with
  | nil => rfl
  | cons y r => rw [reach_cons_of_lt (positive y (split ▸ mem_append_right c mem_cons_self)),head?_cons]

theorem Ends.append (l : List α) (ends : Ends h i e) (some_ : e ≠ []) : Ends h i (l ++ e) := by
  intro x last
  rw [getLast?_append_of_ne_nil l some_] at last
  exact ends x last

theorem Ends.of_append (ends : Ends h i (l ++ e)) (some_ : e ≠ []) : Ends h i e := by
  intro x last
  rw [← getLast?_append_of_ne_nil l some_] at last
  exact ends x last

theorem mem_of_getLast? {p : Option α} (some_ : e ≠ []) (last : e.getLast? = p) : ∃ y ∈ e, p = some y := by
  obtain ⟨k,y,rfl⟩ := (eq_nil_or_concat' e).resolve_left some_
  rw [getLast?_concat] at last
  exact ⟨y,mem_append_right k (mem_singleton_self y),last.symm⟩

theorem append_eq_append_cons {y : α} (split : l ++ m = c ++ y :: d) :
    (∃ k, l = c ++ y :: k ∧ d = k ++ m) ∨ ∃ k, c = l ++ k ∧ m = k ++ y :: d := by
  rcases append_eq_append_iff.mp split with ⟨k,whole,rest⟩ | ⟨k,whole,rest⟩
  · exact Or.inr ⟨k,whole,rest⟩
  cases k with
  | nil => exact Or.inr ⟨[],by rw [whole,append_nil,append_nil],rest.symm⟩
  | cons x k =>
    rw [cons_append] at rest
    obtain ⟨rfl,behind⟩ := cons_eq_cons.mp rest
    exact Or.inl ⟨k,whole,behind⟩

section Splice
variable {col col' : Column α} {pre post a : List α} {x : α}

theorem splice (m' : List α) (distinct : (pre ++ (m ++ post)).Nodup) (upto : Upto h i pre a)
    (split : pre ++ (m ++ post) = c ++ d) (ends : Ends h i c) :
    (c = a ∧ ∃ b, pre = a ++ b ∧ Low h i b ∧ d = b ++ (m ++ post)) ∨
    (∃ k k', k ≠ [] ∧ m = k ++ k' ∧ c = pre ++ k ∧ d = k' ++ post) ∨
    (c.getLast? ≠ a.getLast? ∧ (∀ y ∈ m, c.getLast? ≠ some y) ∧
      ∃ c' d', pre ++ (m' ++ post) = c' ++ d' ∧ Ends h i c' ∧ c'.getLast? = c.getLast? ∧ reach h i d' = reach h i d) := by
  obtain ⟨aEnds,b,whole,low⟩ := upto
  have fromGap : c.getLast? = a.getLast? → c = a := by
    intro last
    have same : c ++ d = a ++ (b ++ (m ++ post)) := by rw [← split,whole,append_assoc]
    exact prefix_unique (split ▸ distinct) same last
  have fromPre : c = pre → c = a := by
    intro same
    have self : Upto h i pre c := ⟨ends,[],by rw [same,append_nil],nofun⟩
    exact upto_unique self ⟨aEnds,b,whole,low⟩
  by_cases gap : c = a
  · refine Or.inl ⟨gap,b,whole,low,?_⟩
    rw [gap,whole,append_assoc] at split
    exact (append_cancel_left split).symm
  obtain ⟨-,others,apart⟩ := nodup_append.mp distinct
  obtain ⟨-,-,behind⟩ := nodup_append.mp others
  rcases append_eq_append_iff.mp split with ⟨e,before,rest⟩ | ⟨e,before,rest⟩
  · -- the link leaves from `m` or from behind it
    rcases append_eq_append_iff.mp rest with ⟨f,inside,rest⟩ | ⟨f,inside,rest⟩
    · by_cases none_ : f = []
      · by_cases first : e = []
        · exact absurd (fromPre (by rw [before,first,append_nil])) gap
        · exact Or.inr (Or.inl ⟨e,[],first,by rw [inside,none_,append_nil,append_nil],before,by rw [rest,none_,nil_append,nil_append]⟩)
      have last := getLast?_append_of_ne_nil (pre ++ m) none_
      rw [append_assoc,← inside,← before] at last
      refine Or.inr (Or.inr ⟨fun same => gap (fromGap same),?_,pre ++ (m' ++ f),d,?_,?_,?_,rfl⟩)
      · intro y member same
        obtain ⟨z,within,equal⟩ := mem_of_getLast? none_ (last.symm.trans same)
        rw [rest] at behind
        exact behind y member z (mem_append_left d within) (Option.some.inj equal)
      · rw [rest,append_assoc,append_assoc]
      · rw [← append_assoc]
        rw [before,inside,← append_assoc] at ends
        exact Ends.append _ (ends.of_append none_) none_
      · rw [← append_assoc,getLast?_append_of_ne_nil _ none_,last]
    · by_cases first : e = []
      · exact absurd (fromPre (by rw [before,first,append_nil])) gap
      · exact Or.inr (Or.inl ⟨e,f,first,inside,before,rest⟩)
  · -- the link leaves from before `m`
    have high : ¬ Low h i e := fun none_ => gap (upto_unique ⟨ends,e,before,none_⟩ ⟨aEnds,b,whole,low⟩)
    refine Or.inr (Or.inr ⟨fun same => gap (fromGap same),?_,c,e ++ (m' ++ post),?_,ends,rfl,?_⟩)
    · intro y member same
      have within : y ∈ c := List.mem_of_getLast? same
      exact apart y (before ▸ mem_append_left e within) y (mem_append_left post member) rfl
    · rw [before,append_assoc]
    · rw [rest,reach_append_of_not_low high,reach_append_of_not_low high]

def Points (i : Nat) (link : Link α) (found : Option α × Nat) : Prop := link.forward = found.1 ∧ (0 < i → link.span = found.2)

/-- What lies between `pre` and `post` is exchanged: the link across the gap and the links of the new elements remain to be shown. -/
theorem Chained.exchange (m m' : List α) {b : List α} (distinct : (a ++ b ++ (m' ++ post)).Nodup) (ends : Ends h i a) (low : Low h i b)
    (chained : Chained h i col (a ++ b ++ (m ++ post))) (frame : ∀ p, p ≠ a.getLast? → (∀ y ∈ m', p ≠ some y) → col' p = col p)
    (gap : Points i (col' a.getLast?) (reach h i (b ++ (m' ++ post))))
    (new : ∀ k k', k ≠ [] → m' = k ++ k' → Ends h i k → Points i (col' k.getLast?) (reach h i (k' ++ post))) :
    Chained h i col' (a ++ b ++ (m' ++ post)) := by
  intro c d split cEnds
  rcases splice m distinct ⟨ends,b,rfl,low⟩ split cEnds with ⟨rfl,b',whole,-,rfl⟩ | ⟨k,k',some_,inside,rfl,rfl⟩ | ⟨notGap,notNew,c',d',split',ends',last,same⟩
  · exact append_cancel_left whole ▸ gap
  · rw [getLast?_append_of_ne_nil _ some_]
    exact new k k' some_ inside (cEnds.of_append some_)
  · rw [frame _ notGap notNew,← last,← same]
    exact chained c' d' split' ends'

theorem Chained.erase {b : List α} (distinct : (a ++ b ++ x :: post).Nodup) (ends : Ends h i a) (low : Low h i b)
    (chained : Chained h i col (a ++ b ++ x :: post)) (frame : ∀ p, p ≠ a.getLast? → col' p = col p)
    (gap : Points i (col' a.getLast?) (reach h i (b ++ post))) : Chained h i col' (a ++ b ++ post) :=
  chained.exchange [x] [] (distinct.sublist ((sublist_cons_self x post).append_left _)) ends low (fun p notGap _ => frame p notGap) gap
    fun _ _ some_ inside => absurd (append_eq_nil_iff.mp inside.symm).1 some_

theorem low_singleton (short : h x ≤ i) : Low h i [x] := by
  intro y member
  rwa [mem_singleton.mp member]

section
variable (distinct : (pre ++ x :: post).Nodup) (upto : Upto h i pre a)
include distinct upto

theorem Chained.insert_tall (chained : Chained h i col (pre ++ post))
    (tall : i < h x) (frame : ∀ p, p ≠ a.getLast? → p ≠ some x → col' p = col p)
    (gap : (col' a.getLast?).forward = some x ∧ (0 < i → (col' a.getLast?).span = pre.length - a.length + 1))
    (new : (col' (some x)).forward = (col a.getLast?).forward ∧
      (0 < i → (col' (some x)).span = (col a.getLast?).span - (pre.length - a.length))) : Chained h i col' (pre ++ x :: post) := by
  obtain ⟨ends,b,rfl,low⟩ := upto
  have across := chained a (b ++ post) (append_assoc a b post) ends
  rw [reach_low_append low] at across
  rw [length_append] at gap new
  refine chained.exchange [] [x] distinct ends low (fun p notGap notNew => frame p notGap (notNew x (mem_singleton_self x)))
    ⟨?_,fun level => ?_⟩ fun k k' some_ inside _ => ?_
  · rw [gap.1,reach_low_append low,singleton_append,reach_cons_of_lt tall]
  · rw [gap.2 level,reach_low_append low,singleton_append,reach_cons_of_lt tall]
    omega
  obtain ⟨rfl,rfl⟩ : k = [x] ∧ k' = [] := (singleton_eq_append_iff.mp inside).resolve_left fun empty => some_ empty.1
  refine ⟨new.1.trans across.1,fun level => ?_⟩
  rw [getLast?_singleton,new.2 level,across.2 level,nil_append]
  omega

theorem Chained.insert_low (chained : Chained h i col (pre ++ post))
    (short : h x ≤ i) (frame : ∀ p, p ≠ a.getLast? → p ≠ some x → col' p = col p)
    (gap : (col' a.getLast?).forward = (col a.getLast?).forward ∧ (0 < i → (col' a.getLast?).span = (col a.getLast?).span + 1)) :
    Chained h i col' (pre ++ x :: post) := by
  obtain ⟨ends,b,rfl,low⟩ := upto
  have lowNew := low_singleton short
  have across := chained a (b ++ post) (append_assoc a b post) ends
  rw [reach_low_append low] at across
  refine chained.exchange [] [x] distinct ends low (fun p notGap notNew => frame p notGap (notNew x (mem_singleton_self x))) ?_
    fun k k' some_ inside alone => absurd (Ends.eq_nil (a := []) alone fun y member => lowNew y (inside ▸ mem_append_left k' member)) some_
  rw [reach_low_append low,reach_low_append lowNew]
  refine ⟨gap.1.trans across.1,fun level => ?_⟩
  rw [gap.2 level,across.2 level,length_singleton]
  omega

theorem Chained.erase_tall (chained : Chained h i col (pre ++ x :: post))
    (tall : i < h x) (frame : ∀ p, p ≠ a.getLast? → col' p = col p)
    (gap : (col' a.getLast?).forward = (col (some x)).forward ∧
      (0 < i → (col' a.getLast?).span = (col a.getLast?).span + ((col (some x)).span - 1))) : Chained h i col' (pre ++ post) := by
  obtain ⟨ends,b,rfl,low⟩ := upto
  have leaving := chained (a ++ b ++ [x]) post (append_cons _ x post) (Ends.append _ (by simpa [Ends] using tall) (cons_ne_nil x []))
  rw [getLast?_concat] at leaving
  have across := chained a (b ++ x :: post) (append_assoc a b _) ends
  rw [reach_low_append low,reach_cons_of_lt tall] at across
  refine chained.erase distinct ends low frame ?_
  rw [reach_low_append low]
  refine ⟨gap.1.trans leaving.1,fun level => ?_⟩
  rw [gap.2 level,across.2 level,leaving.2 level]
  omega

theorem Chained.erase_low (chained : Chained h i col (pre ++ x :: post))
    (short : h x ≤ i) (frame : ∀ p, p ≠ a.getLast? → col' p = col p)
    (gap : (col' a.getLast?).forward = (col a.getLast?).forward ∧ (0 < i → (col' a.getLast?).span = (col a.getLast?).span - 1)) :
    Chained h i col' (pre ++ post) := by
  obtain ⟨ends,b,rfl,low⟩ := upto
  have across := chained a (b ++ ([x] ++ post)) (append_assoc a b _) ends
  rw [reach_low_append low,reach_low_append (low_singleton short)] at across
  refine chained.erase distinct ends low frame ?_
  rw [reach_low_append low]
  refine ⟨gap.1.trans across.1,fun level => ?_⟩
  rw [gap.2 level,across.2 level,length_singleton]
  omega

theorem Chained.forward_eq_iff (chained : Chained h i col (pre ++ x :: post)) :
    (col a.getLast?).forward = some x ↔ i < h x := by
  obtain ⟨aEnds,b,whole,low⟩ := upto
  have across := (chained a (b ++ x :: post) (by rw [whole,append_assoc]) aEnds).1
  rw [reach_low_append low] at across
  rw [across]
  refine ⟨fun reached => ?_,fun tall => by rw [reach_cons_of_lt tall]⟩
  by_contra short
  rw [reach,if_neg short] at reached
  rcases reach_cases h i post with ⟨-,none_⟩ | ⟨s,y,r,rfl,-,-,found⟩
  · rw [none_] at reached
    exact some_ne_none x reached.symm
  · rw [found] at reached
    have fresh := (nodup_cons.mp (nodup_append.mp distinct).2.1).1
    exact fresh (Option.some.inj reached ▸ mem_append_right s mem_cons_self)

end

def Backs (back : α → Option α) (l : List α) : Prop := ∀ c x d, l = c ++ x :: d → back x = c.getLast?

variable {back back' : α → Option α}

theorem Backs.exchange (m m' : List α) (distinct : (pre ++ post).Nodup) (backs : Backs back (pre ++ (m ++ post)))
    (frame : ∀ y ∈ pre ++ post, post.head? ≠ some y → back' y = back y) (next : ∀ y, post.head? = some y → back' y = (pre ++ m').getLast?)
    (new : ∀ c y d, m' = c ++ y :: d → back' y = (pre ++ c).getLast?) : Backs back' (pre ++ (m' ++ post)) := by
  intro c y d split
  obtain ⟨-,rest,apart⟩ := nodup_append.mp distinct
  rcases append_eq_append_cons split with ⟨k,whole,-⟩ | ⟨k,rfl,tail⟩
  · have member : y ∈ pre := whole ▸ mem_append_right c mem_cons_self
    rw [frame y (mem_append_left post member) fun first => apart y member y (mem_of_head? first) rfl]
    exact backs c y (k ++ (m ++ post)) (by rw [whole,append_assoc,cons_append])
  rcases append_eq_append_cons tail with ⟨k',inside,-⟩ | ⟨e,rfl,rfl⟩
  · exact new k y k' inside
  cases e with
  | nil => rw [append_nil,next y (by rw [nil_append,head?_cons])]
  | cons w e =>
    have notNext : (w :: e ++ y :: d).head? ≠ some y := by
      intro first
      exact (nodup_cons.mp rest).1 (Option.some.inj first ▸ mem_append_right e mem_cons_self)
    rw [frame y (by simp) notNext,backs (pre ++ (m ++ w :: e)) y d (by simp only [append_assoc]),← append_assoc,
      ← append_assoc,getLast?_append_of_ne_nil _ (cons_ne_nil w e),getLast?_append_of_ne_nil _ (cons_ne_nil w e)]

theorem Backs.insert (distinct : (pre ++ x :: post).Nodup) (backs : Backs back (pre ++ post))
    (frame : ∀ y, y ≠ x → post.head? ≠ some y → back' y = back y) (new : back' x = pre.getLast?)
    (next : ∀ y, post.head? = some y → back' y = some x) : Backs back' (pre ++ x :: post) := by
  have fresh := nodup_middle.mp distinct
  refine backs.exchange [] [x] (nodup_cons.mp fresh).2 (fun y member => frame y ?_) (by simpa using next) ?_
  · rintro rfl
    exact (nodup_cons.mp fresh).1 member
  · intro c y d split
    obtain ⟨rfl,rfl,-⟩ : c = [] ∧ y = x ∧ d = [] := by simpa [singleton_eq_append_iff] using split
    rw [new,append_nil]

theorem Backs.erase (distinct : (pre ++ x :: post).Nodup) (backs : Backs back (pre ++ x :: post))
    (frame : ∀ y, post.head? ≠ some y → back' y = back y) (next : ∀ y, post.head? = some y → back' y = pre.getLast?) :
    Backs back' (pre ++ post) :=
  backs.exchange [x] [] (nodup_cons.mp (nodup_middle.mp distinct)).2 (fun y _ => frame y) (by simpa using next) (by simp)

end Splice

end ValkeyWasm.Library.Tower
