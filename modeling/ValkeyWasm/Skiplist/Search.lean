import ValkeyWasm.Skiplist.Skiplist
import Mathlib.Data.List.GetD

/-! What a search in a skip list finds.
The nodes are a list in which every level links those above it. A search splits the list, and at each
level it has stopped at the last node of the first part above the level. -/
namespace ValkeyWasm.Skiplist
open Library.Tower List Option Nat Int

variable {S E : Type} {z : Zskiplist S E} {h : Nat → Nat} {ids : List Nat}

def highest (h : Nat → Nat) (ids : List Nat) : Nat := ids.foldr (fun x m => max (h x) m) 1

structure Linked (z : Zskiplist S E) (h : Nat → Nat) (ids : List Nat) : Prop where
  distinct : ids.Nodup
  stored : ∀ x ∈ ids, z.zslGetNodeHeight x = h x
  positive : ∀ x ∈ ids, 1 ≤ h x
  bounded : ∀ x ∈ ids, h x ≤ maxLevel
  height : z.zslGetHeight = highest h ids
  chained : ∀ i < z.zslGetHeight, Chained h i (z.level i) ids
  above : ∀ i, z.zslGetHeight ≤ i → (z.level i none).forward = none
  backward : Backs z.backward ids
  tail : z.tail = ids.getLast?
  length : z.length = ids.length

theorem le_highest {x : Nat} (member : x ∈ ids) : h x ≤ highest h ids := by
  induction ids with
  | nil => exact absurd member not_mem_nil
  | cons y ids ih =>
    rw [highest,foldr_cons]
    rcases mem_cons.mp member with rfl | later
    · exact Nat.le_max_left _ _
    · exact Nat.le_trans (ih later) (Nat.le_max_right _ _)

theorem one_le_highest : 1 ≤ highest h ids := by
  induction ids with
  | nil => exact Nat.le_refl 1
  | cons y ids ih => exact Nat.le_trans ih (Nat.le_max_right _ _)

theorem highest_cases (h : Nat → Nat) (ids : List Nat) : highest h ids = 1 ∨ ∃ x ∈ ids, highest h ids = h x := by
  induction ids with
  | nil => exact Or.inl rfl
  | cons y ids ih =>
    rw [highest,foldr_cons]
    rcases Nat.le_total (h y) (highest h ids) with below | above
    · rw [← highest,Nat.max_eq_right below]
      exact ih.imp_right fun ⟨x,member,same⟩ => ⟨x,mem_cons_of_mem y member,same⟩
    · rw [← highest,Nat.max_eq_left above]
      exact Or.inr ⟨y,mem_cons_self,rfl⟩

theorem highest_eq {m : Nat} (one : 1 ≤ m) (upper : ∀ x ∈ ids, h x ≤ m) (taken : m = 1 ∨ ∃ x ∈ ids, m = h x) : highest h ids = m := by
  apply Nat.le_antisymm
  · rcases highest_cases h ids with same | ⟨x,member,same⟩
    · omega
    · exact same ▸ upper x member
  · rcases taken with rfl | ⟨x,member,rfl⟩
    · exact one_le_highest
    · exact le_highest member

namespace Linked

theorem le_height (linked : Linked z h ids) {x : Nat} (member : x ∈ ids) : h x ≤ z.zslGetHeight := linked.height ▸ le_highest member

theorem height_pos (linked : Linked z h ids) : 0 < z.zslGetHeight := linked.height ▸ one_le_highest

theorem bottom (linked : Linked z h ids) {c d : List Nat} (split : ids = c ++ d) : (z.level 0 c.getLast?).forward = d.head? :=
  (linked.chained 0 linked.height_pos).bottom linked.positive split

theorem reach_spec (linked : Linked z h ids) {i : Nat} (level : i < z.zslGetHeight) {a d : List Nat} (split : ids = a ++ d) (ends : Ends h i a) :
    (z.level i a.getLast?).forward = (reach h i d).1 ∧ zslGetNodeSpanAtLevel (z.level i) a.getLast? i = (reach h i d).2 := by
  obtain ⟨forward,span⟩ := linked.chained i level a d split ends
  refine ⟨forward,?_⟩
  rw [zslGetNodeSpanAtLevel]
  split
  · rename_i high
    exact span high
  rename_i bottom
  obtain rfl : i = 0 := by omega
  rw [forward]
  cases d with
  | nil => rfl
  | cons y r =>
    rw [reach_cons_of_lt (linked.positive y (split ▸ mem_append_right a mem_cons_self))]
    rfl

theorem next_cases (linked : Linked z h ids) {i : Nat} (level : i < z.zslGetHeight) {a d : List Nat} (split : ids = a ++ d) (ends : Ends h i a) :
    ((z.level i a.getLast?).forward = none ∧ zslGetNodeSpanAtLevel (z.level i) a.getLast? i = d.length ∧ Low h i d) ∨
    ∃ s y r, d = s ++ y :: r ∧ Low h i s ∧ i < h y ∧ (z.level i a.getLast?).forward = some y ∧
      zslGetNodeSpanAtLevel (z.level i) a.getLast? i = s.length + 1 := by
  obtain ⟨forward,span⟩ := linked.reach_spec level split ends
  rcases reach_cases h i d with ⟨low,found⟩ | ⟨s,y,r,rfl,low,tall,found⟩
  · rw [found] at forward span
    exact Or.inl ⟨forward,span,low⟩
  · rw [found] at forward span
    exact Or.inr ⟨s,y,r,rfl,low,tall,forward,span⟩

end Linked

def Stops (go : Int → Nat → Bool) (h : Nat → Nat) (i : Nat) (ids a : List Nat) : Prop :=
  ∀ s y r, ids = a ++ (s ++ y :: r) → Low h i s → i < h y → go (a.length + s.length + 1) y = false

def Passed (go : Int → Nat → Bool) (h : Nat → Nat) (i : Nat) (a e : List Nat) : Prop :=
  ∀ s y t, e = s ++ y :: t → h y ≤ i ∨ go (a.length + s.length + 1) y = true

section
variable {go : Int → Nat → Bool} {i j : Nat} {a e f : List Nat}

theorem Passed.nil : Passed go h i a [] := fun s y t split => absurd split.symm (append_ne_nil_of_right_ne_nil s (cons_ne_nil y t))

theorem Passed.landed (passed : Passed go h i a e) (ends : Ends h i (a ++ e)) (s : List Nat) (y : Nat) (split : e = s ++ [y]) :
    go (a.length + s.length + 1) y = true := by
  have tall := ends y (by rw [split,← append_assoc,getLast?_concat])
  exact (passed s y [] split).resolve_left (Nat.not_le_of_lt tall)

theorem Passed.mono (passed : Passed go h i a e) (le : i ≤ j) : Passed go h j a e :=
  fun s y t split => (passed s y t split).imp_left fun low => Nat.le_trans low le

theorem Passed.append (first : Passed go h i a e) (second : Passed go h i (a ++ e) f) : Passed go h i a (e ++ f) := by
  intro s y t split
  rcases append_eq_append_cons split with ⟨k,whole,-⟩ | ⟨k,whole,rest⟩
  · exact first s y k whole
  · have passed := second k y t rest
    rw [length_append,natCast_add] at passed
    rwa [whole,length_append,natCast_add,← Int.add_assoc]

theorem Stops.low {d : List Nat} (stops : Stops go h i ids a) (split : ids = a ++ (e ++ d)) (passed : Passed go h i a e) : Low h i e := by
  rcases reach_cases h i e with ⟨low,-⟩ | ⟨s,y,r,whole,low,tall,-⟩
  · exact low
  have stopped := stops s y (r ++ d) (by rw [split,whole,append_assoc,cons_append]) low tall
  rcases passed s y r whole with short | went
  · omega
  · exact absurd (stopped.symm.trans went) Bool.false_ne_true

end

theorem Linked.walk_spec (linked : Linked z h ids) (go : Int → Nat → Bool) {i : Nat} (level : i < z.zslGetHeight) {rounds : Nat} {a d : List Nat}
    (enough : d.length < rounds) (split : ids = a ++ d) (ends : Ends h i a) :
    ∃ e d', z.walk go i rounds (a.getLast?,a.length) = some ((a ++ e).getLast?,((a ++ e).length : Int)) ∧ d = e ++ d' ∧ Ends h i (a ++ e) ∧
      Stops go h i ids (a ++ e) ∧ Passed go h i a e := by
  induction rounds generalizing a d with
  | zero => exact absurd enough (not_lt_zero _)
  | succ rounds ih =>
    rcases linked.next_cases level split ends with ⟨forward,-,low⟩ | ⟨s,y,r,rfl,low,tall,forward,span⟩
    · refine ⟨[],d,?_,rfl,?_,?_,Passed.nil⟩
      · rw [Zskiplist.walk,append_nil]
        simp only [forward]
      · rwa [append_nil]
      intro s y r whole _ tall
      rw [append_nil,split] at whole
      have short := low y (append_cancel_left whole ▸ mem_append_right s mem_cons_self)
      omega
    have rank : (a.length : Int) + zslGetNodeSpanAtLevel (z.level i) a.getLast? i = a.length + s.length + 1 := by
      rw [span,Int.add_assoc]
    cases going : go (a.length + s.length + 1) y with
    | false =>
      refine ⟨[],s ++ y :: r,?_,rfl,?_,?_,Passed.nil⟩
      · rw [Zskiplist.walk]
        simp only [forward,rank,going,append_nil,Bool.false_eq_true,if_false]
      · rwa [append_nil]
      intro s' y' r' whole low' tall'
      rw [append_nil,split] at whole
      have same := congrArg (reach h i) (append_cancel_left whole)
      rw [reach_low_append low,reach_low_append low',reach_cons_of_lt tall,reach_cons_of_lt tall'] at same
      obtain ⟨sameNode,sameSteps⟩ := Prod.mk.inj same
      have size : s.length = s'.length := Nat.add_right_cancel sameSteps
      rw [append_nil,← size,← Option.some.inj sameNode]
      exact going
    | true =>
      have landed : (a ++ (s ++ [y])).getLast? = some y := by rw [← append_assoc,getLast?_concat]
      have rest : ids = (a ++ (s ++ [y])) ++ r := by rw [split,append_assoc,append_assoc,singleton_append]
      have size : ((a ++ (s ++ [y])).length : Int) = a.length + s.length + 1 := by
        rw [length_append,length_append,length_singleton]
        omega
      have fewer : r.length < rounds := by
        rw [length_append,length_cons] at enough
        omega
      have endsHere : Ends h i (a ++ (s ++ [y])) := by
        intro x last
        rw [landed] at last
        exact Option.some.inj last ▸ tall
      obtain ⟨e,d',found,rfl,ends',stops,passed⟩ := ih fewer rest endsHere
      rw [landed,size] at found
      refine ⟨s ++ [y] ++ e,d',?_,?_,?_,?_,?_⟩
      · rw [Zskiplist.walk]
        simp only [forward,rank,going,if_true,found,append_assoc]
      · rw [append_assoc,append_assoc,singleton_append]
      · rwa [← append_assoc]
      · rwa [← append_assoc]
      refine Passed.append ?_ passed
      intro s' y' t whole
      rcases append_eq_append_cons whole with ⟨k,before,-⟩ | ⟨k,before,rest⟩
      · exact Or.inl (low y' (before ▸ mem_append_right s' mem_cons_self))
      cases k with
      | nil =>
        rw [nil_append] at rest
        rw [before,append_nil,← (cons_eq_cons.mp rest).1]
        exact Or.inr going
      | cons x k =>
        rw [cons_append] at rest
        have nothing := (cons_eq_cons.mp rest).2
        exact absurd nothing.symm (append_ne_nil_of_right_ne_nil k (cons_ne_nil y' t))

/-- The arrays that a search has filled for the levels below `n`: where it went down. -/
def Traces (h : Nat → Nat) (pre : List Nat) (path : List (Option Nat × Int)) (n : Nat) : Prop :=
  ∀ i < n, ∃ a, Upto h i pre a ∧ updateAt path i = a.getLast? ∧ rankAt path i = a.length

theorem Traces.mono {pre : List Nat} {path : List (Option Nat × Int)} {m n : Nat} (traces : Traces h pre path n) (le : m ≤ n) : Traces h pre path m :=
  fun i lt => traces i (Nat.lt_of_lt_of_le lt le)

theorem Traces.zero {pre : List Nat} {path : List (Option Nat × Int)} {n : Nat} (traces : Traces h pre path n) (some_ : 0 < n)
    (positive : ∀ x ∈ pre, 1 ≤ h x) : updateAt path 0 = pre.getLast? ∧ rankAt path 0 = pre.length := by
  obtain ⟨a,upto,update,rank⟩ := traces 0 some_
  have whole : Upto h 0 pre pre := by
    refine ⟨fun x last => positive x (mem_of_getLast? last),[],(append_nil pre).symm,?_⟩
    exact nofun
  rw [update,rank,upto_unique upto whole]
  exact ⟨rfl,rfl⟩

theorem getD_append_single {α : Type} (l : List α) (x d : α) : (l ++ [x]).getD l.length d = x := by
  rw [getD_append_right l [x] d l.length (Nat.le_refl _),Nat.sub_self]
  rfl

theorem Linked.descend_spec (linked : Linked z h ids) (go : Int → Nat → Bool) {i : Nat} (levels : i ≤ z.zslGetHeight) {a d : List Nat}
    (split : ids = a ++ d) (ends : ∀ j < i, Ends h j a) :
    ∃ path e d', z.descend go i (a.getLast?,a.length) = some path ∧ d = e ++ d' ∧ path.length = i ∧ Traces h (a ++ e) path i ∧
      (i = 0 → e = []) ∧ (∀ k, i ≤ k + 1 → Passed go h k a e) ∧ (0 < i → Stops go h 0 ids (a ++ e)) ∧
      ∀ s y, e = s ++ [y] → go (a.length + s.length + 1) y = true := by
  induction i generalizing a d with
  | zero =>
    refine ⟨[],[],d,rfl,rfl,rfl,fun j lt => absurd lt (not_lt_zero j),fun _ => rfl,?_,fun lt => absurd lt (Nat.lt_irrefl 0),?_⟩
    · exact fun k _ => Passed.nil
    · exact fun s y split => absurd split.symm (append_ne_nil_of_right_ne_nil s (cons_ne_nil y []))
  | succ i ih =>
    have enough : d.length < z.length.toNat + 1 := by
      have size := linked.length
      rw [split,length_append] at size
      omega
    obtain ⟨e,d',walked,rfl,endsHere,stops,passed⟩ := linked.walk_spec go levels enough split (ends i (lt_succ_self i))
    have rest : ids = (a ++ e) ++ d' := by rw [split,append_assoc]
    have endsBelow : ∀ j < i, Ends h j (a ++ e) := fun j lt x last => Nat.lt_trans lt (endsHere x last)
    obtain ⟨path,f,d'',found,rfl,size,traces,none_,passedBelow,stopsBelow,landedBelow⟩ := ih (le_of_succ_le levels) rest endsBelow
    refine ⟨path ++ [((a ++ e).getLast?,((a ++ e).length : Int))],e ++ f,d'',?_,?_,?_,?_,?_,?_,?_,?_⟩
    · rw [Zskiplist.descend,walked]
      simp only [bind_eq_bind,bind_some,found]
      rfl
    · rw [append_assoc]
    · rw [length_append,size,length_singleton]
    · intro j lt
      rcases Nat.lt_succ_iff_lt_or_eq.mp lt with below | rfl
      · obtain ⟨b,upto,update,rank⟩ := traces j below
        have inPath : (path ++ [((a ++ e).getLast?,((a ++ e).length : Int))]).getD j (none,0) = path.getD j (none,0) :=
          getD_append _ _ _ _ (size ▸ below)
        rw [updateAt,rankAt,inPath,← append_assoc]
        exact ⟨b,upto,update,rank⟩
      · refine ⟨a ++ e,⟨endsHere,f,by rw [append_assoc],?_⟩,?_⟩
        · exact stops.low (by rw [rest]) (passedBelow j (le_succ j))
        · rw [updateAt,rankAt]
          rw [← size,getD_append_single]
          exact ⟨rfl,rfl⟩
    · exact fun impossible => absurd impossible (succ_ne_zero i)
    · intro k le
      exact (passed.mono (le_of_succ_le_succ le)).append (passedBelow k (le_of_succ_le le))
    · intro _
      rcases Nat.eq_zero_or_pos i with rfl | positive
      · rw [none_ rfl,append_nil]
        exact stops
      · rw [← append_assoc]
        exact stopsBelow positive
    · intro s y whole
      rcases eq_nil_or_concat' f with rfl | ⟨k,x,rfl⟩
      · exact passed.landed endsHere s y (by rw [← whole,append_nil])
      rw [← append_assoc] at whole
      obtain ⟨rfl,same⟩ := append_inj' whole rfl
      have went := landedBelow k x rfl
      rw [length_append,natCast_add] at went
      rwa [← (cons_eq_cons.mp same).1,length_append,natCast_add,← Int.add_assoc]

theorem Linked.search_spec (linked : Linked z h ids) (go : Int → Nat → Bool) :
    ∃ path pre post, z.search go = some path ∧ ids = pre ++ post ∧ path.length = z.zslGetHeight ∧ Traces h pre path z.zslGetHeight ∧
      (∀ s y, pre = s ++ [y] → go (s.length + 1) y = true) ∧ ∀ y r, post = y :: r → go (pre.length + 1) y = false := by
  have start : ∀ j < z.zslGetHeight, Ends h j [] := nofun
  obtain ⟨path,pre,post,found,whole,size,traces,-,-,stops,landed⟩ := linked.descend_spec go (Nat.le_refl _) (nil_append ids).symm start
  refine ⟨path,pre,post,found,whole,size,traces,?_,?_⟩
  · intro s y last
    have went := landed s y last
    rwa [length_nil,Int.natCast_zero,Int.zero_add] at went
  intro y r first
  have member : y ∈ ids := by
    rw [whole,first]
    exact mem_append_right pre mem_cons_self
  have stopped := stops linked.height_pos [] y r (by rw [whole,first,nil_append,nil_append]) nofun
    (linked.positive y member)
  rwa [nil_append,length_nil,Int.natCast_zero,Int.add_zero] at stopped

end ValkeyWasm.Skiplist
