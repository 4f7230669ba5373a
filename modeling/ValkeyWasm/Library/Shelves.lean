import Mathlib.Data.List.Sort
import Mathlib.Order.Bounds.Basic
import Mathlib.Algebra.Ring.Int.Parity

/-! Ordered shelves. A shelf has a key above the mark of everything on it, and a thing stands on
the shelf with the least such key. -/
namespace ValkeyWasm.Library.Shelves
open List

variable {K β E : Type*} [LinearOrder K]

/-- Replaces the shelf of that key, or puts a new one at its place in the order. -/
def put (key : K) (value : β) : List (K × β) → List (K × β)
  | [] => [(key,value)]
  | x :: m => if x.1 < key then x :: put key value m else if x.1 = key then (key,value) :: m else (key,value) :: x :: m

def replace (key : K) (value : β) (m : List (K × β)) : List (K × β) :=
  m.map fun x => if x.1 = key then (key,value) else x

def discard (key : K) (m : List (K × β)) : List (K × β) := m.filter fun x => x.1 ≠ key

/-- The first shelf with a key above the mark. -/
def above (mark : K) (m : List (K × β)) : Option (K × β) := m.find? fun x => mark < x.1

def contents (on : β → List E) (m : List (K × β)) : List E := m.flatMap fun x => on x.2

/-- The first shelf comes before the second one, and what stands on the second one could not
stand on the first. -/
def Precedes (mark : E → K) (on : β → List E) (x y : K × β) : Prop := x.1 < y.1 ∧ ∀ e ∈ on y.2, x.1 ≤ mark e

structure Shelved (mark : E → K) (on : β → List E) (m : List (K × β)) : Prop where
  order : m.Pairwise (Precedes mark on)
  below : ∀ x ∈ m, ∀ e ∈ on x.2, mark e < x.1

section Places
variable {key : K} {value : β} {l r : List (K × β)}

theorem put_between (left : ∀ x ∈ l, x.1 < key) (right : ∀ x ∈ r, key < x.1) :
    put key value (l ++ r) = l ++ (key,value) :: r := by
  induction l with
  | nil =>
    cases r with
    | nil => rfl
    | cons y r =>
      have gt := right y mem_cons_self
      simp [put,gt.not_gt,gt.ne']
  | cons x l ih =>
    have lt := left x mem_cons_self
    simp only [cons_append,put,lt,if_true]
    rw [ih fun y member => left y (mem_cons_of_mem x member)]

theorem replace_at {old : β} (left : ∀ x ∈ l, x.1 ≠ key) (right : ∀ x ∈ r, x.1 ≠ key) :
    replace key value (l ++ (key,old) :: r) = l ++ (key,value) :: r := by
  have keep : ∀ m : List (K × β), (∀ x ∈ m, x.1 ≠ key) → replace key value m = m := by
    intro m other
    refine (map_congr_left fun x member => ?_).trans (map_id m)
    simp [other x member]
  have both := congrArg₂ (fun a b => a ++ (key,value) :: b) (keep l left) (keep r right)
  simpa [replace] using both

theorem discard_at {old : β} (left : ∀ x ∈ l, x.1 ≠ key) (right : ∀ x ∈ r, x.1 ≠ key) :
    discard key (l ++ (key,old) :: r) = l ++ r := by
  rw [discard,filter_append,filter_cons_of_neg (by simp),filter_eq_self.mpr (by simpa using left),
    filter_eq_self.mpr (by simpa using right)]

variable {m : List (K × β)}

theorem above_eq_some {mark : K} {x : K × β} (found : above mark m = some x) :
    ∃ l r, m = l ++ x :: r ∧ mark < x.1 ∧ ∀ y ∈ l, y.1 ≤ mark := by
  obtain ⟨gt,l,r,rfl,left⟩ := find?_eq_some_iff_append.mp found
  exact ⟨l,r,rfl,by simpa using gt,fun y member => by simpa using left y member⟩

theorem above_at {mark : K} {x : K × β} (left : ∀ y ∈ l, y.1 ≤ mark) (gt : mark < x.1) : above mark (l ++ x :: r) = some x := by
  refine find?_eq_some_iff_append.mpr ⟨by simpa using gt,l,r,rfl,fun y member => ?_⟩
  simpa using left y member

theorem above_eq_none {mark : K} : above mark m = none ↔ ∀ x ∈ m, x.1 ≤ mark := by
  simp [above]

end Places

section Standing
variable {mark : E → K} {on : β → List E} {l r : List (K × β)} {x : K × β}

omit [LinearOrder K] in
theorem contents_perm (on : β → List E) (l r : List (K × β)) (x : K × β) :
    (contents on (l ++ x :: r)).Perm (on x.2 ++ contents on (l ++ r)) := by
  simp only [contents,flatMap_append,flatMap_cons]
  rw [← append_assoc,← append_assoc]
  exact perm_append_comm.append_right _

theorem Shelved.cut (shelved : Shelved mark on (l ++ x :: r)) :
    (∀ a ∈ l, Precedes mark on a x) ∧ (∀ b ∈ r, Precedes mark on x b) := by
  obtain ⟨-,tail,across⟩ := pairwise_append.mp shelved.order
  exact ⟨fun a member => across a member x mem_cons_self,(pairwise_cons.mp tail).1⟩

theorem Shelved.insert (shelved : Shelved mark on (l ++ r)) (left : ∀ a ∈ l, Precedes mark on a x)
    (right : ∀ b ∈ r, Precedes mark on x b) (below : ∀ e ∈ on x.2, mark e < x.1) : Shelved mark on (l ++ x :: r) where
  order := by
    obtain ⟨head,tail,across⟩ := pairwise_append.mp shelved.order
    refine pairwise_append.mpr ⟨head,pairwise_cons.mpr ⟨right,tail⟩,fun a member b last => ?_⟩
    rcases mem_cons.mp last with rfl | last
    · exact left a member
    · exact across a member b last
  below := by
    intro y member
    rcases mem_append.mp member with head | tail
    · exact shelved.below y (mem_append_left r head)
    · rcases mem_cons.mp tail with rfl | tail
      · exact below
      · exact shelved.below y (mem_append_right l tail)

variable {m : List (K × β)}

theorem Shelved.sublist {m' : List (K × β)} (shelved : Shelved mark on m) (sub : m'.Sublist m) : Shelved mark on m' where
  order := shelved.order.sublist sub
  below y member := shelved.below y (sub.subset member)

theorem Shelved.congr {mark' : E → K} (shelved : Shelved mark on m)
    (same : ∀ e ∈ contents on m, mark' e = mark e) : Shelved mark' on m := by
  have at' : ∀ x ∈ m, ∀ e ∈ on x.2, mark' e = mark e := fun x member e standing =>
    same e (mem_flatMap.mpr ⟨x,member,standing⟩)
  refine ⟨shelved.order.imp_of_mem fun _ second precedes => ⟨precedes.1,fun e standing => ?_⟩,fun x member e standing => ?_⟩
  · rw [at' _ second e standing]
    exact precedes.2 e standing
  · rw [at' x member e standing]
    exact shelved.below x member e standing

theorem Shelved.above_mark (shelved : Shelved mark on (l ++ x :: r)) {e : E} (standing : e ∈ on x.2) :
    above (mark e) (l ++ x :: r) = some x :=
  above_at (fun a member => (shelved.cut.1 a member).2 e standing)
    (shelved.below x (mem_append_right l mem_cons_self) e standing)

theorem Shelved.isLeast (shelved : Shelved mark on m) (member : x ∈ m) {e : E} (standing : e ∈ on x.2) :
    IsLeast {key | key ∈ m.map Prod.fst ∧ mark e < key} x.1 := by
  refine ⟨⟨mem_map_of_mem member,shelved.below x member e standing⟩,?_⟩
  rintro key ⟨known,gt⟩
  obtain ⟨y,there,rfl⟩ := mem_map.mp known
  obtain ⟨l,r,rfl⟩ := append_of_mem member
  rcases mem_append.mp there with left | right
  · exact absurd ((shelved.cut.1 y left).2 e standing) gt.not_ge
  · rcases mem_cons.mp right with rfl | right
    · exact le_rfl
    · exact (shelved.cut.2 y right).1.le

end Standing

end ValkeyWasm.Library.Shelves
