import ValkeyWasm.Skiplist.Script

/-! The rank of a node and the node of a rank.
The rank is not found by a search: the spans from the node to the end are subtracted from the length. -/
namespace ValkeyWasm.Skiplist
open Library.Tower List Option

variable {S E : Type}

namespace Zskiplist

def countAfterNode (z : Zskiplist S E) : Nat → Option Nat → Int → Option Int
  | 0, _, _ => none
  | _ + 1, none, count => some count
  | rounds + 1, some node, count =>
    let highestNodeSpan := z.zslGetNodeHeight node - 1
    z.countAfterNode rounds (z.level highestNodeSpan (some node)).forward
      (count + zslGetNodeSpanAtLevel (z.level highestNodeSpan) (some node) highestNodeSpan)

/-- The loop of `zslGetElementByRankFromNode` over the levels below the given one; the result may be
a null pointer, and is the header for rank 0. -/
def elementByRank (z : Zskiplist S E) (rank : Int) : Nat → Option Nat × Int → Option (Option (Option Nat))
  | 0, _ => some none
  | i + 1, x => do
    let (x,traversed) ← z.walk (fun traversed _ => decide (traversed ≤ rank)) i (z.length.toNat + 1) x
    if traversed = rank then some (some x) else z.elementByRank rank i (x,traversed)

end Zskiplist

variable {z : Zskiplist S E} {h : Nat → Nat} {ids : List Nat}

namespace Linked
variable (linked : Linked z h ids)
include linked

theorem countAfterNode {c d : List Nat} {x rounds : Nat} (split : ids = c ++ x :: d) (enough : d.length + 1 < rounds) (count : Int) :
    z.countAfterNode rounds (some x) count = some (count + d.length) := by
  induction rounds generalizing c d x count with
  | zero => omega
  | succ rounds ih =>
    have member : x ∈ ids := split ▸ mem_append_right c mem_cons_self
    have positive := linked.positive x member
    have here : ids = (c ++ [x]) ++ d := by rw [split,append_assoc,singleton_append]
    have last : (c ++ [x]).getLast? = some x := getLast?_concat
    have cases_ := linked.next_cases (i := h x - 1) (by have := linked.le_height member; omega) here fun y final => by
      rw [last] at final
      cases final
      omega
    rw [last] at cases_
    rw [Zskiplist.countAfterNode,linked.stored x member]
    rcases cases_ with ⟨forward,span,-⟩ | ⟨s,y,r,rfl,-,-,forward,span⟩
    · rw [forward,span]
      cases rounds with
      | zero => omega
      | succ rounds => rfl
    rw [length_append,length_cons] at enough ⊢
    rw [forward,span,ih (by rw [here,← append_assoc]) (by omega)]
    congr 1
    push_cast
    omega

theorem elementByRank {r i : Nat} (levels : i ≤ z.zslGetHeight) {a d : List Nat} (split : ids = a ++ d) (ends : ∀ j < i, Ends h j a)
    (below : a.length ≤ r) (over_ : i = 0 → ids.length < r) :
    z.elementByRank r i (a.getLast?,a.length) = some (if r ≤ ids.length then some (ids.take r).getLast? else none) := by
  induction i generalizing a d with
  | zero => rw [if_neg (Nat.not_le_of_lt (over_ rfl))]; rfl
  | succ i ih =>
    have enough : d.length < z.length.toNat + 1 := by
      have size := linked.length
      rw [split,length_append] at size
      omega
    obtain ⟨e,d',walked,rfl,endsHere,stops,passed⟩ := linked.walk_spec (fun traversed _ => decide (traversed ≤ (r : Int))) levels enough split
      (ends i (Nat.lt_succ_self i))
    have rest : ids = (a ++ e) ++ d' := by rw [split,append_assoc]
    have inside : (a ++ e).length ≤ r := by
      rcases eq_nil_or_concat' e with rfl | ⟨s,y,rfl⟩
      · rwa [append_nil]
      · have went := of_decide_eq_true (passed.landed endsHere s y rfl)
        rw [length_append,length_append,length_singleton]
        omega
    rw [Zskiplist.elementByRank,walked]
    simp only [bind_eq_bind,bind_some]
    split
    · rename_i reached
      obtain rfl : (a ++ e).length = r := Int.ofNat_inj.mp reached
      rw [rest,take_left,if_pos (prefix_append _ _).length_le]
    rename_i short
    refine ih (Nat.le_of_succ_le levels) rest (fun j lt y last => lt_trans lt (endsHere y last)) inside ?_
    rintro rfl
    cases d' with
    | nil =>
      rw [rest,append_nil]
      omega
    | cons y r' =>
      have stopped := of_decide_eq_false (stops [] y r' rest nofun
        (linked.positive y (rest ▸ mem_append_right _ mem_cons_self)))
      rw [length_nil] at stopped
      omega

end Linked

end ValkeyWasm.Skiplist
