import ValkeyWasm.Library.Counting
import ValkeyWasm.Pubsub.Commands

/-! One kind of subscriptions: the tables of clients and the sets of the clients describe the same pairs, whatever the
stage of the rehash of each table. -/

namespace ValkeyWasm.Pubsub
open Function List AList
open Hashtable (Layout HashtableType Env Simulates)
open Library.Counting

section
variable {L : Layout} {C N : Type} {hash : C → BitVec 64}

def Holds (hash : C → BitVec 64) (clients : Hashtable L C) (p : C → Bool) : Prop :=
  Simulates (clientHashtableType hash) 0 clients fun c => if p c then some c else none

namespace Holds
variable {clients : Hashtable L C} {p q : C → Bool}

theorem create : Holds hash (Hashtable.create : Hashtable L C) (fun _ => false) := by
  unfold Holds
  simpa using Hashtable.create_simulates (L := L) (clientHashtableType hash)

variable (holds : Holds hash clients p)
include holds

theorem congr (same : ∀ c, q c = p c) : Holds hash clients q := by
  have equal : q = p := funext same
  rwa [equal]

theorem entries :
    (clients.slots.map (·.entry)).Nodup ∧ ∀ c, c ∈ clients.slots.map (·.entry) ↔ p c = true := by
  refine ⟨holds.wf.distinct,?_⟩
  intro c
  constructor
  · intro member
    have mapped := holds.contents.sound c member
    change (if p c then some c else none) = some c at mapped
    by_cases selected : p c
    · exact selected
    · rw [if_neg selected] at mapped
      exact nomatch mapped
  · intro selected
    exact (holds.contents.complete c c (if_pos selected)).1

theorem numbers : Numbers (fun c => p c = true) clients.size := by
  obtain ⟨distinct,member⟩ := holds.entries
  refine ⟨⟨clients.slots.map fun slot => slot.entry,distinct⟩,fun c => Finset.mem_mk.trans (member c),?_⟩
  rw [holds.wf.size_eq]
  exact Multiset.card_map ..

variable {c : C}

theorem size_ne_zero (selected : p c = true) : clients.size ≠ 0 := by
  obtain ⟨members,member,card⟩ := holds.numbers
  rw [← card]
  exact Finset.card_ne_zero_of_mem ((member c).mpr selected)

theorem empty (vacant : clients.size = 0) (c : C) : p c = false := by
  cases selected : p c with
  | false => rfl
  | true => exact absurd vacant (holds.size_ne_zero selected)

variable [DecidableEq C] [Inhabited C]

theorem add (env : Env) (outside : p c = false)
    (grown : ∀ other, q other = (decide (other = c) || p other)) :
    (clients.add (clientHashtableType hash) env c).2 = true ∧ Holds hash (clients.add (clientHashtableType hash) env c).1 q := by
  obtain ⟨reply,next⟩ := Hashtable.addOrFind_simulates holds rfl env c
  have unmapped : (if p c then some c else none : Option C) = none := if_neg (by simp [outside])
  change _ = (if p c then some c else none) at reply
  rw [unmapped] at reply
  refine ⟨by rw [Hashtable.add,reply]; rfl,?_⟩
  have updated : (fun other => if q other then some other else none) =
      update (fun other => if p other then some other else none) c (some c) := by
    funext other
    by_cases same : other = c
    · subst same
      simp [grown]
    · simp [grown,same]
  unfold Holds
  rw [updated]
  simpa [clientHashtableType,Hashtable.add,outside] using next

theorem delete (env : Env) (inside : p c = true)
    (shrunk : ∀ other, q other = (decide (other ≠ c) && p other)) :
    (clients.delete (clientHashtableType hash) env c).2 = true ∧ Holds hash (clients.delete (clientHashtableType hash) env c).1 q := by
  obtain ⟨reply,next⟩ := Hashtable.removal_simulates holds (Hashtable.pop_spec holds.wf rfl env c)
  rw [if_pos inside] at reply
  refine ⟨by rw [Hashtable.delete,reply]; rfl,?_⟩
  have updated : (fun other => if q other then some other else none) =
      update (fun other => if p other then some other else none) c none := by
    funext other
    by_cases same : other = c
    · subst same
      simp [shrunk]
    · simp [shrunk,same]
  unfold Holds
  rw [updated]
  exact next

end Holds

end

section
variable {L : Layout} {C N : Type} [DecidableEq N] {hash : C → BitVec 64}

/-- The tables of one kind and the sets of the clients record the same subscriptions. -/
structure Recorded (hash : C → BitVec 64) (tables : AList fun _ : N => Hashtable L C) (subscriptions : C → List N) : Prop where
  absent : ∀ name, tables.lookup name = none → ∀ c, name ∉ subscriptions c
  present : ∀ name clients, tables.lookup name = some clients →
    Holds hash clients (fun c => decide (name ∈ subscriptions c)) ∧ clients.size ≠ 0
  distinct : ∀ c, (subscriptions c).Nodup

namespace Recorded
variable {tables : AList fun _ : N => Hashtable L C} {subscriptions : C → List N}

theorem initial : Recorded hash (∅ : AList fun _ : N => Hashtable L C) (fun _ => []) where
  absent name _ c := not_mem_nil
  present name clients found := by simp at found
  distinct c := nodup_nil

variable (recorded : Recorded hash tables subscriptions)
include recorded

theorem holds (name : N) :
    Holds hash ((tables.lookup name).getD .create) (fun c => decide (name ∈ subscriptions c)) := by
  cases found : tables.lookup name with
  | none => exact Holds.create.congr fun c => by simp [recorded.absent name found c]
  | some clients => exact (recorded.present name clients found).1

variable {c : C} {name : N}

theorem found (member : name ∈ subscriptions c) :
    ∃ clients, tables.lookup name = some clients := by
  cases found : tables.lookup name with
  | none => exact absurd member (recorded.absent name found c)
  | some clients => exact ⟨clients,rfl⟩

variable [DecidableEq C] {names : List N}

omit [DecidableEq N] recorded in
theorem mem_update_ne {subscriptions : C → List N}
    (same : name ∈ names ↔ name ∈ subscriptions c) (other : C) :
    name ∈ update subscriptions c names other ↔ name ∈ subscriptions other := by
  by_cases equal : other = c
  · subst equal
    rw [update_self,same]
  · rw [update_of_ne equal]

section
variable (nodup : names.Nodup) (elsewhere : ∀ other, other ≠ name → (other ∈ names ↔ other ∈ subscriptions c))
include nodup elsewhere

theorem changed {next : AList fun _ : N => Hashtable L C}
    (kept : ∀ other, other ≠ name → next.lookup other = tables.lookup other)
    (vacant : next.lookup name = none → ∀ client, name ∉ update subscriptions c names client)
    (held : ∀ clients, next.lookup name = some clients →
      Holds hash clients (fun client => decide (name ∈ update subscriptions c names client)) ∧ clients.size ≠ 0) :
    Recorded hash next (update subscriptions c names) where
  absent other missing client := by
    by_cases same : other = name
    · subst same
      exact vacant missing client
    · rw [mem_update_ne (elsewhere other same)]
      exact recorded.absent other (kept other same ▸ missing) client
  present other clients found := by
    by_cases same : other = name
    · subst same
      exact held clients found
    · obtain ⟨holds,filled⟩ := recorded.present other clients (kept other same ▸ found)
      exact ⟨holds.congr fun client => decide_eq_decide.mpr (mem_update_ne (elsewhere other same) client),filled⟩
  distinct client := by
    by_cases equal : client = c
    · subst equal
      rwa [update_self]
    · rw [update_of_ne equal]
      exact recorded.distinct client

theorem insert {clients : Hashtable L C}
    (holds : Holds hash clients (fun client => decide (name ∈ update subscriptions c names client)))
    (filled : clients.size ≠ 0) : Recorded hash (tables.insert name clients) (update subscriptions c names) := by
  apply recorded.changed nodup elsewhere fun other apart => lookup_insert_ne apart
  · intro missing
    rw [lookup_insert] at missing
    exact nomatch missing
  intro stored found
  rw [lookup_insert] at found
  obtain rfl := Option.some.inj found
  exact ⟨holds,filled⟩

end

variable [Inhabited C]

theorem subscribe (env : Env) (outside : name ∉ subscriptions c) :
    (((tables.lookup name).getD .create).add (clientHashtableType hash) env c).2 = true ∧
      Recorded hash (tables.insert name (((tables.lookup name).getD .create).add (clientHashtableType hash) env c).1)
        (update subscriptions c (name::subscriptions c)) := by
  have grown : ∀ other, decide (name ∈ update subscriptions c (name::subscriptions c) other) =
      (decide (other = c) || decide (name ∈ subscriptions other)) := by
    intro other
    by_cases equal : other = c
    · subst equal
      simp
    · simp [equal]
  obtain ⟨added,holds⟩ := (recorded.holds name).add env (decide_eq_false outside) grown
  have filled := holds.size_ne_zero (c := c) (by simp)
  exact ⟨added,recorded.insert (nodup_cons.mpr ⟨outside,recorded.distinct c⟩) (fun other apart => by simp [apart]) holds filled⟩

theorem unsubscribe (env : Env) {clients : Hashtable L C}
    (found : tables.lookup name = some clients) (inside : name ∈ subscriptions c) :
    (clients.delete (clientHashtableType hash) env c).2 = true ∧
      Recorded hash (if (clients.delete (clientHashtableType hash) env c).1.size = 0 then tables.erase name
          else tables.insert name (clients.delete (clientHashtableType hash) env c).1)
        (update subscriptions c ((subscriptions c).erase name)) := by
  have shrunk : ∀ other, decide (name ∈ update subscriptions c ((subscriptions c).erase name) other) =
      (decide (other ≠ c) && decide (name ∈ subscriptions other)) := by
    intro other
    by_cases equal : other = c
    · subst equal
      simp [(recorded.distinct other).mem_erase_iff]
    · simp [equal]
  have nodup := (recorded.distinct c).erase name
  have elsewhere : ∀ other, other ≠ name → (other ∈ (subscriptions c).erase name ↔ other ∈ subscriptions c) :=
    fun other apart => mem_erase_of_ne apart
  obtain ⟨deleted,holds⟩ := (recorded.present name clients found).1.delete env (decide_eq_true inside) shrunk
  refine ⟨deleted,?_⟩
  split
  · rename_i vacant
    apply recorded.changed nodup elsewhere fun other apart => lookup_erase_ne apart
    · intro _ client
      exact of_decide_eq_false (holds.empty vacant client)
    · intro stored held
      rw [lookup_erase] at held
      exact nomatch held
  · rename_i filled
    exact recorded.insert nodup elsewhere holds filled

end Recorded

end

end ValkeyWasm.Pubsub
