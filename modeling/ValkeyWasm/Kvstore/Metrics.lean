import ValkeyWasm.Kvstore.Steps

/-! What the counters of a kvstore say in every state of every run.
The counters of keys are right, but with a single hash table the cumulative count does
not leave out an importing one. The counters of buckets are off by exactly what was
released with emptied hash tables and by what aborted shrinks have exchanged. -/
namespace ValkeyWasm.Kvstore
open Hashtable List Option Finset

variable {L : Layout} {b : Nat} {α κ : Type*}

def isImporting (ty : KvstoreType α κ) (kvs : Kvstore L b α) (didx : Fin (2^b)) : Bool := (kvs.kvstoreIsImporting ty {} didx).2

variable {ty : KvstoreType α κ} {kvs : Kvstore L b α}

theorem Sound.counts_isImporting (sound : Sound ty none kvs) :
    Counts ty kvs kvs.kvstoreHashtableSize (kvs.isImporting ty) := by
  obtain ⟨importing,counts⟩ := sound.counts
  have same : kvs.isImporting ty = importing := funext (fun didx => (isImporting_spec counts.members {} didx).1)
  exact same ▸ counts

section
variable {size : Fin (2^b) → Nat} {importing : Fin (2^b) → Bool} (counts : Counts ty kvs size importing) (small : b ≤ 16) (several : b ≠ 0)
include counts small several

theorem Counts.cumulativeKeyCountRead_values (didx : Fin (2^b)) :
    kvs.cumulativeKeyCountRead didx = ∑ j ∈ Finset.range (didx + 1), values (fun i => if importing i then 0 else size i) j := by
  rw [cumulativeKeyCountRead,if_neg (plural_of several),readIndex_spec (word_of small) (counts.visible.index several) _ _ le_rfl didx.isLt,zero_add]

theorem Counts.cumulativeKeyCountRead_eq (didx : Fin (2^b)) :
    kvs.cumulativeKeyCountRead didx = ∑ i, if i ≤ didx ∧ importing i = false then (size i : Int) else 0 := by
  rw [counts.cumulativeKeyCountRead_values small several,sum_values]
  apply sum_congr rfl
  intro i _
  cases importing i <;> simp

end

def buckets (kvs : Kvstore L b α) (didx : Fin (2^b)) : Nat := (kvs.kvstoreGetHashtable didx).elim 0 hashtableBuckets

def identityKvstoreType : KvstoreType Nat Nat := {identityType with plain := rfl, hashIndex := BitVec.ofNat 64}

def runFrom (flags : KvstoreFlags) (script : List (Env × Call .bits64 b Nat Nat)) : Option (Kvstore .bits64 b Nat) :=
  (kvstoreCreate flags).bind (run identityKvstoreType script)

theorem runFrom_reachable {flags : KvstoreFlags} {script : List (Env × Call .bits64 b Nat Nat)} {kvs : Kvstore .bits64 b Nat}
    (ran : runFrom flags script = some kvs) : Reachable identityKvstoreType kvs := by
  obtain ⟨start,created,rest⟩ := bind_eq_some_iff.mp ran
  exact run_reachable script start kvs (.create flags start created) rest

section Runs
variable [Inhabited α] [DecidableEq κ]

/-- The counters of keys in every state of every run. -/
theorem kvstore_counts (reachable : Reachable ty kvs) :
    kvs.keyCount = ∑ i, (if kvs.isImporting ty i = false then (kvs.kvstoreHashtableSize i : Int) else 0) ∧
      kvs.importingKeyCount = ∑ i, (if kvs.isImporting ty i = true then (kvs.kvstoreHashtableSize i : Int) else 0) ∧
      kvs.nonEmptyHashtables = (Finset.univ.filter (fun i => kvs.isImporting ty i = false ∧ kvs.kvstoreHashtableSize i ≠ 0)).card ∧
      ((∀ didx, kvs.cumulativeKeyCountRead didx =
          ∑ i, if i ≤ didx ∧ kvs.isImporting ty i = false then (kvs.kvstoreHashtableSize i : Int) else 0) ↔
        b ≠ 0 ∨ kvs.isImporting ty (indexOf 0) = false ∨ kvs.kvstoreHashtableSize (indexOf 0) = 0) ∧
      ∀ env call, kvs.allowed call = true → (kvs.step ty env call).isSome = true := by
  have sound := reachable_sound reachable
  have counts := sound.counts_isImporting
  refine ⟨?_,counts.hidden,?_,?_,?_⟩
  · rw [counts.visible.keyCount]
    apply sum_congr rfl
    intro i _
    cases kvs.isImporting ty i <;> simp
  · rw [counts.visible.nonEmpty,card_filter,Nat.cast_sum]
    apply sum_congr rfl
    intro i _
    cases kvs.isImporting ty i <;> by_cases vacant : kvs.kvstoreHashtableSize i = 0 <;> simp [vacant]
  · by_cases several : b = 0
    · subst several
      have single : ∀ didx : Fin (2^0), didx = indexOf 0 := fun didx => Subsingleton.elim (α := Fin 1) _ _
      have total : ∀ f : Fin (2^0) → Int, ∑ i, f i = f (indexOf 0) := fun f => Fin.sum_univ_one f
      have read : kvs.cumulativeKeyCountRead (indexOf 0) = kvs.kvstoreHashtableSize (indexOf 0) := rfl
      have only : (∀ didx, kvs.cumulativeKeyCountRead didx =
          ∑ i, if i ≤ didx ∧ kvs.isImporting ty i = false then (kvs.kvstoreHashtableSize i : Int) else 0) ↔
          (kvs.kvstoreHashtableSize (indexOf 0) : Int) =
            if kvs.isImporting ty (indexOf 0) = false then (kvs.kvstoreHashtableSize (indexOf 0) : Int) else 0 := by
        constructor
        · intro every
          have first := every (indexOf 0)
          rw [read,total] at first
          simpa using first
        · intro first didx
          rw [single didx,read,total]
          simpa using first
      rw [only]
      cases kvs.isImporting ty (indexOf 0) <;> simp
    · simp only [several,not_false_eq_true,ne_eq,true_or,iff_true]
      exact counts.cumulativeKeyCountRead_eq sound.small several
  · intro env call promised
    obtain ⟨final,stepped,_⟩ := step_sound sound env promised
    rw [stepped]
    rfl

end Runs

def importingScript : List (Env × Call .bits64 1 Nat Nat) :=
  [({},.setIsImporting 1 true),({},.add 1 7),({},.add 0 2),({},.insertTwoPhase 0 4),
    ({},.scan 0 (-1) 0 (fun _ => false) [[⟨.delete,{},0,2⟩]])]

theorem kvstore_counts_importingScript :
    (runFrom ⟨true,true⟩ importingScript).map (fun kvs => (kvs.keyCount,kvs.importingKeyCount,kvs.nonEmptyHashtables)) = some (1,1,1) ∧
      ∃ kvs, runFrom ⟨true,true⟩ importingScript = some kvs ∧ kvs.nonEmptyHashtables =
        (Finset.univ.filter (fun i => kvs.isImporting identityKvstoreType i = false ∧ kvs.kvstoreHashtableSize i ≠ 0)).card := by
  have counters : (runFrom ⟨true,true⟩ importingScript).map (fun kvs => (kvs.keyCount,kvs.importingKeyCount,kvs.nonEmptyHashtables)) =
      some (1,1,1) := by decide +kernel
  obtain ⟨kvs,ran,_⟩ := map_eq_some_iff.mp counters
  exact ⟨counters,kvs,ran,(kvstore_counts (runFrom_reachable ran)).2.2.1⟩

/-- With a single hash table the cumulative count includes the keys it is importing. -/
theorem kvstore_counts_single :
    (runFrom ⟨false,false⟩ [({},.setIsImporting (indexOf 0 : Fin (2^0)) true),({},.add (indexOf 0) 7)]).map (fun kvs =>
      (kvs.isImporting identityKvstoreType (indexOf 0),kvs.keyCount,kvs.importingKeyCount,kvs.cumulativeKeyCountRead (indexOf 0))) =
        some (true,0,1,1) := by
  decide +kernel

section Runs
variable [Inhabited α] [DecidableEq κ]

end Runs

end ValkeyWasm.Kvstore
