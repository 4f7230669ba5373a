import Mathlib.Data.List.Basic

/-! Loops over a list whose steps may fail, with an invariant over what was handled so far. -/
namespace ValkeyWasm.Library.Loops
open List

variable {σ α : Type} {step : σ → α → Option σ} {l : List α} {s : σ}

theorem foldlM_invariant (inv : List α → σ → Prop)
    (keeps : ∀ done a rest s, l = done ++ a :: rest → inv done s → ∃ s', step s a = some s' ∧ inv (done ++ [a]) s')
    (start : inv [] s) : ∃ s', l.foldlM step s = some s' ∧ inv l s' := by
  suffices onward : ∀ rest done s, l = done ++ rest → inv done s → ∃ s', rest.foldlM step s = some s' ∧ inv l s' from
    onward l [] s rfl start
  intro rest
  induction rest with
  | nil =>
    intro done s whole holds
    rw [append_nil] at whole
    exact ⟨s,rfl,whole ▸ holds⟩
  | cons a rest ih =>
    intro done s whole holds
    obtain ⟨s1,run,next⟩ := keeps done a rest s whole holds
    obtain ⟨s2,run',last⟩ := ih (done ++ [a]) s1 (by rw [whole,append_assoc,singleton_append]) next
    refine ⟨s2,?_,last⟩
    rw [foldlM_cons,run]
    exact run'

theorem foldlM_keeps (inv : σ → Prop) (keeps : ∀ s, ∀ a ∈ l, inv s → ∃ s', step s a = some s' ∧ inv s') (start : inv s) :
    ∃ s', l.foldlM step s = some s' ∧ inv s' :=
  foldlM_invariant (fun _ => inv) (fun _ a _ s whole => keeps s a (by simp [whole])) start

end ValkeyWasm.Library.Loops
