import Mathlib.Data.Multiset.MapFold

/-! Collections of values with distinct keys as partial maps.
A container is described by the multiset of what it holds, a map by the value of each
key. The lemmas follow the map through additions, removals and replacements. -/
namespace ValkeyWasm.Library.KeyedContents
open Function Multiset

variable {β κ : Type*}

/-- The held values are exactly the values of the map, each under its own key. -/
structure Represents (key : β → κ) (held : Multiset β) (map : κ → Option β) : Prop where
  sound : ∀ v ∈ held, map (key v) = some v
  complete : ∀ k v, map k = some v → v ∈ held ∧ key v = k

theorem represents_empty (key : β → κ) : Represents key 0 (fun _ => none) :=
  ⟨by simp,by simp⟩

variable {key : β → κ} {held : Multiset β} {map : κ → Option β}

theorem Represents.lookup_some (represents : Represents key held map) (v : β) (member : v ∈ held) (k : κ) (same : key v = k) :
    map k = some v := same ▸ represents.sound v member

theorem Represents.lookup_none (represents : Represents key held map) (k : κ) (absent : ∀ v ∈ held, key v ≠ k) :
    map k = none := by
  cases found : map k with
  | none => rfl
  | some v =>
    obtain ⟨member,same⟩ := represents.complete k v found
    exact absurd same (absent v member)

variable [DecidableEq κ]

theorem Represents.insert (represents : Represents key held map) (v : β) (absent : ∀ w ∈ held, key w ≠ key v) :
    Represents key (v ::ₘ held) (update map (key v) (some v)) := by
  constructor
  · intro w member
    rcases mem_cons.mp member with rfl | old
    · exact update_self ..
    · rw [update_of_ne (absent w old)]
      exact represents.sound w old
  · intro k w found
    by_cases same : k = key v
    · subst same
      obtain rfl : v = w := by simpa using found
      exact ⟨mem_cons_self v held,rfl⟩
    · rw [update_of_ne same] at found
      obtain ⟨old,equal⟩ := represents.complete k w found
      exact ⟨mem_cons_of_mem old,equal⟩

theorem Represents.erase (represents : Represents key held map) (v : β) (rest : Multiset β) (split : held = v ::ₘ rest)
    (distinct : (held.map key).Nodup) : Represents key rest (update map (key v) none) := by
  subst split
  rw [map_cons,nodup_cons] at distinct
  constructor
  · intro w member
    have apart : key w ≠ key v := fun same => distinct.1 (same ▸ mem_map_of_mem key member)
    rw [update_of_ne apart]
    exact represents.sound w (mem_cons_of_mem member)
  intro k w found
  have apart : k ≠ key v := by
    rintro rfl
    simp at found
  rw [update_of_ne apart] at found
  obtain ⟨member,same⟩ := represents.complete k w found
  rcases mem_cons.mp member with rfl | inside
  · exact absurd same.symm apart
  · exact ⟨inside,same⟩

theorem Represents.replace (represents : Represents key held map) (old new : β) (rest : Multiset β) (split : held = old ::ₘ rest)
    (distinct : (held.map key).Nodup) (same : key new = key old) :
    Represents key (new ::ₘ rest) (update map (key new) (some new)) := by
  have erased := represents.erase old rest split distinct
  have absent : ∀ w ∈ rest, key w ≠ key new := by
    intro w member equal
    rw [split,map_cons,nodup_cons] at distinct
    exact distinct.1 (same ▸ equal ▸ mem_map_of_mem key member)
  have inserted := erased.insert new absent
  rwa [same,update_idem,← same] at inserted

end ValkeyWasm.Library.KeyedContents
