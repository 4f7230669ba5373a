import ValkeyWasm.Functions.Registry
import ValkeyWasm.Library.Dictionary

/-! Linking and unlinking one library keep the index of functions, the statistics and the memory in step with the
libraries. All three are determined by the libraries, so a registry whose libraries are put back is the same as before. -/

namespace ValkeyWasm.Functions
open List Option AList
open Util (Str foldCase)
open Library.Dictionary

section
variable {E : Type} [DecidableEq E]

def Engines.cost (engines : Engines E) (li : LibInfo E) : Int :=
  engines.libraryMallocSize li.name li.code + (li.infos.map fun fi => (engines.functionMallocSize fi : Int)).sum

def oneLibrary (engine : E) (li : LibInfo E) : Int := if li.engine = engine then 1 else 0

def someFunctions (engine : E) (li : LibInfo E) : Int := if li.engine = engine then li.infos.length else 0

/-- The registry as it should be: everything else follows from the libraries. -/
structure Good (engines : Engines E) (ctx : LibCtx E) : Prop where
  named : ∀ name li, ctx.libraries.lookup name = some li → li.name = name
  registered : ∀ name li, ctx.libraries.lookup name = some li → li.engine ∈ engines.registered
  indexed : ∀ key fi, ctx.functions.lookup key = some fi ↔
    fi.key = key ∧ ∃ name li, ctx.libraries.lookup name = some li ∧ fi ∈ li.infos
  memory : ctx.cacheMemory = total engines.cost ctx.libraries
  stats : ∀ engine, ctx.enginesStats.lookup engine = if engine ∈ engines.registered then
    some ⟨total (oneLibrary engine) ctx.libraries,total (someFunctions engine) ctx.libraries⟩ else none

def Separate (li : LibInfo E) : Prop := (li.infos.map FunctionInfo.key).Nodup

structure Fits (engines : Engines E) (ctx : LibCtx E) (li : LibInfo E) : Prop where
  name : ctx.libraries.lookup li.name = none
  engine : li.engine ∈ engines.registered
  separate : Separate li
  free : ∀ fi ∈ li.infos, ctx.functions.lookup fi.key = none

def Apart (a b : LibInfo E) : Prop := a.name ≠ b.name ∧ ∀ f ∈ a.infos, ∀ g ∈ b.infos, f.key ≠ g.key

structure Spare (engines : Engines E) (ctx : LibCtx E) (libraries : List (LibInfo E)) : Prop where
  fits : ∀ li ∈ libraries, Fits engines ctx li
  apart : libraries.Pairwise Apart

section
variable {engines : Engines E} {ctx ctx' : LibCtx E} {li : LibInfo E}

omit [DecidableEq E] in
theorem LibInfo.infos_nodup (li : LibInfo E) : li.infos.Nodup := by
  have names : (li.infos.map fun fi => fi.compiled.name) = li.functions.entries.map Sigma.fst := by
    unfold LibInfo.infos
    rw [List.map_map]
    apply map_congr_left
    intro entry member
    exact (li.named entry member).1
  apply List.Nodup.of_map fun fi => fi.compiled.name
  rw [names]
  exact li.functions.keys_nodup

variable {fi : FunctionInfo}

omit [DecidableEq E] in
theorem LibInfo.library_of_mem (member : fi ∈ li.infos) : fi.library = li.name := by
  obtain ⟨entry,inside,rfl⟩ := mem_map.mp member
  exact (li.named entry inside).2

variable {name : Str}

section
variable (good : Good engines ctx) (found : ctx.libraries.lookup name = some li)
include good found

theorem Good.lookup_of_mem (member : fi ∈ li.infos) : ctx.functions.lookup fi.key = some fi :=
  (good.indexed fi.key fi).mpr ⟨rfl,name,li,found,member⟩

theorem Good.eq_of_key {name' : Str} {li' : LibInfo E} (found' : ctx.libraries.lookup name' = some li') {f g : FunctionInfo}
    (inside : f ∈ li.infos) (inside' : g ∈ li'.infos) (same : f.key = g.key) : f = g ∧ name = name' := by
  have first := good.lookup_of_mem found inside
  rw [same,good.lookup_of_mem found' inside'] at first
  obtain rfl : g = f := Option.some.inj first
  refine ⟨rfl,?_⟩
  rw [← good.named name li found,← good.named name' li' found',← LibInfo.library_of_mem inside,
    ← LibInfo.library_of_mem inside']

theorem Good.separate : Separate li := by
  refine (nodup_map_iff_inj_on li.infos_nodup).mpr ?_
  intro f inside g inside' same
  exact (good.eq_of_key found found inside inside' same).1

end

theorem Good.free_of_fewer (good : Good engines ctx) (good' : Good engines ctx')
    (fewer : ∀ name li, ctx'.libraries.lookup name = some li → ctx.libraries.lookup name = some li) {key : Str}
    (free : ctx.functions.lookup key = none) : ctx'.functions.lookup key = none := by
  cases taken : ctx'.functions.lookup key with
  | none => rfl
  | some fi =>
    obtain ⟨same,name,li,found,member⟩ := (good'.indexed key fi).mp taken
    have there := good.lookup_of_mem (fewer name li found) member
    rw [same,free] at there
    cases there

omit [DecidableEq E] in
variable (engines) in
theorem unlinkFunctions_spec {infos : List FunctionInfo} (separate : (infos.map FunctionInfo.key).Nodup)
    (there : ∀ fi ∈ infos, ctx.functions.lookup fi.key ≠ none) :
    ∃ functions, unlinkFunctions engines infos ctx = some { ctx with
        functions := functions
        cacheMemory := ctx.cacheMemory - (infos.map fun fi => (engines.functionMallocSize fi : Int)).sum } ∧
      ∀ key, functions.lookup key = if key ∈ infos.map FunctionInfo.key then none else ctx.functions.lookup key := by
  induction infos generalizing ctx with
  | nil => exact ⟨ctx.functions,by simp [unlinkFunctions],fun key => by simp⟩
  | cons fi infos ih =>
    obtain ⟨absent,separate⟩ := nodup_cons.mp separate
    have present : ¬(ctx.functions.lookup fi.key).isNone = true := by
      simpa using there fi mem_cons_self
    have remain : ∀ other ∈ infos, (ctx.functions.erase fi.key).lookup other.key ≠ none := by
      intro other member
      have differ : other.key ≠ fi.key := fun same => absent (same ▸ mem_map_of_mem member)
      rw [lookup_erase_ne differ]
      exact there other (mem_cons_of_mem _ member)
    obtain ⟨functions,loop,lookups⟩ := @ih { ctx with
      functions := ctx.functions.erase fi.key
      cacheMemory := ctx.cacheMemory - engines.functionMallocSize fi } separate remain
    refine ⟨functions,?_,?_⟩
    · rw [unlinkFunctions,if_neg present,loop]
      simp [sub_sub]
    intro key
    rw [lookups key]
    by_cases same : key = fi.key
    · subst same
      rw [if_neg absent,if_pos (mem_map_of_mem mem_cons_self)]
      exact lookup_erase _ _
    · simp [same]

omit [DecidableEq E] in
variable (engines) in
theorem linkFunctions_spec {infos : List FunctionInfo} (separate : (infos.map FunctionInfo.key).Nodup)
    (free : ∀ fi ∈ infos, ctx.functions.lookup fi.key = none) :
    ∃ functions, linkFunctions engines infos ctx = { ctx with
        functions := functions
        cacheMemory := ctx.cacheMemory + (infos.map fun fi => (engines.functionMallocSize fi : Int)).sum } ∧
      ∀ key fi, functions.lookup key = some fi ↔ fi ∈ infos ∧ fi.key = key ∨ ctx.functions.lookup key = some fi := by
  induction infos generalizing ctx with
  | nil => exact ⟨ctx.functions,by simp [linkFunctions],fun key fi => by simp⟩
  | cons fi infos ih =>
    obtain ⟨absent,separate⟩ := nodup_cons.mp separate
    have missing := free fi mem_cons_self
    have remain : ∀ other ∈ infos, (ctx.functions.insert fi.key fi).lookup other.key = none := by
      intro other member
      have differ : other.key ≠ fi.key := fun same => absent (same ▸ mem_map_of_mem member)
      rw [lookup_insert_ne differ]
      exact free other (mem_cons_of_mem _ member)
    obtain ⟨functions,loop,lookups⟩ := @ih { ctx with
      functions := ctx.functions.insert fi.key fi
      cacheMemory := ctx.cacheMemory + engines.functionMallocSize fi } separate remain
    refine ⟨functions,?_,?_⟩
    · have step : (if (ctx.functions.lookup fi.key).isSome then ctx.functions else ctx.functions.insert fi.key fi) =
          ctx.functions.insert fi.key fi := by simp [missing]
      rw [linkFunctions,step,loop]
      simp [add_assoc]
    intro key other
    rw [lookups key other,lookup_insert_new missing,mem_cons]
    constructor
    · rintro (⟨inside,equal⟩ | ⟨rfl,rfl⟩ | found)
      · exact .inl ⟨.inr inside,equal⟩
      · exact .inl ⟨.inl rfl,rfl⟩
      · exact .inr found
    rintro (⟨rfl | inside,equal⟩ | found)
    · exact .inr (.inl ⟨equal.symm,rfl⟩)
    · exact .inl ⟨inside,equal⟩
    · exact .inr (.inr found)

theorem libraryUnlink_good (good : Good engines ctx) (found : ctx.libraries.lookup li.name = some li) :
    ∃ ctx', libraryUnlink engines ctx li = some ctx' ∧ Good engines ctx' ∧ ctx'.libraries = ctx.libraries.erase li.name := by
  have there : ∀ fi ∈ li.infos, ctx.functions.lookup fi.key ≠ none := by
    intro fi member
    rw [good.lookup_of_mem found member]
    exact nofun
  obtain ⟨functions,loop,lookups⟩ := unlinkFunctions_spec engines (good.separate found) there
  have stats := good.stats li.engine
  rw [if_pos (good.registered _ _ found)] at stats
  unfold libraryUnlink
  rw [loop,bind_some]
  simp only [found,stats]
  refine ⟨_,rfl,?_,rfl⟩
  constructor
  · exact fun name other lookup => good.named name other (lookup_erase_some.mp lookup).2
  · exact fun name other lookup => good.registered name other (lookup_erase_some.mp lookup).2
  · intro key fi
    rw [lookups key]
    constructor
    · intro taken
      split at taken
      · cases taken
      rename_i outside
      obtain ⟨same,name,other,lookup,member⟩ := (good.indexed key fi).mp taken
      refine ⟨same,name,other,?_,member⟩
      have differ : name ≠ li.name := by
        rintro rfl
        rw [found] at lookup
        cases lookup
        exact outside (same ▸ mem_map_of_mem member)
      exact lookup_erase_some.mpr ⟨differ,lookup⟩
    · rintro ⟨same,name,other,lookup,member⟩
      obtain ⟨differ,lookup⟩ := lookup_erase_some.mp lookup
      rw [if_neg]
      · exact (good.indexed key fi).mpr ⟨same,name,other,lookup,member⟩
      · intro inside
        obtain ⟨g,inside,equal⟩ := mem_map.mp inside
        exact differ (good.eq_of_key lookup found member inside (same.trans equal.symm)).2
  · change ctx.cacheMemory - _ - _ = total engines.cost (ctx.libraries.erase li.name)
    rw [good.memory,total_erase engines.cost found,Engines.cost]
    omega
  · intro engine
    by_cases same : engine = li.engine
    · subst same
      rw [lookup_insert,if_pos (good.registered _ _ found),total_erase (oneLibrary li.engine) found,
        total_erase (someFunctions li.engine) found]
      simp [oneLibrary,someFunctions]
    · rw [lookup_insert_ne same,good.stats engine,total_erase (oneLibrary engine) found,
        total_erase (someFunctions engine) found]
      simp [oneLibrary,someFunctions,Ne.symm same]

theorem libraryLink_good (good : Good engines ctx) (fits : Fits engines ctx li) :
    ∃ ctx', libraryLink engines ctx li = some ctx' ∧ Good engines ctx' ∧ ctx'.libraries = ctx.libraries.insert li.name li := by
  obtain ⟨functions,loop,lookups⟩ := linkFunctions_spec engines fits.separate fits.free
  have stats := good.stats li.engine
  rw [if_pos fits.engine] at stats
  unfold libraryLink
  simp only [loop,fits.name,isSome_none,Bool.false_eq_true,if_false,stats]
  refine ⟨_,rfl,?_,rfl⟩
  constructor
  · intro name other lookup
    rcases (lookup_insert_new fits.name).mp lookup with ⟨rfl,rfl⟩ | old
    · rfl
    · exact good.named name other old
  · intro name other lookup
    rcases (lookup_insert_new fits.name).mp lookup with ⟨-,rfl⟩ | old
    · exact fits.engine
    · exact good.registered name other old
  · intro key fi
    rw [lookups key fi,good.indexed key fi]
    constructor
    · rintro (⟨member,same⟩ | ⟨same,name,other,lookup,member⟩)
      · exact ⟨same,li.name,li,lookup_insert _,member⟩
      · exact ⟨same,name,other,(lookup_insert_new fits.name).mpr (.inr lookup),member⟩
    rintro ⟨same,name,other,lookup,member⟩
    rcases (lookup_insert_new fits.name).mp lookup with ⟨-,rfl⟩ | old
    · exact .inl ⟨member,same⟩
    · exact .inr ⟨same,name,other,old,member⟩
  · change ctx.cacheMemory + _ + _ = total engines.cost (ctx.libraries.insert li.name li)
    rw [good.memory,total_insert engines.cost fits.name,Engines.cost]
    omega
  · intro engine
    by_cases same : engine = li.engine
    · subst same
      rw [lookup_insert,if_pos fits.engine,total_insert (oneLibrary li.engine) fits.name,
        total_insert (someFunctions li.engine) fits.name]
      simp [oneLibrary,someFunctions,add_comm]
    · rw [lookup_insert_ne same,good.stats engine,total_insert (oneLibrary engine) fits.name,
        total_insert (someFunctions engine) fits.name]
      simp [oneLibrary,someFunctions,Ne.symm same]

theorem unlink_spare {old : List (LibInfo E)} (good : Good engines ctx) (good' : Good engines ctx')
    (found : ctx.libraries.lookup li.name = some li) (erased : ctx'.libraries = ctx.libraries.erase li.name)
    (spare : Spare engines ctx old) : Spare engines ctx' (old ++ [li]) := by
  have fewer : ∀ name other, ctx'.libraries.lookup name = some other → ctx.libraries.lookup name = some other := by
    intro name other lookup
    rw [erased] at lookup
    exact (lookup_erase_some.mp lookup).2
  have gone : ctx'.libraries.lookup li.name = none := by
    rw [erased]
    exact lookup_erase _ _
  constructor
  · intro other member
    rcases mem_append.mp member with before | last
    · have fits := spare.fits other before
      have differ : other.name ≠ li.name := by
        intro same
        have absent := fits.name
        rw [same,found] at absent
        cases absent
      refine ⟨?_,fits.engine,fits.separate,?_⟩
      · rw [erased,lookup_erase_ne differ]
        exact fits.name
      · exact fun fi inside => good.free_of_fewer good' fewer (fits.free fi inside)
    · rw [mem_singleton.mp last]
      refine ⟨gone,good.registered _ _ found,good.separate found,?_⟩
      intro fi inside
      cases taken : ctx'.functions.lookup fi.key with
      | none => rfl
      | some g =>
        obtain ⟨same,name,other,lookup,member⟩ := (good'.indexed fi.key g).mp taken
        have equal := (good.eq_of_key (fewer name other lookup) found member inside same).2
        rw [equal,gone] at lookup
        cases lookup
  · rw [pairwise_append]
    refine ⟨spare.apart,pairwise_singleton _ _,?_⟩
    intro other before last member
    rw [mem_singleton.mp member]
    have fits := spare.fits other before
    constructor
    · intro same
      have absent := fits.name
      rw [same,found] at absent
      cases absent
    intro f inside g inside' same
    have free := fits.free f inside
    rw [same,good.lookup_of_mem found inside'] at free
    cases free

theorem link_spare {libraries : List (LibInfo E)} (good' : Good engines ctx')
    (inserted : ctx'.libraries = ctx.libraries.insert li.name li) (good : Good engines ctx)
    (spare : Spare engines ctx (li :: libraries)) : Spare engines ctx' libraries := by
  obtain ⟨apart,rest⟩ := pairwise_cons.mp spare.apart
  refine ⟨?_,rest⟩
  intro other member
  have fits := spare.fits other (mem_cons_of_mem _ member)
  have differ := apart other member
  refine ⟨?_,fits.engine,fits.separate,?_⟩
  · rw [inserted,lookup_insert_ne (Ne.symm differ.1)]
    exact fits.name
  intro fi inside
  cases taken : ctx'.functions.lookup fi.key with
  | none => rfl
  | some g =>
    obtain ⟨same,name,owner,lookup,belongs⟩ := (good'.indexed fi.key g).mp taken
    rw [inserted] at lookup
    rcases lookup_insert_some.mp lookup with ⟨-,rfl⟩ | ⟨-,old⟩
    · exact absurd same (differ.2 g belongs fi inside)
    · have there := good.lookup_of_mem old belongs
      rw [same,fits.free fi inside] at there
      cases there

theorem linkAll_good {libraries : List (LibInfo E)} (good : Good engines ctx) (spare : Spare engines ctx libraries) :
    ∃ ctx', linkAll engines ctx libraries = some ctx' ∧ Good engines ctx' ∧
      ∀ name li, ctx'.libraries.lookup name = some li ↔
        ctx.libraries.lookup name = some li ∨ li ∈ libraries ∧ li.name = name := by
  induction libraries generalizing ctx with
  | nil => exact ⟨ctx,rfl,good,fun name li => by simp⟩
  | cons first rest ih =>
    have fits := spare.fits first mem_cons_self
    obtain ⟨middle,step,good',inserted⟩ := libraryLink_good good fits
    obtain ⟨last,loop,good'',lookups⟩ := ih good' (link_spare good' inserted good spare)
    refine ⟨last,?_,good'',?_⟩
    · rw [linkAll,foldlM_cons,step]
      exact loop
    intro name li
    rw [lookups name li,inserted,lookup_insert_new fits.name,mem_cons]
    constructor
    · rintro ((⟨rfl,rfl⟩ | old) | ⟨inside,equal⟩)
      · exact .inr ⟨.inl rfl,rfl⟩
      · exact .inl old
      · exact .inr ⟨.inr inside,equal⟩
    rintro (old | ⟨rfl | inside,equal⟩)
    · exact .inl (.inr old)
    · exact .inl (.inl ⟨equal.symm,rfl⟩)
    · exact .inr ⟨inside,equal⟩

end

end

end ValkeyWasm.Functions
