import ValkeyWasm.Functions.Index

/-! The FUNCTION commands and whole sequences of them. The registry stays consistent as long as no library has two
functions whose names differ in case only: the library keeps both, the index of all functions only one of them. -/

namespace ValkeyWasm.Functions
open List Option AList
open Util (Str foldCase)
open Library.Dictionary

section
variable {E : Type} [DecidableEq E]

def LibraryCode.casesDistinct (code : LibraryCode E) : Bool :=
  match code.compiled with
  | .error _ => true
  | .ok functions => functions.all fun f => functions.all fun g => foldCase f.name ≠ foldCase g.name || f.name = g.name

def Command.casesDistinct : Command E → Bool
  | .load code _ => code.casesDistinct
  | .restore (some entries) _ => entries.all fun entry => entry.all LibraryCode.casesDistinct
  | _ => true

variable {engines : Engines E} {ctx ctx' : LibCtx E} {li : LibInfo E}

/-- The same registry: the same answers to every lookup, the same memory and statistics. -/
structure SameRegistry (ctx ctx' : LibCtx E) : Prop where
  libraries : ∀ name, ctx'.libraries.lookup name = ctx.libraries.lookup name
  functions : ∀ key, ctx'.functions.lookup key = ctx.functions.lookup key
  memory : ctx'.cacheMemory = ctx.cacheMemory
  stats : ∀ engine, ctx'.enginesStats.lookup engine = ctx.enginesStats.lookup engine

theorem sameRegistry_of_libraries (good : Good engines ctx) (good' : Good engines ctx')
    (same : ∀ name li, ctx'.libraries.lookup name = some li ↔ ctx.libraries.lookup name = some li) :
    SameRegistry ctx ctx' := by
  have libraries : ∀ name, ctx'.libraries.lookup name = ctx.libraries.lookup name := by
    intro name
    apply Option.ext
    exact same name
  refine ⟨libraries,?_,?_,?_⟩
  · intro key
    apply Option.ext
    intro fi
    rw [good.indexed key fi,good'.indexed key fi]
    simp only [libraries]
  · rw [good.memory,good'.memory]
    exact total_congr _ libraries
  · intro engine
    rw [good.stats engine,good'.stats engine,total_congr (oneLibrary engine) libraries,
      total_congr (someFunctions engine) libraries]

theorem create_stats (engines : List E) (stats : AList fun _ : E => EngineStats) (engine : E) :
    (engines.foldl (fun stats engine => if (stats.lookup engine).isSome then stats else stats.insert engine ⟨0,0⟩)
      stats).lookup engine = if (stats.lookup engine).isSome then stats.lookup engine
        else if engine ∈ engines then some ⟨0,0⟩ else none := by
  induction engines generalizing stats with
  | nil =>
    cases found : stats.lookup engine with
    | none => simp [found]
    | some value => simp [found]
  | cons first rest ih =>
    rw [foldl_cons,ih]
    by_cases same : engine = first
    · subst same
      cases found : stats.lookup engine with
      | none => simp
      | some value => simp [found]
    · cases present : (stats.lookup first).isSome with
      | true => simp [same]
      | false => simp [same]

theorem good_create (engines : Engines E) : Good engines (functionsLibCtxCreate engines) where
  named name li found := by simp [functionsLibCtxCreate] at found
  registered name li found := by simp [functionsLibCtxCreate] at found
  indexed key fi := by simp [functionsLibCtxCreate]
  memory := rfl
  stats engine := by
    unfold functionsLibCtxCreate
    rw [create_stats]
    simp [total_empty]

variable {engine : E}

theorem addEngineStats_good (good : Good engines ctx) (registered : engine ∈ engines.registered) :
    functionsAddEngineStats ctx engine = ctx := by
  have stats := good.stats engine
  rw [if_pos registered] at stats
  simp [functionsAddEngineStats,stats]

variable {code : LibraryCode E} {name : Str}

theorem readLibrary_registered
    (read : readLibrary engines code = .ok (name,engine)) : engine ∈ engines.registered := by
  unfold readLibrary at read
  split at read
  · cases read
  split at read
  · cases read
  split at read
  · rename_i registered
    cases read
    exact registered
  · cases read

section
omit [DecidableEq E]

theorem createFunctions_spec {functions : List CompiledFunction} {li built : LibInfo E}
    (created : functions.foldlM (fun li function => functionLibCreateFunction function li) li = .ok built) :
    built.name = li.name ∧ built.engine = li.engine ∧
      ∀ fi ∈ built.infos, fi ∈ li.infos ∨ fi.compiled ∈ functions := by
  induction functions generalizing li with
  | nil =>
    cases created
    exact ⟨rfl,rfl,fun fi member => .inl member⟩
  | cons function functions ih =>
    rw [foldlM_cons] at created
    cases step : functionLibCreateFunction function li with
    | error error =>
      rw [step] at created
      cases created
    | ok next =>
      rw [step] at created
      obtain ⟨name,engine,infos⟩ := ih created
      unfold functionLibCreateFunction at step
      split at step
      · cases step
      split at step
      · cases step
      cases step
      refine ⟨name,engine,?_⟩
      intro fi member
      rcases infos fi member with earlier | later
      · obtain ⟨entry,inside,rfl⟩ := mem_map.mp earlier
        rw [entries_insert,mem_cons] at inside
        rcases inside with rfl | old
        · exact .inr mem_cons_self
        · exact .inl (mem_map_of_mem ((kerase_sublist _ _).subset old))
      · exact .inr (mem_cons_of_mem _ later)

theorem buildLibrary_spec (built : buildLibrary name engine code = .ok li)
    (cases_distinct : code.casesDistinct = true) : li.name = name ∧ li.engine = engine ∧ Separate li := by
  unfold buildLibrary at built
  split at built
  · cases built
  rename_i functions compiled
  cases created : functions.foldlM (fun li function => functionLibCreateFunction function li)
      (engineLibraryCreate name engine code.code) with
  | error error =>
    rw [created] at built
    cases built
  | ok made =>
    rw [created] at built
    change (if made.infos.isEmpty then Except.error Error.noFunctions else .ok made) = .ok li at built
    split at built
    · cases built
    cases built
    obtain ⟨named,engined,infos⟩ := createFunctions_spec created
    refine ⟨named,engined,(nodup_map_iff_inj_on li.infos_nodup).mpr ?_⟩
    have from_engine : ∀ fi ∈ li.infos, fi.compiled ∈ functions := by
      intro fi member
      rcases infos fi member with impossible | inside
      · exact absurd impossible not_mem_nil
      · exact inside
    intro f inside g inside' same
    simp only [LibraryCode.casesDistinct,compiled,List.all_eq_true] at cases_distinct
    have names := cases_distinct f.compiled (from_engine f inside) g.compiled (from_engine g inside')
    have equal : f.compiled.name = g.compiled.name := by
      simpa [show foldCase f.compiled.name = foldCase g.compiled.name from same] using names
    obtain ⟨first,member,rfl⟩ := mem_map.mp inside
    obtain ⟨second,member',rfl⟩ := mem_map.mp inside'
    rw [(li.named first member).1,(li.named second member').1] at equal
    exact congrArg Sigma.snd (List.NodupKeys.eq_of_fst_eq li.functions.nodupKeys member member' equal)

theorem free_of_collision {infos : List FunctionInfo} (none_found : collision ctx infos = none) :
    ∀ fi ∈ infos, ctx.functions.lookup fi.key = none := by
  intro fi member
  have absent := find?_eq_none.mp (map_eq_none_iff.mp none_found) fi member
  simpa using absent

end

structure Left (engines : Engines E) (ctx ctx' : LibCtx E) (error : Option Error) : Prop where
  good : Good engines ctx'
  failed : error.isSome → ∀ name li, ctx'.libraries.lookup name = some li ↔ ctx.libraries.lookup name = some li

theorem relink_left {error : Error} (good : Good engines ctx) (good' : Good engines ctx')
    (found : ctx.libraries.lookup li.name = some li) (erased : ctx'.libraries = ctx.libraries.erase li.name) :
    ∃ last, libraryLink engines ctx' li = some last ∧ Left engines ctx last (some error) := by
  have spare : Spare engines ctx' ([] ++ [li]) :=
    unlink_spare good good' found erased ⟨nofun,List.Pairwise.nil⟩
  obtain ⟨last,linked,good'',inserted⟩ := libraryLink_good good' (spare.fits li (by simp))
  refine ⟨last,linked,good'',fun _ name other => ?_⟩
  rw [inserted,erased]
  by_cases same : name = li.name
  · subst same
    rw [lookup_insert,found]
  · rw [lookup_insert_ne same,lookup_erase_ne same]

theorem createLibrary_left (good : Good engines ctx)
    (registered : engine ∈ engines.registered) (cases_distinct : code.casesDistinct = true) (replace : Bool) :
    ∃ last error, createLibrary engines name engine code replace ctx = some (last,error) ∧ Left engines ctx last error := by
  unfold createLibrary
  cases found : ctx.libraries.lookup name with
  | none =>
    cases built : buildLibrary name engine code with
    | error error => exact ⟨ctx,some error,rfl,good,fun _ _ _ => Iff.rfl⟩
    | ok li =>
      dsimp only
      cases clash : collision ctx li.infos with
      | some function => exact ⟨ctx,_,rfl,good,fun _ _ _ => Iff.rfl⟩
      | none =>
        obtain ⟨named,engined,separate⟩ := buildLibrary_spec built cases_distinct
        have fits : Fits engines ctx li := ⟨named ▸ found,engined ▸ registered,separate,free_of_collision clash⟩
        obtain ⟨last,linked,good',_⟩ := libraryLink_good good fits
        rw [linked]
        exact ⟨last,none,rfl,good',nofun⟩
  | some oldLi =>
    dsimp only
    split
    · exact ⟨ctx,_,rfl,good,fun _ _ _ => Iff.rfl⟩
    have same := good.named name oldLi found
    subst same
    obtain ⟨middle,unlinked,good',erased⟩ := libraryUnlink_good good found
    rw [unlinked,bind_some]
    cases built : buildLibrary oldLi.name engine code with
    | error error =>
      obtain ⟨last,linked,left⟩ := relink_left good good' found erased
      rw [linked]
      exact ⟨last,some error,rfl,left⟩
    | ok li =>
      dsimp only
      cases clash : collision middle li.infos with
      | some function =>
        obtain ⟨last,linked,left⟩ := relink_left good good' found erased
        rw [linked]
        exact ⟨last,_,rfl,left⟩
      | none =>
        obtain ⟨named,engined,separate⟩ := buildLibrary_spec built cases_distinct
        have gone : middle.libraries.lookup li.name = none := by
          rw [erased,named]
          exact lookup_erase _ _
        have fits : Fits engines middle li := ⟨gone,engined ▸ registered,separate,free_of_collision clash⟩
        obtain ⟨last,linked,good'',_⟩ := libraryLink_good good' fits
        rw [linked]
        exact ⟨last,none,rfl,good'',nofun⟩

theorem unlinkReplaced_spec (replace : Bool) (libraries : List (LibInfo E)) {old : List (LibInfo E)}
    (good : Good engines ctx) (spare : Spare engines ctx old) :
    ∃ dst old' error, unlinkReplaced engines replace libraries ctx old = some (dst,old',error) ∧ Good engines dst ∧
      Spare engines dst old' ∧
      (∀ name li, (dst.libraries.lookup name = some li ∨ li ∈ old' ∧ li.name = name) ↔
        (ctx.libraries.lookup name = some li ∨ li ∈ old ∧ li.name = name)) ∧
      (∀ name, ctx.libraries.lookup name = none → dst.libraries.lookup name = none) ∧
      (error = none → ∀ li ∈ libraries, dst.libraries.lookup li.name = none) := by
  induction libraries generalizing ctx old with
  | nil =>
    exact ⟨ctx,old,none,rfl,good,spare,fun _ _ => Iff.rfl,fun _ absent => absent,fun _ _ none_ => absurd none_ not_mem_nil⟩
  | cons first rest ih =>
    rw [unlinkReplaced]
    cases found : ctx.libraries.lookup first.name with
    | none =>
      obtain ⟨dst,old',error,loop,good',spare',kept,still,free⟩ := ih good spare
      refine ⟨dst,old',error,loop,good',spare',kept,still,?_⟩
      intro no_error li member
      rcases mem_cons.mp member with rfl | later
      · exact still _ found
      · exact free no_error li later
    | some oldLi =>
      dsimp only
      split
      · exact ⟨ctx,old,_,rfl,good,spare,fun _ _ => Iff.rfl,fun _ absent => absent,fun none_ => absurd none_ (Option.some_ne_none _)⟩
      have same := good.named _ _ found
      rw [← same] at found
      obtain ⟨middle,unlinked,good',erased⟩ := libraryUnlink_good good found
      obtain ⟨dst,old',error,loop,good'',spare'',kept,still,free⟩ := ih good' (unlink_spare good good' found erased spare)
      have gone : middle.libraries.lookup first.name = none := by
        rw [erased,← same]
        exact lookup_erase _ _
      rw [unlinked]
      refine ⟨dst,old',error,loop,good'',spare'',?_,?_,?_⟩
      · intro name li
        rw [kept name li,erased,mem_append,mem_singleton]
        rw [lookup_erase_some]
        constructor
        · rintro (⟨-,lookup⟩ | ⟨before | rfl,rfl⟩)
          · exact .inl lookup
          · exact .inr ⟨before,rfl⟩
          · exact .inl found
        rintro (lookup | ⟨before,named⟩)
        · by_cases here : name = oldLi.name
          · subst here
            exact .inr ⟨.inr (Option.some.inj (lookup.symm.trans found)),good.named _ _ lookup⟩
          · exact .inl ⟨here,lookup⟩
        · exact .inr ⟨.inl before,named⟩
      · intro name absent
        apply still
        rw [erased]
        by_cases here : name = oldLi.name
        · subst here
          exact lookup_erase _ _
        · rw [lookup_erase_ne here]
          exact absent
      · intro no_error li member
        rcases mem_cons.mp member with rfl | later
        · exact still _ gone
        · exact free no_error li later

theorem Good.pairwise_apart (good : Good engines ctx) : (ctx.libraries.entries.map Sigma.snd).Pairwise Apart := by
  rw [pairwise_map]
  have keys : ctx.libraries.entries.Pairwise fun a b => a.1 ≠ b.1 := pairwise_map.mp ctx.libraries.keys_nodup
  refine keys.imp_of_mem ?_
  intro a b inside inside' differ
  have found : ctx.libraries.lookup a.1 = some a.2 := mem_lookup_iff.mpr inside
  have found' : ctx.libraries.lookup b.1 = some b.2 := mem_lookup_iff.mpr inside'
  constructor
  · intro same
    rw [good.named _ _ found,good.named _ _ found'] at same
    exact differ same
  · intro f member g member' same
    exact differ (good.eq_of_key found found' member member' same).2

theorem libraryJoin_left {src : LibCtx E} (good : Good engines ctx) (source : Good engines src) (replace : Bool) :
    ∃ last error, libraryJoin engines ctx src replace = some (last,error) ∧ Left engines ctx last error := by
  have nothing : Spare engines ctx [] := ⟨nofun,List.Pairwise.nil⟩
  obtain ⟨dst,old,error,loop,good',spare,kept,_,free⟩ :=
    unlinkReplaced_spec replace (src.libraries.entries.map Sigma.snd) good nothing
  -- after a failure the libraries put aside are linked back
  have undone : ∀ error : Error, ∃ last error', ((linkAll engines dst old).map fun dst => (dst,some error)) = some (last,error') ∧
      Left engines ctx last error' := by
    intro error
    obtain ⟨last,linked,good'',lookups⟩ := linkAll_good good' spare
    refine ⟨last,some error,by rw [linked]; rfl,good'',fun _ name li => ?_⟩
    rw [lookups name li,kept name li]
    simp
  unfold libraryJoin
  rw [loop,bind_some]
  cases error with
  | some error => exact undone error
  | none =>
    dsimp only
    cases clash : collision dst (src.functions.entries.map Sigma.snd) with
    | some function => exact undone _
    | none =>
      have fits : ∀ li ∈ src.libraries.entries.map Sigma.snd, Fits engines dst li := by
        intro li member
        obtain ⟨entry,inside,rfl⟩ := mem_map.mp member
        have found : src.libraries.lookup entry.1 = some entry.2 := mem_lookup_iff.mpr inside
        refine ⟨free rfl _ member,source.registered _ _ found,source.separate found,?_⟩
        intro fi belongs
        apply free_of_collision clash
        have there := source.lookup_of_mem found belongs
        exact mem_map.mpr ⟨⟨fi.key,fi⟩,mem_lookup_iff.mp there,rfl⟩
      obtain ⟨last,linked,good'',_⟩ := linkAll_good good' ⟨fits,source.pairwise_apart⟩
      rw [linked]
      exact ⟨last,none,rfl,good'',nofun⟩

theorem loadPayload_spec {entries : List (Option (LibraryCode E))} {current loading : LibCtx E}
    (good : Good engines current) (good' : Good engines loading)
    (cases_distinct : entries.all (fun entry => entry.all LibraryCode.casesDistinct) = true) :
    ∃ last error, loadPayload engines entries current loading = some (current,last,error) ∧ Good engines last := by
  induction entries generalizing loading with
  | nil => exact ⟨loading,none,rfl,good'⟩
  | cons entry rest ih =>
    rw [all_cons,Bool.and_eq_true] at cases_distinct
    cases entry with
    | none => exact ⟨loading,_,rfl,good'⟩
    | some code =>
      rw [loadPayload]
      cases read : readLibrary engines code with
      | error error => exact ⟨loading,_,rfl,good'⟩
      | ok found =>
        obtain ⟨name,engine⟩ := found
        have registered := readLibrary_registered read
        obtain ⟨next,error,created,left⟩ : ∃ next error, createLibrary engines name engine code false loading =
            some (next,error) ∧ Left engines loading next error :=
          createLibrary_left good' registered (by simpa using cases_distinct.1) false
        dsimp only
        rw [addEngineStats_good good registered,created]
        cases error with
        | some error => exact ⟨next,_,rfl,left.good⟩
        | none => exact ih left.good cases_distinct.2

theorem perform_left (good : Good engines ctx) {command : Command E} (cases_distinct : command.casesDistinct = true) :
    ∃ last error, perform engines ctx command = some (last,error) ∧ Left engines ctx last error := by
  cases command with
  | load code replace =>
    rw [perform,functionLoadCommand]
    cases read : readLibrary engines code with
    | error error => exact ⟨ctx,_,rfl,good,fun _ _ _ => Iff.rfl⟩
    | ok found =>
      have registered := readLibrary_registered read
      dsimp only
      rw [addEngineStats_good good registered]
      exact createLibrary_left good registered cases_distinct replace
  | delete library =>
    rw [perform,functionDeleteCommand]
    cases found : ctx.libraries.lookup library with
    | none => exact ⟨ctx,_,rfl,good,fun _ _ _ => Iff.rfl⟩
    | some li =>
      have same := good.named _ _ found
      subst same
      obtain ⟨last,unlinked,good',_⟩ := libraryUnlink_good good found
      dsimp only
      rw [unlinked]
      exact ⟨last,none,rfl,good',nofun⟩
  | flush => exact ⟨_,none,rfl,good_create engines,nofun⟩
  | restore payload policy =>
    cases payload with
    | none => exact ⟨ctx,_,rfl,good,fun _ _ _ => Iff.rfl⟩
    | some entries =>
      obtain ⟨loading,error,loaded,good'⟩ := loadPayload_spec good (good_create engines) cases_distinct
      simp only [perform,functionRestoreCommand,loaded]
      cases error with
      | some error => exact ⟨ctx,_,rfl,good,fun _ _ _ => Iff.rfl⟩
      | none =>
        cases policy with
        | flush => exact ⟨loading,none,rfl,good',nofun⟩
        | append => exact libraryJoin_left good good' false
        | replace => exact libraryJoin_left good good' true

theorem run_good {commands : List (Command E)} (good : Good engines ctx)
    (cases_distinct : ∀ command ∈ commands, command.casesDistinct = true) :
    ∃ last, run engines ctx commands = some last ∧ Good engines last := by
  induction commands generalizing ctx with
  | nil => exact ⟨ctx,rfl,good⟩
  | cons command commands ih =>
    obtain ⟨middle,error,performed,left⟩ := perform_left good (cases_distinct command mem_cons_self)
    obtain ⟨last,rest,good'⟩ := ih left.good fun other member => cases_distinct other (mem_cons_of_mem _ member)
    refine ⟨last,?_,good'⟩
    rw [run,performed]
    exact rest

/-- As long as no library that is loaded has two functions whose names differ in case only, every sequence of commands
runs through without a failed assertion, the registry it reaches is consistent, and from there every further command
leaves it consistent, and the same as before if it fails. -/
theorem function_registry_consistent (engines : Engines E) (commands : List (Command E))
    (cases_distinct : ∀ command ∈ commands, command.casesDistinct = true) :
    ∃ ctx, run engines (functionsLibCtxCreate engines) commands = some ctx ∧ Good engines ctx ∧
      ∀ command : Command E, command.casesDistinct = true → ∃ ctx' error, perform engines ctx command = some (ctx',error) ∧
        Good engines ctx' ∧ (error.isSome → SameRegistry ctx ctx') := by
  obtain ⟨ctx,ran,good⟩ := run_good (good_create engines) cases_distinct
  refine ⟨ctx,ran,good,?_⟩
  intro command distinct
  obtain ⟨ctx',error,performed,left⟩ := perform_left good distinct
  exact ⟨ctx',error,performed,left.good,fun failed => sameRegistry_of_libraries good left.good (left.failed failed)⟩

end

def oneEngine : Engines Unit := ⟨fun _ => 1,fun _ _ => 1,[()]⟩

def twoCases : LibraryCode Unit := ⟨[],some ([0x6c],()),.ok [⟨[0x61],0⟩,⟨[0x41],0⟩]⟩

def oneCase : LibraryCode Unit := ⟨[],some ([0x6c],()),.ok [⟨[0x61],0⟩,⟨[0x62],0⟩]⟩

theorem function_registry_consistent_loaded : ∃ ctx, run oneEngine (functionsLibCtxCreate oneEngine)
    [.load oneCase false,.load oneCase false,.delete [0x6c]] = some ctx ∧ Good oneEngine ctx := by
  obtain ⟨ctx,ran,good,_⟩ := function_registry_consistent oneEngine
    [.load oneCase false,.load oneCase false,.delete [0x6c]] (by decide)
  exact ⟨ctx,ran,good⟩

/-- Loading the library with both cases succeeds with one function in the index and two counted; deleting it then
fails the assertion that every function is in the index. -/
theorem delete_after_case_clash :
    (∃ ctx, run oneEngine (functionsLibCtxCreate oneEngine) [.load twoCases false] = some ctx ∧
      ctx.functions.entries.length = 1 ∧ (ctx.enginesStats.lookup ()).map EngineStats.nFunctions = some 2) ∧
    (run oneEngine (functionsLibCtxCreate oneEngine) [.load twoCases false,.delete [0x6c]]).isNone = true := by
  exact ⟨⟨_,rfl,rfl,rfl⟩,rfl⟩

end ValkeyWasm.Functions
