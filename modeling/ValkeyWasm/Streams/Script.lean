import ValkeyWasm.Streams.Copies

/-! Runs of stream commands: in every group the pending list is the union of those of its consumers. -/

namespace ValkeyWasm.Streams
open Function List Option AList Prod Library.Loops Server

open Heap

/-! ## Groups that share a heap -/

section Groups
variable {ι N : Type} [DecidableEq N] {groups : ι → Option (StreamCG N)} {h h' : Heap N}

/-- Every group agrees with its consumers, and no two groups share a record or a consumer. -/
structure Apart (groups : ι → Option (StreamCG N)) (h : Heap N) : Prop where
  fresh : h.Fresh
  agree : ∀ i cg, groups i = some cg → Agree cg h
  nacks : ∀ i j cg cg' id id' n, groups i = some cg → groups j = some cg' → cg.pel.lookup id = some n →
    cg'.pel.lookup id' = some n → i = j
  consumers : ∀ i j cg cg' name name' c, groups i = some cg → groups j = some cg' → cg.consumers.lookup name = some c →
    cg'.consumers.lookup name' = some c → i = j

theorem Agree.of_frame {cg : StreamCG N} (agree : Agree cg h) (next : h.next ≤ h'.next)
    (nacks : ∀ id n, cg.pel.lookup id = some n → h'.nacks n = h.nacks n)
    (consumers : ∀ name c, cg.consumers.lookup name = some c → h'.consumers c = h.consumers c) : Agree cg h' := by
  have views : ∀ name c id, cg.consumers.lookup name = some c → h'.pelOf c id = h.pelOf c id := by
    intro name c id member
    rw [pelOf,pelOf,consumers name c member]
  refine ⟨?_,?_,?_,agree.distinct,?_,?_⟩
  · intro id n found
    obtain ⟨name,c,nack,member,held,stored,back⟩ := agree.record id n found
    exact ⟨name,c,nack,member,by rw [views name c id member,held],by rw [nacks id n found,stored],back⟩
  · intro name c id n member held
    rw [views name c id member] at held
    obtain ⟨found,nack,stored,back⟩ := agree.held name c id n member held
    exact ⟨found,nack,by rw [nacks id n found,stored],back⟩
  · intro name c member
    rw [nameOf,consumers name c member]
    exact agree.named name c member
  · exact fun id n found => (agree.below id n found).trans_le next
  · exact fun name c member => (agree.belowConsumers name c member).trans_le next

variable [DecidableEq ι]

omit [DecidableEq N] in
/-- One group changes and may take addresses from `next` on: what the groups own stays apart. -/
theorem separate_update (owns : StreamCG N → Nat → Prop) {next : Nat} {i : ι} {cg cg' : StreamCG N}
    (separate : ∀ i j cg cg' n, groups i = some cg → groups j = some cg' → owns cg n → owns cg' n → i = j)
    (below : ∀ i cg n, groups i = some cg → owns cg n → n < next) (own : groups i = some cg ∨ ∀ n, ¬owns cg n)
    (evolves : ∀ n, owns cg' n → owns cg n ∨ next ≤ n) :
    (∀ j other n, j ≠ i → groups j = some other → owns other n → ¬owns cg n) ∧
    ∀ j k one two n, Function.update groups i (some cg') j = some one → Function.update groups i (some cg') k = some two →
      owns one n → owns two n → j = k := by
  have foreign : ∀ j other n, j ≠ i → groups j = some other → owns other n → ¬owns cg n := by
    intro j other n apart there found clash
    rcases own with mine | empty
    · exact apart (separate j i other cg n there mine found clash)
    · exact empty n clash
  have new : ∀ j other n, j ≠ i → groups j = some other → owns other n → ¬owns cg' n := by
    intro j other n apart there found clash
    rcases evolves n clash with before | above
    · exact foreign j other n apart there found before
    · exact absurd (below j other n there found) (Nat.not_lt.mpr above)
  refine ⟨foreign,?_⟩
  intro j k one two n there there' found found'
  by_cases first : j = i
  · subst first
    rw [update_self] at there
    cases there
    by_contra second
    rw [update_of_ne (Ne.symm second)] at there'
    exact new k two n (Ne.symm second) there' found' found
  · rw [update_of_ne first] at there
    by_cases second : k = i
    · subst second
      rw [update_self] at there'
      cases there'
      exact absurd found' (new j one n first there found)
    · rw [update_of_ne second] at there'
      exact separate j k one two n there there' found found'

theorem Apart.update (apart : Apart groups h) {i : ι} {cg cg' : StreamCG N}
    (own : groups i = some cg ∨ cg.pel = ∅ ∧ cg.consumers = ∅) (evolves : Evolves cg h cg' h') :
    Apart (Function.update groups i (some cg')) h' := by
  obtain ⟨foreignNacks,nacks⟩ := separate_update (fun cg n => ∃ id, cg.pel.lookup id = some n)
    (fun i j cg cg' n there there' ⟨id,found⟩ ⟨id',found'⟩ => apart.nacks i j cg cg' id id' n there there' found found')
    (fun j other n there ⟨id,found⟩ => (apart.agree j other there).below id n found)
    (own.imp_right fun empty n => by simp [empty.1]) (fun n ⟨id,found⟩ => evolves.ownNacks id n found)
  obtain ⟨foreignConsumers,consumers⟩ := separate_update (fun cg c => ∃ name, cg.consumers.lookup name = some c)
    (fun i j cg cg' c there there' ⟨name,found⟩ ⟨name',found'⟩ => apart.consumers i j cg cg' name name' c there there' found found')
    (fun j other c there ⟨name,found⟩ => (apart.agree j other there).belowConsumers name c found)
    (own.imp_right fun empty c => by simp [empty.2]) (fun c ⟨name,found⟩ => evolves.ownConsumers name c found)
  refine ⟨evolves.fresh,?_,?_,?_⟩
  · intro j other there
    by_cases same : j = i
    · rw [same,update_self] at there
      exact Option.some.inj there ▸ evolves.agree
    rw [update_of_ne same] at there
    have agree := apart.agree j other there
    apply agree.of_frame evolves.next
    · intro id n found
      exact evolves.frameNacks n (agree.below id n found) fun id' clash => foreignNacks j other n same there ⟨id,found⟩ ⟨id',clash⟩
    · intro name c found
      exact evolves.frameConsumers c (agree.belowConsumers name c found)
        fun name' clash => foreignConsumers j other c same there ⟨name,found⟩ ⟨name',clash⟩
  · intro j k one two id id' n there there' found found'
    exact nacks j k one two n there there' ⟨id,found⟩ ⟨id',found'⟩
  · intro j k one two name name' c there there' found found'
    exact consumers j k one two c there there' ⟨name,found⟩ ⟨name',found'⟩

theorem Apart.free (apart : Apart groups h) {i : ι} {cg : StreamCG N} (mine : groups i = some cg) (freed : Freed cg h h') :
    Apart (Function.update groups i none) h' := by
  have kept : ∀ j other, Function.update groups i none j = some other → j ≠ i ∧ groups j = some other := by
    intro j other there
    by_cases same : j = i
    · rw [same,update_self] at there
      cases there
    · rw [update_of_ne same] at there
      exact ⟨same,there⟩
  refine ⟨freed.fresh,?_,?_,?_⟩
  · intro j other there
    obtain ⟨same,before⟩ := kept j other there
    apply (apart.agree j other before).of_frame freed.next.ge
    · intro id n found
      exact freed.nacks n fun id' clash => same (apart.nacks j i other cg id id' n before mine found clash)
    · intro name c found
      exact freed.consumers c fun name' clash => same (apart.consumers j i other cg name name' c before mine found clash)
  · intro j k one two id id' n there there' found found'
    exact apart.nacks j k one two id id' n (kept j one there).2 (kept k two there').2 found found'
  · intro j k one two name name' c there there' found found'
    exact apart.consumers j k one two name name' c (kept j one there).2 (kept k two there').2 found found'

omit [DecidableEq ι] in
theorem Apart.reindex {κ : Type} {groups' : κ → Option (StreamCG N)} (apart : Apart groups h) (f : κ → ι)
    (same : ∀ j cg, groups' j = some cg → groups (f j) = some cg)
    (injective : ∀ j k cg cg', groups' j = some cg → groups' k = some cg' → f j = f k → j = k) : Apart groups' h := by
  refine ⟨apart.fresh,fun j cg there => apart.agree (f j) cg (same j cg there),?_,?_⟩
  · intro j k one two id id' n there there' found found'
    exact injective j k one two there there'
      (apart.nacks (f j) (f k) one two id id' n (same j one there) (same k two there') found found')
  · intro j k one two name name' c there there' found found'
    exact injective j k one two there there'
      (apart.consumers (f j) (f k) one two name name' c (same j one there) (same k two there') found found')

end Groups

/-! ## The databases -/

variable {K G N : Type} [DecidableEq K] [DecidableEq G] [DecidableEq N] {s : Server K G N}

def groupsOf (s : Server K G N) (place : K × G) : Option (StreamCG N) := s.group place.1 place.2

def Consistent (s : Server K G N) : Prop := Apart (groupsOf s) s.heap

omit [DecidableEq N] in
theorem group_setStream (key key' : K) (stream : Option (Stream G N)) (name : G) (s : Server K G N) :
    (s.setStream key stream).group key' name =
      if key' = key then stream.bind fun stream => stream.cgroups.lookup name else s.group key' name := by
  unfold group setStream
  by_cases same : key' = key
  · simp [same]
  · simp [same]

variable {stream : Stream G N} {key : K}

omit [DecidableEq K] [DecidableEq N] in
theorem lookup_cgroups (there : s.streams key = some stream) (name : G) :
    stream.cgroups.lookup name = s.group key name := by rw [group,there,bind_some]

omit [DecidableEq K] [DecidableEq N] in
theorem lookup_getD (key : K) (name : G) : ((s.streams key).getD emptyStream).cgroups.lookup name = s.group key name := by
  unfold group
  cases s.streams key with
  | none => exact lookup_empty name
  | some stream => rfl

section
omit [DecidableEq N]

theorem groupsOf_setStream (same : ∀ name, stream.cgroups.lookup name = s.group key name) :
    groupsOf (s.setStream key (some stream)) = groupsOf s := by
  funext place
  unfold groupsOf
  rw [group_setStream]
  split
  · rename_i here
    rw [bind_some,same,here]
  · rfl

theorem groupsOf_update {name : G} {cg : Option (StreamCG N)}
    (same : ∀ name', stream.cgroups.lookup name' = if name' = name then cg else s.group key name') :
    groupsOf (s.setStream key (some stream)) = Function.update (groupsOf s) (key,name) cg := by
  funext place
  obtain ⟨key',name'⟩ := place
  rw [groupsOf,group_setStream,update_apply]
  by_cases here : key' = key
  · rw [if_pos here,bind_some,same,here]
    by_cases equal : name' = name
    · rw [if_pos equal,if_pos (by rw [equal])]
    · rw [if_neg equal,if_neg fun clash => equal (mk.inj clash).2]
      rfl
  · rw [if_neg here,if_neg fun clash => here (mk.inj clash).1]
    rfl

theorem groupsOf_insert (there : ∀ name, stream.cgroups.lookup name = s.group key name) (name : G)
    (cg : StreamCG N) : groupsOf (s.setStream key (some { stream with cgroups := stream.cgroups.insert name cg })) =
      Function.update (groupsOf s) (key,name) (some cg) := by
  apply groupsOf_update
  intro name'
  rw [lookup_insert_eq,there]

end

theorem consistent_withGroup (consistent : Consistent s) (key : K) (name : G)
    {f : List StreamID → StreamCG N → Heap N → Option (StreamCG N × Heap N)}
    (evolves : ∀ entries cg, Agree cg s.heap → ∃ cg' h', f entries cg s.heap = some (cg',h') ∧ Evolves cg s.heap cg' h') :
    ∃ t, s.withGroup key name f = some t ∧ Consistent t := by
  unfold withGroup
  cases there : s.streams key with
  | none => exact ⟨s,rfl,consistent⟩
  | some stream =>
    dsimp only
    cases found : stream.cgroups.lookup name with
    | none => exact ⟨s,rfl,consistent⟩
    | some cg =>
      have mine : groupsOf s (key,name) = some cg := by rw [groupsOf,group,there,bind_some,found]
      obtain ⟨cg',h',run,change⟩ := evolves stream.entries cg (consistent.agree (key,name) cg mine)
      dsimp only
      rw [run]
      refine ⟨_,rfl,?_⟩
      have after := Apart.update consistent (.inl mine) change
      rw [← groupsOf_insert (lookup_cgroups there) name cg'] at after
      exact after

/-! ## Streams that are freed or copied -/

section Streams
variable {ι : Type} [DecidableEq ι] {place : G → ι}

omit [DecidableEq K] [DecidableEq G] in
theorem freeStream_spec (injective : Function.Injective place) {groups : ι → Option (StreamCG N)} {h : Heap N} (apart : Apart groups h)
    {entries : List (Sigma fun _ : G => StreamCG N)} (nodup : entries.NodupKeys)
    (members : ∀ entry ∈ entries, groups (place entry.1) = some entry.2) :
    ∃ h', entries.foldlM (fun h entry => streamFreeCG entry.2 h) h = some h' ∧ ∃ groups', Apart groups' h' ∧
      ∀ i, (∀ entry ∈ entries, i ≠ place entry.1) → groups' i = groups i := by
  refine foldlM_invariant (fun (done : List (Sigma fun _ : G => StreamCG N)) h' => ∃ groups', Apart groups' h' ∧
    ∀ i, (∀ entry ∈ done, i ≠ place entry.1) → groups' i = groups i) (fun done entry rest h1 whole before => ?_) ⟨groups,apart,fun _ _ => rfl⟩
  obtain ⟨groups1,apart1,same⟩ := before
  have mine : groups1 (place entry.1) = some entry.2 := by
    rw [same _ fun entry' member equal => ?_,members entry (by simp [whole])]
    unfold List.NodupKeys List.keys at nodup
    rw [whole,map_append,map_cons,injective equal] at nodup
    exact (nodup_append.mp nodup).2.2 _ (mem_map_of_mem member) _ mem_cons_self rfl
  obtain ⟨h2,run,freed⟩ := freed_streamFreeCG (apart1.agree _ _ mine) apart1.fresh
  refine ⟨h2,run,_,apart1.free mine freed,fun i outside => ?_⟩
  rw [update_of_ne (outside entry (by simp)),same i fun entry' member => outside entry' (mem_append_left _ member)]

theorem delKey_spec (injective : Function.Injective place) (groups : ι → Option (StreamCG N)) (s : Server K G N) (key : K)
    (agree : ∀ name, groups (place name) = s.group key name) (apart : Apart groups s.heap) :
    ∃ t groups', delKey key s = some t ∧ t.streams = Function.update s.streams key none ∧ Apart groups' t.heap ∧
      ∀ i, (∀ name, i ≠ place name) → groups' i = groups i := by
  unfold delKey
  cases there : s.streams key with
  | none =>
    refine ⟨s,groups,rfl,?_,apart,fun _ _ => rfl⟩
    rw [← there,update_eq_self]
  | some stream =>
    obtain ⟨h',run,groups',apart',same⟩ := freeStream_spec injective apart stream.cgroups.nodupKeys (by
      intro entry member
      rw [agree,group,there]
      exact mem_lookup_iff.mpr member)
    refine ⟨{ s.setStream key none with heap := h' },groups',?_,rfl,apart',fun i outside => same i fun entry _ => outside entry.1⟩
    unfold freeStream
    dsimp only
    rw [run,map_some]

omit [DecidableEq K] in
theorem dupGroups_spec (injective : Function.Injective place) {groups : ι → Option (StreamCG N)} {h : Heap N} (apart : Apart groups h)
    (empty : ∀ name, groups (place name) = none) (entries : List (Sigma fun _ : G => StreamCG N))
    (originals : ∀ entry ∈ entries, ∃ i, groups i = some entry.2 ∧ ∀ name, i ≠ place name) :
    ∃ copy, entries.foldlM (fun (state : (AList fun _ : G => StreamCG N) × Heap N) entry => do
        let (cg,h) ← dupGroup entry.2 state.2
        some (state.1.insert entry.1 cg,h)) (∅,h) = some copy ∧ ∃ groups', Apart groups' copy.2 ∧
      (∀ name, groups' (place name) = copy.1.lookup name) ∧ ∀ i, (∀ name, i ≠ place name) → groups' i = groups i := by
  refine foldlM_keeps (fun s : (AList fun _ : G => StreamCG N) × Heap N => ∃ groups', Apart groups' s.2 ∧
    (∀ name, groups' (place name) = s.1.lookup name) ∧ ∀ i, (∀ name, i ≠ place name) → groups' i = groups i)
    (fun s entry member before => ?_) ⟨groups,apart,fun name => by rw [empty,lookup_empty],fun _ _ => rfl⟩
  obtain ⟨groups1,apart1,here,same⟩ := before
  obtain ⟨i,original,outside⟩ := originals entry member
  obtain ⟨cg',h1,run,evolves⟩ := evolves_dupGroup (apart1.agree i entry.2 (by rw [same i outside,original])) apart1.fresh
  refine ⟨(s.1.insert entry.1 cg',h1),by rw [run]; rfl,_,apart1.update (i := place entry.1) (.inr ⟨rfl,rfl⟩) evolves,fun name => ?_,
    fun j outside => by rw [update_of_ne (outside entry.1),same j outside]⟩
  by_cases equal : name = entry.1
  · rw [equal,update_self,lookup_insert]
  · rw [update_of_ne (injective.ne equal),lookup_insert_ne equal,here]

end Streams

theorem consistent_delKey (consistent : Consistent s) (key : K) : ∃ t, delKey key s = some t ∧ Consistent t := by
  have injective : Function.Injective fun name : G => (key,name) := fun _ _ equal => (mk.inj equal).2
  obtain ⟨t,groups',run,streams,apart,same⟩ := delKey_spec injective (groupsOf s) s key (fun _ => rfl) consistent
  refine ⟨t,run,apart.reindex id (fun place cg there => ?_) (fun _ _ _ _ _ _ equal => equal)⟩
  obtain ⟨key',name⟩ := place
  have elsewhere : key' ≠ key := by
    rintro rfl
    rw [groupsOf,group,streams,update_self] at there
    cases there
  rw [id,same (key',name) fun name' equal => elsewhere (mk.inj equal).1]
  rwa [groupsOf,group,streams,update_of_ne elsewhere] at there

theorem consistent_copyCommand (consistent : Consistent s) (src dst : K) (replace : Bool) :
    ∃ t, copyCommand src dst replace s = some t ∧ Consistent t := by
  unfold copyCommand
  cases there : s.streams src with
  | none => exact ⟨s,rfl,consistent⟩
  | some stream =>
    dsimp only
    split
    · exact ⟨s,rfl,consistent⟩
    -- the groups of the server, and those of the copy while it has no key
    set groups : Option K × G → Option (StreamCG N) := fun place => place.1.bind fun key => s.group key place.2 with hgroups
    have apart : Apart groups s.heap := by
      refine consistent.reindex (fun place => (place.1.getD src,place.2)) (fun place cg found => ?_) (fun place place' cg cg' found found' equal => ?_)
      · obtain ⟨_ | key,name⟩ := place
        · cases found
        · exact found
      obtain ⟨_ | key,name⟩ := place
      · cases found
      obtain ⟨_ | key',name'⟩ := place'
      · cases found'
      · obtain ⟨one,two⟩ := mk.inj equal
        exact Prod.ext (congrArg some one) two
    have copyPlace : Function.Injective fun name : G => ((none : Option K),name) := fun _ _ equal => (mk.inj equal).2
    obtain ⟨⟨cgroups,h1⟩,run,groups1,apart1,here,same⟩ := dupGroups_spec copyPlace apart (fun _ => rfl) stream.cgroups.entries
      (fun entry member => ⟨(some src,entry.1),by
        change s.group src entry.1 = some entry.2
        rw [group,there]
        exact mem_lookup_iff.mpr member,by simp⟩)
    have dup : streamDup stream s.heap = some ({ stream with cgroups := cgroups },h1) := by
      unfold streamDup
      rw [run]
      rfl
    have dstPlace : Function.Injective fun name : G => (some dst,name) := fun _ _ equal => (mk.inj equal).2
    obtain ⟨t,groups2,run',streams,apart2,same'⟩ := delKey_spec dstPlace groups1 { s with heap := h1 } dst
      (fun name => same (some dst,name) (by simp)) apart1
    refine ⟨t.setStream dst (some { stream with cgroups := cgroups }),?_,?_⟩
    · rw [dup]
      change (delKey dst { s with heap := h1 }).bind _ = _
      rw [run']
      rfl
    have found2 : ∀ key name, groupsOf (t.setStream dst (some { stream with cgroups := cgroups })) (key,name) =
        groups2 (if key = dst then none else some key,name) := by
      intro key name
      rw [groupsOf,group_setStream]
      by_cases equal : key = dst
      · rw [if_pos equal,if_pos equal,bind_some,same' _ (by simp),here]
      · rw [if_neg equal,if_neg equal,same' _ fun name' clash => equal (Option.some.inj (mk.inj clash).1),
          same _ (by simp),group,streams,update_of_ne equal]
        rfl
    refine apart2.reindex (fun place => (if place.1 = dst then none else some place.1,place.2)) (fun place cg found => ?_)
      (fun place place' cg cg' _ _ equal => ?_)
    · rw [← found2]
      exact found
    · obtain ⟨one,two⟩ := mk.inj equal
      refine Prod.ext ?_ two
      split_ifs at one <;> simp_all

/-! ## Runs -/

theorem consistent_setStream (consistent : Consistent s)
    (same : ∀ name, stream.cgroups.lookup name = s.group key name) : Consistent (s.setStream key (some stream)) := by
  unfold Consistent
  rw [groupsOf_setStream same]
  exact consistent

theorem consistent_create (consistent : Consistent s) (key : K) (name : G) (id : Option StreamID) (mkstream : Bool) :
    ∃ t, perform s (.create key name id mkstream) = some t ∧ Consistent t := by
  simp only [perform]
  split
  · exact ⟨s,rfl,consistent⟩
  cases found : ((s.streams key).getD emptyStream).cgroups.lookup name with
  | some cg => exact ⟨s,rfl,consistent⟩
  | none =>
    refine ⟨_,rfl,?_⟩
    set cg : StreamCG N := ⟨id.getD ((s.streams key).getD emptyStream).lastId,∅,∅⟩ with hcg
    have empty : Agree cg s.heap := by
      refine ⟨?_,?_,?_,?_,?_,?_⟩
      all_goals simp [hcg]
    have after := Apart.update (i := (key,name)) consistent (.inr ⟨rfl,rfl⟩) (.refl empty consistent.fresh)
    rw [← groupsOf_insert (lookup_getD key) name] at after
    exact after

theorem consistent_destroy (consistent : Consistent s) (key : K) (name : G) :
    ∃ t, perform s (.destroy key name) = some t ∧ Consistent t := by
  simp only [perform]
  cases there : s.streams key with
  | none => exact ⟨s,rfl,consistent⟩
  | some stream =>
    dsimp only
    cases found : stream.cgroups.lookup name with
    | none => exact ⟨s,rfl,consistent⟩
    | some cg =>
      have mine : groupsOf s (key,name) = some cg := by rw [groupsOf,← lookup_cgroups there,found]
      obtain ⟨h',run,freed⟩ := freed_streamFreeCG (consistent.agree (key,name) cg mine) consistent.fresh
      dsimp only
      rw [run]
      refine ⟨_,rfl,?_⟩
      have gone : groupsOf (s.setStream key (some { stream with cgroups := stream.cgroups.erase name })) =
          Function.update (groupsOf s) (key,name) none := by
        apply groupsOf_update
        intro name'
        rw [lookup_erase_eq,lookup_cgroups there]
      have after := Apart.free consistent mine freed
      rw [← gone] at after
      exact after

theorem consistent_perform (consistent : Consistent s) (command : Command K G N) : ∃ t, perform s command = some t ∧ Consistent t := by
  have fresh := consistent.fresh
  cases command with
  | xadd key id =>
    simp only [perform]
    split
    · exact ⟨s,rfl,consistent⟩
    · exact ⟨_,rfl,consistent_setStream consistent (lookup_getD key)⟩
  | xdel key _ | xtrim key _ =>
    refine ⟨_,rfl,?_⟩
    split
    · exact consistent
    · rename_i stream there
      exact consistent_setStream consistent fun name => lookup_cgroups there name
  | create key name id mkstream => exact consistent_create consistent key name id mkstream
  | setid key name id =>
    simp only [perform]
    exact consistent_withGroup consistent key name fun _ cg agree => ⟨_,_,rfl,(keeps_lastId agree fresh _).toEvolves⟩
  | destroy key name => exact consistent_destroy consistent key name
  | createConsumer key name consumer =>
    simp only [perform]
    exact consistent_withGroup consistent key name fun _ cg agree => ⟨_,_,rfl,evolves_streamCreateConsumer agree fresh s.now consumer⟩
  | delConsumer key name consumer =>
    simp only [perform]
    exact consistent_withGroup consistent key name fun _ cg agree => (evolves_delConsumer agree fresh consumer).snd
  | xreadgroup streams name consumer count noack =>
    unfold perform xreadgroupCommand
    dsimp only
    split
    · refine foldlM_keeps Consistent (fun t entry _ consistent => ?_) consistent
      exact consistent_withGroup consistent entry.1 name fun entries cg agree =>
        evolves_readGroup agree consistent.fresh t.now entries entry.2 consumer count noack
    · exact ⟨s,rfl,consistent⟩
  | xack key name ids =>
    simp only [perform]
    exact consistent_withGroup consistent key name fun _ cg agree => (evolves_xack agree fresh ids).snd
  | xclaim key name consumer minidle ids options =>
    simp only [perform]
    exact consistent_withGroup consistent key name fun entries cg agree =>
      (evolves_xclaim agree fresh s.now entries consumer minidle ids options).snd
  | xautoclaim key name consumer minidle start count justid =>
    simp only [perform]
    exact consistent_withGroup consistent key name fun entries cg agree =>
      (evolves_xautoclaim agree fresh s.now entries consumer minidle start count justid).snd
  | copy src dst replace => exact consistent_copyCommand consistent src dst replace
  | del key => exact consistent_delKey consistent key
  | tick ms => exact ⟨_,rfl,consistent⟩

theorem consistent_run (commands : List (Command K G N)) (now : Int) :
    ∃ t, run commands (initial now : Server K G N) = some t ∧ Consistent t := by
  have start : Consistent (initial now : Server K G N) := by
    refine ⟨fun _ _ => ⟨rfl,rfl⟩,?_,?_,?_⟩
    all_goals simp [groupsOf,group,initial]
  exact foldlM_keeps Consistent (fun _ command _ consistent => consistent_perform consistent command) start

/-- The list of a group against the lists of its consumers: the same IDs with the same records, each in the list of one
consumer, to which the record points; no consumer or record that is used is freed; and the sizes add up. -/
structure ListsAgree (cg : StreamCG N) (h : Heap N) : Prop where
  consumers : ∀ name c, cg.consumers.lookup name = some c → ∃ consumer, h.consumers c = some consumer ∧ consumer.name = name
  pending : ∀ id n, cg.pel.lookup id = some n ↔ ∃ name c nack, cg.consumers.lookup name = some c ∧ h.pelOf c id = some n ∧
    h.nacks n = some nack ∧ nack.consumer = some c
  unique : ∀ id name name' c c' n n', cg.consumers.lookup name = some c → cg.consumers.lookup name' = some c' →
    h.pelOf c id = some n → h.pelOf c' id = some n' → name = name' ∧ c = c' ∧ n = n'
  owners : ∀ name c id n, cg.consumers.lookup name = some c → h.pelOf c id = some n →
    ∃ nack, h.nacks n = some nack ∧ nack.consumer = some c
  sizes : (cg.consumers.entries.map fun entry => ((h.consumers entry.2).map fun consumer => consumer.pel.keys.length).getD 0).sum =
    cg.pel.keys.length

def Heap.pending (h : Heap N) (c : Nat) : List StreamID := ((h.consumers c).map fun consumer => consumer.pel.keys).getD []

omit [DecidableEq N] in
theorem mem_pending (h : Heap N) (c : Nat) (id : StreamID) : id ∈ h.pending c ↔ ∃ n, h.pelOf c id = some n := by
  unfold Heap.pending pelOf
  cases h.consumers c with
  | none => simp
  | some consumer =>
    rw [map_some,getD_some,bind_some,← AList.mem_keys,← lookup_isSome,isSome_iff_exists]

theorem Agree.perm {cg : StreamCG N} {h : Heap N} (agree : Agree cg h) :
    (cg.consumers.entries.flatMap fun entry => h.pending entry.2).Perm cg.pel.keys := by
  refine (perm_ext_iff_of_nodup ?_ cg.pel.keys_nodup).mpr fun id => ?_
  · refine nodup_flatMap.mpr ⟨fun entry member => ?_,?_⟩
    · obtain ⟨consumer,stored,-⟩ := agree.exists_consumer (mem_lookup_iff.mpr member)
      rw [Heap.pending,stored]
      exact consumer.pel.keys_nodup
    refine (cg.consumers.nodupKeys.nodup).imp_of_mem fun {entry entry'} member member' apart => ?_
    intro id mine theirs
    obtain ⟨n,holds⟩ := (mem_pending h _ id).mp mine
    obtain ⟨n',holds'⟩ := (mem_pending h _ id).mp theirs
    have lookup := mem_lookup_iff.mpr member
    have lookup' := mem_lookup_iff.mpr member'
    have same := (agree.owner lookup holds lookup' holds').1
    refine apart (Sigma.ext (agree.names (same ▸ lookup) lookup') (heq_of_eq same))
  · rw [mem_flatMap,← AList.mem_keys,← lookup_isSome,isSome_iff_exists]
    constructor
    · rintro ⟨entry,member,inside⟩
      obtain ⟨n,holds⟩ := (mem_pending h _ id).mp inside
      exact ⟨n,(agree.held entry.1 entry.2 id n (mem_lookup_iff.mpr member) holds).1⟩
    · rintro ⟨n,found⟩
      obtain ⟨name,c,-,member,holds,-,-⟩ := agree.record id n found
      exact ⟨⟨name,c⟩,mem_lookup_iff.mp member,(mem_pending h c id).mpr ⟨n,holds⟩⟩

theorem Agree.listsAgree {cg : StreamCG N} {h : Heap N} (agree : Agree cg h) : ListsAgree cg h := by
  refine ⟨fun name c member => agree.exists_consumer member,fun id n => ⟨agree.record id n,?_⟩,?_,
    fun name c id n member holds => (agree.held name c id n member holds).2,?_⟩
  · rintro ⟨name,c,-,member,holds,-,-⟩
    exact (agree.held name c id n member holds).1
  · intro id name name' c c' n n' member member' holds holds'
    obtain ⟨rfl,rfl⟩ := agree.owner member holds member' holds'
    exact ⟨agree.names member member',rfl,rfl⟩
  rw [← agree.perm.length_eq,length_flatMap]
  congr 1
  refine map_congr_left fun entry _ => ?_
  unfold Heap.pending
  cases h.consumers entry.2 with
  | none => rfl
  | some consumer => rfl

theorem pending_lists_agree (now : Int) (commands : List (Command K G N)) :
    ∃ t, run commands (initial now : Server K G N) = some t ∧
      ∀ key name cg, t.group key name = some cg → ListsAgree cg t.heap := by
  obtain ⟨t,performed,consistent⟩ := consistent_run commands now
  exact ⟨t,performed,fun key name cg there => (consistent.agree (key,name) cg there).listsAgree⟩

end ValkeyWasm.Streams
