import ValkeyWasm.Bridge.Reactor

/-! Wakeups of the reactor.
A pass reads at most 16 KiB from each connection and accepts a limited number of connections,
and no pass is scheduled for what it leaves. Nothing is left if every pass finds little enough. -/
namespace ValkeyWasm.Bridge
open Library.Memory Library.Dictionary Ae Function List Option Bool

def readLimit : Nat := 16 * 1024

variable {r : Reactor}

namespace Reactor

def HasInput (r : Reactor) (fd : Nat) : Prop :=
  match r.host.listeners fd with
  | some pending => pending ≠ []
  | none => ∃ s, r.host.socks fd = some s ∧ (s.chunks ≠ [] ∨ s.eof = true ∧ r.reported fd = false)

def Waiting (r : Reactor) (fd : Nat) : Prop := (r.loop.events fd).mask.readable = true ∧ r.HasInput fd

/-- An action that asks for reading only where nothing is to be read. -/
def Quiet (r : Reactor) (a : Action) : Prop := ∀ fd proc, a = .create fd .reading proc → ¬ r.HasInput fd

structure Good (r : Reactor) : Prop where
  bounded : r.loop.Bounded
  plain : ∀ fd, (r.loop.events fd).mask.barrier = false
  sound : ∀ fd s, r.host.socks fd = some s → Sound s.chunks s.off

structure Recedes (r r' : Reactor) : Prop where
  input : ∀ fd, r'.HasInput fd → r.HasInput fd
  waiting : ∀ fd, r'.Waiting fd → r.Waiting fd ∧ (r'.loop.events fd).rfileProc = (r.loop.events fd).rfileProc
  kind : ∀ fd, r'.HasInput fd → (r'.host.listeners fd).isSome = (r.host.listeners fd).isSome
  socks : ∀ fd s', r'.host.socks fd = some s' → ∃ s, r.host.socks fd = some s ∧ s'.eof = s.eof ∧
    (buffered s'.chunks s'.off).length ≤ (buffered s.chunks s.off).length ∧ (s'.chunks ≠ [] → s.chunks ≠ [])
  pending : ∀ lfd waiting', r'.host.listeners lfd = some waiting' → waiting' = [] ∨ ∃ waiting, r.host.listeners lfd = some waiting ∧ waiting' <:+ waiting
  scheduled : r'.host.stepScheduled = r.host.stepScheduled
  closed : r'.host.closed = r.host.closed

theorem Recedes.refl (r : Reactor) : Recedes r r :=
  ⟨fun _ => id,fun _ waits => ⟨waits,rfl⟩,fun _ _ => rfl,fun _ s found => ⟨s,found,rfl,le_rfl,id⟩,
    fun _ waiting found => Or.inr ⟨waiting,found,suffix_rfl⟩,rfl,rfl⟩

theorem Recedes.trans {s t : Reactor} (first : Recedes r s) (second : Recedes s t) : Recedes r t := by
  refine ⟨fun fd input => first.input fd (second.input fd input),?_,?_,?_,?_,second.scheduled.trans first.scheduled,second.closed.trans first.closed⟩
  · intro fd waits
    obtain ⟨between,proc⟩ := second.waiting fd waits
    obtain ⟨before,same⟩ := first.waiting fd between
    exact ⟨before,proc.trans same⟩
  · intro fd input
    exact (second.kind fd input).trans (first.kind fd (second.input fd input))
  · intro fd s' found
    obtain ⟨s₁,between,eof₁,le₁,some₁⟩ := second.socks fd s' found
    obtain ⟨s₀,before,eof₀,le₀,some₀⟩ := first.socks fd s₁ between
    exact ⟨s₀,before,eof₁.trans eof₀,le₁.trans le₀,some₀ ∘ some₁⟩
  intro lfd waiting' found
  rcases second.pending lfd waiting' found with rfl | ⟨between,there,suffix⟩
  · exact Or.inl rfl
  rcases first.pending lfd between there with rfl | ⟨before,here,more⟩
  · exact Or.inl (suffix_nil.mp suffix)
  · exact Or.inr ⟨before,here,suffix.trans more⟩

variable {host : Host}

theorem Recedes.ofHost {mem : Bytes} {reported : Nat → Bool}
    (input : ∀ fd, HasInput {r with host := host, mem := mem, reported := reported} fd → r.HasInput fd)
    (kind : ∀ fd, HasInput {r with host := host, mem := mem, reported := reported} fd → (host.listeners fd).isSome = (r.host.listeners fd).isSome)
    (socks : ∀ fd s', host.socks fd = some s' → ∃ s, r.host.socks fd = some s ∧ s'.eof = s.eof ∧
      (buffered s'.chunks s'.off).length ≤ (buffered s.chunks s.off).length ∧ (s'.chunks ≠ [] → s.chunks ≠ []))
    (pending : ∀ lfd waiting', host.listeners lfd = some waiting' → waiting' = [] ∨ ∃ waiting, r.host.listeners lfd = some waiting ∧ waiting' <:+ waiting)
    (scheduled : host.stepScheduled = r.host.stepScheduled) (closed : host.closed = r.host.closed) :
    Recedes r {r with host := host, mem := mem, reported := reported} :=
  ⟨input,fun fd waits => ⟨⟨waits.1,input fd waits.2⟩,rfl⟩,kind,socks,pending,scheduled,closed⟩

theorem Recedes.ofLoop {loop : EventLoop Proc}
    (registered : ∀ fd, r.HasInput fd → (loop.events fd).mask.readable = true →
      (r.loop.events fd).mask.readable = true ∧ (loop.events fd).rfileProc = (r.loop.events fd).rfileProc) : Recedes r {r with loop := loop} := by
  refine ⟨fun _ => id,?_,fun _ _ => rfl,fun _ s found => ⟨s,found,rfl,le_rfl,id⟩,fun _ waiting found => Or.inr ⟨waiting,found,suffix_rfl⟩,rfl,rfl⟩
  intro fd waits
  obtain ⟨before,same⟩ := registered fd waits.2 waits.1
  exact ⟨⟨before,waits.2⟩,same⟩

theorem Recedes.ofSame (listeners : host.listeners = r.host.listeners)
    (kept : ∀ fd s', host.socks fd = some s' → ∃ s, r.host.socks fd = some s ∧ s'.chunks = s.chunks ∧ s'.off = s.off ∧ s'.eof = s.eof)
    (scheduled : host.stepScheduled = r.host.stepScheduled) (closed : host.closed = r.host.closed) : Recedes r {r with host := host} := by
  refine Recedes.ofHost ?_ ?_ ?_ ?_ scheduled closed
  · intro fd input
    unfold HasInput at input ⊢
    rw [listeners] at input
    split at input
    · exact input
    · obtain ⟨s',found,some_⟩ := input
      obtain ⟨s,before,chunks,-,eof⟩ := kept fd s' found
      exact ⟨s,before,by rwa [← chunks,← eof]⟩
  · intro fd _
    rw [listeners]
  · intro fd s' found
    obtain ⟨s,before,chunks,off,eof⟩ := kept fd s' found
    exact ⟨s,before,eof,by rw [chunks,off],by rw [chunks]; exact id⟩
  · intro lfd waiting found
    rw [listeners] at found
    exact Or.inr ⟨waiting,found,suffix_rfl⟩

theorem Recedes.ofOne (fd : Nat)
    (others : ∀ g, g ≠ fd → host.socks g = r.host.socks g ∧ host.listeners g = r.host.listeners g) (gone : ¬ HasInput {r with host := host} fd)
    (sock : ∀ s, host.socks fd = some s → r.host.socks fd = some s) (listener : ∀ waiting, host.listeners fd = some waiting → waiting = [])
    (scheduled : host.stepScheduled = r.host.stepScheduled) (closed : host.closed = r.host.closed) : Recedes r {r with host := host} := by
  have apart : ∀ g, HasInput {r with host := host} g → g ≠ fd := fun g input same => gone (same ▸ input)
  refine Recedes.ofHost ?_ ?_ ?_ ?_ scheduled closed
  · intro g input
    obtain ⟨socks,listeners⟩ := others g (apart g input)
    unfold HasInput at input ⊢
    rwa [socks,listeners] at input
  · intro g input
    rw [(others g (apart g input)).2]
  · intro g s found
    refine ⟨s,?_,rfl,le_rfl,id⟩
    rcases eq_or_ne g fd with rfl | other
    · exact sock s found
    · rwa [(others g other).1] at found
  · intro g waiting found
    rcases eq_or_ne g fd with rfl | other
    · exact Or.inl (listener waiting found)
    · rw [(others g other).2] at found
      exact Or.inr ⟨waiting,found,suffix_rfl⟩

theorem Quiet.mono {r' : Reactor} (recedes : Recedes r r') {a : Action} (quiet : r.Quiet a) : r'.Quiet a :=
  fun fd proc same input => quiet fd proc same (recedes.input fd input)

theorem recedes_act {a : Action} (quiet : r.Quiet a) : Recedes r (r.act a) := by
  cases a with
  | create fd direction proc =>
    rw [act]
    cases created : aeCreateFileEvent r.loop fd direction.mask proc with
    | none => exact Recedes.refl r
    | some loop =>
      obtain ⟨-,-,-,joined,same,others⟩ := aeCreateFileEvent_spec created
      refine Recedes.ofLoop ?_
      intro g input readable
      change (loop.events g).mask.readable = true at readable
      change _ ∧ (loop.events g).rfileProc = _
      rcases eq_or_ne g fd with rfl | apart
      · cases direction with
        | reading => exact absurd input (quiet g proc rfl)
        | writing =>
          rw [joined] at readable
          exact ⟨(or_eq_true _ _).mp readable |>.resolve_right (by decide),same rfl⟩
      · rw [others g apart] at readable ⊢
        exact ⟨readable,rfl⟩
  | delete fd direction =>
    obtain ⟨-,others,fewer,-,same⟩ := aeDeleteFileEvent_spec r.loop fd direction.mask
    refine Recedes.ofLoop ?_
    intro g input readable
    rcases eq_or_ne g fd with rfl | apart
    · exact ⟨fewer readable,same⟩
    · rw [others g apart] at readable ⊢
      exact ⟨readable,rfl⟩
  | socket => exact Recedes.ofSame rfl (fun fd s found => ⟨s,found,rfl,rfl,rfl⟩) rfl rfl
  | listen fd =>
    refine Recedes.ofOne fd (fun g apart => ⟨rfl,update_of_ne apart _ _⟩) ?_ (fun s found => found) ?_ rfl rfl
    · simp [HasInput,Host.listen]
    · intro waiting found
      simp only [Host.listen,update_self,some.injEq] at found
      exact found.symm
  | write fd len ok =>
    obtain ⟨socks,written⟩ := Host.write_host r.host fd len ok
    exact Recedes.ofSame (by rw [written]) (Host.write_kept r.host fd len ok) (by rw [written]) (by rw [written])
  | close fd =>
    refine Recedes.ofOne fd (fun g apart => ⟨update_of_ne apart _ _,update_of_ne apart _ _⟩) ?_ ?_ ?_ rfl rfl
    · simp [HasInput,Host.close]
    · intro s found
      simp [Host.close] at found
    · intro waiting found
      simp [Host.close] at found

theorem sound_update {socks : Nat → Option SockRecord} (sound : ∀ fd s, socks fd = some s → Sound s.chunks s.off) {fd : Nat}
    {new : Option SockRecord} (newSound : ∀ s, new = some s → Sound s.chunks s.off) :
    ∀ g s, update socks fd new g = some s → Sound s.chunks s.off := by
  intro g s found
  rcases update_some.mp found with ⟨-,placed⟩ | ⟨-,before⟩
  · exact newSound s placed
  · exact sound g s before

theorem Good.act (good : Good r) (a : Action) : Good (r.act a) := by
  cases a with
  | create fd direction proc =>
    rw [Reactor.act]
    cases created : aeCreateFileEvent r.loop fd direction.mask proc with
    | none => exact good
    | some loop =>
      obtain ⟨-,-,-,joined,-,others⟩ := aeCreateFileEvent_spec created
      refine ⟨good.bounded.create created,?_,good.sound⟩
      intro g
      change (loop.events g).mask.barrier = false
      rcases eq_or_ne g fd with rfl | apart
      · rw [joined]
        cases direction <;> exact (congrArg (· || false) (good.plain g))
      · rw [others g apart]
        exact good.plain g
  | delete fd direction =>
    obtain ⟨-,others,-,fewer,-⟩ := aeDeleteFileEvent_spec r.loop fd direction.mask
    refine ⟨good.bounded.delete fd direction.mask,?_,good.sound⟩
    intro g
    rcases eq_or_ne g fd with rfl | apart
    · exact eq_false_iff.mpr fun set => absurd (fewer set) (eq_false_iff.mp (good.plain g))
    · exact (congrArg (·.mask.barrier) (others g apart)).trans (good.plain g)
  | socket => exact ⟨good.bounded,good.plain,good.sound⟩
  | listen fd => exact ⟨good.bounded,good.plain,good.sound⟩
  | write fd len ok =>
    refine ⟨good.bounded,good.plain,?_⟩
    intro g s' found
    obtain ⟨s,before,chunks,off,-⟩ := Host.write_kept r.host fd len ok g s' found
    rw [chunks,off]
    exact good.sound g s before
  | close fd => exact ⟨good.bounded,good.plain,sound_update good.sound nofun⟩

theorem recedes_acts {actions : List Action} (quiet : ∀ a ∈ actions, r.Quiet a) : Recedes r (r.acts actions) := by
  induction actions generalizing r with
  | nil => exact Recedes.refl r
  | cons a actions ih =>
    have first := recedes_act (quiet a mem_cons_self)
    exact first.trans (ih fun b member => (quiet b (mem_cons_of_mem a member)).mono first)

theorem Good.acts (good : Good r) (actions : List Action) : Good (r.acts actions) := by
  induction actions generalizing r with
  | nil => exact good
  | cons a actions ih => exact ih (good.act a)

theorem recedes_accept {lfd cfd : Nat} {rest : List Nat} (waits : r.host.listeners lfd = some (cfd :: rest)) :
    Recedes r {r with host := {r.host with listeners := update r.host.listeners lfd (some rest)}} := by
  refine Recedes.ofHost ?_ ?_ (fun g s found => ⟨s,found,rfl,le_rfl,id⟩) ?_ rfl rfl
  · intro g input
    unfold HasInput at input ⊢
    dsimp only at input
    rcases eq_or_ne g lfd with rfl | apart
    · rw [waits]
      exact cons_ne_nil cfd rest
    · rwa [update_of_ne apart] at input
  · intro g _
    dsimp only
    rcases eq_or_ne g lfd with rfl | apart
    · rw [update_self,waits]
      rfl
    · rw [update_of_ne apart]
  · intro g waiting found
    rcases update_some.mp found with ⟨rfl,new⟩ | ⟨-,before⟩
    · cases new
      exact Or.inr ⟨cfd :: rest,waits,suffix_cons cfd rest⟩
    · exact Or.inr ⟨waiting,before,suffix_rfl⟩

theorem acceptLoop_spec (turn : Turn) (lfd max : Nat)
    (empty : ∀ waiting, r.host.listeners lfd = some waiting → ∀ cfd ∈ waiting, ¬ r.HasInput cfd) :
    Recedes r (acceptLoop turn lfd max r) ∧
    ((∀ waiting, r.host.listeners lfd = some waiting → waiting.length ≤ max) → (r.host.listeners lfd).isSome →
      ¬ (acceptLoop turn lfd max r).HasInput lfd) := by
  induction max generalizing r with
  | zero =>
    refine ⟨Recedes.refl r,?_⟩
    intro few listens
    obtain ⟨waiting,found⟩ := isSome_iff_exists.mp listens
    unfold acceptLoop HasInput
    rw [found]
    exact not_not_intro (eq_nil_of_length_eq_zero (Nat.le_zero.mp (few waiting found)))
  | succ max ih =>
    rcases Host.accept_cases r.host lfd with ⟨cfd,rest,waits,result⟩ | ⟨none_,result⟩
    · have idle := empty _ waits cfd mem_cons_self
      have other : lfd ≠ cfd := by
        rintro rfl
        apply idle
        unfold HasInput
        rw [waits]
        exact cons_ne_nil lfd rest
      have taken := recedes_accept waits
      -- the connection gets its read handler, or is closed
      obtain ⟨a,quiet,listeners,looped⟩ : ∃ a, r.Quiet a ∧
          ((act {r with host := {r.host with listeners := update r.host.listeners lfd (some rest)}} a).host.listeners lfd = some rest) ∧
          acceptLoop turn lfd (max + 1) r =
            acceptLoop turn lfd max (act {r with host := {r.host with listeners := update r.host.listeners lfd (some rest)}} a) := by
        rw [acceptLoop,result]
        dsimp only
        rw [if_neg (by omega),Int.toNat_natCast]
        split
        · refine ⟨.create cfd .reading .eventHandler,?_,update_self _ _ _,rfl⟩
          intro fd proc same
          cases same
          exact idle
        · refine ⟨.close cfd,nofun,?_,rfl⟩
          simp only [act,Host.close,update_of_ne other,update_self]
      have acted := taken.trans (recedes_act (quiet.mono taken))
      rw [looped]
      obtain ⟨recedes,served⟩ := ih (r := act _ a) (by
        intro waiting found fd member input
        rw [listeners] at found
        cases found
        exact empty _ waits fd (mem_cons_of_mem cfd member) (acted.input fd input))
      refine ⟨acted.trans recedes,?_⟩
      intro few _
      apply served
      · intro waiting found
        rw [listeners] at found
        cases found
        have bound := few _ waits
        rw [length_cons] at bound
        omega
      · rw [listeners]
        rfl
    · rw [acceptLoop,result]
      dsimp only
      rw [if_pos (by decide)]
      refine ⟨Recedes.refl r,?_⟩
      intro _ listens
      obtain ⟨waiting,found⟩ := isSome_iff_exists.mp listens
      unfold HasInput
      rw [found]
      exact not_not_intro (none_ waiting found)

theorem Good.acceptLoop (good : Good r) (turn : Turn) (lfd max : Nat) : Good (acceptLoop turn lfd max r) := by
  induction max generalizing r with
  | zero => exact good
  | succ max ih =>
    have after : Good {r with host := (r.host.accept lfd).2} := by
      refine ⟨good.bounded,good.plain,?_⟩
      rcases Host.accept_cases r.host lfd with ⟨cfd,rest,-,result⟩ | ⟨-,result⟩
      · rw [result]
        exact good.sound
      · rw [result]
        exact good.sound
    rw [Reactor.acceptLoop]
    dsimp only
    split
    · exact good
    · split
      · exact ih (after.act _)
      · exact ih (after.act _)

theorem Good.readOnce (good : Good r) (fd ptr len : Nat) : Good (r.readOnce fd ptr len) := by
  refine ⟨good.bounded,good.plain,?_⟩
  rw [Reactor.readOnce]
  cases here : r.host.socks fd with
  | none =>
    rw [Host.read,here]
    exact good.sound
  | some s₀ =>
    rcases Host.read_spec here (good.sound fd s₀ here) ptr len r.mem with ⟨-,result⟩ | ⟨-,s',result,sound,-⟩
    · rw [result]
      exact good.sound
    rw [result]
    refine sound_update good.sound ?_
    rintro s ⟨⟩
    exact sound

theorem readOnce_spec (good : Good r) (fd ptr len : Nat) :
    Recedes r (r.readOnce fd ptr len) ∧
    ((r.host.listeners fd).isSome = false →
      (∀ s, r.host.socks fd = some s → (buffered s.chunks s.off).length ≤ len ∧ (s.chunks ≠ [] → s.eof = false)) →
      ¬ (r.readOnce fd ptr len).HasInput fd) := by
  cases found : r.host.socks fd with
  | none =>
    have result : r.host.read fd ptr len r.mem = (-1,r.host,r.mem) := by rw [Host.read,found]
    rw [readOnce,result]
    dsimp only
    rw [if_neg (by decide)]
    refine ⟨Recedes.refl r,?_⟩
    rintro plain - input
    unfold HasInput at input
    rw [isSome_eq_false_iff,isNone_iff_eq_none] at plain
    rw [plain,found] at input
    obtain ⟨s,absent,-⟩ := input
    cases absent
  | some s =>
    have sound := good.sound fd s found
    have some_of : s.chunks = [] → buffered s.chunks s.off = [] := by
      intro empty
      rw [empty,buffered,flatten_nil,drop_nil]
    have fewer : ∀ (n : Int) g, (if n = 0 then update r.reported fd true else r.reported) g = false → r.reported g = false := by
      intro n g unreported
      split at unreported
      · rcases eq_or_ne g fd with rfl | apart
        · rw [update_self] at unreported
          cases unreported
        · rwa [update_of_ne apart] at unreported
      · exact unreported
    rcases Host.read_spec found sound ptr len r.mem with ⟨empty,result⟩ | ⟨some_,s',result,sound',left,eof⟩
    · rw [readOnce,result]
      refine ⟨Recedes.ofHost ?_ (fun _ _ => rfl) (fun _ t here => ⟨t,here,rfl,le_rfl,id⟩) (fun _ waiting here => Or.inr ⟨waiting,here,suffix_rfl⟩) rfl rfl,?_⟩
      · intro g input
        unfold HasInput at input ⊢
        dsimp only at input
        split at input
        · exact input
        · obtain ⟨t,here,cause⟩ := input
          exact ⟨t,here,cause.imp id fun ended => ⟨ended.1,fewer _ g ended.2⟩⟩
      · rintro plain - input
        rw [isSome_eq_false_iff,isNone_iff_eq_none] at plain
        unfold HasInput at input
        dsimp only at input
        rw [plain] at input
        obtain ⟨t,here,cause⟩ := input
        rw [found] at here
        cases here
        rcases cause with chunks | ⟨ended,unreported⟩
        · exact sound.buffered_ne chunks empty
        · rw [ended,if_pos rfl,if_pos rfl,update_self] at unreported
          cases unreported
    · rw [readOnce,result]
      have chunks : s.chunks ≠ [] := fun empty => some_ (some_of empty)
      refine ⟨Recedes.ofHost ?_ (fun _ _ => rfl) ?_ (fun _ waiting here => Or.inr ⟨waiting,here,suffix_rfl⟩) rfl rfl,?_⟩
      · intro g input
        unfold HasInput at input ⊢
        dsimp only at input
        split at input
        · exact input
        obtain ⟨t,here,cause⟩ := input
        rcases update_some.mp here with ⟨rfl,-⟩ | ⟨-,before⟩
        · exact ⟨s,found,Or.inl chunks⟩
        · exact ⟨t,before,cause.imp id fun ended => ⟨ended.1,fewer _ g ended.2⟩⟩
      · intro g t here
        rcases update_some.mp here with ⟨rfl,new⟩ | ⟨-,before⟩
        · cases new
          refine ⟨s,found,eof,?_,fun _ => chunks⟩
          rw [left,length_drop]
          omega
        · exact ⟨t,before,rfl,le_rfl,id⟩
      · intro plain small input
        obtain ⟨short,behind⟩ := small s rfl
        rw [isSome_eq_false_iff,isNone_iff_eq_none] at plain
        unfold HasInput at input
        dsimp only at input
        rw [plain] at input
        obtain ⟨t,here,cause⟩ := input
        rw [update_self] at here
        cases here
        rcases cause with more | ⟨ended,-⟩
        · apply sound'.buffered_ne more
          rw [left]
          exact drop_eq_nil_iff.mpr short
        · rw [eof,behind chunks] at ended
          cases ended

/-- A pass that finds little enough to be done: few connections are pending and none of them has
sent anything, no connection holds more than one read takes or an end behind its bytes, the
handlers read as much as they can and the guest asks for reading only where there is nothing to
be read. -/
structure Calm (max : Nat) (p : Pass) (r : Reactor) : Prop where
  few : ∀ lfd waiting, r.host.listeners lfd = some waiting → waiting.length ≤ max ∧ ∀ cfd ∈ waiting, ¬ r.HasInput cfd
  small : ∀ fd s, r.host.socks fd = some s → (buffered s.chunks s.off).length ≤ readLimit ∧ (s.chunks ≠ [] → s.eof = false)
  reads : ∀ fd, ∃ ptr, (p.turns fd).reads = some (ptr,readLimit)
  quiet : ∀ fd, ∀ a ∈ (p.turns fd).before ++ (p.turns fd).after, r.Quiet a
  timers : ∀ a ∈ p.timers, r.Quiet a
  served : ∀ fd, (r.loop.events fd).mask.readable = true →
    (r.loop.events fd).rfileProc = some (if (r.host.listeners fd).isSome then .acceptHandler else .eventHandler)

variable {h : Host}

section Passing
variable {max : Nat} {p : Pass} {start r : Reactor}

theorem Good.eventHandler (good : Good r) (turn : Turn) (fd : Nat) (mask : Mask) : Good (eventHandler turn fd mask r) := by
  have before := good.acts turn.before
  unfold Reactor.eventHandler
  dsimp only
  split
  · cases turn.reads with
    | none => exact before.acts _
    | some read => exact (before.readOnce fd read.1 read.2).acts _
  · exact before.acts _

theorem Good.handle (good : Good r) (proc : Proc) (fd : Nat) (mask : Mask) : Good (handle max p proc fd mask r) := by
  cases proc with
  | acceptHandler => exact good.acceptLoop _ fd max
  | eventHandler => exact good.eventHandler _ fd mask

section
variable (calm : Calm max p start) (since : Recedes start r) (good : Good r)
include calm since good

theorem eventHandler_spec (fd : Nat) (mask : Mask) :
    Recedes r (eventHandler (p.turns fd) fd mask r) ∧
    (mask.readable = true → (r.host.listeners fd).isSome = false → ¬ (eventHandler (p.turns fd) fd mask r).Waiting fd) := by
  obtain ⟨ptr,reads⟩ := calm.reads fd
  have before : Recedes r (r.acts (p.turns fd).before) :=
    recedes_acts fun a member => (calm.quiet fd a (mem_append_left _ member)).mono since
  have sinceBefore := since.trans before
  have after : ∀ {s : Reactor}, Recedes start s → Recedes s (s.acts (p.turns fd).after) := fun sinceRead =>
    recedes_acts fun a member => (calm.quiet fd a (mem_append_right _ member)).mono sinceRead
  unfold eventHandler
  rw [reads]
  dsimp only [map_some,getD_some]
  split
  · rename_i readable
    obtain ⟨taken,all⟩ := readOnce_spec (good.acts (p.turns fd).before) fd ptr readLimit
    have sinceRead := sinceBefore.trans taken
    refine ⟨(before.trans taken).trans (after sinceRead),?_⟩
    intro _ plain waits
    have input := (after sinceRead).input fd waits.2
    have still := taken.input fd input
    refine all ?_ ?_ input
    · rw [before.kind fd still,plain]
    intro s found
    obtain ⟨s₀,first,eof,shorter,chunks⟩ := sinceBefore.socks fd s found
    obtain ⟨short,behind⟩ := calm.small fd s₀ first
    exact ⟨shorter.trans short,fun some_ => eof.trans (behind (chunks some_))⟩
  · rename_i unread
    refine ⟨before.trans (after sinceBefore),?_⟩
    intro fires _ waits
    have still := ((after sinceBefore).waiting fd waits).1.1
    rw [fires,still] at unread
    exact unread rfl

theorem handle_spec (proc : Proc) (fd : Nat) (mask : Mask) :
    Recedes r (handle max p proc fd mask r) ∧
    (mask.readable = true → r.Waiting fd → (r.loop.events fd).rfileProc = some proc → ¬ (handle max p proc fd mask r).Waiting fd) := by
  have kind : r.Waiting fd → (r.loop.events fd).rfileProc = some (if (r.host.listeners fd).isSome then .acceptHandler else .eventHandler) := by
    intro waits
    obtain ⟨first,same⟩ := since.waiting fd waits
    rw [same,since.kind fd waits.2]
    exact calm.served fd first.1
  cases proc with
  | acceptHandler =>
    have accepted := acceptLoop_spec (p.turns fd) fd max (r := r) (by
      intro waiting found cfd member input
      rcases since.pending fd waiting found with rfl | ⟨first,there,suffix⟩
      · exact absurd member not_mem_nil
      · exact (calm.few fd first there).2 cfd (suffix.subset member) (since.input cfd input))
    refine ⟨accepted.1,?_⟩
    intro _ waits named now
    have listens : (r.host.listeners fd).isSome = true := by
      by_contra plain
      rw [kind waits,if_neg plain] at named
      cases named
    refine accepted.2 ?_ listens now.2
    intro waiting found
    rcases since.pending fd waiting found with rfl | ⟨first,there,suffix⟩
    · exact Nat.zero_le _
    · exact suffix.length_le.trans (calm.few fd first there).1
  | eventHandler =>
    obtain ⟨recedes,served⟩ := eventHandler_spec calm since good fd mask
    refine ⟨recedes,?_⟩
    intro fires waits named
    refine served fires ?_
    by_contra listens
    rw [not_eq_false] at listens
    rw [kind waits,if_pos listens] at named
    cases named

theorem invoke_spec (proc : Option Proc) (fd : Nat) (mask : Mask) :
    Good (invoke (handle max p) proc fd mask r) ∧ Recedes r (invoke (handle max p) proc fd mask r) := by
  cases proc with
  | none => exact ⟨good,Recedes.refl r⟩
  | some proc => exact ⟨good.handle proc fd mask,(handle_spec calm since good proc fd mask).1⟩

theorem dispatch_spec (fd : Nat) (mask : Mask) :
    Good (dispatch (·.loop) (handle max p) r (fd,mask)) ∧ Recedes r (dispatch (·.loop) (handle max p) r (fd,mask)) ∧
    (mask.readable = true → ¬ (dispatch (·.loop) (handle max p) r (fd,mask)).Waiting fd) := by
  unfold dispatch
  dsimp only
  rw [good.plain fd,Bool.not_false,Bool.true_and,Bool.false_and,Bool.false_and,if_neg Bool.false_ne_true]
  -- the readable event, then the writable one
  have first : ∃ r₁, (if ((r.loop.events fd).mask.inter mask).readable = true then
        invoke (handle max p) (r.loop.events fd).rfileProc fd mask r else r) = r₁ ∧
      Good r₁ ∧ Recedes r r₁ ∧ (mask.readable = true → ¬ r₁.Waiting fd) := by
    refine ⟨_,rfl,?_⟩
    split
    · obtain ⟨good₁,recedes₁⟩ := invoke_spec calm since good (r.loop.events fd).rfileProc fd mask
      refine ⟨good₁,recedes₁,?_⟩
      intro fires waits
      obtain ⟨before,-⟩ := recedes₁.waiting fd waits
      cases named : (r.loop.events fd).rfileProc with
      | none =>
        have proc := calm.served fd (since.waiting fd before).1.1
        rw [← (since.waiting fd before).2,named] at proc
        cases proc
      | some proc =>
        rw [named] at waits
        exact (handle_spec calm since good proc fd mask).2 fires before named waits
    · rename_i quiet
      refine ⟨good,Recedes.refl r,?_⟩
      intro fires waits
      apply quiet
      rw [Mask.inter,fires,waits.1]
      rfl
  obtain ⟨r₁,same,good₁,recedes₁,served⟩ := first
  rw [same]
  split
  · obtain ⟨good₂,recedes₂⟩ := invoke_spec calm (since.trans recedes₁) good₁ (r₁.loop.events fd).wfileProc fd mask
    exact ⟨good₂,recedes₁.trans recedes₂,fun fires waits => served fires (recedes₂.waiting fd waits).1⟩
  · exact ⟨good₁,recedes₁,served⟩

theorem foldl_dispatch_spec (fired : List (Nat × Mask)) :
    Good (fired.foldl (dispatch (·.loop) (handle max p)) r) ∧ Recedes r (fired.foldl (dispatch (·.loop) (handle max p)) r) ∧
    ∀ fd mask, (fd,mask) ∈ fired → mask.readable = true → ¬ (fired.foldl (dispatch (·.loop) (handle max p)) r).Waiting fd := by
  induction fired generalizing r with
  | nil => exact ⟨good,Recedes.refl r,nofun⟩
  | cons event fired ih =>
    obtain ⟨good₁,recedes₁,served₁⟩ := dispatch_spec calm since good event.1 event.2
    obtain ⟨good₂,recedes₂,served₂⟩ := ih (since.trans recedes₁) good₁
    refine ⟨good₂,recedes₁.trans recedes₂,?_⟩
    intro fd mask member fires waits
    rcases mem_cons.mp member with rfl | later
    · exact served₁ fires (recedes₂.waiting fd waits).1
    · exact served₂ fd mask later fires waits

end

theorem mem_poll {asked : List (Nat × Mask)} {limit : Nat} (enough : asked.length ≤ limit) {fd : Nat} {mask : Mask}
    (member : (fd,mask) ∈ asked) (ready : h.ready fd mask ≠ .none) : (fd,h.ready fd mask) ∈ h.poll asked limit := by
  rw [poll_eq h enough]
  exact mem_filterMap.mpr ⟨_,member,if_neg ready⟩

theorem ready_of_input {fd : Nat} {mask : Mask} (asks : mask.readable = true) (input : r.HasInput fd) :
    (r.host.ready fd mask).readable = true := by
  unfold HasInput at input
  unfold Host.ready
  cases listens : r.host.listeners fd with
  | some pending =>
    rw [listens] at input
    simp [asks,input,Mask.read]
  | none =>
    rw [listens] at input
    obtain ⟨s,found,cause⟩ := input
    rw [found]
    rcases cause with some_ | ⟨ended,-⟩
    · simp [asks,some_]
    · simp [asks,ended]

theorem rkStep_spec (good : Good r) (calm : Calm max p (if r.loop.maxfd ≠ -1 then r.acts p.beforeSleep else r)) :
    Good (rkStep max p r) ∧ ∀ fd, ¬ (rkStep max p r).Waiting fd := by
  unfold rkStep
  split
  · rename_i used
    rw [if_pos used] at calm
    have awake := good.acts p.beforeSleep
    obtain ⟨good₁,recedes,served⟩ := foldl_dispatch_spec calm (Recedes.refl _) awake
      ((r.acts p.beforeSleep).host.poll (interest (r.acts p.beforeSleep).loop) (r.acts p.beforeSleep).loop.setsize)
    have timers := recedes_acts fun a member => (calm.timers a member).mono recedes
    refine ⟨good₁.acts p.timers,?_⟩
    intro fd waits
    obtain ⟨now,-⟩ := timers.waiting fd waits
    obtain ⟨asks,input⟩ := (recedes.waiting fd now).1
    have registered : ((r.acts p.beforeSleep).loop.events fd).mask ≠ .none := by
      intro none_
      rw [none_] at asks
      cases asks
    have ready := ready_of_input asks input
    refine served fd _ (mem_poll (length_interest_le awake.bounded) (mem_interest awake.bounded registered) ?_) ready now
    intro none_
    rw [none_] at ready
    cases ready
  · rename_i unused
    rw [if_neg unused] at calm
    refine ⟨good.acts p.timers,?_⟩
    intro fd waits
    obtain ⟨⟨asks,-⟩,-⟩ := (recedes_acts calm.timers).waiting fd waits
    have below := good.bounded.below fd (by
      intro none_
      rw [none_] at asks
      cases asks)
    omega

end Passing

def CalmPass (max : Nat) (p : Pass) (r : Reactor) : Prop := Calm max p (if r.loop.maxfd ≠ -1 then r.acts p.beforeSleep else r)

/-- What the reactor is driven by, when nothing is lost: besides calm passes, chunks that are not
empty, and an error only on a connection that is not read or with a pass scheduled. -/
def CalmDrive (max : Nat) (r : Reactor) : Drive → Prop
  | .boot actions => ∀ a ∈ actions, r.Quiet a
  | .data _ buf => buf ≠ []
  | .error fd => r.host.stepScheduled = true ∨ (r.loop.events fd).mask.readable = false
  | .microtask p => CalmPass max p {r with host := {r.host with stepScheduled := false}}
  | .timer p => CalmPass max p r
  | _ => True

def CalmRun (max : Nat) : Reactor → List Drive → Prop
  | _, [] => True
  | r, d :: script => CalmDrive max r d ∧ CalmRun max (r.drive max d) script

/-- Whatever waits, a pass is scheduled for it. -/
structure Awake (r : Reactor) : Prop where
  good : Good r
  awake : r.host.closed = true ∨ r.host.stepScheduled = true ∨ ∀ fd, ¬ r.Waiting fd

theorem scheduleStep_awake (h : Host) : h.scheduleStep.closed = true ∨ h.scheduleStep.stepScheduled = true := by
  unfold Host.scheduleStep
  split
  · rename_i already
    exact ((or_eq_true _ _).mp already).symm
  · exact Or.inr rfl

theorem Awake.scheduled (good : Good r)
    (sound : ∀ fd s, h.socks fd = some s → Sound s.chunks s.off) : Awake {r with host := h.scheduleStep} := by
  refine ⟨⟨good.bounded,good.plain,?_⟩,?_⟩
  · intro fd s found
    rw [Host.scheduleStep_socks] at found
    exact sound fd s found
  · exact (scheduleStep_awake h).imp_right Or.inl

theorem sound_onSock (sound : ∀ fd s, h.socks fd = some s → Sound s.chunks s.off) (fd : Nat) {f : SockRecord → SockRecord}
    (keeps : ∀ s, Sound s.chunks s.off → Sound (f s).chunks (f s).off) : ∀ g s, (h.onSock fd f).socks g = some s → Sound s.chunks s.off := by
  rw [Host.onSock_socks]
  refine sound_update sound ?_
  intro s new
  obtain ⟨before,there,rfl⟩ := map_eq_some_iff.mp new
  exact keeps before (sound fd before there)

variable {max : Nat}

theorem Awake.pass (good : Good r) {p : Pass} (calm : CalmPass max p r) : Awake (pass max p r) := by
  unfold Reactor.pass
  split
  · rename_i closed
    exact ⟨good,Or.inl closed⟩
  · obtain ⟨good',none_⟩ := rkStep_spec good calm
    exact ⟨good',Or.inr (Or.inr none_)⟩

theorem Awake.drive (awake : Awake r) {d : Drive} (calm : CalmDrive max r d) : Awake (r.drive max d) := by
  have good := awake.good
  cases d with
  | boot actions =>
    have recedes := recedes_acts calm
    refine ⟨good.acts actions,?_⟩
    change (r.acts actions).host.closed = true ∨ (r.acts actions).host.stepScheduled = true ∨ ∀ fd, ¬ (r.acts actions).Waiting fd
    rw [recedes.closed,recedes.scheduled]
    exact awake.awake.imp_right (Or.imp_right fun none_ fd waits => none_ fd (recedes.waiting fd waits).1)
  | connection lfd =>
    refine Awake.scheduled good (sound_update good.sound ?_)
    rintro s ⟨⟩
    exact sound_nil
  | data fd buf => exact Awake.scheduled good (sound_onSock good.sound fd fun s sound => (sound.push calm).1)
  | ended fd => exact Awake.scheduled good (sound_onSock good.sound fd fun s sound => sound)
  | closed fd => exact Awake.scheduled good (sound_onSock good.sound fd fun s sound => sound)
  | drain fd => exact Awake.scheduled good (sound_onSock good.sound fd fun s sound => sound)
  | error fd =>
    refine ⟨⟨good.bounded,good.plain,sound_onSock good.sound fd fun s sound => sound⟩,?_⟩
    rcases calm with scheduled | unread
    · exact Or.inr (Or.inl scheduled)
    refine awake.awake.imp_right (Or.imp_right fun none_ g waits => ?_)
    rcases eq_or_ne g fd with rfl | apart
    · have asks := waits.1
      change (r.loop.events g).mask.readable = true at asks
      rw [unread] at asks
      cases asks
    refine none_ g ⟨waits.1,?_⟩
    have input := waits.2
    unfold HasInput at input ⊢
    simp only [Reactor.drive,Host.onError,Host.onSock_listeners,Host.onSock_socks,update_of_ne apart] at input
    exact input
  | microtask p =>
    have asleep : Good {r with host := {r.host with stepScheduled := false}} := ⟨good.bounded,good.plain,good.sound⟩
    unfold Reactor.drive
    dsimp only
    split
    · exact Awake.pass asleep calm
    · exact awake
  | timer p => exact Awake.pass good calm
  | stop => exact ⟨⟨good.bounded,good.plain,nofun⟩,Or.inl rfl⟩

theorem Awake.run (awake : Awake r) {script : List Drive} (calm : CalmRun max r script) :
    Awake (script.foldl (Reactor.drive max) r) := by
  induction script generalizing r with
  | nil => exact awake
  | cons d script ih => exact ih (awake.drive calm.1) calm.2

theorem Awake.initial (setsize : Nat) (mem : Bytes) : Awake (Reactor.initial setsize mem) :=
  ⟨⟨aeCreateEventLoop_bounded setsize,fun _ => rfl,nofun⟩,Or.inr (Or.inr fun _ waits => by cases waits.1)⟩

end Reactor

/-- In a run whose passes all are calm no wakeup is lost: when no pass is scheduled, nothing that
the event loop has asked for is there. -/
theorem no_lost_wakeup (max setsize : Nat) (mem : Bytes) (script : List Drive) (calm : Reactor.CalmRun max (.initial setsize mem) script)
    (idle : (Reactor.run max setsize mem script).host.stepScheduled = false) (running : (Reactor.run max setsize mem script).host.closed = false)
    (fd : Nat) : ¬ (Reactor.run max setsize mem script).Waiting fd := by
  rcases ((Reactor.Awake.initial setsize mem).run calm).awake with closed | scheduled | none_
  · exact absurd closed (eq_false_iff.mp running)
  · exact absurd scheduled (eq_false_iff.mp idle)
  · exact none_ fd

def plainPass : Pass := ⟨[],fun _ => ⟨fun _ => true,some (0,readLimit),[],[]⟩,[]⟩

def firstClient : List Drive :=
  [.boot [.socket,.listen hostFdBase,.create hostFdBase .reading .acceptHandler],.connection hostFdBase,.microtask plainPass]

def greeted : Reactor where
  host := ⟨4098,Function.update (fun _ => none) 4097 (some ⟨[],0,false,false⟩),Function.update (fun _ => none) 4096 (some [4097]),false,false⟩
  loop := ⟨10128,4096,Function.update (fun _ => ⟨.none,none,none⟩) 4096 ⟨.read,some .acceptHandler,none⟩⟩
  mem := fun _ => 0
  reported := fun _ => false

theorem greeted_calm : Reactor.Calm 10 plainPass greeted := by
  have idle : ¬ greeted.HasInput 4097 := by simp [Reactor.HasInput,greeted]
  refine ⟨?_,?_,fun _ => ⟨0,rfl⟩,nofun,nofun,?_⟩
  · intro lfd waiting found
    rcases eq_or_ne lfd 4096 with rfl | apart
    · simp only [greeted,update_self,some.injEq] at found
      subst found
      refine ⟨by decide,?_⟩
      intro cfd member
      rw [mem_singleton.mp member]
      exact idle
    · simp [greeted,update_of_ne apart] at found
  · intro fd s found
    rcases eq_or_ne fd 4097 with rfl | apart
    · simp only [greeted,update_self,some.injEq] at found
      subst found
      exact ⟨by decide,fun some_ => absurd rfl some_⟩
    · simp [greeted,update_of_ne apart] at found
  · intro fd asks
    rcases eq_or_ne fd 4096 with rfl | apart
    · simp [greeted]
    · simp [greeted,update_of_ne apart,Mask.none] at asks

theorem firstClient_calm : Reactor.CalmRun 10 (.initial 10128 fun _ => 0) firstClient := by
  refine ⟨?_,trivial,?_,trivial⟩
  · intro a member fd proc same input
    obtain ⟨s,found,-⟩ := input
    cases found
  have state : ((Reactor.initial 10128 fun _ => 0).drive 10 (.boot [.socket,.listen hostFdBase,.create hostFdBase .reading .acceptHandler])).drive 10
      (.connection hostFdBase) = {greeted with host := {greeted.host with stepScheduled := true}} := by
    simp [Reactor.drive,Reactor.acts,Reactor.act,Reactor.initial,Host.initial,Host.allocFd,Host.listen,Host.connection,Host.scheduleStep,greeted,
      aeCreateFileEvent,aeCreateEventLoop,Direction.mask,Mask.union,Mask.read,Mask.none,hostFdBase]
  rw [state]
  exact greeted_calm

structure Connected (r : Reactor) : Prop where
  asked : interest r.loop = [(4096,.read),(4097,.read)]
  maxfd : r.loop.maxfd = 4097
  slots : 0 < r.loop.setsize
  handler : r.loop.events 4097 = ⟨.read,some .eventHandler,none⟩
  sock : r.host.socks 4097 = some ⟨[],0,false,false⟩
  listener : r.host.listeners 4096 = some []
  plain : r.host.listeners 4097 = none
  idle : r.host.stepScheduled = false
  running : r.host.closed = false

theorem firstClient_connected : Connected (Reactor.run 10 10128 (fun _ => 0) firstClient) := by
  generalize state : Reactor.run 10 10128 (fun _ => 0) firstClient = r
  have all : interest r.loop = [(4096,.read),(4097,.read)] ∧ r.loop.maxfd = 4097 ∧ 0 < r.loop.setsize ∧
      r.loop.events 4097 = ⟨.read,some .eventHandler,none⟩ ∧ r.host.socks 4097 = some ⟨[],0,false,false⟩ ∧ r.host.listeners 4096 = some [] ∧
      r.host.listeners 4097 = none ∧ r.host.stepScheduled = false ∧ r.host.closed = false := by
    rw [← state]
    decide +kernel
  obtain ⟨asked,maxfd,slots,handler,sock,listener,plain,idle,running⟩ := all
  exact ⟨asked,maxfd,slots,handler,sock,listener,plain,idle,running⟩

theorem no_lost_wakeup_firstClient : ¬ (Reactor.run 10 10128 (fun _ => 0) firstClient).Waiting 4097 :=
  no_lost_wakeup 10 10128 (fun _ => 0) firstClient firstClient_calm firstClient_connected.idle firstClient_connected.running 4097

theorem Connected.leftover (connected : Connected r) {buf : Chunk} (long : readLimit < buf.length) :
    ((r.drive 10 (.data 4097 buf)).drive 10 (.microtask plainPass)).host.stepScheduled = false ∧
    ((r.drive 10 (.data 4097 buf)).drive 10 (.microtask plainPass)).host.closed = false ∧
    ((r.drive 10 (.data 4097 buf)).drive 10 (.microtask plainPass)).Waiting 4097 := by
  obtain ⟨asked,maxfd,slots,handler,sock,listener,plain,idle,running⟩ := connected
  have nonempty : buf ≠ [] := ne_nil_of_length_pos (by unfold readLimit at long; omega)
  -- the state in which the pass runs
  generalize loaded : {r with host := {r.host with socks := update r.host.socks 4097 (some ⟨[buf],0,false,false⟩)}} = r₁
  have pass : (r.drive 10 (.data 4097 buf)).drive 10 (.microtask plainPass) = r₁.rkStep 10 plainPass := by
    rw [← loaded]
    simp [Reactor.drive,Host.onData,Host.scheduleStep,Host.onSock,Reactor.pass,idle,running,sock]
  have held : r₁.host.socks 4097 = some ⟨[buf],0,false,false⟩ := by
    simp [← loaded]
  have fires : r₁.host.poll (interest r₁.loop) r₁.loop.setsize = [(4097,.read)] := by
    obtain ⟨n,size⟩ : ∃ n, r.loop.setsize = n + 1 := ⟨r.loop.setsize - 1,by omega⟩
    rw [← loaded]
    rw [asked,size]
    simp [Host.poll,Host.ready,listener,plain,Mask.read,Mask.none]
  have turn : r₁.rkStep 10 plainPass = r₁.readOnce 4097 0 readLimit := by
    have here : r₁.loop.events 4097 = ⟨.read,some .eventHandler,none⟩ := by rw [← loaded]; exact handler
    have used : r₁.loop.maxfd ≠ -1 := by rw [← loaded]; dsimp only; omega
    have still : (r₁.readOnce 4097 0 readLimit).loop = r₁.loop := rfl
    rw [Reactor.rkStep,if_pos used]
    simp [Reactor.acts,plainPass,fires,dispatch,here,Mask.inter,Mask.read,invoke,Reactor.handle,Reactor.eventHandler,still]
  have whole : buffered [buf] 0 = buf := by simp [buffered]
  have sound : Sound [buf] 0 := by
    refine ⟨?_,?_,fun empty => absurd empty (cons_ne_nil buf [])⟩
    · intro c member
      rw [mem_singleton.mp member]
      exact nonempty
    · intro head first
      cases first
      exact length_pos_of_ne_nil nonempty
  rcases Host.read_spec held sound 0 readLimit r₁.mem with ⟨empty,-⟩ | ⟨-,s',result,-,left,-⟩
  · exact absurd (whole.symm.trans empty) nonempty
  have rest : s'.chunks ≠ [] := by
    intro empty
    rw [empty,whole,buffered,flatten_nil,drop_nil] at left
    have short := drop_eq_nil_iff.mp left.symm
    omega
  rw [pass,turn,Reactor.readOnce,result,← loaded]
  refine ⟨idle,running,?_,?_⟩
  · dsimp only
    rw [handler]
    rfl
  unfold Reactor.HasInput
  dsimp only
  rw [plain]
  exact ⟨s',update_self _ _ _,Or.inl rest⟩

theorem wakeup_lost : ∃ script : List Drive, (Reactor.run 10 10128 (fun _ => 0) script).host.stepScheduled = false ∧
    (Reactor.run 10 10128 (fun _ => 0) script).host.closed = false ∧ ∃ fd, (Reactor.run 10 10128 (fun _ => 0) script).Waiting fd := by
  refine ⟨firstClient ++ [.data 4097 (List.replicate 20000 0),.microtask plainPass],?_⟩
  have long : readLimit < (List.replicate 20000 (0 : BitVec 8)).length := by
    rw [length_replicate]
    decide
  obtain ⟨idle,running,waits⟩ := firstClient_connected.leftover long
  simp only [Reactor.run_append,foldl_cons,foldl_nil]
  exact ⟨idle,running,4097,waits⟩

end ValkeyWasm.Bridge
