import ValkeyWasm.Bridge.Host
import Mathlib.Data.List.Infix

/-! Runs of the bridge, and the byte stream of a connection.
A run is any interleaving of socket callbacks and calls of the guest. -/
namespace ValkeyWasm.Bridge
open Library.Memory Library.Dictionary Function List Option Nat

inductive Event where
  | connection (lfd : Nat)
  | data (fd : Nat) (buf : Chunk)
  | ended (fd : Nat)
  | closed (fd : Nat)
  | error (fd : Nat)
  | drain (fd : Nat)
  | microtask
  | stop
  | socket
  | listen (fd : Nat)
  | accept (lfd : Nat)
  | read (fd ptr len : Nat)
  | write (fd len : Nat) (ok : Bool)
  | close (fd : Nat)
  deriving DecidableEq, Repr

/-- The host and the memory of the guest, with what has been seen so far: the descriptors that
`accept` returned and for each descriptor the bytes received, the bytes read and the end. -/
structure World where
  host : Host
  mem : Bytes
  accepted : List Nat
  received : Nat → Chunk
  returned : Nat → Chunk
  eofSeen : Nat → Bool

namespace World

def initial (mem : Bytes) : World := ⟨.initial,mem,[],fun _ => [],fun _ => [],fun _ => false⟩

def isOpen (w : World) (fd : Nat) : Bool := (w.host.socks fd).isSome

def sawEnd (w : World) (fd : Nat) (host : Host) : World :=
  {w with host, eofSeen := Function.update w.eofSeen fd (w.eofSeen fd || w.isOpen fd)}

def step (w : World) : Event → World
  | .connection lfd => {w with host := w.host.connection lfd}
  | .data fd buf => {w with
      host := w.host.onData fd buf
      received := Function.update w.received fd (w.received fd ++ if w.isOpen fd then buf else [])}
  | .ended fd => w.sawEnd fd (w.host.onEnd fd)
  | .closed fd => w.sawEnd fd (w.host.onEnd fd)
  | .error fd => w.sawEnd fd (w.host.onError fd)
  | .drain fd => {w with host := w.host.onDrain fd}
  | .microtask => {w with host := {w.host with stepScheduled := false}}
  | .stop => {w with host := w.host.stop}
  | .socket => {w with host := w.host.allocFd.2}
  | .listen fd => {w with host := (w.host.listen fd).2}
  | .accept lfd =>
    let (cfd,host) := w.host.accept lfd
    {w with host, accepted := if 0 ≤ cfd then w.accepted ++ [cfd.toNat] else w.accepted}
  | .read fd ptr len =>
    let (n,host,mem) := w.host.read fd ptr len w.mem
    {w with host, mem, returned := Function.update w.returned fd (w.returned fd ++ (List.range n.toNat).map (fun i => mem (ptr + i)))}
  | .write fd len ok => {w with host := (w.host.write fd len ok).2}
  | .close fd => {w with host := w.host.close fd}

def run (mem : Bytes) (events : List Event) : World := events.foldl step (initial mem)

theorem run_append (mem : Bytes) (events : List Event) (e : Event) : run mem (events ++ [e]) = (run mem events).step e := by
  rw [run,foldl_append]
  rfl

end World

def buffered (chunks : List Chunk) (off : Nat) : Chunk := chunks.flatten.drop off

structure Sound (chunks : List Chunk) (off : Nat) : Prop where
  nonempty : ∀ c ∈ chunks, c ≠ []
  inside : ∀ head, chunks.head? = some head → off < head.length
  reset : chunks = [] → off = 0

theorem sound_nil : Sound [] 0 := ⟨nofun,nofun,fun _ => rfl⟩

variable {off : Nat} {head : Chunk} {rest : List Chunk}

theorem buffered_cons (inside : off ≤ head.length) :
    buffered (head :: rest) off = head.drop off ++ buffered rest 0 := by
  rw [buffered,flatten_cons,drop_append_of_le_length inside]
  rfl

theorem Sound.tail (sound : Sound (head :: rest) off) : Sound rest 0 := by
  refine ⟨fun c member => sound.nonempty c (mem_cons_of_mem head member),?_,fun _ => rfl⟩
  intro c first
  exact length_pos_of_ne_nil (sound.nonempty c (mem_cons_of_mem head (mem_of_mem_head? first)))

variable {chunks : List Chunk}

theorem Sound.buffered_ne (sound : Sound chunks off) (some_ : chunks ≠ []) : buffered chunks off ≠ [] := by
  obtain ⟨head,rest,rfl⟩ := exists_cons_of_ne_nil some_
  have inside := sound.inside head rfl
  rw [buffered_cons inside.le]
  intro empty
  have short := drop_eq_nil_iff.mp (append_eq_nil_iff.mp empty).1
  omega

theorem readLoop_spec (ptr : Nat) {len : Nat} {written : Nat} (mem : Bytes) (sound : Sound chunks off) (le : written ≤ len) :
    ∃ chunks' off', readLoop ptr len chunks off written mem = (chunks',off',written + min (len - written) (buffered chunks off).length,
        writeBytes mem (ptr + written) ((buffered chunks off).take (len - written))) ∧
      Sound chunks' off' ∧ buffered chunks' off' = (buffered chunks off).drop (len - written) := by
  fun_induction readLoop ptr len chunks off written mem with
  | case1 off written mem =>
    obtain rfl : off = 0 := sound.reset rfl
    exact ⟨[],0,by simp [buffered],sound,by simp [buffered]⟩
  | case2 off written mem head rest more n mem' shifted ih =>
    have inside := sound.inside head rfl
    -- the whole rest of the first chunk is copied
    have all : n = head.length - off := by omega
    have length : (head.drop off).length = n := by rw [length_drop,all]
    obtain ⟨chunks',off',looped,sound',left⟩ := ih sound.tail (by omega)
    have remaining : len - written = n + (len - (written + n)) := by omega
    refine ⟨chunks',off',?_,sound',?_⟩
    · have copied : mem' = writeBytes mem (ptr + written) (head.drop off) := by
        unfold mem'
        rw [take_of_length_le length.le]
      rw [looped,buffered_cons inside.le,length_append,length,copied,remaining,← length,take_length_add_append,← writeBytes_append,
        add_assoc,← Nat.add_min_add_left]
      simp only [add_assoc]
    · rw [left,buffered_cons inside.le,remaining,← length,drop_length_add_append]
  | case3 off written mem head rest more n mem' short ih =>
    have inside := sound.inside head rfl
    -- the first chunk is enough, and the loop ends
    have all : n = len - written := by omega
    have reached : written + n = len := by omega
    have kept : Sound (head :: rest) (off + n) := by
      refine ⟨sound.nonempty,?_,fun empty => absurd empty (cons_ne_nil head rest)⟩
      intro c first
      cases first
      omega
    obtain ⟨chunks',off',looped,sound',left⟩ := ih kept reached.le
    have long : n ≤ (head.drop off).length := by
      rw [length_drop]
      omega
    refine ⟨chunks',off',?_,sound',?_⟩
    · rw [looped,reached,Nat.sub_self,zero_min,take_zero,writeBytes_nil,buffered_cons inside.le,length_append,← all,
        take_append_of_le_length long,min_eq_left (by omega),reached]
      rfl
    · rw [left,reached,Nat.sub_self,drop_zero,← all,buffered,buffered,drop_drop]
  | case4 off written mem head rest full =>
    have reached : written = len := by omega
    subst reached
    refine ⟨head :: rest,off,?_,sound,?_⟩
    · rw [Nat.sub_self,zero_min,take_zero,writeBytes_nil]
      rfl
    · rw [Nat.sub_self,drop_zero]

theorem Sound.push (sound : Sound chunks off) {buf : Chunk} (some_ : buf ≠ []) :
    Sound (chunks ++ [buf]) off ∧ buffered (chunks ++ [buf]) off = buffered chunks off ++ buf := by
  cases chunks with
  | nil =>
    obtain rfl : off = 0 := sound.reset rfl
    refine ⟨⟨?_,?_,fun empty => absurd empty (by simp)⟩,by simp [buffered]⟩
    · intro c member
      rw [mem_singleton.mp member]
      exact some_
    · intro head first
      cases first
      exact length_pos_of_ne_nil some_
  | cons head rest =>
    have inside := sound.inside head rfl
    refine ⟨⟨?_,sound.inside,fun empty => absurd empty (by simp)⟩,?_⟩
    · intro c member
      rcases mem_append.mp member with old | new
      · exact sound.nonempty c old
      · rw [mem_singleton.mp new]
        exact some_
    · rw [cons_append,buffered_cons inside.le,buffered_cons inside.le,append_assoc]
      simp [buffered]

theorem Host.read_spec {h : Host} {fd : Nat} {s : SockRecord} (found : h.socks fd = some s) (sound : Sound s.chunks s.off)
    (ptr len : Nat) (mem : Bytes) :
    (buffered s.chunks s.off = [] ∧ h.read fd ptr len mem = (if s.eof then 0 else -1,h,mem)) ∨
    (buffered s.chunks s.off ≠ [] ∧ ∃ s', h.read fd ptr len mem = (((min len (buffered s.chunks s.off).length : Nat) : Int),
        {h with socks := update h.socks fd (some s')},writeBytes mem ptr ((buffered s.chunks s.off).take len)) ∧
      Sound s'.chunks s'.off ∧ buffered s'.chunks s'.off = (buffered s.chunks s.off).drop len ∧ s'.eof = s.eof) := by
  unfold Host.read
  rw [found]
  dsimp only
  split
  · rename_i empty
    refine Or.inl ⟨?_,rfl⟩
    rw [empty,buffered,flatten_nil,drop_nil]
  rename_i some_
  obtain ⟨chunks',off',looped,sound',left⟩ := readLoop_spec ptr mem sound (zero_le len)
  refine Or.inr ⟨sound.buffered_ne some_,{s with chunks := chunks',off := off'},?_,sound',left,rfl⟩
  rw [looped,zero_add,add_zero,Nat.sub_zero]

theorem Host.onSock_kept {h : Host} {fd : Nat} {f : SockRecord → SockRecord} (same : ∀ s, (f s).chunks = s.chunks ∧ (f s).off = s.off ∧ (f s).eof = s.eof)
    (other : Nat) (s' : SockRecord) (found : (h.onSock fd f).socks other = some s') :
    ∃ s, h.socks other = some s ∧ s'.chunks = s.chunks ∧ s'.off = s.off ∧ s'.eof = s.eof := by
  rw [Host.onSock_socks] at found
  rcases update_some.mp found with ⟨rfl,new⟩ | ⟨-,before⟩
  · obtain ⟨s,present,rfl⟩ := map_eq_some_iff.mp new
    exact ⟨s,present,same s⟩
  · exact ⟨s',before,rfl,rfl,rfl⟩

theorem Host.write_kept (h : Host) (fd len : Nat) (ok : Bool) (other : Nat) (s' : SockRecord) (found : (h.write fd len ok).2.socks other = some s') :
    ∃ s, h.socks other = some s ∧ s'.chunks = s.chunks ∧ s'.off = s.off ∧ s'.eof = s.eof := by
  have unchanged : h.socks other = some s' → ∃ s, h.socks other = some s ∧ s'.chunks = s.chunks ∧ s'.off = s.off ∧ s'.eof = s.eof :=
    fun same => ⟨s',same,rfl,rfl,rfl⟩
  unfold Host.write at found
  split at found
  · exact unchanged found
  split at found
  · exact unchanged found
  split at found
  · exact unchanged found
  · exact Host.onSock_kept (fun _ => by exact ⟨rfl,rfl,rfl⟩) other s' found

namespace World

/-- Every byte received has been read or is still buffered, in order. -/
structure Faithful (w : World) : Prop where
  fresh : ∀ fd, w.host.nextFd ≤ fd → w.host.socks fd = none ∧ w.received fd = [] ∧ w.returned fd = [] ∧ w.eofSeen fd = false
  ordered : ∀ fd, w.returned fd <+: w.received fd
  stream : ∀ fd s, w.host.socks fd = some s →
    Sound s.chunks s.off ∧ w.received fd = w.returned fd ++ buffered s.chunks s.off ∧ s.eof = w.eofSeen fd

theorem Faithful.initial (mem : Bytes) : Faithful (World.initial mem) := by
  refine ⟨fun fd _ => ⟨rfl,rfl,rfl,rfl⟩,fun fd => prefix_rfl,?_⟩
  intro fd s found
  cases found

variable {w : World}

section
variable (faithful : Faithful w)
include faithful

theorem Faithful.frame (host : Host) {accepted : List Nat} (grows : w.host.nextFd ≤ host.nextFd)
    (kept : ∀ fd s', host.socks fd = some s' → ∃ s, w.host.socks fd = some s ∧ s'.chunks = s.chunks ∧ s'.off = s.off ∧ s'.eof = s.eof) :
    Faithful {w with host := host, accepted := accepted} := by
  refine ⟨?_,faithful.ordered,?_⟩
  · intro fd after
    obtain ⟨absent,ghost⟩ := faithful.fresh fd (grows.trans after)
    refine ⟨?_,ghost⟩
    cases found : host.socks fd with
    | none => rfl
    | some s' =>
      obtain ⟨s,present,-⟩ := kept fd s' found
      rw [absent] at present
      cases present
  · intro fd s' found
    obtain ⟨s,present,chunks,off,eof⟩ := kept fd s' found
    rw [chunks,off,eof]
    exact faithful.stream fd s present

theorem Faithful.connection (lfd : Nat) : Faithful (w.step (.connection lfd)) := by
  refine ⟨?_,faithful.ordered,?_⟩
  · intro fd after
    simp only [step,Host.connection,Host.allocFd,Host.scheduleStep_nextFd] at after
    simp only [step,Host.connection,Host.allocFd,Host.scheduleStep_socks]
    rw [update_of_ne (by omega)]
    exact faithful.fresh fd (by omega)
  · intro fd s found
    simp only [step,Host.connection,Host.allocFd,Host.scheduleStep_socks] at found
    rcases update_some.mp found with ⟨rfl,new⟩ | ⟨-,before⟩
    · cases new
      obtain ⟨-,received,returned,eof⟩ := faithful.fresh w.host.nextFd le_rfl
      refine ⟨sound_nil,?_,eof.symm⟩
      change w.received _ = w.returned _ ++ buffered [] 0
      rw [received,returned]
      rfl
    · exact faithful.stream fd s before

theorem Faithful.one {w' : World} (fd : Nat) (next : w'.host.nextFd = w.host.nextFd)
    (others : ∀ g, g ≠ fd → w'.host.socks g = w.host.socks g ∧ w'.received g = w.received g ∧ w'.returned g = w.returned g ∧
      w'.eofSeen g = w.eofSeen g)
    (absent : w.host.socks fd = none → w'.host.socks fd = none ∧ w'.received fd = w.received fd ∧ w'.returned fd = w.returned fd ∧
      w'.eofSeen fd = w.eofSeen fd)
    (present : ∀ s, w.host.socks fd = some s → ∃ s', w'.host.socks fd = some s' ∧ Sound s'.chunks s'.off ∧
      w'.received fd = w'.returned fd ++ buffered s'.chunks s'.off ∧ s'.eof = w'.eofSeen fd) : Faithful w' := by
  have untouched : ∀ g, g ≠ fd ∨ w.host.socks fd = none → w'.host.socks g = w.host.socks g ∧ w'.received g = w.received g ∧
      w'.returned g = w.returned g ∧ w'.eofSeen g = w.eofSeen g := by
    intro g cause
    rcases eq_or_ne g fd with rfl | apart
    · have gone := cause.resolve_left (absurd rfl)
      rw [gone]
      exact absent gone
    · exact others g apart
  cases found : w.host.socks fd with
  | none =>
    refine ⟨?_,?_,?_⟩
    · intro g after
      obtain ⟨socks,received,returned,eof⟩ := untouched g (Or.inr found)
      rw [socks,received,returned,eof]
      exact faithful.fresh g (next ▸ after)
    · intro g
      obtain ⟨-,received,returned,-⟩ := untouched g (Or.inr found)
      rw [received,returned]
      exact faithful.ordered g
    intro g s there
    obtain ⟨socks,received,returned,eof⟩ := untouched g (Or.inr found)
    rw [received,returned,eof]
    exact faithful.stream g s (socks ▸ there)
  | some s =>
    obtain ⟨s',now,sound,stream,eof⟩ := present s found
    refine ⟨?_,?_,?_⟩
    · intro g after
      rcases eq_or_ne g fd with rfl | apart
      · have none_ := (faithful.fresh g (next ▸ after)).1
        rw [found] at none_
        cases none_
      · obtain ⟨socks,received,returned,eof⟩ := untouched g (Or.inl apart)
        rw [socks,received,returned,eof]
        exact faithful.fresh g (next ▸ after)
    · intro g
      rcases eq_or_ne g fd with rfl | apart
      · exact ⟨_,stream.symm⟩
      · obtain ⟨-,received,returned,-⟩ := untouched g (Or.inl apart)
        rw [received,returned]
        exact faithful.ordered g
    · intro g t there
      rcases eq_or_ne g fd with rfl | apart
      · rw [now] at there
        cases there
        exact ⟨sound,stream,eof⟩
      · obtain ⟨socks,received,returned,eof⟩ := untouched g (Or.inl apart)
        rw [received,returned,eof]
        exact faithful.stream g t (socks ▸ there)

theorem Faithful.data (fd : Nat) {buf : Chunk} (some_ : buf ≠ []) : Faithful (w.step (.data fd buf)) := by
  refine faithful.one fd ?_ ?_ ?_ ?_
  · rw [step,Host.onData,Host.scheduleStep_nextFd]
    rfl
  · intro g apart
    simp only [step,Host.onData,Host.scheduleStep_socks,Host.onSock_socks,update_of_ne apart,and_self]
  · intro none_
    simp only [step,Host.onData,Host.scheduleStep_socks,Host.onSock_socks,update_self,isOpen,none_]
    simp
  intro s found
  obtain ⟨sound,stream,eof⟩ := faithful.stream fd s found
  refine ⟨{s with chunks := s.chunks ++ [buf]},?_,?_,?_,eof⟩
  · simp only [step,Host.onData,Host.scheduleStep_socks,Host.onSock_socks,update_self,found,map_some]
  · exact (sound.push some_).1
  · simp only [step,update_self,isOpen,found,isSome_some,if_true]
    rw [(sound.push some_).2,stream,append_assoc]

theorem Faithful.sawEnd (fd : Nat) {host : Host} (next : host.nextFd = w.host.nextFd)
    (socks : host.socks = (w.host.onSock fd fun s => {s with eof := true}).socks) : Faithful (w.sawEnd fd host) := by
  refine faithful.one fd next ?_ ?_ ?_
  · intro g apart
    simp only [World.sawEnd,socks,Host.onSock_socks,update_of_ne apart,and_self]
  · intro none_
    simp only [World.sawEnd,socks,Host.onSock_socks,update_self,isOpen,none_]
    simp
  intro s found
  obtain ⟨sound,stream,eof⟩ := faithful.stream fd s found
  refine ⟨{s with eof := true},?_,sound,stream,?_⟩
  · simp only [World.sawEnd,socks,Host.onSock_socks,update_self,found,map_some]
  · simp [World.sawEnd,isOpen,found]

theorem Faithful.read (fd ptr len : Nat) : Faithful (w.step (.read fd ptr len)) := by
  have quiet : ∀ n : Int, n ≤ 0 → w.host.read fd ptr len w.mem = (n,w.host,w.mem) → w.step (.read fd ptr len) = w := by
    intro n nonpositive result
    have nothing : n.toNat = 0 := by omega
    rw [step,result]
    dsimp only
    rw [nothing,range_zero,map_nil,append_nil,update_eq_self]
  cases found : w.host.socks fd with
  | none => rwa [quiet (-1) (by decide) (by rw [Host.read,found])]
  | some s =>
    obtain ⟨sound,stream,eof⟩ := faithful.stream fd s found
    rcases Host.read_spec found sound ptr len w.mem with ⟨-,result⟩ | ⟨-,s',result,sound',left,same⟩
    · rwa [quiet _ (by split <;> decide) result]
    have copied := (holds_writeBytes w.mem ptr ((buffered s.chunks s.off).take len)).map_range
    rw [length_take] at copied
    rw [step,result]
    dsimp only
    rw [Int.toNat_natCast,copied]
    refine faithful.one fd rfl ?_ ?_ ?_
    · intro g apart
      simp only [update_of_ne apart,and_self]
    · intro absent
      rw [found] at absent
      cases absent
    intro t there
    refine ⟨s',update_self _ _ _,sound',?_,same.trans eof⟩
    dsimp only
    rw [update_self,left,append_assoc,take_append_drop]
    exact stream

theorem Faithful.step {e : Event} (nonempty : ∀ fd, e ≠ .data fd []) : Faithful (w.step e) := by
  cases e with
  | connection lfd => exact faithful.connection lfd
  | data fd buf =>
    refine faithful.data fd ?_
    intro empty
    exact nonempty fd (by rw [empty])
  | ended fd => exact faithful.sawEnd fd (Host.scheduleStep_nextFd _) (Host.scheduleStep_socks _)
  | closed fd => exact faithful.sawEnd fd (Host.scheduleStep_nextFd _) (Host.scheduleStep_socks _)
  | error fd => exact faithful.sawEnd fd rfl rfl
  | drain fd =>
    refine faithful.frame (w.host.onDrain fd) ?_ ?_
    · rw [Host.onDrain,Host.scheduleStep_nextFd]
      rfl
    · rw [Host.onDrain,Host.scheduleStep_socks]
      exact Host.onSock_kept fun s => ⟨rfl,rfl,rfl⟩
  | microtask => exact faithful.frame _ le_rfl fun fd s found => ⟨s,found,rfl,rfl,rfl⟩
  | stop => exact faithful.frame _ le_rfl nofun
  | socket => exact faithful.frame _ (le_succ _) fun fd s found => ⟨s,found,rfl,rfl,rfl⟩
  | listen fd => exact faithful.frame _ le_rfl fun fd s found => ⟨s,found,rfl,rfl,rfl⟩
  | accept lfd =>
    refine faithful.frame (w.host.accept lfd).2 ?_ ?_
    · unfold Host.accept
      split <;> rfl
    intro fd s found
    refine ⟨s,?_,rfl,rfl,rfl⟩
    unfold Host.accept at found
    split at found <;> exact found
  | read fd ptr len => exact faithful.read fd ptr len
  | write fd len ok =>
    obtain ⟨socks,written⟩ := Host.write_host w.host fd len ok
    exact faithful.frame (w.host.write fd len ok).2 (by rw [written]) (Host.write_kept w.host fd len ok)
  | close fd =>
    refine faithful.frame _ le_rfl ?_
    intro g s found
    rcases eq_or_ne g fd with rfl | apart
    · rw [Host.close] at found
      simp at found
    rw [Host.close] at found
    dsimp only at found
    rw [update_of_ne apart] at found
    exact ⟨s,found,rfl,rfl,rfl⟩

end

theorem run_faithful (mem : Bytes) {events : List Event} (nonempty : ∀ fd, .data fd [] ∉ events) : Faithful (run mem events) := by
  induction events using List.reverseRecOn with
  | nil => exact Faithful.initial mem
  | append_singleton events e ih =>
    rw [run_append]
    refine Faithful.step (ih fun fd member => nonempty fd (mem_append_left _ member)) ?_
    rintro fd rfl
    exact nonempty fd (mem_append_right _ (mem_singleton_self _))

end World

/-- The bytes of a connection reach the guest in order, none lost and none twice, in any
interleaving of callbacks and calls. -/
theorem read_stream (mem : Bytes) (events : List Event) (nonempty : ∀ fd, .data fd [] ∉ events) (fd : Nat) :
    (World.run mem events).returned fd <+: (World.run mem events).received fd ∧
    ∀ s, (World.run mem events).host.socks fd = some s →
      (World.run mem events).received fd = (World.run mem events).returned fd ++ buffered s.chunks s.off ∧
      ∀ ptr len, 1 ≤ len →
        let n := ((World.run mem events).host.read fd ptr len (World.run mem events).mem).1
        (n = -1 ↔ buffered s.chunks s.off = [] ∧ (World.run mem events).eofSeen fd = false) ∧
        (n = 0 ↔ (World.run mem events).returned fd = (World.run mem events).received fd ∧ (World.run mem events).eofSeen fd = true) := by
  have faithful := World.run_faithful mem nonempty
  refine ⟨faithful.ordered fd,?_⟩
  intro s found
  obtain ⟨sound,stream,eof⟩ := faithful.stream fd s found
  refine ⟨stream,?_⟩
  intro ptr len positive
  have whole : (World.run mem events).returned fd = (World.run mem events).received fd ↔ buffered s.chunks s.off = [] := by
    rw [stream]
    exact self_eq_append_right
  rw [whole,← eof]
  rcases Host.read_spec found sound ptr len (World.run mem events).mem with ⟨empty,result⟩ | ⟨some_,s',result,-⟩
  · rw [result]
    cases s.eof <;> simp [empty]
  have bytes := length_pos_of_ne_nil some_
  rw [result]
  simp only [some_,false_and,iff_false]
  omega

theorem read_stream_pair :
    let w := World.run (fun _ => 0) [.listen 9,.connection 9,.data 4096 [1,2],.data 4096 [3],.read 4096 64 2,.ended 4096]
    w.returned 4096 <+: w.received 4096 :=
  (read_stream (fun _ => 0) [.listen 9,.connection 9,.data 4096 [1,2],.data 4096 [3],.read 4096 64 2,.ended 4096] (by simp) 4096).1

end ValkeyWasm.Bridge
