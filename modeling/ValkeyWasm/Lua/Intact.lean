import ValkeyWasm.Lua.Balance
import Mathlib.Data.List.TakeWhile

/-! When a reply reaches the script intact. -/

namespace ValkeyWasm.Lua
open List Option
open Util (Str decimal)
open CallCtx

def rewritten (errno : Errno) (err : Str) : Bool :=
  match errno with
  | .espipe => (bytes "ERR command ").isPrefixOf err
  | .einval => (bytes "ERR wrong number of arguments for ").isPrefixOf err
  | .enoent => (bytes "ERR unknown command '").isPrefixOf err
  | .eacces => (bytes "NOPERM ").isPrefixOf err
  | .zero | .other => false

/-- An error that the script gets as it is: it has a code and a message, and is none of the replaced ones. -/
def errorKept (errno : Errno) (s : Str) : Bool := s.contains 32 && !rewritten errno (s ++ crlf)

/-- Nothing inside the reply is an error, and an error that is the whole reply is kept. -/
def Reply.intact (errno : Errno) : Reply → Bool
  | .error s => errorKept errno s
  | r => r.errors == 0

variable {errno : Errno}

theorem luaProcessReplyError_kept {err : Str} (kept : rewritten errno err = false) :
    luaProcessReplyError errno err = 45::err := by
  cases errno with
  | zero | other => rfl
  | espipe | einval | enoent | eacces =>
    simp only [rewritten] at kept
    simp [luaProcessReplyError,kept]

variable {s : Str}

theorem finalMsg_rewritten (replaced : rewritten errno (s ++ crlf) = true) :
    finalMsg (luaProcessReplyError errno (s ++ crlf)) ≠ s := by
  cases errno with
  | zero | other => exact nomatch replaced
  | espipe | einval | enoent =>
    simp only [rewritten] at replaced
    simp only [luaProcessReplyError,replaced,if_true]
    rintro rfl
    exact absurd replaced (by decide)
  | eacces =>
    simp only [rewritten] at replaced
    simp only [luaProcessReplyError,replaced,if_true]
    intro same
    -- the new message starts with ERR
    have starts : finalMsg (bytes "ACL failure in script: " ++ (s ++ crlf).drop 7) =
        bytes "ERR " ++ strtrim (bytes "ACL failure in script: " ++ (s ++ crlf).drop 7) := rfl
    rw [starts] at same
    rw [← same] at replaced
    exact absurd replaced (by simp [bytes,byte])

theorem strtrim_text (text : isText s = true) : strtrim (s ++ crlf) = s := by
  have clean : ∀ c ∈ s, ¬(c = 13 ∨ c = 10) := by
    intro c member
    have fits := of_decide_eq_true (all_eq_true.mp text c member)
    exact not_or.mpr ⟨fits.1,fits.2.1⟩
  have front : (s ++ crlf).dropWhile (fun c : BitVec 8 => decide (c = 13 ∨ c = 10)) = if s = [] then [] else s ++ crlf := by
    cases s with
    | nil => rfl
    | cons c s =>
      rw [if_neg (cons_ne_nil _ _),cons_append,dropWhile_cons_of_neg]
      simpa using clean c mem_cons_self
  have back : ((s ++ crlf).reverse).dropWhile (fun c : BitVec 8 => decide (c = 13 ∨ c = 10)) = s.reverse := by
    rw [reverse_append]
    change (10::13::s.reverse).dropWhile _ = _
    cases reversed : s.reverse with
    | nil => rfl
    | cons c rest =>
      simpa using clean c (mem_reverse.mp (reversed ▸ mem_cons_self))
  unfold strtrim
  dsimp only
  rw [front]
  split
  · rename_i empty
    rw [empty]
    rfl
  · rw [back,reverse_reverse]

theorem finalMsg_code (text : isText s = true) (code : s.contains 32 = true) : finalMsg (45::(s ++ crlf)) = s := by
  have present : (32 : BitVec 8) ∈ s := contains_iff_mem.mp code
  have found : (s ++ crlf).contains 32 = true := contains_iff_mem.mpr (mem_append_left _ present)
  have split : s.takeWhile (· ≠ 32) ++ s.dropWhile (· ≠ 32) = s := takeWhile_append_dropWhile
  obtain ⟨message,rest⟩ : ∃ message, s.dropWhile (· ≠ 32) = 32::message := by
    cases dropped : s.dropWhile (· ≠ 32) with
    | nil =>
      have every := (dropWhile_eq_nil_iff (p := fun c : BitVec 8 => decide (c ≠ 32))).mp dropped
      exact absurd (every 32 present) (by simp)
    | cons c message =>
      have first := head_dropWhile_not (p := fun c : BitVec 8 => decide (c ≠ 32)) (l := s) (by rw [dropped]; exact cons_ne_nil _ _)
      simp only [dropped,head_cons] at first
      have same : c = 32 := by simpa using first
      exact ⟨message,by rw [same]⟩
  have taken : (s ++ crlf).takeWhile (· ≠ 32) = s.takeWhile (· ≠ 32) := by
    rw [takeWhile_append,if_neg]
    have lengths := congrArg List.length split
    rw [length_append,rest,length_cons] at lengths
    omega
  have dropped : (s ++ crlf).dropWhile (· ≠ 32) = 32::message ++ crlf := by
    rw [dropWhile_append,rest]
    rfl
  have tail : isText message = true := by
    apply all_eq_true.mpr
    intro c member
    apply all_eq_true.mp text c
    rw [← split,rest]
    exact mem_append_right _ (mem_cons_of_mem _ member)
  change (if (s ++ crlf).contains 32 then _ else _) = s
  rw [if_pos found,taken,dropped]
  change s.takeWhile (· ≠ 32) ++ 32::strtrim (message ++ crlf) = s
  rw [strtrim_text tail,← rest,split]

theorem finalMsg_eq_iff (errno : Errno) (text : isText s = true) :
    finalMsg (luaProcessReplyError errno (s ++ crlf)) = s ↔ errorKept errno s = true := by
  cases replaced : rewritten errno (s ++ crlf) with
  | true => simp [errorKept,replaced,finalMsg_rewritten replaced]
  | false =>
    rw [luaProcessReplyError_kept replaced,errorKept,replaced]
    cases code : s.contains 32 with
    | true => exact iff_of_true (finalMsg_code text code) rfl
    | false =>
      have absent : (s ++ crlf).contains 32 = false := by
        rw [contains_append,code]
        rfl
      have message : finalMsg (45::(s ++ crlf)) = bytes "ERR " ++ (s ++ crlf) := by
        change (if (s ++ crlf).contains 32 then _ else _) = _
        rw [absent]
        rfl
      rw [message]
      constructor
      · intro same
        have lengths := congrArg List.length same
        simp [crlf] at lengths
        omega
      · exact nofun

theorem takeWhile_text (text : isText s = true) (after : Str) : (s ++ crlf ++ 0::after).takeWhile (· ≠ 0) = s ++ crlf := by
  have clean : ∀ c ∈ s ++ crlf, decide (c ≠ 0) = true := by
    intro c member
    rcases mem_append.mp member with inside | newline
    · have fits := of_decide_eq_true (all_eq_true.mp text c inside)
      exact decide_eq_true fits.2.2
    rcases mem_cons.mp newline with rfl | last
    · rfl
    · rw [mem_singleton.mp last]
      rfl
  rw [takeWhile_append_of_pos clean,takeWhile_cons_of_neg (by simp),append_nil]

section
variable {F : Type} [DecidableEq F]

/-- A reply in the buffer, which ends with a null byte, leaves the stack one value higher, with the value that the
reply means and every table access on the table being built, exactly when it is intact. -/
theorem reply_delivered_iff (arith : Arithmetic F) (errno : Errno) (r : Reply) (formed : r.wellFormed = true)
    (shallow : r.depth ≤ maxNestedCollectionsDepth) (rounds : Nat) (enough : r.depth < rounds) (after : Str) (base : List (Value F))
    (low : base.length + 5 * maxNestedCollectionsDepth + 8 ≤ maxCStack) :
    (∃ next, parseReply arith errno rounds (r.encode ++ 0::after) (CallCtx.initial base) = some (0::after,next) ∧
      next.stack = r.translate arith::base ∧ next.strayed = false) ↔ r.intact errno = true := by
  have height : (CallCtx.initial base).stack.length = base.length := rfl
  have levels : (CallCtx.initial base).levels = [] := rfl
  rw [parseReply_feed arith errno r formed rounds enough]
  by_cases error : r.isError = true
  · cases r with
    | error s =>
      obtain ⟨built,called,strayed,stack⟩ := errorCallback_some (CallCtx.initial base) errno (s ++ crlf) (by omega)
      rw [Reply.feed,takeWhile_text formed,called]
      change _ ↔ errorKept errno s = true
      rw [← finalMsg_eq_iff errno formed]
      constructor
      · rintro ⟨next,same,value,-⟩
        obtain rfl := (Prod.mk.inj (Option.some.inj same)).2
        rw [stack] at value
        have fields := Value.table.inj (List.cons.inj value).1
        exact Value.string.inj (Prod.mk.inj (List.cons.inj fields).1).2
      · intro same
        refine ⟨built,rfl,?_,strayed⟩
        rw [stack,same]
        rfl
    | _ => exact nomatch error
  · have plain : r.isError = false := by simpa using error
    have whole : r.intact errno = (r.errors == 0) := by cases r <;> first | rfl | exact nomatch plain
    rw [whole,beq_iff_eq]
    constructor
    · rintro ⟨next,parsed,stack,-⟩
      obtain ⟨_,fed,same⟩ := map_eq_some_iff.mp parsed
      obtain rfl := (Prod.mk.inj same).2
      have grown := (r.feed_grows arith errno _ _ _ fed).height
      rw [Reply.gain,plain,levels,stack,length_cons] at grown
      simp only [pending,Grows.expected,Bool.false_eq_true,if_false] at grown
      omega
    · intro clean
      have stands : Stands .bottom base [] 0 (CallCtx.initial base) := ⟨rfl,levels,Nat.zero_le _,rfl,trivial⟩
      obtain ⟨next,fed,done⟩ := r.feed_put arith errno clean formed (0::after) _ .bottom base [] 0 stands trivial
        (by rw [levels,length_nil]; omega) (by omega)
      exact ⟨next,by rw [fed]; rfl,done.stack,done.aimed⟩

def sampleReply : Reply := .map (.cons (.bulk (bytes "k")) (.array (.cons (.integer 7) (.cons .null (.cons (.simple (bytes "OK")) .nil))))
  (.cons (.integer 2) (.set (.cons (.bool true) .nil)) .nil))

def integers : Arithmetic Int := ⟨id,fun _ => 0⟩

theorem sampleReply_delivered : ∃ next, parseReply integers .zero 3 (sampleReply.encode ++ [0]) (CallCtx.initial []) = some ([0],next) ∧
    next.stack = [sampleReply.translate integers] ∧ next.strayed = false :=
  (reply_delivered_iff integers .zero sampleReply (by decide) (by decide) 3 (by decide) [] [] (by decide)).mpr (by decide)

/-- An array of an error and an integer, as a command may return it. The integer is stored in the table of the error
and both tables stay on the stack. -/
def errorInArray : Reply := .array (.cons (.error (bytes "ERR x")) (.cons (.integer 1) .nil))

theorem errorInArray_delivered : errorInArray.wellFormed = true ∧ errorInArray.depth = 1 ∧
    (parseReply integers .zero 2 (errorInArray.encode ++ [0]) (CallCtx.initial [])).map
      (fun result => (result.1,result.2.stack.length,result.2.strayed)) = some ([0],2,true) := by
  decide

end

end ValkeyWasm.Lua
