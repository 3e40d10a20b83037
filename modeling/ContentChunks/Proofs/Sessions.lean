/-
Sessions with a splitter. A splitter serves one text after another: it is fed
bytes, one by one or many at once, and a text is ended by finishing it or given
up by a reset. What is told of the text at hand, and what is remembered, comes
from the bytes of that text alone, in whatever pieces they were fed and whatever
came before (`feedAll_fedNow`).

Main statement: `session_of_texts`.
-/
import ContentChunks.Proofs.Tiling
import Mathlib.Data.List.DropRight
import Mathlib.Data.List.Induction

namespace ContentChunks

theorem Span.Tile.stop_eq {here stop : Cursor} {spans : List Span} (h : Span.Tile here spans stop) :
    stop = spans.getLast?.elim here Span.stop := by
  induction spans generalizing here with
  | nil => exact h.symm
  | cons s rest ih =>
    obtain ⟨-, -, h⟩ := h
    rw [ih h, List.getLast?_cons]
    cases rest.getLast? <;> rfl

namespace Splitter

/-! ## Sessions -/

/-- What a splitter can be asked to do. -/
inductive Step where
  | update (b : UInt8)
  | push (data : Bytes)
  | finish
  | reset
deriving DecidableEq, Repr

namespace Step

/-- The bytes that a step feeds. -/
def fed : Step → Bytes
  | update b => [b]
  | push data => data
  | finish => []
  | reset => []

/-- Whether a step goes on with the text at hand. -/
def goesOn : Step → Bool
  | update _ => true
  | push _ => true
  | finish => false
  | reset => false

end Step

/-- Takes a step; tells the spans that it closes. -/
def step (s : Splitter) : Step → List Span × Splitter
  | .update b => s.feed b
  | .push data => s.feedAll data
  | .finish => s.finish
  | .reset => ([], start)

/-- A step with all that can be seen of it. -/
structure Entry where
  step : Step
  /-- The spans that it closed. -/
  spans : List Span
  /-- The place of the next byte after it. -/
  position : Cursor
  /-- Where the span that is collected after it begins. -/
  pending : Cursor
deriving DecidableEq, Repr

def entry (s : Splitter) (x : Step) : Entry := ⟨x, (s.step x).1, (s.step x).2.cursor, (s.step x).2.pending⟩

/-- The entries of a session, in order. -/
def session (s : Splitter) : List Step → List Entry
  | [] => []
  | x :: rest => s.entry x :: (s.step x).2.session rest

/-- The splitter at the end of a session. -/
def after (s : Splitter) (steps : List Step) : Splitter := steps.foldl (fun s x => (s.step x).2) s

/-- The entries of the text at hand: those since the last finish or reset. -/
def present (entries : List Entry) : List Entry := entries.rtakeWhile fun e => e.step.goesOn

/-- The bytes of the text at hand. -/
def fedNow (entries : List Entry) : Bytes := (present entries).flatMap fun e => e.step.fed

/-- The spans told of the text at hand. -/
def toldNow (entries : List Entry) : List Span := (present entries).flatMap fun e => e.spans

theorem session_append (s : Splitter) (x y : List Step) :
    s.session (x ++ y) = s.session x ++ (s.after x).session y := by
  induction x generalizing s with
  | nil => rfl
  | cons first rest ih => exact congrArg (_ :: ·) (ih _)

theorem after_concat (s : Splitter) (steps : List Step) (x : Step) :
    s.after (steps ++ [x]) = ((s.after steps).step x).2 := List.foldl_concat ..

@[simp] theorem step_entry (s : Splitter) (x : Step) : (s.entry x).step = x := rfl

theorem present_concat (entries : List Entry) (e : Entry) :
    present (entries ++ [e]) = if e.step.goesOn then present entries ++ [e] else [] := by
  unfold present
  split
  next going => exact List.rtakeWhile_concat_pos _ _ _ going
  next ended => exact List.rtakeWhile_concat_neg _ _ _ ended

/-! ## One step -/

theorem feedAll_singleton (s : Splitter) (b : UInt8) : s.feedAll [b] = s.feed b := by
  rw [feedAll_cons, feedAll_nil, List.append_nil]

theorem step_of_goesOn {x : Step} (going : x.goesOn = true) (s : Splitter) : s.step x = s.feedAll x.fed := by
  cases x with
  | update b => exact (feedAll_singleton s b).symm
  | push data => rfl
  | finish => cases going
  | reset => cases going

theorem step_of_not_goesOn {x : Step} (ended : x.goesOn = false) (s : Splitter) : (s.step x).2 = start := by
  cases x with
  | update b => cases ended
  | push data => cases ended
  | finish => rfl
  | reset => rfl

theorem cursor_feed (s : Splitter) (b : UInt8) : (s.feed b).2.cursor = s.cursor.advance b := by
  unfold feed
  dsimp only
  split_ifs <;> rfl

theorem cursor_feedAll (s : Splitter) (data : Bytes) : (s.feedAll data).2.cursor = s.cursor.advanceAll data := by
  induction data generalizing s with
  | nil => rfl
  | cons b rest ih =>
    rw [feedAll_cons, ih, cursor_feed]
    rfl

/-! ## Many steps -/

/-- **A splitter knows the text at hand and nothing else**: what it has told of the text, and what
it remembers, is what a new one tells and remembers that is fed all its bytes at once. -/
theorem feedAll_fedNow (steps : List Step) :
    start.feedAll (fedNow (start.session steps)) = (toldNow (start.session steps), start.after steps) := by
  induction steps using List.reverseRecOn with
  | nil => rfl
  | append_singleton steps x ih =>
    have entries : start.session (steps ++ [x]) = start.session steps ++ [(start.after steps).entry x] :=
      session_append start steps [x]
    rw [fedNow, toldNow, entries, after_concat, present_concat, step_entry]
    cases going : x.goesOn with
    | true =>
      rw [if_pos rfl, List.flatMap_append, List.flatMap_append, List.flatMap_singleton, List.flatMap_singleton,
        ← fedNow, ← toldNow, feedAll_append, ih, step_entry, ← step_of_goesOn going]
      rfl
    | false =>
      rw [if_neg (by simp), step_of_not_goesOn going]
      rfl

/-- **One splitter serves text after text.** After any steps whatever, the spans told of the text
at hand are the first of those of the text, however it goes on; the span that is collected begins
where the last of them ends, and the next byte comes after all bytes of the text. Finishing gives
the other spans of the text as it is, so that all together are those of the text fed at once. And
after a finish or a reset a session goes on as a new one. -/
theorem session_of_texts (steps : List Step) :
    let entries := start.session steps
    let s := start.after steps
    (∀ more, toldNow entries <+: spans (fedNow entries ++ more)) ∧
    s.pending = (toldNow entries).getLast?.elim .start Span.stop ∧
    s.cursor = Cursor.start.advanceAll (fedNow entries) ∧
    toldNow entries ++ s.finish.1 = spans (fedNow entries) ∧
    (∀ later, start.session (steps ++ .finish :: later) =
      entries ++ ⟨.finish, s.finish.1, .start, .start⟩ :: start.session later) ∧
    ∀ later, start.session (steps ++ .reset :: later) =
      entries ++ ⟨.reset, [], .start, .start⟩ :: start.session later := by
  intro entries s
  have known : start.feedAll (fedNow entries) = (toldNow entries, s) := feedAll_fedNow steps
  refine ⟨fun more => ?_, ?_, ?_, ?_, fun later => session_append start steps (.finish :: later),
    fun later => session_append start steps (.reset :: later)⟩
  · have goesOn : spans (fedNow entries ++ more) =
        toldNow entries ++ ((s.feedAll more).1 ++ (s.feedAll more).2.finish.1) := by
      rw [spans, feedAll_append, known]
      exact List.append_assoc ..
    exact ⟨_, goesOn.symm⟩
  · obtain ⟨-, tile, -⟩ := tracks_feedAll tracks_start (fedNow entries)
    rw [known] at tile
    exact tile.stop_eq
  · have reached := cursor_feedAll start (fedNow entries)
    rwa [known] at reached
  · rw [spans, known]

/-- A text that was given up in a blank run leaves nothing behind, and a line break may come in two pieces. -/
example : (start.session [.push (Bytes.ofText "a\n\n"), .reset, .push (Bytes.ofText "b\r"), .update 0x0A,
      .push (Bytes.ofText "\nc"), .finish]).map (fun e => e.spans.map fun s => (s.start.offset, s.stop.offset)) =
    [[], [], [], [], [(0, 1), (1, 4)], [(4, 5)]] := by
  decide

end Splitter

end ContentChunks
