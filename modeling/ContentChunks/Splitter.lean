/-
Splitting a text at blank runs. A blank run is a row of at least two line
breaks with nothing but spaces, tabs and carriage returns between them; it
becomes a span of its own, between the text before it and the text after it.
A carriage return right before a line feed belongs to the line break. Main
statements: feeding in pieces is feeding at once (`feedAll_append`), and an
advanced cursor counts the bytes (`offset_advanceAll`).
-/
import ContentChunks.Bytes

namespace ContentChunks

/-- A place in a text being read: offset, line and column, all from zero. -/
structure Cursor where
  offset : Nat
  line : Nat
  column : Nat
deriving DecidableEq, Repr

namespace Cursor

def start : Cursor := ⟨0, 0, 0⟩

def lineFeed : UInt8 := 0x0A

/-- The place after one more byte. -/
def advance (c : Cursor) (b : UInt8) : Cursor :=
  if b = lineFeed then ⟨c.offset + 1, c.line + 1, 0⟩ else ⟨c.offset + 1, c.line, c.column + 1⟩

/-- The place after the bytes of `data`. -/
def advanceAll (c : Cursor) (data : Bytes) : Cursor := data.foldl advance c

@[simp] theorem offset_advance (c : Cursor) (b : UInt8) : (c.advance b).offset = c.offset + 1 := by
  unfold advance; split <;> rfl

@[simp] theorem offset_advanceAll (c : Cursor) (data : Bytes) :
    (c.advanceAll data).offset = c.offset + data.length := by
  induction data generalizing c with
  | nil => rfl
  | cons b rest ih =>
    have := ih (c.advance b)
    simp only [advanceAll, List.foldl_cons, List.length_cons] at *
    rw [this, offset_advance]; omega

end Cursor

/-- A stretch of a text, its end not included. -/
structure Span where
  start : Cursor
  stop : Cursor
deriving DecidableEq, Repr

namespace Span

def length (s : Span) : Nat := s.stop.offset - s.start.offset

def isEmpty (s : Span) : Bool := s.length == 0

end Span

/-- What the last bytes of a text amount to. -/
inductive Line where
  /-- A line with something on it. -/
  | text
  /-- A line break after text. -/
  | newline
  /-- Blanks after that line break. -/
  | blank
  /-- At least two line breaks since the text. -/
  | blankRun
deriving DecidableEq, Repr

/-- A text on its way through the splitter. -/
structure Splitter where
  line : Line
  /-- The place of the next byte. -/
  cursor : Cursor
  /-- The beginning of the span being collected. -/
  pending : Cursor
  /-- Where the first line break after the text begins. -/
  firstBreak : Option Cursor
  /-- Where the last line break ends. -/
  lastBreak : Option Cursor
  /-- Where the byte just read is, if it is a carriage return. -/
  carriageReturn : Option Cursor
deriving DecidableEq, Repr

namespace Splitter

def start : Splitter := ⟨.text, .start, .start, none, none, none⟩

/-- Closes the text before a blank run, if there is any, and the run itself. -/
def closeRun (s : Splitter) : List Span × Splitter :=
  match s.firstBreak, s.lastBreak with
  | some first, some last =>
    let text := if s.pending.offset < first.offset then [⟨s.pending, first⟩] else []
    (text ++ [⟨first, last⟩], { s with pending := last, firstBreak := none })
  | _, _ => ([], s)

/-- Reads a byte; tells the spans that it closes. -/
def feed (s : Splitter) (b : UInt8) : List Span × Splitter :=
  let next := s.cursor.advance b
  if b = 0x0A then
    let s := if s.line = .text then
        { s with line := .newline, firstBreak := some (s.carriageReturn.getD s.cursor) }
      else { s with line := .blankRun }
    ([], { s with lastBreak := some next, carriageReturn := none, cursor := next })
  else if b = 0x0D then
    ([], { s with carriageReturn := some s.cursor, cursor := next })
  else if b = 0x20 ∨ b = 0x09 then
    let line := if s.line = .newline then .blank else s.line
    ([], { s with line, carriageReturn := none, cursor := next })
  else
    let (closed, s) := if s.line = .blankRun then s.closeRun else ([], s)
    (closed, { s with line := .text, firstBreak := none, carriageReturn := none, cursor := next })

/-- Reads a byte string; tells the spans that it closes, in order. -/
def feedAll (s : Splitter) (data : Bytes) : List Span × Splitter :=
  let (closed, s) := data.foldl (fun (closed, s) b =>
    let (spans, s) := feed s b
    (spans.reverse ++ closed, s)) ([], s)
  (closed.reverse, s)

/-- Ends the text: a blank run at its end is closed too, then what is left.
The splitter is ready for the next text. -/
def finish (s : Splitter) : List Span × Splitter :=
  let (closed, s) := if s.line = .blankRun then s.closeRun else ([], s)
  let rest := if s.pending.offset < s.cursor.offset then [⟨s.pending, s.cursor⟩] else []
  (closed ++ rest, start)

def spans (data : Bytes) : List Span :=
  let (closed, s) := feedAll start data
  closed ++ s.finish.1

theorem foldl_closed (data : Bytes) (closed : List Span) (s : Splitter) :
    data.foldl (fun (closed, s) b =>
      let (spans, s) := feed s b
      (spans.reverse ++ closed, s)) (closed, s) =
      ((feedAll s data).1.reverse ++ closed, (feedAll s data).2) := by
  induction data generalizing closed s with
  | nil => simp [feedAll]
  | cons b rest ih =>
    simp only [feedAll, List.foldl_cons, List.append_nil]
    rw [ih, ih]
    simp [List.append_assoc]

@[simp] theorem feedAll_nil (s : Splitter) : feedAll s [] = ([], s) := rfl

theorem feedAll_cons (s : Splitter) (b : UInt8) (rest : Bytes) :
    feedAll s (b :: rest) =
      ((feed s b).1 ++ (feedAll (feed s b).2 rest).1, (feedAll (feed s b).2 rest).2) := by
  conv => lhs; unfold feedAll
  simp only [List.foldl_cons, List.append_nil]
  rw [foldl_closed]
  simp

/-- Feeding two byte strings in turn is feeding them at once. -/
theorem feedAll_append (s : Splitter) (x y : Bytes) :
    feedAll s (x ++ y) =
      ((feedAll s x).1 ++ (feedAll (feedAll s x).2 y).1, (feedAll (feedAll s x).2 y).2) := by
  induction x generalizing s with
  | nil => simp
  | cons b rest ih => simp [feedAll_cons, ih, List.append_assoc]

end Splitter

end ContentChunks
