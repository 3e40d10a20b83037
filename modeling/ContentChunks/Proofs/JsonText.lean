/-
A value reads back from the text that is written for it. Not every value has
such a text: a string may hold marks that no text has, and a number that was
not kept is written as zero. Those that have one are the legible ones.

Main statements:
- `text?_chars`: a string is read from its marks, up to the closing quotation mark.
- `unsigned?_toDigits`: a number is read from its digits.
- `value?_chars`: a value is read from its characters, whatever may follow it.
- `parse?_render`: a legible value is the value of its text.
-/
import ContentChunks.Json.Parser
import ContentChunks.Json.Printer
import Mathlib.Data.List.TakeDrop

namespace ContentChunks.Json

/-! ## Legible values -/

/-- Whether a mark can stand in a text: a bare character neither ends the string
nor starts an escape, and a unit has no more than four digits. -/
def Mark.Legible : Mark → Prop
  | .char c => c ≠ '"' ∧ c ≠ '\\'
  | .escaped unit => unit < 0x10000

def Text.Legible (text : Text) : Prop := ∀ mark ∈ text, mark.Legible

mutual

/-- Whether a value can be read from a text that is written for it. -/
def Legible : Json → Prop
  | .otherNumber => False
  | .string text => text.Legible
  | .array items => LegibleItems items
  | .object members => LegibleMembers members
  | _ => True

/-- Whether all values are legible. -/
def LegibleItems : List Json → Prop
  | [] => True
  | item :: rest => item.Legible ∧ LegibleItems rest

/-- Whether all keys and values are legible. -/
def LegibleMembers : List (Text × Json) → Prop
  | [] => True
  | (key, value) :: rest => key.Legible ∧ value.Legible ∧ LegibleMembers rest

end

theorem legibleItems_iff {items : List Json} : LegibleItems items ↔ ∀ item ∈ items, item.Legible := by
  induction items with
  | nil => simp [LegibleItems]
  | cons item rest ih => simp [LegibleItems, ih]

theorem legibleMembers_iff {members : List (Text × Json)} :
    LegibleMembers members ↔ ∀ m ∈ members, m.1.Legible ∧ m.2.Legible := by
  induction members with
  | nil => simp [LegibleMembers]
  | cons m rest ih => simp [LegibleMembers, ih, and_assoc]

/-! ## Strings -/

theorem unit?_fourDigits {n : Nat} (h : n < 0x10000) :
    unit? (Nat.digitChar (n / 4096 % 16)) (Nat.digitChar (n / 256 % 16)) (Nat.digitChar (n / 16 % 16))
      (Nat.digitChar (n % 16)) = some n := by
  have digit (k : Nat) : Hex.value? (Nat.digitChar (k % 16)) = some (k % 16) :=
    Hex.value?_digit _ (Nat.mod_lt _ (by decide))
  have sum : 4096 * (n / 4096 % 16) + 256 * (n / 256 % 16) + 16 * (n / 16 % 16) + n % 16 = n := by omega
  simp [unit?, digit, sum]

theorem letterUnit?_of_mem_shortEscapes :
    ∀ e ∈ shortEscapes, e.2 ≠ 'u' ∧ letterUnit? e.2 = some e.1 := by decide

theorem text?_mark {mark : Mark} (legible : mark.Legible) (cs : List Char) :
    text? (mark.chars ++ cs) = (text? cs).map fun (text, rest) => (mark :: text, rest) := by
  cases mark with
  | char c =>
    obtain ⟨notQuote, notEscape⟩ := legible
    rw [Mark.chars, List.singleton_append]
    cases h : text? cs <;> simp [text?, notEscape, h]
  | escaped unit =>
    rw [Mark.chars]
    split
    next number letter found =>
      obtain rfl : number = unit := by simpa using List.find?_some found
      obtain ⟨notDigits, reads⟩ := letterUnit?_of_mem_shortEscapes _ (List.mem_of_find?_eq_some found)
      dsimp only at notDigits reads
      rw [List.cons_append, List.singleton_append]
      cases h : text? cs <;> simp [text?, notDigits, reads, h]
    next =>
      simp only [List.cons_append, fourDigits, List.nil_append, text?, unit?_fourDigits legible]
      cases text? cs <;> rfl

/-- **A string is read from its marks**, up to the closing quotation mark. -/
theorem text?_chars {text : Text} (legible : text.Legible) (rest : List Char) :
    text? (text.flatMap Mark.chars ++ '"' :: rest) = some (text, rest) := by
  induction text with
  | nil => simp [text?]
  | cons mark text ih =>
    obtain ⟨first, legibleRest⟩ := List.forall_mem_cons.1 legible
    rw [List.flatMap_cons, List.append_assoc, text?_mark first, ih legibleRest]
    rfl

/-! ## Numbers -/

/-- Whether what follows a value does not belong to it: the text ends, or the value is an item or a member. -/
def Closed (rest : List Char) : Prop := ∀ c ∈ rest.head?, c = ',' ∨ c = ']' ∨ c = '\x7d'

theorem digits_append {ds rest : List Char} (all : ∀ c ∈ ds, c.isDigit) (stops : ∀ c ∈ rest.head?, c.isDigit = false) :
    digits (ds ++ rest) = (ds, rest) := by
  rw [digits, List.span_eq_takeWhile_dropWhile, List.takeWhile_append_of_pos all, List.dropWhile_append_of_pos all]
  cases rest with
  | nil => simp
  | cons c cs => simp [stops c rfl]

theorem ne_of_isDigit {c d : Char} (digit : c.isDigit) (other : d.isDigit = false) : c ≠ d := by
  intro same
  rw [same, other] at digit
  contradiction

theorem toDigits_eq_cons (n : Nat) : ∃ c cs, Nat.toDigits 10 n = c :: cs ∧ c.isDigit := by
  cases digits : Nat.toDigits 10 n with
  | nil => exact absurd digits Nat.toDigits_ne_nil
  | cons c cs =>
    exact ⟨c, cs, rfl, Nat.isDigit_of_mem_toDigits (n := n) (b := 10) (by decide) (by decide) (by simp [digits])⟩

theorem head?_toDigits {n : Nat} (positive : 0 < n) : (Nat.toDigits 10 n).head? ≠ some '0' := by
  induction n using Nat.strongRecOn with
  | ind n ih =>
    by_cases small : n < 10
    · have digit : ∀ k < 10, 0 < k → Nat.digitChar k ≠ '0' := by decide
      rw [Nat.toDigits_of_lt_base small, List.head?_cons]
      exact fun zero => digit n small positive (Option.some.inj zero)
    · have first := ih (n / 10) (by omega) (by omega)
      obtain ⟨c, cs, digits, -⟩ := toDigits_eq_cons (n / 10)
      rw [Nat.toDigits_of_base_le (by decide) (by omega)]
      simpa [digits] using first

/-- **A number is read from its digits**, if it is closed after them. -/
theorem unsigned?_toDigits (n : Nat) {rest : List Char} (closed : Closed rest) :
    unsigned? (Nat.toDigits 10 n ++ rest) = some (.number n, rest) := by
  have stops : ∀ c ∈ rest.head?, c.isDigit = false := by
    intro c hc
    rcases closed c hc with rfl | rfl | rfl <;> decide
  have reads : natOf (Nat.toDigits 10 n) = n := Nat.ofDigitChars_ten_toDigits
  have ends : skipFraction rest = some rest ∧ skipExponent rest = some rest ∧ goesOn rest = false := by
    cases rest with
    | nil => exact ⟨rfl, rfl, rfl⟩
    | cons c cs => rcases closed c rfl with rfl | rfl | rfl <;> exact ⟨rfl, rfl, rfl⟩
  rw [unsigned?, digits_append (fun c hc => Nat.isDigit_of_mem_toDigits (by decide) (by decide) hc) stops]
  split
  next none => exact absurd (congrArg Prod.fst none) Nat.toDigits_ne_nil
  next more _ zeros =>
    -- only zero starts with a zero, and it has no other digit
    have digits := congrArg Prod.fst zeros
    dsimp only at digits
    rcases Nat.eq_zero_or_pos n with rfl | positive
    · simp [Nat.toDigits_zero] at digits
    · exact absurd (by rw [digits]; rfl) (head?_toDigits positive)
  next same =>
    obtain ⟨rfl, rfl⟩ := Prod.mk.inj same
    simp [ends, reads]

/-! ## Where a value starts -/

theorem skip_cons {c : Char} (notBlank : blank c = false) (cs : List Char) : skip (c :: cs) = c :: cs := by
  simp [skip, notBlank]

theorem blank_of_isDigit {c : Char} (digit : c.isDigit) : blank c = false := by
  have other {d : Char} (h : d.isDigit = false) : c ≠ d := ne_of_isDigit digit h
  simp [blank, other (d := ' ') rfl, other (d := '\n') rfl, other (d := '\t') rfl, other (d := '\r') rfl]

theorem chars_head (j : Json) : ∃ c cs, j.chars = c :: cs ∧ blank c = false ∧ c ≠ ']' := by
  cases j with
  | null => exact ⟨_, _, by rw [chars], by decide, by decide⟩
  | bool b => cases b <;> exact ⟨_, _, by rw [chars], by decide, by decide⟩
  | number n =>
    obtain ⟨c, cs, digits, digit⟩ := toDigits_eq_cons n
    exact ⟨c, cs, by rw [chars, digits], blank_of_isDigit digit, ne_of_isDigit digit rfl⟩
  | otherNumber => exact ⟨_, _, by rw [chars], by decide, by decide⟩
  | string text => exact ⟨_, _, by rw [chars, Text.chars], by decide, by decide⟩
  | array items => cases items <;> exact ⟨_, _, by rw [chars], by decide, by decide⟩
  | object members => cases members <;> exact ⟨_, _, by rw [chars], by decide, by decide⟩

theorem skip_chars (j : Json) (rest : List Char) : skip (j.chars ++ rest) = j.chars ++ rest := by
  obtain ⟨c, cs, chars, notBlank, -⟩ := chars_head j
  rw [chars, List.cons_append, skip_cons notBlank]

theorem value?_digit {c : Char} (digit : c.isDigit) (fuel : Nat) (cs : List Char) :
    value? (fuel + 1) (c :: cs) = unsigned? (c :: cs) := by
  have other {d : Char} (h : d.isDigit = false) : c ≠ d := ne_of_isDigit digit h
  simp [value?, skip_cons (blank_of_isDigit digit), number?, other (d := 'n') rfl, other (d := 't') rfl,
    other (d := 'f') rfl, other (d := '"') rfl, other (d := '[') rfl, other (d := '\x7b') rfl, other (d := '-') rfl]

/-! ## Values

An array's items are read from behind the comma before them, and an object's
members likewise; what stands before the first is the opening bracket. No
reader takes more than two steps for a character, so the length bounds the fuel. -/

theorem itemsChars_cases (items : List Json) :
    (items = [] ∧ itemsChars items = [']']) ∨ ∃ cs, itemsChars items = ',' :: cs := by
  cases items <;> simp [itemsChars]

theorem membersChars_cases (members : List (Text × Json)) :
    (members = [] ∧ membersChars members = ['\x7d']) ∨ ∃ cs, membersChars members = ',' :: cs := by
  rcases members with _ | ⟨⟨key, value⟩, members⟩ <;> simp [membersChars]

theorem closed_itemsChars (items : List Json) (rest : List Char) : Closed (itemsChars items ++ rest) := by
  rcases itemsChars_cases items with ⟨-, chars⟩ | ⟨cs, chars⟩ <;> simp [chars, Closed]

theorem closed_membersChars (members : List (Text × Json)) (rest : List Char) :
    Closed (membersChars members ++ rest) := by
  rcases membersChars_cases members with ⟨-, chars⟩ | ⟨cs, chars⟩ <;> simp [chars, Closed]

mutual

/-- **A value is read from its characters**, if it is closed after them. -/
theorem value?_chars : ∀ (j : Json) (fuel : Nat) (rest : List Char), j.Legible → Closed rest →
    2 * j.chars.length ≤ fuel + 1 → value? (fuel + 1) (j.chars ++ rest) = some (j, rest)
  | .null, fuel, rest, _, _, _ => by simp [value?, chars, skip, blank]
  | .bool b, fuel, rest, _, _, _ => by cases b <;> simp [value?, chars, skip, blank]
  | .number n, fuel, rest, _, closed, _ => by
    obtain ⟨c, cs, digits, digit⟩ := toDigits_eq_cons n
    rw [chars, digits, List.cons_append, value?_digit digit, ← List.cons_append, ← digits]
    exact unsigned?_toDigits n closed
  | .otherNumber, _, _, legible, _, _ => legible.elim
  | .string text, fuel, rest, legible, _, _ => by
    have read := text?_chars legible rest
    simp [value?, chars, Text.chars, skip, blank, read]
  | .array [], fuel, rest, _, _, _ => by simp [value?, chars, skip, blank]
  | .array (item :: items), fuel, rest, legible, _, enough => by
    have read := items?_chars (item :: items) fuel _ rest legible rfl (by simpa [chars] using enough)
    obtain ⟨c, cs, first, -, notEnd⟩ := chars_head item
    have start := skip_chars item (itemsChars items ++ rest)
    simp only [first, List.cons_append, List.append_assoc] at start read
    simp [value?, chars, skip_cons (c := '[') (by decide), first, start, notEnd, read]
  | .object [], fuel, rest, _, _, _ => by simp [value?, chars, skip, blank]
  | .object ((key, value) :: members), fuel, rest, legible, _, enough => by
    have read := members?_chars ((key, value) :: members) fuel _ rest legible rfl (by simpa [chars] using enough)
    simp only [Text.chars, List.cons_append, List.append_assoc, List.nil_append] at read
    simp [value?, chars, Text.chars, skip_cons (c := '\x7b') (by decide), skip_cons (c := '"') (by decide), read]

theorem items?_chars : ∀ (items : List Json) (fuel : Nat) (cs rest : List Char), LegibleItems items →
    itemsChars items = ',' :: cs → 2 * (cs.length + 1) ≤ fuel + 1 → items? fuel (cs ++ rest) = some (items, rest)
  | [], _, _, _, _, written, _ => by simp [itemsChars] at written
  | item :: items, fuel, cs, rest, ⟨first, legibleRest⟩, written, enough => by
    obtain rfl : item.chars ++ itemsChars items = cs := by simpa [itemsChars] using written
    rw [List.length_append] at enough
    obtain ⟨fuel, rfl⟩ : ∃ n, fuel = n + 2 := by
      obtain ⟨c, cs, first, -⟩ := chars_head item
      simp only [first, List.length_cons] at enough
      exact ⟨fuel - 2, by omega⟩
    have itemRead := value?_chars item fuel _ first (closed_itemsChars items rest) (by omega)
    rw [items?, List.append_assoc, itemRead]
    rcases itemsChars_cases items with ⟨rfl, ends⟩ | ⟨more, ends⟩
    · simp [ends, skip_cons (c := ']') (by decide)]
    · rw [ends, List.length_cons] at enough
      have restRead := items?_chars items (fuel + 1) more rest legibleRest ends (by omega)
      simp [ends, skip_cons (c := ',') (by decide), restRead]

theorem members?_chars : ∀ (members : List (Text × Json)) (fuel : Nat) (cs rest : List Char),
    LegibleMembers members → membersChars members = ',' :: cs → 2 * (cs.length + 1) ≤ fuel + 1 →
    members? fuel (cs ++ rest) = some (members, rest)
  | [], _, _, _, _, written, _ => by simp [membersChars] at written
  | (key, value) :: members, fuel, cs, rest, ⟨legibleKey, legibleValue, legibleRest⟩, written, enough => by
    obtain rfl : key.chars ++ ':' :: (value.chars ++ membersChars members) = cs := by
      simpa [membersChars] using written
    simp only [List.length_append, List.length_cons] at enough
    obtain ⟨fuel, rfl⟩ : ∃ n, fuel = n + 2 := ⟨fuel - 2, by omega⟩
    have keyRead := text?_chars legibleKey (':' :: (value.chars ++ (membersChars members ++ rest)))
    have valueRead := value?_chars value fuel _ legibleValue (closed_membersChars members rest) (by omega)
    rw [members?]
    simp only [Text.chars, List.cons_append, List.append_assoc, List.nil_append,
      skip_cons (c := '"') (by decide), keyRead, Option.bind_eq_bind, Option.bind_some,
      skip_cons (c := ':') (by decide), valueRead]
    rcases membersChars_cases members with ⟨rfl, ends⟩ | ⟨more, ends⟩
    · simp [ends, skip_cons (c := '\x7d') (by decide)]
    · rw [ends, List.length_cons] at enough
      have restRead := members?_chars members (fuel + 1) more rest legibleRest ends (by omega)
      simp [ends, skip_cons (c := ',') (by decide), restRead]

end

/-- **A legible value is the value of its text.** -/
theorem parse?_render {j : Json} (legible : j.Legible) : parse? j.render = some j := by
  have read := value?_chars j (2 * j.chars.length + 1) [] legible (by simp [Closed]) (by omega)
  rw [List.append_nil] at read
  rw [parse?, render, String.toList_ofList, read]
  rfl

end ContentChunks.Json
