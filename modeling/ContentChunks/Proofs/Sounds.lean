/-
What the code of a word tells: its first letter, and how it sounds after that.

Main statements:
- `digitsAfter_none`: the digits of letters are the classes of the consonants,
  equal ones in a row taken together, as far as digits are wanted.
- `code_eq_iff`: which words have the same code, and what a code looks like.
-/
import ContentChunks.Phonetic
import Mathlib

namespace ContentChunks.Phonetic

/-- Whether a word has a letter. -/
def Lettered (word : String) : Prop := ∃ c ∈ word.toList, c.isAlpha = true

/-- The first letter of a word, in capitals. -/
def initial? (word : String) : Option Char := (word.toList.find? Char.isAlpha).map Char.toUpper

/-- The classes of a word's consonants after its first letter, equal ones in a row as one. -/
def sounds (word : String) : List Char :=
  ((word.toList.filter Char.isAlpha).tail.filterMap fun c => digit? c.toUpper).destutter (· ≠ ·)

/-- Whether a text is a capital letter and three digits up to six, with nothing but zeros after a zero. -/
def IsCode (text : String) : Prop :=
  ∃ first digits, text.toList = first :: digits ∧ first.isUpper = true ∧ digits.length = 3 ∧
    (∀ d ∈ digits, '0' ≤ d ∧ d ≤ '6') ∧ digits.Pairwise fun d e => d = '0' → e = '0'

/-! ## Letters -/

theorem letters_eq_nil_iff {word : String} : letters word = [] ↔ ¬Lettered word := by
  simp [letters, Lettered]

theorem head?_letters (word : String) : (letters word).head? = initial? word := by
  rw [letters, List.head?_map, List.head?_filter]
  rfl

theorem sounds_eq (word : String) : sounds word = ((letters word).tail.filterMap digit?).destutter (· ≠ ·) := by
  rw [letters, ← List.map_tail, List.filterMap_map]
  rfl

/-! ## Digits -/

theorem digit?_eq_some {letter d : Char} (h : digit? letter = some d) : '1' ≤ d ∧ d ≤ '6' := by
  obtain ⟨entry, found, rfl⟩ := Option.map_eq_some_iff.1 h
  have bounds : ∀ entry ∈ classes, '1' ≤ entry.1 ∧ entry.1 ≤ '6' := by decide
  exact bounds entry (List.mem_of_find?_eq_some found)

theorem destutter'_eq_cons (d : Char) (ds : List Char) :
    ds.destutter' (· ≠ ·) d = d :: (ds.destutter' (· ≠ ·) d).tail := by
  induction ds with
  | nil => rfl
  | cons e ds ih =>
    by_cases same : d = e
    · rw [List.destutter'_cons_neg _ (not_not.2 same)]
      exact ih
    · rw [List.destutter'_cons_pos _ same]
      rfl

/-- After a digit, those that follow are read as if it stood before them. -/
theorem digitsAfter_some (d : Char) (wanted : Nat) (rest : List Char) :
    digitsAfter (some d) wanted rest = (((rest.filterMap digit?).destutter' (· ≠ ·) d).tail).take wanted := by
  induction rest generalizing d wanted with
  | nil => cases wanted <;> rfl
  | cons letter rest ih =>
    cases wanted with
    | zero => rw [digitsAfter, List.take_zero]
    | succ wanted =>
      rw [digitsAfter]
      cases read : digit? letter with
      | none => rw [List.filterMap_cons_none read, ih]
      | some e =>
        rw [List.filterMap_cons_some read]
        by_cases same : d = e
        · rw [List.destutter'_cons_neg _ (not_not.2 same)]
          simp only [same, ↓reduceIte]
          exact ih e (wanted + 1)
        · rw [List.destutter'_cons_pos _ same, List.tail_cons, destutter'_eq_cons, List.take_succ_cons, ← ih]
          simp [same]

/-- **The digits of letters** are their classes, equal ones in a row as one, and the first of these. -/
theorem digitsAfter_none (wanted : Nat) (rest : List Char) :
    digitsAfter none wanted rest = ((rest.filterMap digit?).destutter (· ≠ ·)).take wanted := by
  induction rest generalizing wanted with
  | nil => cases wanted <;> rfl
  | cons letter rest ih =>
    cases wanted with
    | zero => rw [digitsAfter, List.take_zero]
    | succ wanted =>
      rw [digitsAfter]
      cases read : digit? letter with
      | none => rw [List.filterMap_cons_none read, ih]
      | some d =>
        rw [List.filterMap_cons_some read, List.destutter_cons', destutter'_eq_cons, List.take_succ_cons,
          ← digitsAfter_some]
        rfl

theorem digits_letters (word : String) : digits (letters word).tail = (sounds word).take 3 := by
  rw [sounds_eq, digits, digitsAfter_none]

theorem mem_sounds {word : String} {d : Char} (mem : d ∈ sounds word) : '1' ≤ d ∧ d ≤ '6' := by
  have kept := (List.destutter_sublist _ _).subset mem
  obtain ⟨letter, -, read⟩ := List.mem_filterMap.1 kept
  exact digit?_eq_some read

/-! ## Codes -/

/-- Three digits: those there are, and zeros after them. -/
def padded (ds : List Char) : List Char := ds ++ List.replicate (3 - ds.length) '0'

/-- Without zeros of their own, digits are told by what they are padded to. -/
theorem takeWhile_padded {ds : List Char} (nonzero : '0' ∉ ds) : (padded ds).takeWhile (· ≠ '0') = ds := by
  have all : ∀ d ∈ ds, decide (d ≠ '0') = true := fun d mem => by
    simpa using fun zero : d = '0' => nonzero (zero ▸ mem)
  rw [padded, List.takeWhile_append_of_pos all, List.takeWhile_replicate]
  simp

theorem zero_notMem_sounds (word : String) : '0' ∉ (sounds word).take 3 := fun mem =>
  absurd (mem_sounds (List.mem_of_mem_take mem)).1 (by decide)

theorem toList_code {word : String} {first : Char} (initial : initial? word = some first) :
    (code word).toList = first :: padded ((sounds word).take 3) := by
  rw [← head?_letters] at initial
  obtain ⟨rest, spelled⟩ := List.head?_eq_some_iff.1 initial
  have digits : digits rest = (sounds word).take 3 := by
    rw [← digits_letters, spelled, List.tail_cons]
  unfold code
  rw [spelled]
  simp [digits, padded]

theorem code_of_not_lettered {word : String} (unlettered : ¬Lettered word) : code word = word := by
  unfold code
  rw [letters_eq_nil_iff.2 unlettered]

theorem lettered_iff {word : String} : Lettered word ↔ ∃ first, initial? word = some first := by
  rw [← not_iff_not, ← letters_eq_nil_iff, ← head?_letters]
  cases letters word <;> simp

theorem IsCode.lettered {text : String} (h : IsCode text) : Lettered text := by
  obtain ⟨first, digits, spelled, upper, -⟩ := h
  exact ⟨first, by simp [spelled], by simp [Char.isAlpha, upper]⟩

theorem isCode_code {word : String} (lettered : Lettered word) : IsCode (code word) := by
  obtain ⟨first, initial⟩ := lettered_iff.1 lettered
  obtain ⟨letter, found, rfl⟩ := Option.map_eq_some_iff.1 initial
  have nonzero := zero_notMem_sounds word
  have most : ((sounds word).take 3).length ≤ 3 := List.length_take_le ..
  have digits : ∀ d ∈ (sounds word).take 3, '1' ≤ d ∧ d ≤ '6' := fun d mem => mem_sounds (List.mem_of_mem_take mem)
  generalize sounds_def : (sounds word).take 3 = ds at nonzero most digits
  refine ⟨letter.toUpper, padded ds, ?_, ?_, ?_, fun d mem => ?_, ?_⟩
  · rw [toList_code initial, sounds_def]
  · rw [Char.isUpper_toUpper_eq_isAlpha]
    exact List.find?_some found
  · rw [padded, List.length_append, List.length_replicate]
    omega
  · obtain mem | mem := List.mem_append.1 mem
    · exact ⟨Char.le_trans (by decide) (digits d mem).1, (digits d mem).2⟩
    · obtain rfl := List.eq_of_mem_replicate mem
      decide
  · refine List.pairwise_append.2 ⟨?_, ?_, fun d mem e _ zero => absurd (zero ▸ mem) nonzero⟩
    · exact List.pairwise_of_forall_mem_list fun d mem _ _ zero => absurd (zero ▸ mem) nonzero
    · exact List.pairwise_replicate.2 (.inr fun _ => rfl)

theorem lettered_code {word : String} : Lettered (code word) ↔ Lettered word := by
  by_cases lettered : Lettered word
  · simp [lettered, (isCode_code lettered).lettered]
  · rw [code_of_not_lettered lettered]

theorem code_eq_iff_of_lettered {u v : String} (hu : Lettered u) (hv : Lettered v) :
    code u = code v ↔ initial? u = initial? v ∧ (sounds u).take 3 = (sounds v).take 3 := by
  obtain ⟨first, initial⟩ := lettered_iff.1 hu
  obtain ⟨other, initial'⟩ := lettered_iff.1 hv
  rw [← String.toList_inj, toList_code initial, toList_code initial', initial, initial', List.cons.injEq,
    Option.some.injEq]
  refine and_congr_right fun _ => ⟨fun same => ?_, congrArg padded⟩
  rw [← takeWhile_padded (zero_notMem_sounds u), same, takeWhile_padded (zero_notMem_sounds v)]

/-- **Codes tell words apart by their beginning and their sound.** Two words have the same code
just if both have a letter, their first letters are the same up to case, and the classes of the
consonants after it, equal ones in a row taken as one, are the same as far as the third; or if they
have no letters and are the same word. The code of a word is a capital letter and three digits
up to six, with nothing but zeros after a zero, just if the word has a letter. -/
theorem code_eq_iff (u v : String) :
    (code u = code v ↔
      (Lettered u ∧ Lettered v ∧ initial? u = initial? v ∧ (sounds u).take 3 = (sounds v).take 3) ∨
      (¬Lettered u ∧ ¬Lettered v ∧ u = v)) ∧
    (IsCode (code u) ↔ Lettered u) := by
  refine ⟨?_, fun shape => lettered_code.1 shape.lettered, isCode_code⟩
  have kept (same : code u = code v) : Lettered u ↔ Lettered v := by
    rw [← lettered_code, same, lettered_code]
  by_cases hu : Lettered u <;> by_cases hv : Lettered v
  · simp [hu, hv, code_eq_iff_of_lettered hu hv]
  · simp [hu, hv, mt kept]
  · simp [hu, hv, mt kept]
  · simp [hu, hv, code_of_not_lettered]

/-- A vowel does not part two consonants of one class, and a word without letters is left as it is. -/
example : code "colour" = code "_Color2" ∧ code "Tymczak" = "T520" ∧ code "4_2" = "4_2" := by
  decide +kernel

end ContentChunks.Phonetic
