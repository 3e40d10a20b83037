/-
What a path means is left alone by the ways in which paths are put together.

Main statements:
- `components_push`: a name that is appended is one more component.
- `components_ofComponents`: a plain path has the components that it was made of.
- `length_ofComponents_le`: the plain path is no longer than the path.
- `upwards_push`, `parent?_extend`: what is above a path.
- `components_extend_iff`: which names are components of what they are appended to.
-/
import ContentChunks.Path
import Mathlib.Algebra.Ring.Nat
import Mathlib.Data.List.Induction

namespace ContentChunks.Path

/-- Whether a piece of a path is the name of an entry. -/
structure IsName (piece : Bytes) : Prop where
  filled : piece ≠ []
  whole : slash ∉ piece
  notHere : piece ≠ [dot]
  notUp : piece ≠ [dot, dot]

/-- The pieces that stand for something. -/
def busy (pieces : List Bytes) : List Bytes := pieces.filter fun piece => !idle piece

theorem idle_iff {piece : Bytes} : idle piece = true ↔ piece = [] ∨ piece = [dot] := by
  by_cases h : piece = [] ∨ piece = [dot]
  · simp [idle, component?, h]
  · by_cases up : piece = [dot, dot]
    · simp [idle, component?, up]
    · simp [idle, component?, h, up]

theorem busy_idle {piece : Bytes} (h : idle piece = true) (pieces : List Bytes) :
    busy (piece :: pieces) = busy pieces := by
  simp [busy, h]

theorem busy_cons {piece : Bytes} (h : idle piece = false) (pieces : List Bytes) :
    busy (piece :: pieces) = piece :: busy pieces := by
  simp [busy, h]

theorem busy_append (pieces others : List Bytes) : busy (pieces ++ others) = busy pieces ++ busy others := by
  simp [busy]

theorem IsName.component {piece : Bytes} (h : IsName piece) : component? piece = some (.name piece) := by
  simp [component?, h.filled, h.notHere, h.notUp]

theorem IsName.not_idle {piece : Bytes} (h : IsName piece) : idle piece = false := by
  simp [idle, h.component]

/-! ## Pieces -/

theorem head?_append_left {pieces : List Bytes} (given : pieces ≠ []) (others : List Bytes) :
    (pieces ++ others).head? = pieces.head? := by
  cases pieces with
  | nil => exact absurd rfl given
  | cons piece pieces => rfl

theorem split_ne_nil (bytes : Bytes) : split bytes ≠ [] := by
  cases bytes with
  | nil => simp [split]
  | cons b rest =>
    unfold split
    split
    · simp
    · split <;> simp

theorem split_append_slash (front back : Bytes) : split (front ++ slash :: back) = split front ++ split back := by
  induction front with
  | nil => simp [split]
  | cons b front ih =>
    by_cases h : b = slash
    · simp [split, h, ih]
    · obtain ⟨piece, pieces, hsplit⟩ := List.exists_cons_of_ne_nil (split_ne_nil front)
      simp [split, h, ih, hsplit]

theorem split_whole {piece : Bytes} (h : slash ∉ piece) : split piece = [piece] := by
  induction piece with
  | nil => rfl
  | cons b piece ih =>
    have hb : b ≠ slash := fun e => h (by simp [e])
    have rest := ih fun e => h (by simp [e])
    simp [split, hb, rest]

theorem whole_of_mem_split {bytes piece : Bytes} (h : piece ∈ split bytes) : slash ∉ piece := by
  induction bytes generalizing piece with
  | nil =>
    have : piece = [] := by simpa [split] using h
    simp [this]
  | cons b rest ih =>
    obtain ⟨first, others, hsplit⟩ := List.exists_cons_of_ne_nil (split_ne_nil rest)
    by_cases hb : b = slash
    · simp only [split, hb, if_true, List.mem_cons] at h
      rcases h with rfl | h
      · simp
      · exact ih h
    · simp only [split, hb, if_false, hsplit, List.mem_cons] at h
      rcases h with rfl | h
      · have rest : slash ∉ first := ih (by simp [hsplit])
        simp only [List.mem_cons, not_or]
        exact ⟨fun e => hb e.symm, rest⟩
      · exact ih (by simp [hsplit, h])

theorem mem_of_mem_split {bytes piece : Bytes} (h : piece ∈ split bytes) {b : UInt8} (hb : b ∈ piece) :
    b ∈ bytes := by
  induction bytes generalizing piece with
  | nil =>
    have : piece = [] := by simpa [split] using h
    simp [this] at hb
  | cons first rest ih =>
    obtain ⟨other, others, hsplit⟩ := List.exists_cons_of_ne_nil (split_ne_nil rest)
    by_cases cut : first = slash
    · simp only [split, cut, if_true, List.mem_cons] at h
      rcases h with rfl | h
      · simp at hb
      · exact List.mem_cons_of_mem _ (ih h hb)
    · simp only [split, cut, if_false, hsplit, List.mem_cons] at h
      rcases h with rfl | h
      · rcases List.mem_cons.1 hb with rfl | hb
        · exact List.mem_cons_self
        · exact List.mem_cons_of_mem _ (ih (by simp [hsplit]) hb)
      · exact List.mem_cons_of_mem _ (ih (by simp [hsplit, h]) hb)

/-- How many bytes pieces take, each with a slash. -/
def weight (pieces : List Bytes) : Nat := (pieces.map fun piece => piece.length + 1).sum

@[simp] theorem weight_nil : weight [] = 0 := rfl

@[simp] theorem weight_cons (piece : Bytes) (pieces : List Bytes) :
    weight (piece :: pieces) = piece.length + 1 + weight pieces := by
  simp [weight]

theorem weight_append (pieces others : List Bytes) :
    weight (pieces ++ others) = weight pieces + weight others := by
  simp [weight]

theorem weight_le {pieces : List Bytes} (filled : ∀ p ∈ pieces, p ≠ []) :
    weight pieces ≤ 2 * pieces.flatten.length := by
  induction pieces with
  | nil => simp
  | cons piece pieces ih =>
    have first := List.length_pos_iff.2 (filled piece (by simp))
    have rest := ih fun p hp => filled p (by simp [hp])
    rw [weight_cons, List.flatten_cons, List.length_append]
    omega

theorem weight_split (bytes : Bytes) : weight (split bytes) = bytes.length + 1 := by
  induction bytes with
  | nil => rfl
  | cons b rest ih =>
    obtain ⟨first, others, hsplit⟩ := List.exists_cons_of_ne_nil (split_ne_nil rest)
    rw [hsplit] at ih
    by_cases hb : b = slash
    · simp [split, hb, hsplit] at ih ⊢
      omega
    · simp [split, hb, hsplit] at ih ⊢
      omega

theorem weight_busy_le (pieces : List Bytes) : weight (busy pieces) ≤ weight pieces := by
  induction pieces with
  | nil => simp [busy]
  | cons piece pieces ih =>
    cases h : idle piece with
    | true =>
      rw [busy_idle h, weight_cons]
      omega
    | false =>
      rw [busy_cons h, weight_cons, weight_cons]
      omega

/-! ## Appending -/

theorem push_whole {piece : Bytes} (h : slash ∉ piece) (p : Path) :
    p.push piece = if p.bytes = [] ∨ p.bytes.getLast? = some slash then ⟨p.bytes ++ piece⟩
      else ⟨p.bytes ++ slash :: piece⟩ := by
  have head : piece.head? ≠ some slash := by
    intro e
    exact h (List.mem_of_head? e)
  rw [push, if_neg head]

theorem push_ne_nil {p : Path} {piece : Bytes} (h : IsName piece) : (p.push piece).bytes ≠ [] := by
  rw [push_whole h.whole]
  split <;> simp [h.filled]

theorem head?_push {p : Path} {piece : Bytes} (given : p.bytes ≠ []) (h : slash ∉ piece) :
    (p.push piece).bytes.head? = p.bytes.head? := by
  obtain ⟨b, rest, hp⟩ := List.exists_cons_of_ne_nil given
  rw [push_whole h]
  split <;> simp [hp]

theorem mem_push {p : Path} {piece : Bytes} {b : UInt8} (h : b ∈ (p.push piece).bytes) :
    b ∈ p.bytes ∨ b = slash ∨ b ∈ piece := by
  unfold push at h
  split at h
  · exact Or.inr (Or.inr h)
  · split at h
    · rcases List.mem_append.1 h with h | h
      · exact Or.inl h
      · exact Or.inr (Or.inr h)
    · rcases List.mem_append.1 h with h | h
      · exact Or.inl h
      · exact Or.inr (List.mem_cons.1 h)

theorem length_push_le (p : Path) (piece : Bytes) :
    (p.push piece).bytes.length ≤ p.bytes.length + piece.length + 1 := by
  unfold push
  split
  · simp only
    omega
  · split
    · simp only [List.length_append]
      omega
    · simp only [List.length_append, List.length_cons]
      omega

/-- Whether a slash is written before what is appended to a path. -/
def Closed (p : Path) : Prop := p.bytes ≠ [] ∧ p.bytes.getLast? ≠ some slash

theorem closed_push {piece : Bytes} (h : IsName piece) (p : Path) : (p.push piece).Closed := by
  refine ⟨push_ne_nil h, ?_⟩
  obtain ⟨b, last⟩ := Option.ne_none_iff_exists'.1 (mt List.getLast?_eq_none_iff.1 h.filled)
  have hb : b ≠ slash := by
    intro e
    exact h.whole (e ▸ List.mem_of_getLast? last)
  rw [push_whole h.whole]
  split
  · simp [List.getLast?_append, last, hb]
  · simp [List.getLast?_append, List.getLast?_cons, last, hb]

theorem push_closed {p : Path} (closed : p.Closed) {piece : Bytes} (h : slash ∉ piece) :
    p.push piece = ⟨p.bytes ++ slash :: piece⟩ := by
  rw [push_whole h, if_neg (not_or.2 ⟨closed.1, closed.2⟩)]

theorem split_push_closed {p : Path} (closed : p.Closed) {piece : Bytes} (h : slash ∉ piece) :
    split (p.push piece).bytes = split p.bytes ++ [piece] := by
  rw [push_closed closed h, split_append_slash, split_whole h]

/-- The pieces of a path to which a name is appended: those it had, except perhaps
an idle last one, and the name. -/
theorem split_push {p : Path} {piece : Bytes} (given : p.bytes ≠ []) (h : slash ∉ piece) :
    ∃ front, split (p.push piece).bytes = front ++ [piece] ∧ busy front = busy (split p.bytes) ∧
      front.head? = (split p.bytes).head? ∧
      front.reverse.dropWhile idle = (split p.bytes).reverse.dropWhile idle := by
  by_cases last : p.bytes.getLast? = some slash
  · obtain ⟨front, hfront⟩ := List.getLast?_eq_some_iff.1 last
    rw [push_whole h, if_pos (Or.inr last), hfront, split_append_slash]
    refine ⟨split front, ?_, ?_, ?_, ?_⟩
    · rw [List.append_assoc, List.singleton_append, split_append_slash, split_whole h]
    · rw [busy_append]
      simp [split, busy, idle_iff]
    · rw [head?_append_left (split_ne_nil front)]
    · simp [split, idle_iff]
  · exact ⟨split p.bytes, split_push_closed ⟨given, last⟩ h, rfl, rfl, rfl⟩

@[simp] theorem extend_nil (p : Path) : p.extend [] = p := rfl

@[simp] theorem extend_cons (p : Path) (name : Bytes) (names : List Bytes) :
    p.extend (name :: names) = (p.push name).extend names := rfl

theorem extend_append (p : Path) (names others : List Bytes) :
    p.extend (names ++ others) = (p.extend names).extend others := by
  simp [extend]

theorem extend_concat (p : Path) (names : List Bytes) (name : Bytes) :
    p.extend (names ++ [name]) = (p.extend names).push name := by
  simp [extend_append]

theorem extend_ne_nil {p : Path} {names : List Bytes} (given : p.bytes ≠ []) (h : ∀ n ∈ names, IsName n) :
    (p.extend names).bytes ≠ [] := by
  induction names generalizing p with
  | nil => exact given
  | cons name names ih => exact ih (push_ne_nil (h name (by simp))) fun n hn => h n (by simp [hn])

theorem split_extend_closed {p : Path} (closed : p.Closed) {names : List Bytes} (h : ∀ n ∈ names, IsName n) :
    split (p.extend names).bytes = split p.bytes ++ names := by
  induction names generalizing p with
  | nil => simp
  | cons name names ih =>
    have hname := h name (by simp)
    rw [extend_cons, ih (closed_push hname p) fun n hn => h n (by simp [hn]), split_push_closed closed hname.whole]
    simp

theorem split_extend {p : Path} {names : List Bytes} (given : p.bytes ≠ []) (h : ∀ n ∈ names, IsName n) :
    ∃ front, split (p.extend names).bytes = front ++ names ∧ busy front = busy (split p.bytes) := by
  cases names with
  | nil => exact ⟨_, (List.append_nil _).symm, rfl⟩
  | cons name names =>
    have hname := h name (by simp)
    obtain ⟨front, hfront, same, -, -⟩ := split_push given hname.whole
    refine ⟨front, ?_, same⟩
    rw [extend_cons, split_extend_closed (closed_push hname p) fun n hn => h n (by simp [hn]), hfront]
    simp

theorem join_concat {names : List Bytes} (given : names ≠ []) (name : Bytes) :
    join (names ++ [name]) = join names ++ slash :: name := by
  induction names with
  | nil => exact absurd rfl given
  | cons first names ih =>
    cases names with
    | nil => simp [join]
    | cons second names =>
      have rest := ih (by simp)
      simp only [join, List.cons_append, List.intercalate_cons_cons] at rest ⊢
      simp [rest]

theorem join_append {pieces others : List Bytes} (given : pieces ≠ []) (more : others ≠ []) :
    join (pieces ++ others) = join pieces ++ slash :: join others := by
  induction others using List.reverseRecOn with
  | nil => exact absurd rfl more
  | append_singleton others piece ih =>
    rw [← List.append_assoc, join_concat (by simp [given])]
    by_cases empty : others = []
    · simp [empty, join]
    · simp [ih empty, join_concat empty]

theorem join_split (bytes : Bytes) : join (split bytes) = bytes := by
  induction bytes with
  | nil => rfl
  | cons b rest ih =>
    obtain ⟨first, others, hsplit⟩ := List.exists_cons_of_ne_nil (split_ne_nil rest)
    by_cases hb : b = slash
    · rw [split, if_pos hb, ← List.singleton_append, join_append (by simp) (split_ne_nil rest), ih, hb]
      rfl
    · rw [hsplit] at ih
      simp only [split, if_neg hb, hsplit]
      rw [← ih]
      cases others <;> simp [join, List.intercalate_cons_cons]

theorem split_join {pieces : List Bytes} (given : pieces ≠ []) (h : ∀ piece ∈ pieces, slash ∉ piece) :
    split (join pieces) = pieces := by
  induction pieces using List.reverseRecOn with
  | nil => exact absurd rfl given
  | append_singleton pieces piece ih =>
    have whole := split_whole (h piece (by simp))
    by_cases empty : pieces = []
    · simpa [empty, join] using whole
    · rw [join_concat empty, split_append_slash, ih empty fun p hp => h p (by simp [hp]), whole]

theorem head?_join {names : List Bytes} (h : ∀ n ∈ names, IsName n) : (join names).head? ≠ some slash := by
  cases names with
  | nil => simp [join]
  | cons name names =>
    obtain ⟨b, rest, hname⟩ := List.exists_cons_of_ne_nil (h name (by simp)).filled
    have hb : b ≠ slash := fun e => (h name (by simp)).whole (by simp [hname, e])
    cases names <;> simp [join, hname, hb, List.intercalate_cons_cons]

theorem push_append {front : Bytes} (h : front.head? ≠ some slash) {back : Bytes}
    (both : (front ++ back).head? ≠ some slash) (p : Path) :
    p.push (front ++ back) = ⟨(p.push front).bytes ++ back⟩ := by
  rw [push, push, if_neg h, if_neg both]
  split <;> simp

theorem extend_eq_push_join (p : Path) {names : List Bytes} (given : names ≠ []) (h : ∀ n ∈ names, IsName n) :
    p.extend names = p.push (join names) := by
  induction names using List.reverseRecOn with
  | nil => exact absurd rfl given
  | append_singleton names name ih =>
    have hname := h name (by simp)
    have hnames : ∀ n ∈ names, IsName n := fun n hn => h n (by simp [hn])
    by_cases first : names = []
    · simp [first, join]
    · have closed : (p.extend names).Closed := by
        obtain ⟨front, last, rfl⟩ := (List.eq_nil_or_concat names).resolve_left first
        rw [List.concat_eq_append, extend_concat]
        exact closed_push (hnames last (by simp)) _
      have head := head?_join h
      rw [join_concat first] at head
      rw [extend_concat, join_concat first]
      rw [push_closed closed hname.whole, ih first hnames, push_append (head?_join hnames) head]

theorem mem_extend {p : Path} {names : List Bytes} {b : UInt8} (h : b ∈ (p.extend names).bytes) :
    b ∈ p.bytes ∨ b = slash ∨ ∃ n ∈ names, b ∈ n := by
  induction names generalizing p with
  | nil => exact Or.inl h
  | cons name names ih =>
    rcases ih h with h | h | ⟨n, hn, hb⟩
    · rcases mem_push h with h | h | h
      · exact Or.inl h
      · exact Or.inr (Or.inl h)
      · exact Or.inr (Or.inr ⟨name, by simp, h⟩)
    · exact Or.inr (Or.inl h)
    · exact Or.inr (Or.inr ⟨n, by simp [hn], hb⟩)

theorem length_add_le_push {p : Path} {piece : Bytes} (h : slash ∉ piece) :
    p.bytes.length + piece.length ≤ (p.push piece).bytes.length := by
  rw [push_whole h]
  split
  · simp
  · simp only [List.length_append, List.length_cons]
    omega

theorem length_le_push {p : Path} {piece : Bytes} (h : slash ∉ piece) :
    p.bytes.length ≤ (p.push piece).bytes.length :=
  Nat.le_trans (Nat.le_add_right _ _) (length_add_le_push h)

theorem length_le_extend {p : Path} {names : List Bytes} (h : ∀ n ∈ names, slash ∉ n) :
    p.bytes.length ≤ (p.extend names).bytes.length := by
  induction names generalizing p with
  | nil => simp
  | cons name names ih =>
    have first := length_le_push (p := p) (h name (by simp))
    have rest := ih (p := p.push name) fun n hn => h n (by simp [hn])
    rw [extend_cons]
    omega

/-! ## Components -/

/-- The component that a path starts with, if it is not a step. -/
def lead (p : Path) : List Component :=
  if p.bytes.head? = some slash then [.root]
  else if (split p.bytes).head? = some [dot] then [.here]
  else []

theorem components_eq (p : Path) : p.components = p.lead ++ (split p.bytes).filterMap component? := by
  unfold components lead
  split
  · rfl
  · split <;> rfl

theorem filterMap_busy (pieces : List Bytes) :
    (busy pieces).filterMap component? = pieces.filterMap component? := by
  induction pieces with
  | nil => rfl
  | cons piece pieces ih =>
    cases h : idle piece with
    | true =>
      have noComponent : component? piece = none := by simpa [idle] using h
      rw [busy_idle h, List.filterMap_cons_none noComponent, ih]
    | false => rw [busy_cons h, List.filterMap_cons, List.filterMap_cons, ih]

theorem component?_bytes {piece : Bytes} {c : Component} (h : component? piece = some c) :
    c.bytes = piece ∧ c.isStep = true := by
  unfold component? at h
  split at h
  · simp at h
  · split at h
    · rename_i up
      obtain rfl := Option.some.inj h
      exact ⟨up.symm, rfl⟩
    · obtain rfl := Option.some.inj h
      exact ⟨rfl, rfl⟩

theorem steps_eq (p : Path) : (split p.bytes).filterMap component? = p.components.filter Component.isStep := by
  have lead : p.lead.filter Component.isStep = [] := by
    unfold lead
    split
    · rfl
    · split <;> rfl
  have steps : ((split p.bytes).filterMap component?).filter Component.isStep =
      (split p.bytes).filterMap component? := by
    refine List.filter_eq_self.2 fun c hc => ?_
    obtain ⟨piece, -, hpiece⟩ := List.mem_filterMap.1 hc
    exact (component?_bytes hpiece).2
  rw [components_eq, List.filter_append, lead, steps, List.nil_append]

theorem map_bytes_steps (pieces : List Bytes) :
    (pieces.filterMap component?).map Component.bytes = busy pieces := by
  induction pieces with
  | nil => rfl
  | cons piece pieces ih =>
    cases h : component? piece with
    | none => rw [busy_idle (by simp [idle, h]), List.filterMap_cons_none h, ih]
    | some c =>
      rw [busy_cons (by simp [idle, h]), List.filterMap_cons_some h, List.map_cons, ih, (component?_bytes h).1]

/-- Paths with the same components have the same pieces, but for those that stand for nothing. -/
theorem busy_split_congr {p q : Path} (same : p.components = q.components) :
    busy (split p.bytes) = busy (split q.bytes) := by
  rw [← map_bytes_steps, ← map_bytes_steps, steps_eq, steps_eq, same]

/-- **A name that is appended is one more component.** -/
theorem components_push {p : Path} {piece : Bytes} (given : p.bytes ≠ []) (h : slash ∉ piece) :
    (p.push piece).components = p.components ++ (component? piece).toList := by
  obtain ⟨front, hfront, same, first, -⟩ := split_push given h
  have filled : front ≠ [] := by
    intro empty
    rw [empty, List.head?_nil] at first
    exact split_ne_nil _ (List.head?_eq_none_iff.1 first.symm)
  have lead : (p.push piece).lead = p.lead := by
    unfold lead
    rw [head?_push given h, hfront, head?_append_left filled, first]
  have steps : (split (p.push piece).bytes).filterMap component? =
      (split p.bytes).filterMap component? ++ (component? piece).toList := by
    rw [hfront, List.filterMap_append, ← filterMap_busy front, same, filterMap_busy]
    cases h : component? piece <;> simp [h]
  rw [components_eq, components_eq, lead, steps, List.append_assoc]

theorem components_extend {p : Path} {names : List Bytes} (given : p.bytes ≠ []) (h : ∀ n ∈ names, IsName n) :
    (p.extend names).components = p.components ++ names.map .name := by
  induction names generalizing p with
  | nil => simp
  | cons name names ih =>
    have hname := h name (by simp)
    rw [extend_cons, ih (push_ne_nil hname) fun n hn => h n (by simp [hn]), components_push given hname.whole,
      hname.component]
    simp

/-! ## Plain paths -/

theorem ofComponents_append (cs ds : List Component) :
    ofComponents (cs ++ ds) = (ofComponents cs).extend (ds.map Component.bytes) := by
  rw [ofComponents, List.map_append, extend_append]
  rfl

/-- Whether components are steps: two dots and names. -/
def Steps (cs : List Component) : Prop := ∀ c ∈ cs, slash ∉ c.bytes ∧ component? c.bytes = some c

theorem steps_split (p : Path) : Steps ((split p.bytes).filterMap component?) := by
  intro c hc
  obtain ⟨piece, hpiece, hcomponent⟩ := List.mem_filterMap.1 hc
  rw [(component?_bytes hcomponent).1]
  exact ⟨whole_of_mem_split hpiece, hcomponent⟩

theorem components_extend_steps {p : Path} (given : p.bytes ≠ []) {cs : List Component} (h : Steps cs) :
    (p.extend (cs.map Component.bytes)).components = p.components ++ cs := by
  induction cs generalizing p with
  | nil => simp
  | cons c cs ih =>
    obtain ⟨whole, back⟩ := h c (by simp)
    have filled : c.bytes ≠ [] := by
      intro empty
      simp [empty, component?] at back
    have more : (p.push c.bytes).bytes ≠ [] := by
      rw [push_whole whole]
      split <;> simp [filled]
    rw [List.map_cons, extend_cons, ih more fun d hd => h d (by simp [hd]), components_push given whole, back]
    simp

theorem components_single {c : Component} (h : slash ∉ c.bytes ∧ component? c.bytes = some c) :
    (⟨c.bytes⟩ : Path).components = [c] := by
  have head : c.bytes.head? ≠ some slash := fun e => h.1 (List.mem_of_head? e)
  have here : c.bytes ≠ [dot] := by
    intro e
    simp [e, component?] at h
  simp [components, split_whole h.1, head, here, h.2]

theorem components_steps {cs : List Component} (h : Steps cs) : (ofComponents cs).components = cs := by
  cases cs with
  | nil => rfl
  | cons c cs =>
    have hc := h c (by simp)
    have filled : c.bytes ≠ [] := by
      intro empty
      simp [empty, component?] at hc
    have start : (⟨[]⟩ : Path).push c.bytes = ⟨c.bytes⟩ := by
      rw [push_whole hc.1]
      simp
    rw [ofComponents, List.map_cons, extend_cons, start,
      components_extend_steps (p := ⟨c.bytes⟩) filled fun d hd => h d (by simp [hd]), components_single hc]
    rfl

/-- **A plain path has the components that it was made of.** -/
theorem components_ofComponents (p : Path) : (ofComponents p.components).components = p.components := by
  have steps := steps_split p
  rw [components_eq p]
  unfold lead
  split
  · rw [ofComponents_append, components_extend_steps (by decide) steps]
    rfl
  · split
    · rw [ofComponents_append, components_extend_steps (by decide) steps]
      rfl
    · exact components_steps steps

theorem components_ne_nil {p : Path} (given : p.bytes ≠ []) : p.components ≠ [] := by
  rw [components_eq]
  unfold lead
  split
  · simp
  · split
    · simp
    · rename_i rooted here
      obtain ⟨b, rest, hp⟩ := List.exists_cons_of_ne_nil given
      have hb : b ≠ slash := fun e => rooted (by simp [hp, e])
      obtain ⟨first, pieces, hrest⟩ := List.exists_cons_of_ne_nil (split_ne_nil rest)
      obtain ⟨piece, filled, hsplit⟩ : ∃ piece, piece ≠ [] ∧ split p.bytes = piece :: pieces :=
        ⟨b :: first, by simp, by simp [hp, split, hb, hrest]⟩
      have notHere : piece ≠ [dot] := fun e => here (by simp [hsplit, e])
      have busy : (component? piece).isSome := by
        have awake := mt idle_iff.1 (not_or.2 ⟨filled, notHere⟩)
        cases hc : component? piece with
        | none => exact absurd (by simp [idle, hc]) awake
        | some c => rfl
      obtain ⟨c, hc⟩ := Option.isSome_iff_exists.1 busy
      simp [hsplit, hc]

theorem mem_ofComponents {p : Path} {b : UInt8} (h : b ∈ (ofComponents p.components).bytes) :
    b = slash ∨ b = dot ∨ b ∈ p.bytes := by
  have lead : (ofComponents p.lead).bytes.all (fun c => c = slash ∨ c = dot) = true := by
    unfold lead
    split
    · decide
    · split <;> decide
  rw [components_eq p, ofComponents_append, map_bytes_steps] at h
  rcases mem_extend h with h | h | ⟨piece, hpiece, hb⟩
  · have known : b = slash ∨ b = dot := by simpa using List.all_eq_true.1 lead b h
    rcases known with h | h
    · exact Or.inl h
    · exact Or.inr (Or.inl h)
  · exact Or.inl h
  · exact Or.inr (Or.inr (mem_of_mem_split (List.mem_filter.1 hpiece).1 hb))

theorem length_extend_le (p : Path) (names : List Bytes) :
    (p.extend names).bytes.length ≤ p.bytes.length + weight names := by
  induction names generalizing p with
  | nil => simp
  | cons name names ih =>
    have first := length_push_le p name
    have rest := ih (p.push name)
    rw [extend_cons, weight_cons]
    omega

theorem length_extend_open {p : Path} (opens : p.bytes = [] ∨ p.bytes.getLast? = some slash) {names : List Bytes}
    (given : names ≠ []) (h : ∀ n ∈ names, slash ∉ n) :
    (p.extend names).bytes.length < p.bytes.length + weight names := by
  cases names with
  | nil => exact absurd rfl given
  | cons name names =>
    have rest := length_extend_le (p.push name) names
    rw [push_whole (h name (by simp)), if_pos opens] at rest
    rw [extend_cons, push_whole (h name (by simp)), if_pos opens, weight_cons]
    simp only [List.length_append] at rest ⊢
    omega

/-- **The plain path is no longer than the path.** -/
theorem length_ofComponents_le (p : Path) : (ofComponents p.components).bytes.length ≤ p.bytes.length := by
  have whole : ∀ n ∈ busy (split p.bytes), slash ∉ n := fun n hn => whole_of_mem_split (List.mem_filter.1 hn).1
  have less := weight_busy_le (split p.bytes)
  have total := weight_split p.bytes
  rw [components_eq p, ofComponents_append, map_bytes_steps]
  unfold lead
  split
  · rename_i rooted
    obtain ⟨rest, hp⟩ := List.head?_eq_some_iff.1 rooted
    have hsplit : split p.bytes = [] :: split rest := by simp [hp, split]
    have same : busy (split p.bytes) = busy (split rest) := by rw [hsplit, busy_idle (by rfl)]
    have fewer := weight_busy_le (split rest)
    have size := weight_split rest
    have one : (ofComponents [.root]).bytes.length = 1 := by decide
    have count : p.bytes.length = rest.length + 1 := by rw [hp, List.length_cons]
    by_cases idle : busy (split p.bytes) = []
    · rw [idle, extend_nil]
      omega
    · have long := length_extend_open (p := ofComponents [.root]) (Or.inr (by decide)) idle whole
      rw [same] at long ⊢
      omega
  · split
    · rename_i here
      obtain ⟨pieces, hsplit⟩ := List.head?_eq_some_iff.1 here
      have same : busy (split p.bytes) = busy pieces := by rw [hsplit, busy_idle (by rfl)]
      have fewer := weight_busy_le pieces
      have long := length_extend_le (ofComponents [.here]) (busy (split p.bytes))
      have one : (ofComponents [.here]).bytes.length = 1 := by decide
      rw [hsplit, weight_cons, List.length_singleton] at total
      rw [same] at long ⊢
      omega
    · by_cases idle : busy (split p.bytes) = []
      · simp [idle, ofComponents]
      · have long := length_extend_open (p := ofComponents []) (Or.inl (by decide)) idle whole
        have zero : (ofComponents []).bytes.length = 0 := by decide
        omega

theorem ofComponents_ne_nil {p : Path} (given : p.bytes ≠ []) : (ofComponents p.components).bytes ≠ [] := by
  intro empty
  have back := components_ofComponents p
  have empty : ofComponents p.components = ⟨[]⟩ := by
    cases h : ofComponents p.components
    simpa [h] using empty
  rw [empty] at back
  exact components_ne_nil given back.symm

theorem ofComponents_extend {p : Path} (given : p.bytes ≠ []) {names : List Bytes} (h : ∀ n ∈ names, IsName n) :
    ofComponents (p.extend names).components = (ofComponents p.components).extend names := by
  have written : (names.map Component.name).map Component.bytes = names := by
    rw [List.map_map]
    exact List.map_id'' (fun _ => rfl) names
  rw [components_extend given h, ofComponents_append, written]

/-! ## The end of a path -/

/-- The path without the pieces at its end that stand for nothing. -/
def trimmed (p : Path) : Path := backTo p.components (split p.bytes).reverse

/-- What is left without them is the path up to a slash, or there is nothing but what it starts with. -/
theorem trimmed_cases (p : Path) :
    p.trimmed = ofComponents p.components ∨
      p.trimmed.bytes <+: p.bytes ∧ p.trimmed.bytes ≠ [] ∧
        busy (split p.trimmed.bytes) = busy (split p.bytes) := by
  by_cases idleOnly : (split p.bytes).reverse.dropWhile idle = []
  · exact Or.inl (by rw [trimmed, backTo, idleOnly])
  obtain ⟨last, above, kept⟩ := List.exists_cons_of_ne_nil idleOnly
  have awake : idle last = false := by
    have := List.head_dropWhile_not idle idleOnly
    simpa [kept] using this
  obtain ⟨idles, asleep, pieces⟩ : ∃ idles, (∀ piece ∈ idles, idle piece = true) ∧
      split p.bytes = (above.reverse ++ [last]) ++ idles := by
    refine ⟨((split p.bytes).reverse.takeWhile idle).reverse, fun piece hp => ?_, ?_⟩
    · exact List.all_eq_true.1 (List.all_takeWhile (p := idle)) piece (List.mem_reverse.1 hp)
    · rw [← List.reverse_cons, ← kept, ← List.reverse_append, List.takeWhile_append_dropWhile, List.reverse_reverse]
  have here : p.trimmed = ⟨join (above.reverse ++ [last])⟩ := by simp [trimmed, backTo, kept]
  have back : split p.trimmed.bytes = above.reverse ++ [last] := by
    rw [here]
    refine split_join (by simp) fun piece hp => ?_
    have among : piece ∈ split p.bytes := pieces ▸ List.mem_append_left _ hp
    exact whole_of_mem_split among
  have busyIdles : busy idles = [] := by simpa [busy] using asleep
  refine Or.inr ⟨?_, ?_, ?_⟩
  · rw [here, ← join_split p.bytes, pieces]
    by_cases clean : idles = []
    · simp [clean]
    · rw [join_append (by simp) clean]
      exact List.prefix_append _ _
  · intro empty
    have : last ∈ split p.trimmed.bytes := by simp [back]
    rw [empty, split, List.mem_singleton] at this
    rw [this] at awake
    cases awake
  · rw [back, pieces, busy_append _ idles, busyIdles, List.append_nil]

theorem length_trimmed_le (p : Path) : p.trimmed.bytes.length ≤ p.bytes.length := by
  obtain same | ⟨within, -⟩ := p.trimmed_cases
  · rw [same]
    exact length_ofComponents_le p
  · exact within.length_le

theorem mem_trimmed {p : Path} {b : UInt8} (h : b ∈ p.trimmed.bytes) : b = slash ∨ b = dot ∨ b ∈ p.bytes := by
  obtain same | ⟨within, -⟩ := p.trimmed_cases
  · exact mem_ofComponents (same ▸ h)
  · exact Or.inr (Or.inr (within.subset h))

theorem trimmed_ne_nil {p : Path} (given : p.bytes ≠ []) : p.trimmed.bytes ≠ [] := by
  obtain same | ⟨-, filled, -⟩ := p.trimmed_cases
  · rw [same]
    exact ofComponents_ne_nil given
  · exact filled

theorem busy_split_trimmed (p : Path) : busy (split p.trimmed.bytes) = busy (split p.bytes) := by
  obtain same | ⟨-, -, busy⟩ := p.trimmed_cases
  · rw [same]
    exact busy_split_congr (components_ofComponents p)
  · exact busy

theorem trimmed_push {p : Path} {name : Bytes} (given : p.bytes ≠ []) (h : IsName name) :
    (p.push name).trimmed = p.push name := by
  obtain ⟨front, hfront, -⟩ := split_push given h.whole
  have back : (split (p.push name).bytes).reverse = name :: front.reverse := by simp [hfront]
  rw [trimmed, back, backTo, List.dropWhile_cons_of_neg (by simp [h.not_idle])]
  simp only
  rw [← back, List.reverse_reverse, join_split]

theorem length_push_trimmed_le {p : Path} {name : Bytes} (given : p.bytes ≠ []) (h : IsName name) :
    (p.trimmed.push name).bytes.length ≤ (p.push name).bytes.length := by
  obtain same | ⟨within, -⟩ := p.trimmed_cases
  · have isName : ∀ n ∈ [name], IsName n := by simpa using h
    have plain := ofComponents_extend given isName
    rw [extend_cons, extend_nil, extend_cons, extend_nil] at plain
    rw [same, ← plain]
    exact length_ofComponents_le (p.push name)
  · by_cases whole : p.trimmed.bytes.length = p.bytes.length
    · have all : p.trimmed = p := congrArg Path.mk (within.eq_of_length whole)
      rw [all]
    · have shorter := within.length_le
      have := length_push_le p.trimmed name
      have := length_add_le_push (p := p) h.whole
      omega

/-! ## Above a path -/

theorem exists_upwards {p : Path} (given : p.bytes ≠ []) : ∃ above, p.upwards = p :: above := by
  rw [upwards, if_neg given]
  exact ⟨_, rfl⟩

/-- What is above a path with one more name is the path as its components tell it, and what is above that. -/
theorem upwards_push {p : Path} (given : p.bytes ≠ []) {name : Bytes} (h : IsName name) :
    (p.push name).upwards = p.push name :: (ofComponents p.components).upwards := by
  have filled := List.length_pos_iff.2 (components_ne_nil given)
  have components := components_push given h.whole
  rw [h.component, Option.toList_some] at components
  rw [upwards, upwards, if_neg (push_ne_nil h), if_neg (ofComponents_ne_nil given), components_ofComponents, components,
    List.length_append, List.length_singleton, Nat.add_sub_cancel]
  obtain ⟨n, hn⟩ : ∃ n, p.components.length = n + 1 := ⟨p.components.length - 1, by omega⟩
  rw [hn, List.range_succ, List.reverse_append, Nat.add_sub_cancel]
  simp only [List.reverse_singleton, List.singleton_append, List.map_cons]
  rw [← hn, List.take_left]
  refine congrArg _ (congrArg _ (List.map_congr_left fun i hi => ?_))
  have : i < n := by simpa using hi
  rw [List.take_append_of_le_length (by omega)]

theorem parent?_push {p : Path} (given : p.bytes ≠ []) {name : Bytes} (h : IsName name) :
    (p.push name).parent? = some p.trimmed := by
  obtain ⟨front, hfront, -, -, idles⟩ := split_push given h.whole
  have back : (split (p.push name).bytes).reverse = name :: front.reverse := by simp [hfront]
  have components : (p.push name).components.reverse = .name name :: p.components.reverse := by
    simp [components_push given h.whole, h.component]
  have pieces : ((split (p.push name).bytes).reverse.dropWhile idle).tail = front.reverse := by
    rw [back, List.dropWhile_cons_of_neg (by simp [h.not_idle]), List.tail_cons]
  rw [parent?, components, pieces]
  simp [trimmed, backTo, idles]

/-- What is above a path with names after it. -/
theorem parent?_extend {p : Path} (given : p.bytes ≠ []) {names : List Bytes} {last : Bytes}
    (h : ∀ n ∈ names ++ [last], IsName n) :
    (p.extend (names ++ [last])).parent? = some (p.extend names).trimmed := by
  rw [extend_concat, parent?_push (extend_ne_nil given fun n hn => h n (by simp [hn])) (h last (by simp))]

theorem components_join {names : List Bytes} (h : ∀ n ∈ names, IsName n) :
    (⟨join names⟩ : Path).components = names.map .name := by
  by_cases given : names = []
  · simp [given, join, components, split, component?]
  · have joined : (⟨join names⟩ : Path) = ofComponents (names.map .name) := by
      have := extend_eq_push_join ⟨[]⟩ given h
      have hnames : (names.map Component.name).map Component.bytes = names := by
        rw [List.map_map]
        exact List.map_id'' (fun _ => rfl) names
      rw [ofComponents, hnames, this, push, if_neg (head?_join h), if_pos (Or.inl rfl), List.nil_append]
    rw [joined]
    refine components_steps fun c hc => ?_
    obtain ⟨name, hname, rfl⟩ := List.mem_map.1 hc
    exact ⟨(h name hname).whole, (h name hname).component⟩

/-! ## Which names are components -/

theorem isName_of_mem_components {p : Path} {name : Bytes} (h : .name name ∈ p.components) : IsName name := by
  have step : .name name ∈ (split p.bytes).filterMap component? := by
    rw [components_eq, List.mem_append] at h
    refine h.resolve_left ?_
    unfold lead
    split
    · simp
    · split <;> simp
  obtain ⟨piece, mem, found⟩ := List.mem_filterMap.1 step
  unfold component? at found
  split at found
  · cases found
  next filled =>
    split at found
    · cases found
    next notUp =>
      cases found
      obtain ⟨filled, notHere⟩ := not_or.1 filled
      exact ⟨filled, whole_of_mem_split mem, notHere, notUp⟩

/-- **Just the names that an entry may have** are components of whatever path they are appended to. -/
theorem components_extend_iff (names : List Bytes) :
    (∀ p : Path, (p.extend names).components = p.components ++ names.map .name) ↔ ∀ n ∈ names, IsName n := by
  constructor
  · intro appended n hn
    refine isName_of_mem_components (p := extend ⟨[]⟩ names) ?_
    rw [appended]
    exact List.mem_append_right _ (List.mem_map_of_mem hn)
  · intro h p
    by_cases given : p.bytes = []
    · obtain rfl : p = ⟨[]⟩ := by rw [← given]
      by_cases empty : names = []
      · simp [empty]
      · have joined := extend_eq_push_join ⟨[]⟩ empty h
        rw [push, if_neg (head?_join h), if_pos (Or.inl rfl), List.nil_append] at joined
        rw [joined, components_join h]
        rfl
    · exact components_extend given h

end ContentChunks.Path
