/-
Keys and signatures go together one to one: the path of a signature's object is
read back as the signature, and a path that is read as it has the components of
that path. So no two paths that differ in their components stand for one object.

Main statements:
- `Base32.decode_eq_ok_iff`, of the coder: only what is written is read.
- `place_of_digest`: the names that are read are those that are written.
- `signature_eq_ok_iff`: which paths are read as a signature.
-/
import ContentChunks.Proofs.Keys
import Mathlib

namespace ContentChunks.Key

variable {width : Nat}

theorem name_eq_ok {component : Path.Component} {bytes : Bytes} (h : name component = .ok bytes) :
    Path.Component.name bytes = component := by
  unfold name at h
  split at h
  · split at h
    · rw [Except.ok.inj h]
    · cases h
  · cases h

/-- What the names of a key look like: folders of one width, and an object that
is no longer but for its ending. -/
theorem symbols_eq_ok {names : List Bytes} {written : Bytes} (h : symbols width names = .ok written) :
    ∃ folders stem, names = folders ++ [stem ++ ending] ∧ (∀ folder ∈ folders, folder.length = width) ∧
      stem ≠ [] ∧ stem.length ≤ width ∧ written = folders.flatten ++ stem := by
  unfold symbols at h
  split at h
  · cases h
  · rename_i last folders reversed
    by_cases ends : ending.isSuffixOf last = true
    · rw [if_neg (by simp [ends])] at h
      obtain ⟨stem, rfl⟩ := List.isSuffixOf_iff_suffix.1 ends
      have front : (stem ++ ending).take ((stem ++ ending).length - ending.length) = stem := by simp
      simp only [front] at h
      by_cases widths : (folders.any fun d => d.length != width) = true
      · rw [if_pos widths] at h
        cases h
      · rw [if_neg widths] at h
        by_cases short : stem = [] ∨ width < stem.length
        · rw [if_pos short] at h
          cases h
        · rw [if_neg short] at h
          obtain rfl := Except.ok.inj h
          rw [not_or, Nat.not_lt] at short
          refine ⟨folders.reverse, stem, ?_, fun folder hf => ?_, short.1, short.2, rfl⟩
          · rw [← List.reverse_reverse names, reversed, List.reverse_cons]
          · simp only [List.any_eq_true, not_exists, not_and, bne_iff_ne, Decidable.not_not] at widths
            exact widths folder (List.mem_reverse.1 hf)
    · rw [if_pos (by simp [ends])] at h
      cases h

/-- **The names that are read are those that are written.** -/
theorem place_of_digest {p : Path} {bytes : Bytes} (h : digest width p = .ok bytes) (algorithm : Algorithm) :
    0 < width ∧ p.components = (place ⟨algorithm, bytes⟩ width).map .name := by
  unfold digest at h
  obtain ⟨read, hn, h⟩ := bind_eq_ok.1 h
  obtain ⟨written, hw, h⟩ := bind_eq_ok.1 h
  have decoded : Base32.decode written = .ok bytes := mapError_eq_ok.1 h
  obtain ⟨full, stem, rfl, widths, filled, short, rfl⟩ := symbols_eq_ok hw
  have pos : 0 < stem.length := List.length_pos_iff.2 filled
  have cut : names ⟨algorithm, bytes⟩ width = full ++ [stem] := by
    rw [names, Base32.decode_eq_ok_iff.1 decoded, Base32.rows_concat widths filled short]
  have same : place ⟨algorithm, bytes⟩ width = full ++ [stem ++ ending] := by
    simp [place, folders, object, cut]
  rw [same]
  exact ⟨by omega, (map_of_mapM_eq_ok (fun _ _ => name_eq_ok) hn).symm⟩

theorem components_path {signature : Signature} (pos : 0 < width) (sized : signature.Sized) :
    (path ⟨[]⟩ signature width).components = (place signature width).map .name := by
  have isName : ∀ n ∈ place signature width, Path.IsName n := fun n hn => (usable_of_mem_place pos sized hn).toIsName
  have given : place signature width ≠ [] := by simp [place]
  rw [path_eq pos (digest_ne_nil sized), Path.extend_eq_push_join _ given isName, Path.push,
    if_neg (Path.head?_join isName), if_pos (.inl rfl), List.nil_append, Path.components_join isName]

theorem signature_congr {p q : Path} (same : p.components = q.components) {algorithm : Algorithm} {s : Signature}
    (h : Key.signature q algorithm width = .ok s) : Key.signature p algorithm width = .ok s := by
  have read : digest width p = digest width q := by rw [digest, digest, same]
  unfold Key.signature at h ⊢
  rw [read]
  cases hd : digest width q with
  | error fault => simp [hd] at h
  | ok bytes => simpa [hd] using h

/-- **The paths that are read as a signature** are those with the components of
the path of its object. -/
theorem signature_eq_ok_iff {p : Path} {algorithm : Algorithm} {s : Signature} :
    Key.signature p algorithm width = .ok s ↔
      0 < width ∧ s.algorithm = algorithm ∧ s.Sized ∧ p.components = (path ⟨[]⟩ s width).components := by
  constructor
  · intro h
    unfold Key.signature at h
    cases hd : digest width p with
    | error fault => simp [hd] at h
    | ok bytes =>
      rw [hd] at h
      obtain ⟨rfl, sized⟩ := Signature.ofDigest_eq_ok_iff.1 h
      obtain ⟨pos, same⟩ := place_of_digest hd algorithm
      exact ⟨pos, rfl, sized, same.trans (components_path pos sized).symm⟩
  · intro ⟨pos, rfl, sized, same⟩
    refine signature_congr ?_ (signature_place pos sized)
    rw [same, components_path pos sized, Path.components_join fun n hn => (usable_of_mem_place pos sized hn).toIsName]

/-- **Keys and signatures go together one to one.** The path of a signature's
object is read back as the signature; a path that is read as a signature has the
components of that path; so two paths that are read as one have the same. -/
theorem path_signature (pos : 0 < width) (algorithm : Algorithm) :
    (∀ s : Signature, s.algorithm = algorithm → s.Sized →
      Key.signature (path ⟨[]⟩ s width) algorithm width = .ok s) ∧
    (∀ p s, Key.signature p algorithm width = .ok s →
      s.algorithm = algorithm ∧ s.Sized ∧ p.components = (path ⟨[]⟩ s width).components) ∧
    ∀ p q s, Key.signature p algorithm width = .ok s → Key.signature q algorithm width = .ok s →
      p.components = q.components := by
  refine ⟨fun s same sized => signature_eq_ok_iff.2 ⟨pos, same, sized, rfl⟩,
    fun p s h => (signature_eq_ok_iff.1 h).2, fun p q s hp hq => ?_⟩
  obtain ⟨-, -, -, here⟩ := signature_eq_ok_iff.1 hp
  obtain ⟨-, -, -, there⟩ := signature_eq_ok_iff.1 hq
  exact here.trans there.symm

/-- Folders of three symbols, and one symbol that is left for the object. -/
theorem path_signature_short_width :
    let s : Signature := ⟨.sha256, List.replicate 32 0⟩
    (path ⟨[]⟩ s 3).components.length = 18 ∧ 0 < 3 ∧
      ((∀ s : Signature, s.algorithm = .sha256 → s.Sized → Key.signature (path ⟨[]⟩ s 3) .sha256 3 = .ok s) ∧
      (∀ p s, Key.signature p .sha256 3 = .ok s →
        s.algorithm = .sha256 ∧ s.Sized ∧ p.components = (path ⟨[]⟩ s 3).components) ∧
      ∀ p q s, Key.signature p .sha256 3 = .ok s → Key.signature q .sha256 3 = .ok s →
        p.components = q.components) ∧
      Key.signature (path ⟨[]⟩ s 3) .sha256 3 = .ok s := by
  have pos : 0 < 3 := by decide
  have both := path_signature pos .sha256
  exact ⟨by cbv, pos, both, both.1 _ rfl rfl⟩

end ContentChunks.Key
