import Mathlib

/-!
# First occurrence of a delimiter

A scanner splits a byte stream at the first occurrence of a fixed pattern and
resumes when more elements arrive.  This file collects what such a scanner
relies on: an occurrence stays the first one when the stream grows, a scan may
restart after a part known to be free of the pattern, and a pattern without
border is found exactly where it was written.
-/

namespace Katana
namespace Library

variable {α : Type*} [DecidableEq α]

/-- Position of the first occurrence of `pattern`. -/
def firstIndex (pattern : List α) : List α → Option ℕ
  | [] => if pattern = [] then some 0 else none
  | a :: rest =>
      if pattern.isPrefixOf (a :: rest) then some 0
      else (firstIndex pattern rest).map (· + 1)

theorem firstIndex_eq_some_iff {pattern stream : List α} {i : ℕ} :
    firstIndex pattern stream = some i ↔
      i ≤ stream.length ∧ pattern <+: stream.drop i ∧
        ∀ j < i, ¬ pattern <+: stream.drop j := by
  induction stream generalizing i with
  | nil =>
      by_cases hp : pattern = []
      · simp only [firstIndex, hp, if_true, Option.some.injEq]
        constructor
        · rintro rfl
          simp
        · rintro ⟨hi, -, -⟩
          exact (Nat.le_zero.mp hi).symm
      · simp [firstIndex, hp]
  | cons a rest ih =>
      by_cases hhead : pattern.isPrefixOf (a :: rest)
      · simp only [firstIndex, hhead, if_true, Option.some.injEq]
        rw [List.isPrefixOf_iff_prefix] at hhead
        constructor
        · rintro rfl
          simpa using hhead
        · rintro ⟨-, -, hfirst⟩
          by_contra hne
          exact hfirst 0 (by omega) (by simpa using hhead)
      · simp only [firstIndex, hhead]
        rw [List.isPrefixOf_iff_prefix] at hhead
        cases i with
        | zero => simp [hhead]
        | succ i =>
            simp only [Bool.false_eq_true, if_false, Option.map_eq_some_iff,
              Nat.add_right_cancel_iff, exists_eq_right, ih,
              List.length_cons, Nat.add_le_add_iff_right, List.drop_succ_cons]
            constructor
            · rintro ⟨hi, hat, hfirst⟩
              refine ⟨hi, hat, ?_⟩
              intro j hj
              cases j with
              | zero => simpa using hhead
              | succ j => simpa using hfirst j (by omega)
            · rintro ⟨hi, hat, hfirst⟩
              refine ⟨hi, hat, ?_⟩
              intro j hj
              simpa using hfirst (j + 1) (by omega)

theorem firstIndex_eq_none_iff {pattern stream : List α} (hp : pattern ≠ []) :
    firstIndex pattern stream = none ↔ ∀ j, ¬ pattern <+: stream.drop j := by
  induction stream with
  | nil => simp [firstIndex, hp]
  | cons a rest ih =>
      by_cases hhead : pattern.isPrefixOf (a :: rest)
      · simp only [firstIndex, hhead, if_true, reduceCtorEq, false_iff, not_forall,
          not_not]
        rw [List.isPrefixOf_iff_prefix] at hhead
        exact ⟨0, by simpa using hhead⟩
      · simp only [firstIndex, hhead, Bool.false_eq_true, if_false,
          Option.map_eq_none_iff, ih]
        rw [List.isPrefixOf_iff_prefix] at hhead
        constructor
        · intro h j
          cases j with
          | zero => simpa using hhead
          | succ j => simpa using h j
        · intro h j
          simpa using h (j + 1)

theorem firstIndex_bound {pattern stream : List α} {i : ℕ}
    (h : firstIndex pattern stream = some i) :
    i + pattern.length ≤ stream.length := by
  obtain ⟨hi, hat, -⟩ := (firstIndex_eq_some_iff).mp h
  have hlen := hat.length_le
  rw [List.length_drop] at hlen
  omega

/-- The stream around its first occurrence. -/
theorem firstIndex_split {pattern stream : List α} {i : ℕ}
    (h : firstIndex pattern stream = some i) :
    stream = stream.take i ++ pattern ++ stream.drop (i + pattern.length) := by
  obtain ⟨-, ⟨rest, hrest⟩, -⟩ := (firstIndex_eq_some_iff).mp h
  have hdrop : stream.drop (i + pattern.length) = rest := by
    rw [← List.drop_drop, ← hrest, List.drop_left]
  rw [hdrop, List.append_assoc, hrest, List.take_append_drop]

/-- Elements arriving later do not move the first occurrence. -/
theorem firstIndex_append {pattern stream : List α} {i : ℕ}
    (h : firstIndex pattern stream = some i) (more : List α) :
    firstIndex pattern (stream ++ more) = some i := by
  have hbound := firstIndex_bound h
  obtain ⟨hi, hat, hfirst⟩ := (firstIndex_eq_some_iff).mp h
  rw [firstIndex_eq_some_iff]
  refine ⟨by simp; omega, ?_, ?_⟩
  · rw [List.drop_append_of_le_length hi]
    exact hat.trans (List.prefix_append _ _)
  · intro j hj hpre
    rw [List.drop_append_of_le_length (by omega)] at hpre
    refine hfirst j hj (List.prefix_of_prefix_length_le hpre (List.prefix_append _ _) ?_)
    rw [List.length_drop]
    omega

/-- A new occurrence overlaps the elements that arrived last. -/
theorem firstIndex_none_append {pattern stream more : List α} {i : ℕ}
    (hp : pattern ≠ []) (hnone : firstIndex pattern stream = none)
    (h : firstIndex pattern (stream ++ more) = some i) :
    stream.length < i + pattern.length := by
  obtain ⟨hi, hat, -⟩ := (firstIndex_eq_some_iff).mp h
  by_contra hle
  have hpos : 0 < pattern.length := List.length_pos_iff.mpr hp
  rw [List.drop_append_of_le_length (by omega)] at hat
  refine (firstIndex_eq_none_iff hp).mp hnone i
    (List.prefix_of_prefix_length_le hat (List.prefix_append _ _) ?_)
  rw [List.length_drop]
  omega

theorem firstIndex_none_of_append {pattern stream more : List α}
    (h : firstIndex pattern (stream ++ more) = none) :
    firstIndex pattern stream = none := by
  cases hs : firstIndex pattern stream with
  | none => rfl
  | some i =>
      rw [firstIndex_append hs more] at h
      exact absurd h (by simp)

/-- A scan may start after positions where the pattern does not occur. -/
theorem firstIndex_restart {pattern stream : List α} {start : ℕ}
    (hp : pattern ≠ []) (hclean : ∀ j < start, ¬ pattern <+: stream.drop j) :
    firstIndex pattern stream =
      (firstIndex pattern (stream.drop start)).map (· + start) := by
  cases h : firstIndex pattern (stream.drop start) with
  | none =>
      rw [Option.map_none, firstIndex_eq_none_iff hp]
      rw [firstIndex_eq_none_iff hp] at h
      intro j
      by_cases hj : j < start
      · exact hclean j hj
      · have hdrop := h (j - start)
        rwa [List.drop_drop, Nat.add_sub_cancel' (by omega)] at hdrop
  | some i =>
      obtain ⟨hi, hat, hfirst⟩ := (firstIndex_eq_some_iff).mp h
      have hbound := firstIndex_bound h
      have hpos : 0 < pattern.length := List.length_pos_iff.mpr hp
      rw [Option.map_some, firstIndex_eq_some_iff]
      rw [List.length_drop] at hbound
      refine ⟨by omega, ?_, ?_⟩
      · rwa [List.drop_drop, Nat.add_comm start i] at hat
      · intro j hj
        by_cases hjs : j < start
        · exact hclean j hjs
        · have hdrop := hfirst (j - start) (by omega)
          rwa [List.drop_drop, Nat.add_sub_cancel' (by omega)] at hdrop

/-- No proper suffix of the pattern is a prefix of it, so two occurrences
never overlap. -/
def Unbordered (pattern : List α) : Prop :=
  ∀ k, 0 < k → k < pattern.length → ¬ pattern.drop k <+: pattern

/-- A pattern without border ends the first segment exactly where it was
written. -/
theorem firstIndex_segment {pattern segment : List α} (hp : pattern ≠ [])
    (hborder : Unbordered pattern) (hsegment : firstIndex pattern segment = none)
    (rest : List α) :
    firstIndex pattern (segment ++ pattern ++ rest) = some segment.length := by
  rw [firstIndex_eq_some_iff]
  refine ⟨by simp, by simp [List.append_assoc], ?_⟩
  intro j hj hpre
  rw [List.append_assoc, List.drop_append_of_le_length (by omega)] at hpre
  by_cases hfit : j + pattern.length ≤ segment.length
  · refine (firstIndex_eq_none_iff hp).mp hsegment j
      (List.prefix_of_prefix_length_le hpre (List.prefix_append _ _) ?_)
    rw [List.length_drop]
    omega
  · -- the occurrence straddles the end of the segment: its tail is a border
    have htail : pattern.drop (segment.length - j) <+: pattern ++ rest := by
      have hdropped := hpre.drop (segment.length - j)
      rwa [List.drop_left' (by rw [List.length_drop])] at hdropped
    refine hborder (segment.length - j) (by omega) (by omega)
      (List.prefix_of_prefix_length_le htail (List.prefix_append _ _) ?_)
    rw [List.length_drop]
    omega

/-- Two occurrences of a pattern without border next to each other: either the
stream goes on with the pattern after the first segment, or the search goes on
behind that segment. -/
theorem firstIndex_double {pattern segment : List α} (hp : pattern ≠ [])
    (hborder : Unbordered pattern) (hsegment : firstIndex pattern segment = none)
    {rest : List α} (hrest : ¬ pattern <+: rest) :
    firstIndex (pattern ++ pattern) (segment ++ pattern ++ rest) =
      (firstIndex (pattern ++ pattern) rest).map
        (· + (segment ++ pattern).length) := by
  have hsplit := firstIndex_segment hp hborder hsegment rest
  have hclean : ∀ j < (segment ++ pattern).length,
      ¬ pattern ++ pattern <+: (segment ++ pattern ++ rest).drop j := by
    intro j hj hdouble
    rw [List.length_append] at hj
    have hfirst : pattern <+: (segment ++ pattern ++ rest).drop j :=
      (List.prefix_append _ _).trans hdouble
    have hle : segment.length ≤ j := by
      by_contra hlt
      exact ((firstIndex_eq_some_iff).mp hsplit).2.2 j (by omega) hfirst
    obtain ⟨k, rfl⟩ := Nat.exists_eq_add_of_le hle
    rw [List.append_assoc, ← List.drop_drop, List.drop_left] at hdouble hfirst
    by_cases hk : k = 0
    · subst hk
      rw [List.drop_zero, List.prefix_append_right_inj] at hdouble
      exact hrest hdouble
    · -- an occurrence that begins inside the pattern would be a border
      refine hborder k (by omega) (by omega) ?_
      rw [List.drop_append_of_le_length (by omega)] at hfirst
      exact List.prefix_of_prefix_length_le (List.prefix_append _ _) hfirst (by
        rw [List.length_drop]
        omega)
  rw [firstIndex_restart (by simp [hp]) hclean, List.drop_left]

theorem firstIndex_double_here {pattern segment : List α} (hp : pattern ≠ [])
    (hborder : Unbordered pattern) (hsegment : firstIndex pattern segment = none)
    (rest : List α) :
    firstIndex (pattern ++ pattern) (segment ++ pattern ++ (pattern ++ rest)) =
      some segment.length := by
  have hsplit := firstIndex_segment hp hborder hsegment (pattern ++ rest)
  rw [firstIndex_eq_some_iff] at hsplit ⊢
  refine ⟨hsplit.1, ?_, ?_⟩
  · rw [List.append_assoc, List.drop_left, ← List.append_assoc]
    exact List.prefix_append _ _
  · intro j hj hdouble
    exact hsplit.2.2 j hj ((List.prefix_append _ _).trans hdouble)

end Library
end Katana
