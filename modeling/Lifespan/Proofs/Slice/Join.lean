import Lifespan.Slice.Basic
import Lifespan.Sum
import Mathlib.Data.List.Induction

/-!
# Joined slices taken apart again

Slices are joined behind the bytes of a buffer by appending one after another. So each of them lies
behind those before it, and the bytes can be taken apart again from either end: a look whether the
next slice is there finds it, and taking it off leaves the others joined. Empty slices and an empty
buffer are no exception.
-/

namespace Lifespan.Slice

variable {s t u : Slice} {buffer front rest : Bytes} {parts ps qs : List Slice}

/-! ## Joining -/

@[simp] theorem concat_nil : concat [] = [] := rfl

theorem concat_cons (part : Slice) (parts : List Slice) :
    concat (part :: parts) = part.bytes ++ concat parts :=
  List.flatMap_cons

theorem concat_append (ps qs : List Slice) : concat (ps ++ qs) = concat ps ++ concat qs :=
  List.flatMap_append

theorem length_concat (parts : List Slice) :
    (concat parts).length = sum (parts.map Slice.length) := by
  induction parts with
  | nil => rfl
  | cons part rest ih =>
      rw [concat_cons, List.length_append, ih, List.map_cons, sum_cons, Slice.length]

theorem join_append (buffer : Bytes) (ps qs : List Slice) :
    join buffer (ps ++ qs) = join (join buffer ps) qs := by
  rw [join, join, join, concat_append, List.append_assoc]

/-- Slices are joined by appending one after another to the buffer. -/
theorem foldl_append_eq_join (buffer : Bytes) (parts : List Slice) :
    parts.foldl (fun buffer part => buffer ++ part.bytes) buffer = join buffer parts := by
  induction parts generalizing buffer with
  | nil => exact (List.append_nil buffer).symm
  | cons part rest ih => rw [List.foldl_cons, ih, join, join, concat_cons, List.append_assoc]

theorem length_join (buffer : Bytes) (parts : List Slice) :
    (join buffer parts).length = buffer.length + sum (parts.map Slice.length) := by
  rw [join, List.length_append, length_concat]

theorem take_join (buffer : Bytes) (parts : List Slice) :
    (join buffer parts).take buffer.length = buffer :=
  List.take_left

/-- Each slice lies behind the buffer and the slices before it. -/
theorem take_drop_join (buffer : Bytes) (ps : List Slice) (t : Slice) (qs : List Slice) :
    ((join buffer (ps ++ t :: qs)).drop (buffer.length + sum (ps.map Slice.length))).take
      t.length = t.bytes := by
  have hsplit : join buffer (ps ++ t :: qs) = join buffer ps ++ (t.bytes ++ concat qs) := by
    rw [join_append, ← concat_cons]
    rfl
  rw [hsplit, ← length_join, List.drop_left, Slice.length, List.take_left]

/-! ## Taking off one slice -/

/-- Why a slice cannot be taken off another one. -/
inductive Uncut where
  | absent
  | fault (f : Fault)
deriving DecidableEq, Repr

/-- What is left without another slice at the front, after a look whether it is there. -/
def cutFront (s t : Slice) : Except Uncut Slice :=
  if s.startsWith t then (s.dropFront t.length).mapError .fault else .error .absent

/-- What is left without another slice at the back, after a look whether it is there. -/
def cutBack (s t : Slice) : Except Uncut Slice :=
  if s.endsWith t then (s.dropBack t.length).mapError .fault else .error .absent

/-- What is there can be taken off from the front, and what is not there is not taken off. -/
theorem cutFront_eq_ok_iff : s.cutFront t = .ok u ↔ s.bytes = t.bytes ++ u.bytes := by
  rw [cutFront]
  by_cases hbegins : t.bytes <+: s.bytes
  · have hlook : s.startsWith t = true := List.isPrefixOf_iff_prefix.mpr hbegins
    obtain ⟨rest, hrest⟩ := hbegins
    have hle : t.length ≤ s.length := by
      simp only [Slice.length, ← hrest, List.length_append]
      omega
    have hdrop : s.bytes.drop t.length = rest := by rw [← hrest, Slice.length, List.drop_left]
    rw [if_pos hlook, dropFront, if_pos hle, hdrop, ← hrest, List.append_cancel_left_eq]
    simp [Except.mapError, Slice.ext_iff]
  · have hlook : ¬ s.startsWith t = true := mt List.isPrefixOf_iff_prefix.mp hbegins
    have hno : s.bytes ≠ t.bytes ++ u.bytes := fun h => hbegins ⟨u.bytes, h.symm⟩
    simp [hlook, hno]

/-- What is there can be taken off from the back, and what is not there is not taken off. -/
theorem cutBack_eq_ok_iff : s.cutBack t = .ok u ↔ s.bytes = u.bytes ++ t.bytes := by
  rw [cutBack]
  by_cases hends : t.bytes <:+ s.bytes
  · have hlook : s.endsWith t = true := List.isSuffixOf_iff_suffix.mpr hends
    obtain ⟨rest, hrest⟩ := hends
    have hle : t.length ≤ s.length := by
      simp only [Slice.length, ← hrest, List.length_append]
      omega
    have htake : s.bytes.take (s.length - t.length) = rest := by
      simp only [Slice.length, ← hrest, List.length_append, Nat.add_sub_cancel, List.take_left]
    rw [if_pos hlook, dropBack, if_pos hle, htake, ← hrest, List.append_cancel_right_eq]
    simp [Except.mapError, Slice.ext_iff]
  · have hlook : ¬ s.endsWith t = true := mt List.isSuffixOf_iff_suffix.mp hends
    have hno : s.bytes ≠ u.bytes ++ t.bytes := fun h => hends ⟨u.bytes, h.symm⟩
    simp [hlook, hno]

/-! ## Taking off one slice after another -/

/-- Slices in front of some bytes can be taken off one after another. -/
theorem foldlM_cutFront (parts : List Slice) (rest : Bytes) :
    parts.foldlM cutFront ⟨concat parts ++ rest⟩ = .ok ⟨rest⟩ := by
  induction parts with
  | nil => rfl
  | cons part others ih =>
      have hcut : cutFront ⟨concat (part :: others) ++ rest⟩ part =
          .ok ⟨concat others ++ rest⟩ := by
        rw [cutFront_eq_ok_iff, concat_cons, List.append_assoc]
      rw [List.foldlM_cons, hcut]
      exact ih

/-- Slices behind some bytes can be taken off one after another, the last one first. -/
theorem foldlM_cutBack (buffer : Bytes) (parts : List Slice) :
    parts.reverse.foldlM cutBack ⟨join buffer parts⟩ = .ok ⟨buffer⟩ := by
  induction parts using List.reverseRecOn with
  | nil =>
      rw [join, concat_nil, List.append_nil]
      rfl
  | append_singleton others part ih =>
      have hcut : cutBack ⟨join buffer (others ++ [part])⟩ part = .ok ⟨join buffer others⟩ := by
        rw [cutBack_eq_ok_iff, join_append, join, concat_cons, concat_nil, List.append_nil]
      rw [List.reverse_append, List.reverse_singleton, List.singleton_append, List.foldlM_cons,
        hcut]
      exact ih

/-- Joined slices can be taken apart again. Joining appends one slice after another to a buffer: the
buffer stays in front, each slice lies behind those before it, and nothing else is added. Slices can
be joined in two goes. From what has been joined, the buffer and then each slice can be taken off
from the front, or each slice in reverse order from the back: whatever is looked for is there,
taking it off does not fault, and in the end nothing is left, or the buffer. -/
theorem joined_taken_apart (buffer : Bytes) (parts : List Slice) :
    (parts.foldl (fun buffer part => buffer ++ part.bytes) buffer = join buffer parts ∧
      (join buffer parts).take buffer.length = buffer ∧
      (∀ ps t qs, parts = ps ++ t :: qs →
        ((join buffer parts).drop (buffer.length + sum (ps.map Slice.length))).take t.length =
          t.bytes) ∧
      (join buffer parts).length = buffer.length + sum (parts.map Slice.length)) ∧
    (∀ more, join buffer (parts ++ more) = join (join buffer parts) more) ∧
    (⟨buffer⟩ :: parts).foldlM cutFront ⟨join buffer parts⟩ = .ok Slice.empty ∧
    parts.reverse.foldlM cutBack ⟨join buffer parts⟩ = .ok ⟨buffer⟩ := by
  refine ⟨⟨foldl_append_eq_join buffer parts, take_join buffer parts, ?_,
    length_join buffer parts⟩, join_append buffer parts, ?_, foldlM_cutBack buffer parts⟩
  · rintro ps t qs rfl
    exact take_drop_join buffer ps t qs
  · have hfront := foldlM_cutFront (⟨buffer⟩ :: parts) []
    rwa [concat_cons, List.append_nil] at hfront

end Lifespan.Slice
