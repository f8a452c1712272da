import Lifespan.Proofs.Source.Recorded

/-!
# Answers without addresses

Two sources may grant and refuse the same requests, with the same usable sizes, and yet have their
extents at different addresses. What they have in common is their answers when the addresses are
left out. Answers are to a list of requests, made one after another.
-/

namespace Lifespan.Source

variable {σ : Type} [Source σ]

/-- The answers to requests that are made one after another: the number of bytes that may be used
if the request is granted, and none if it is refused. -/
def answers (s : σ) : List Layout → List (Option Nat)
  | [] => []
  | l :: rest =>
    (allocate l s).1.map (fun _ => usableSize l (allocate l s).2) :: answers (allocate l s).2 rest

/-- A source after requests that are made one after another. -/
def after (s : σ) (ls : List Layout) : σ := ls.foldl (fun s l => (allocate l s).2) s

theorem after_append (s : σ) (ls ks : List Layout) :
    after s (ls ++ ks) = after (after s ls) ks := List.foldl_append

theorem length_answers (s : σ) (ls : List Layout) : (answers s ls).length = ls.length := by
  induction ls generalizing s with
  | nil => rfl
  | cons l rest ih => rw [answers, List.length_cons, ih, List.length_cons]

theorem answers_append (s : σ) (ls ks : List Layout) :
    answers s (ls ++ ks) = answers s ls ++ answers (after s ls) ks := by
  induction ls generalizing s with
  | nil => rfl
  | cons l rest ih =>
      rw [List.cons_append, answers, ih]
      rfl

/-- Sources that answer alike answer the first requests alike, and go on to do so. -/
theorem answers_append_inj {τ : Type} [Source τ] {s : σ} {t : τ} {ls ks : List Layout}
    (h : answers s (ls ++ ks) = answers t (ls ++ ks)) :
    answers s ls = answers t ls ∧ answers (after s ls) ks = answers (after t ls) ks := by
  rw [answers_append, answers_append] at h
  exact List.append_inj h (by rw [length_answers, length_answers])

/-- The layout that a call asks for, if it asks for one. -/
def Call.layout? : Call → Option Layout
  | .allocate l _ => some l
  | .deallocate _ _ => none

/-- The layouts that calls have asked for, the oldest first. -/
def requested (calls : List Call) : List Layout := calls.filterMap Call.layout?

end Source

namespace Recorded

open Source

variable {σ : Type} [Source σ]

/-- A record lists the requests that were made. -/
theorem requested_after (r : Recorded σ) (ls : List Layout) :
    requested (after r ls).calls = requested r.calls ++ ls := by
  induction ls generalizing r with
  | nil => exact (List.append_nil _).symm
  | cons l rest ih =>
      have hcalls := calls_of_allocate (l := l) (r := r) (Prod.eta _).symm
      have hrest := ih (Source.allocate l r).2
      rw [hcalls] at hrest
      simpa [requested, Call.layout?, after] using hrest

/-- A record does not change the answers. -/
theorem answers_eq (r : Recorded σ) (ls : List Layout) :
    answers r ls = answers r.inner ls := by
  induction ls generalizing r with
  | nil => rfl
  | cons l rest ih =>
      rw [answers, answers, ih]
      rfl

end Recorded

end Lifespan
