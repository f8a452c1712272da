import Lifespan.Cleanup.Pinnable
import Lifespan.Sum
import Mathlib.Data.List.Induction

/-!
# Trimming

The same bytes can be shown by a slice, by a pinnable slice that is pinned to them, and by a
pinnable slice that shows a copy in its own buffer. Trimming moves the ends of the first two views,
and takes bytes out of the buffer of the third. Whatever is taken off which end, and however much,
the three show the same bytes and refuse the same calls: what is left is settled by how many bytes
have been taken off each end, and not by the order in which they were.
-/

namespace Lifespan

/-- To take bytes off one end of what is shown. -/
inductive Trim where
  | front (n : Nat)
  | back (n : Nat)
deriving DecidableEq, Repr

namespace Trim

/-- The number of bytes. -/
def count : Trim → Nat
  | front n | back n => n

/-- The number of bytes that are taken off the front. -/
def fromFront : Trim → Nat
  | front n => n
  | back _ => 0

/-- The number of bytes that are taken off the back. -/
def fromBack : Trim → Nat
  | front _ => 0
  | back n => n

/-- What a call leaves of some bytes, if there are enough of them. -/
def apply : Trim → Bytes → Bytes
  | front n, b => b.drop n
  | back n, b => b.take (b.length - n)

/-- The name under which a call is reported. -/
def name : Trim → String
  | front _ => "remove_prefix"
  | back _ => "remove_suffix"

/-- The fault of a call on too few bytes. -/
def fault : Trim → Nat → Fault
  | front n, length => .trimFront n length
  | back n, length => .trimBack n length

/-- A fault tells the call and the number of bytes that there are. -/
theorem message_fault (t : Trim) (length : Nat) : (t.fault length).message =
    t.name ++ "(" ++ toString t.count ++ ") on slice of length " ++ toString length := by
  cases t <;> rfl

end Trim

/-- One call on a slice. -/
def Slice.trim (s : Slice) : Trim → Except Fault Slice
  | .front n => s.dropFront n
  | .back n => s.dropBack n

theorem Slice.trim_eq (s : Slice) (t : Trim) : s.trim t =
    if t.count ≤ s.length then .ok ⟨t.apply s.bytes⟩ else .error (t.fault s.length) := by
  cases t <;> rfl

/-- What calls one after another lead to. A call that faults changes nothing. -/
def trimAll {α : Type} (trim : α → Trim → Except Fault α) (a : α) (ts : List Trim) : α :=
  ts.foldl (fun a t => (trim a t).toOption.getD a) a

section

variable {α : Type} {trim : α → Trim → Except Fault α} {a a' : α} {ts : List Trim} {t : Trim}

theorem trimAll_concat (trim : α → Trim → Except Fault α) (a : α) (ts : List Trim) (t : Trim) :
    trimAll trim a (ts ++ [t]) =
      (trim (trimAll trim a ts) t).toOption.getD (trimAll trim a ts) := by
  simp only [trimAll, List.foldl_append, List.foldl_cons, List.foldl_nil]

theorem trimAll_concat_of_ok (h : trim (trimAll trim a ts) t = .ok a') :
    trimAll trim a (ts ++ [t]) = a' := by
  rw [trimAll_concat, h]
  rfl

theorem trimAll_concat_of_error {f : Fault} (h : trim (trimAll trim a ts) t = .error f) :
    trimAll trim a (ts ++ [t]) = trimAll trim a ts := by
  rw [trimAll_concat, h]
  rfl

/-- If one way to show bytes is another one in disguise, call by call, then it is so after any
number of calls. -/
theorem trimAll_map {β : Type} {trim' : β → Trim → Except Fault β} {f : α → β}
    (h : ∀ a t, trim' (f a) t = (trim a t).map f) (a : α) (ts : List Trim) :
    trimAll trim' (f a) ts = f (trimAll trim a ts) := by
  induction ts using List.reverseRecOn with
  | nil => rfl
  | append_singleton ts t ih =>
      rw [trimAll_concat, trimAll_concat, ih, h]
      cases trim (trimAll trim a ts) t <;> rfl

end

/-! ## What is gone -/

/-- How many bytes are gone on either side. -/
structure Cut where
  front : Nat := 0
  back : Nat := 0
deriving DecidableEq, Repr

namespace Cut

variable {length : Nat} {c : Cut} {t : Trim} {b : Bytes}

/-- How many bytes of `length` are left. -/
def left (c : Cut) (length : Nat) : Nat := length - c.front - c.back

/-- What is left of some bytes. -/
def window (c : Cut) (b : Bytes) : Bytes := (b.take (b.length - c.back)).drop c.front

/-- A call takes off as many bytes as it says, or none if there are not so many. -/
def after (length : Nat) (c : Cut) (t : Trim) : Cut :=
  if t.count ≤ c.left length then ⟨c.front + t.fromFront, c.back + t.fromBack⟩ else c

/-- What is gone of `length` bytes after some calls. -/
def of (length : Nat) (ts : List Trim) : Cut := ts.foldl (after length) {}

theorem of_concat (length : Nat) (ts : List Trim) (t : Trim) :
    of length (ts ++ [t]) = (of length ts).after length t := by
  simp only [of, List.foldl_append, List.foldl_cons, List.foldl_nil]

theorem after_of_fitting (h : t.count ≤ c.left length) :
    c.after length t = ⟨c.front + t.fromFront, c.back + t.fromBack⟩ := if_pos h

theorem after_of_not (h : ¬ t.count ≤ c.left length) : c.after length t = c := if_neg h

/-- No more bytes are gone than there were. -/
theorem after_le (h : c.front + c.back ≤ length) :
    (c.after length t).front + (c.after length t).back ≤ length := by
  by_cases hfit : t.count ≤ c.left length
  · rw [after_of_fitting hfit]
    rw [left] at hfit
    cases t <;> simp only [Trim.count, Trim.fromFront, Trim.fromBack] at hfit ⊢ <;> omega
  · rwa [after_of_not hfit]

theorem of_le (length : Nat) (ts : List Trim) :
    (of length ts).front + (of length ts).back ≤ length := by
  induction ts using List.reverseRecOn with
  | nil => exact Nat.zero_le _
  | append_singleton ts t ih =>
      rw [of_concat]
      exact after_le ih

/-- As long as no more bytes are taken off than there are, all calls are carried out, and their
order does not count. -/
theorem of_fitting {ts : List Trim}
    (h : sum (ts.map Trim.fromFront) + sum (ts.map Trim.fromBack) ≤ length) :
    of length ts = ⟨sum (ts.map Trim.fromFront), sum (ts.map Trim.fromBack)⟩ := by
  induction ts using List.reverseRecOn with
  | nil => rfl
  | append_singleton ts t ih =>
      simp only [List.map_append, List.map_cons, List.map_nil, sum_append, sum_cons, sum_nil] at h ⊢
      rw [of_concat, ih (by omega), after_of_fitting, Nat.add_zero, Nat.add_zero]
      cases t <;> simp only [Trim.count, Trim.fromFront, Trim.fromBack, left] at h ⊢ <;> omega

theorem length_window (h : c.front + c.back ≤ b.length) :
    (c.window b).length = c.left b.length := by
  rw [window, List.length_drop, List.length_take_of_le (Nat.sub_le _ _), left]
  omega

/-- A call takes bytes off what is left. -/
theorem window_after (h : c.front + c.back ≤ b.length) (hfit : t.count ≤ c.left b.length) :
    (c.after b.length t).window b = t.apply (c.window b) := by
  have hlength := length_window h
  rw [after_of_fitting hfit]
  cases t with
  | front n =>
      simp only [Trim.fromFront, Trim.fromBack, Trim.apply, window, List.drop_drop, Nat.add_zero]
  | back n =>
      rw [left, Trim.count] at hfit
      have hstop : min (c.front + (b.length - c.front - c.back - n)) (b.length - c.back) =
          b.length - (c.back + n) := by omega
      rw [Trim.apply, hlength, window, window, List.take_drop, List.take_take, left, hstop]
      rfl

/-- What is left is a part of the bytes, at the place where it has always been. -/
theorem take_append_window (h : c.front + c.back ≤ b.length) :
    b.take c.front ++ c.window b ++ b.drop (b.length - c.back) = b := by
  have hfront : b.take c.front = (b.take (b.length - c.back)).take c.front := by
    rw [List.take_take, Nat.min_eq_left (by omega)]
  rw [window, hfront, List.take_append_drop, List.take_append_drop]

end Cut

/-- One call on what is left of some bytes. -/
theorem Slice.trim_window {c : Cut} {b : Bytes} (h : c.front + c.back ≤ b.length) (t : Trim) :
    (Slice.mk (c.window b)).trim t =
      if t.count ≤ c.left b.length then .ok ⟨(c.after b.length t).window b⟩
      else .error (t.fault (c.left b.length)) := by
  have hlength : (Slice.mk (c.window b)).length = c.left b.length := Cut.length_window h
  rw [trim_eq, hlength]
  by_cases hfit : t.count ≤ c.left b.length
  · rw [if_pos hfit, if_pos hfit, Cut.window_after h hfit]
  · rw [if_neg hfit, if_neg hfit]

/-- What calls leave of a slice. -/
theorem Slice.trimAll_eq (b : Bytes) (ts : List Trim) :
    trimAll Slice.trim ⟨b⟩ ts = ⟨(Cut.of b.length ts).window b⟩ := by
  induction ts using List.reverseRecOn with
  | nil =>
      rw [trimAll, Cut.of, Cut.window, List.foldl_nil, List.foldl_nil, Nat.sub_zero,
        List.take_length, List.drop_zero]
  | append_singleton ts t ih =>
      have htrim := Slice.trim_window (Cut.of_le b.length ts) t
      rw [Cut.of_concat]
      by_cases hfit : t.count ≤ (Cut.of b.length ts).left b.length
      · rw [if_pos hfit, ← ih] at htrim
        exact trimAll_concat_of_ok htrim
      · rw [if_neg hfit, ← ih] at htrim
        rw [trimAll_concat_of_error htrim, ih, Cut.after_of_not hfit]

/-! ## Pinnable slices -/

namespace Cleanup.Pinnable

variable {p q : Pinnable}

/-- A pinnable slice shows another slice in the place of the one that it has shown. -/
inductive Trimmed (p : Pinnable) (s : Slice) : Pinnable → Prop where
  | nothing : p.view = .nothing → Trimmed p s p
  | buffer : p.view = .buffer → Trimmed p s { p with buffer := s.bytes }
  | foreign (t : Slice) : p.view = .foreign t → Trimmed p s { p with view := .foreign s }

/-- What is done to each kind of view comes to the same thing for what is shown. -/
theorem trimmed_of_cut (p : Pinnable) (cut : Bytes → Bytes) :
    p.Trimmed ⟨cut p.slice.bytes⟩ (match p.view with
      | .foreign s => { p with view := .foreign ⟨cut s.bytes⟩ }
      | .buffer => { p with buffer := cut p.buffer }
      | .nothing => p) := by
  cases hview : p.view with
  | nothing => exact .nothing hview
  | buffer => simpa only [slice, hview] using Trimmed.buffer hview
  | foreign s => simpa only [slice, hview] using Trimmed.foreign s hview

theorem trimmed_of_dropFront {n : Nat} (h : p.dropFront n = .ok q) :
    n ≤ p.slice.length ∧ p.Trimmed ⟨p.slice.bytes.drop n⟩ q := by
  rw [dropFront] at h
  split at h
  · next hle =>
    cases h
    exact ⟨hle, p.trimmed_of_cut fun b => b.drop n⟩
  · contradiction

theorem trimmed_of_dropBack {n : Nat} (h : p.dropBack n = .ok q) :
    n ≤ p.slice.length ∧ p.Trimmed ⟨p.slice.bytes.take (p.slice.length - n)⟩ q := by
  rw [dropBack] at h
  split at h
  · next hle =>
    cases h
    exact ⟨hle, p.trimmed_of_cut fun b => b.take (p.slice.length - n)⟩
  · contradiction

theorem Trimmed.cleanups {s : Slice} (h : p.Trimmed s q) : q.cleanups = p.cleanups := by
  cases h <;> rfl

/-- One call on a pinnable slice. -/
def trim (p : Pinnable) : Trim → Except Fault Pinnable
  | .front n => p.dropFront n
  | .back n => p.dropBack n

/-- What is done to each kind of view: the own buffer loses the bytes, and of foreign bytes fewer
are seen. -/
theorem trim_eq (p : Pinnable) (t : Trim) : p.trim t =
    if t.count ≤ p.slice.length then
      .ok (match p.view with
        | .nothing => p
        | .buffer => { p with buffer := t.apply p.buffer }
        | .foreign s => { p with view := .foreign ⟨t.apply s.bytes⟩ })
    else .error (t.fault p.slice.length) := by
  obtain ⟨view, buffer, cleanups⟩ := p
  cases t <;> cases view <;> rfl

/-- A pinned slice is trimmed as the foreign slice is. -/
theorem trim_foreign (p : Pinnable) (s : Slice) (t : Trim) :
    trim { p with view := .foreign s } t =
      (s.trim t).map fun s => { p with view := .foreign s } := by
  have hslice : slice { p with view := .foreign s } = s := rfl
  rw [trim_eq, hslice, Slice.trim_eq]
  split <;> rfl

/-- A slice that shows its own buffer is trimmed as a slice over the buffer is. -/
theorem trim_buffer (p : Pinnable) (s : Slice) (t : Trim) :
    trim { p with view := .buffer, buffer := s.bytes } t =
      (s.trim t).map fun s => { p with view := .buffer, buffer := s.bytes } := by
  have hslice : slice { p with view := .buffer, buffer := s.bytes } = s := rfl
  rw [trim_eq, hslice, Slice.trim_eq]
  split <;> rfl

/-- A slice that has been pinned to some bytes shows what is left of them after some calls, and its
buffer is what it was before. -/
theorem trimAll_of_pin {b : Bytes} {op : PinOperation} (h : p.pin op ⟨b⟩ = .ok q) (ts : List Trim) :
    trimAll trim q ts = { p with view := .foreign (trimAll Slice.trim ⟨b⟩ ts) } := by
  rw [pin] at h
  split at h
  · cases h
  · cases h
    exact trimAll_map (f := fun s => { p with view := .foreign s }) (trim_foreign p) ⟨b⟩ ts

/-- A slice that shows a copy of some bytes shows what is left of them after some calls, and its
buffer holds just that. -/
theorem trimAll_of_copy {b : Bytes} (h : p.copy ⟨b⟩ = .ok q) (ts : List Trim) :
    trimAll trim q ts =
      { p with view := .buffer, buffer := (trimAll Slice.trim ⟨b⟩ ts).bytes } := by
  rw [copy] at h
  split at h
  · cases h
  · cases h
    exact trimAll_map (f := fun s : Slice => { p with view := .buffer, buffer := s.bytes })
      (trim_buffer p) ⟨b⟩ ts

/-- Let some bytes be shown by a slice, by a pinnable slice that has been pinned to them, and by one
that shows a copy of them, whatever these two were before. After any calls all three show the same
bytes: those that are left of the original ones, at the place where they have always been, when as
many are gone on either side as the calls have taken off. The buffer of the pinned slice is what it
was, and that of the other one holds what is shown. The next call is carried out on all three if
there are as many bytes as it says; otherwise it is refused on all three with the same message and
changes nothing. If all calls together take off no more bytes than there were, none is refused, and
their order does not count. -/
theorem trimming_agrees {b : Bytes} {op : PinOperation} {p₀ p q₀ q : Pinnable}
    (hp : p₀.pin op ⟨b⟩ = .ok p) (hq : q₀.copy ⟨b⟩ = .ok q) (ts : List Trim) :
    let c := Cut.of b.length ts
    let s' := trimAll Slice.trim ⟨b⟩ ts
    let p' := trimAll trim p ts
    let q' := trimAll trim q ts
    (c.front + c.back ≤ b.length ∧ s'.bytes = (b.take (b.length - c.back)).drop c.front ∧
      b.take c.front ++ s'.bytes ++ b.drop (b.length - c.back) = b) ∧
    (p'.slice = s' ∧ p' = { p₀ with view := .foreign s' }) ∧
    (q'.slice = s' ∧ q' = { q₀ with view := .buffer, buffer := s'.bytes }) ∧
    (∀ t : Trim, t.count ≤ s'.length → ∃ s'' : Slice, s'.trim t = .ok s'' ∧
      p'.trim t = .ok { p' with view := .foreign s'' } ∧
      q'.trim t = .ok { q' with buffer := s''.bytes }) ∧
    (∀ t : Trim, s'.length < t.count → ∃ f : Fault, f.message =
        t.name ++ "(" ++ toString t.count ++ ") on slice of length " ++ toString s'.length ∧
      s'.trim t = .error f ∧ p'.trim t = .error f ∧ q'.trim t = .error f ∧
      trimAll Slice.trim ⟨b⟩ (ts ++ [t]) = s' ∧ trimAll trim p (ts ++ [t]) = p' ∧
      trimAll trim q (ts ++ [t]) = q') ∧
    (sum (ts.map Trim.fromFront) + sum (ts.map Trim.fromBack) ≤ b.length →
      c = ⟨sum (ts.map Trim.fromFront), sum (ts.map Trim.fromBack)⟩) := by
  intro c s' p' q'
  have hle : c.front + c.back ≤ b.length := Cut.of_le b.length ts
  have hs : s' = ⟨c.window b⟩ := Slice.trimAll_eq b ts
  have hp' : p' = { p₀ with view := .foreign s' } := trimAll_of_pin hp ts
  have hq' : q' = { q₀ with view := .buffer, buffer := s'.bytes } := trimAll_of_copy hq ts
  have hptrim (t : Trim) : p'.trim t = (s'.trim t).map fun s => { p₀ with view := .foreign s } := by
    rw [hp', trim_foreign]
  have hqtrim (t : Trim) : q'.trim t =
      (s'.trim t).map fun s => { q₀ with view := .buffer, buffer := s.bytes } := by
    rw [hq', trim_buffer]
  refine ⟨⟨hle, by rw [hs, Cut.window], by rw [hs, Cut.take_append_window hle]⟩,
    ⟨by rw [hp', slice], hp'⟩, ⟨by rw [hq', slice], hq'⟩, fun t hfit => ?_, fun t hfit => ?_,
    Cut.of_fitting⟩
  · have htrim : s'.trim t = .ok ⟨t.apply s'.bytes⟩ := by rw [Slice.trim_eq, if_pos hfit]
    refine ⟨_, htrim, ?_, ?_⟩
    · rw [hptrim, htrim, hp', Except.map]
    · rw [hqtrim, htrim, hq', Except.map]
  · have htrim : s'.trim t = .error (t.fault s'.length) := by
      rw [Slice.trim_eq, if_neg (Nat.not_le_of_lt hfit)]
    have hprefused : p'.trim t = .error (t.fault s'.length) := by rw [hptrim, htrim, Except.map]
    have hqrefused : q'.trim t = .error (t.fault s'.length) := by rw [hqtrim, htrim, Except.map]
    exact ⟨_, t.message_fault s'.length, htrim, hprefused, hqrefused,
      trimAll_concat_of_error htrim, trimAll_concat_of_error hprefused,
      trimAll_concat_of_error hqrefused⟩

/-- Some bytes are trimmed until none is left, with calls in between that ask for too many. -/
theorem trimming_agrees_until_empty :
    let b : Bytes := [1, 2, 3, 4, 5, 6, 7]
    let p₀ : Pinnable := { buffer := [9, 9], cleanups := [⟨0, .perform { label := "own" }⟩] }
    let p : Pinnable := { p₀ with view := .foreign ⟨b⟩ }
    let q₀ : Pinnable := { view := .buffer, buffer := [8] }
    let q : Pinnable := { q₀ with buffer := b }
    let ts : List Trim := [.front 2, .back 8, .back 1, .front 5, .front 2, .back 2]
    p₀.pin .pinSlice ⟨b⟩ = .ok p ∧ q₀.copy ⟨b⟩ = .ok q ∧
      Cut.of b.length ts = ⟨4, 3⟩ ∧ trimAll Slice.trim ⟨b⟩ ts = ⟨[]⟩ ∧
      trimAll trim p ts = { p₀ with view := .foreign ⟨[]⟩ } ∧
      trimAll trim q ts = { q₀ with buffer := [] } ∧
      ∃ f : Fault, f.message = "remove_suffix(1) on slice of length 0" ∧
        (trimAll Slice.trim ⟨b⟩ ts).trim (.back 1) = .error f ∧
        (trimAll trim p ts).trim (.back 1) = .error f ∧
        (trimAll trim q ts).trim (.back 1) = .error f := by
  intro b p₀ p q₀ q ts
  have hp : p₀.pin .pinSlice ⟨b⟩ = .ok p := rfl
  have hq : q₀.copy ⟨b⟩ = .ok q := rfl
  have hcut : Cut.of b.length ts = ⟨4, 3⟩ := by decide
  have hleft : trimAll Slice.trim ⟨b⟩ ts = ⟨[]⟩ := by decide
  obtain ⟨-, ⟨-, hpleft⟩, ⟨-, hqleft⟩, -, hrefused, -⟩ := trimming_agrees hp hq ts
  rw [hleft] at hpleft hqleft hrefused
  obtain ⟨f, hmessage, hs, hp', hq', -⟩ := hrefused (.back 1) (by decide)
  exact ⟨hp, hq, hcut, hleft, hpleft, hqleft, f, hmessage, by rw [hleft, hs], hp', hq'⟩

end Cleanup.Pinnable

end Lifespan
