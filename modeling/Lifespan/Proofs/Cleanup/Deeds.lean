import Lifespan.Proofs.Cleanup.Trimming

/-!
# What is done to a pinnable slice

What a pinnable slice shows and what its buffer holds is settled by what has been done to it. It is
pinned if foreign bytes have been shown to it since the last reset, and then it shows these, less
what has been trimmed since. Otherwise it shows its buffer if it was told to since the last reset.
The buffer holds what the last copy has put there, as changed since: trimming changes it only while
it is shown, and a reset does not.
-/

namespace Lifespan.Cleanup

/-- What is done to a pinnable slice. -/
inductive Deed where
  | pin (s : Slice)
  | copy (s : Slice)
  | showBuffer
  | edit (e : BufferEdit)
  | dropFront (n : Nat)
  | dropBack (n : Nat)
  | reset
deriving DecidableEq, Repr

namespace Deed

/-- Whether foreign bytes are shown from then on. -/
def isPin : Deed → Bool
  | pin _ => true
  | _ => false

/-- Whether the own buffer is shown from then on. -/
def showsOwn : Deed → Bool
  | copy _ | showBuffer => true
  | _ => false

/-- The number of bytes that are taken off the front. -/
def front : Deed → Nat
  | dropFront n => n
  | _ => 0

/-- The number of bytes that are taken off the back. -/
def back : Deed → Nat
  | dropBack n => n
  | _ => 0

end Deed

/-- What was done to a pinnable slice since it was made, the latest deed first. -/
abbrev Deeds := List Deed

namespace Deeds

/-- What was done since the last reset. -/
def recent (deeds : Deeds) : Deeds := deeds.takeWhile fun d => decide (d ≠ .reset)

/-- Whether foreign bytes are shown: some were since the last reset. -/
def isPinned (deeds : Deeds) : Bool := deeds.recent.any Deed.isPin

/-- Whether the own buffer is shown: it was since the last reset, and no foreign bytes were. -/
def showsOwn (deeds : Deeds) : Bool := !deeds.isPinned && deeds.recent.any Deed.showsOwn

/-- The number of bytes taken off the front. -/
def front (deeds : Deeds) : Nat := sum (deeds.map Deed.front)

/-- The number of bytes taken off the back. -/
def back (deeds : Deeds) : Nat := sum (deeds.map Deed.back)

/-- What the own buffer holds. -/
def contents : Deeds → Bytes
  | [] => []
  | .copy s :: _ => s.bytes
  | .edit e :: earlier => e.apply (contents earlier)
  | .dropFront n :: earlier =>
    if showsOwn earlier then (contents earlier).drop n else contents earlier
  | .dropBack n :: earlier =>
    if showsOwn earlier then (contents earlier).take ((contents earlier).length - n)
    else contents earlier
  | _ :: earlier => contents earlier

variable {deeds : Deeds} {d : Deed}

@[simp] theorem recent_reset (deeds : Deeds) : recent (.reset :: deeds) = [] := by
  simp [recent]

theorem recent_cons (hd : d ≠ .reset) (deeds : Deeds) :
    recent (d :: deeds) = d :: deeds.recent := by
  simp [recent, hd]

theorem isPinned_cons (hd : d ≠ .reset) (deeds : Deeds) :
    isPinned (d :: deeds) = (d.isPin || deeds.isPinned) := by
  simp [isPinned, recent_cons hd]

theorem front_cons (d : Deed) (deeds : Deeds) : front (d :: deeds) = d.front + deeds.front := rfl

theorem back_cons (d : Deed) (deeds : Deeds) : back (d :: deeds) = d.back + deeds.back := rfl

theorem isPinned_of_recent {later earlier : Deeds} {s : Slice}
    (h : deeds.recent = later ++ .pin s :: earlier) : deeds.isPinned = true := by
  simp [isPinned, h, Deed.isPin]

/-- A deed that shows nothing else leaves shown what was shown. -/
theorem showsOwn_cons (hd : d ≠ .reset) (hpin : d.isPin = false) (hown : d.showsOwn = false)
    (deeds : Deeds) : showsOwn (d :: deeds) = deeds.showsOwn := by
  rw [showsOwn, isPinned_cons hd, recent_cons hd, List.any_cons, hpin, hown]
  rfl

end Deeds

namespace Pinnable

/-- The slice after a deed, as far as it goes without the cleanups. -/
def perform (p : Pinnable) : Deed → Except Fault Pinnable
  | .pin s => p.pin .pinSlice s
  | .copy s => p.copy s
  | .showBuffer => p.showBuffer
  | .edit e => .ok (p.edit e)
  | .dropFront n => p.dropFront n
  | .dropBack n => p.dropBack n
  | .reset => .ok { p with view := .nothing }

end Pinnable

/-- To trim what is left of a list is to trim the list. -/
theorem trim_trim {α : Type} (l : List α) {f b f' b' : Nat} (h : f' + b' ≤ l.length - b - f) :
    (((l.take (l.length - b)).drop f).take (l.length - b - f - b')).drop f' =
      (l.take (l.length - (b' + b))).drop (f' + f) := by
  have hsize : min (f + (l.length - b - f - b')) (l.length - b) = l.length - (b' + b) := by omega
  rw [List.take_drop, List.take_take, List.drop_drop, hsize, Nat.add_comm f]

/-- A pinnable slice is as the deeds say. -/
structure Tells (deeds : Deeds) (p : Pinnable) : Prop where
  isPinned : p.isPinned = deeds.isPinned
  /-- What is shown then is the foreign slice, less what was trimmed. -/
  foreign : ∀ {later earlier : Deeds} {s : Slice}, deeds.recent = later ++ .pin s :: earlier →
    later.front + later.back ≤ s.length ∧
      p.view = .foreign ⟨(s.bytes.take (s.length - later.back)).drop later.front⟩
  showsOwn : p.view = .buffer ↔ deeds.showsOwn = true
  contents : p.buffer = deeds.contents

namespace Tells

variable {deeds : Deeds} {d : Deed} {p q : Pinnable}

/-- Nothing was done to a new slice. -/
theorem start : Tells [] {} where
  isPinned := rfl
  foreign h := by simp [Deeds.recent] at h
  showsOwn := by decide
  contents := rfl

/-- Foreign bytes are shown, so the slice was pinned. -/
theorem isPinned_of_recent (h : Tells deeds p) {later earlier : Deeds} {s : Slice}
    (hrecent : deeds.recent = later ++ .pin s :: earlier) : p.isPinned = true :=
  h.isPinned.trans (Deeds.isPinned_of_recent hrecent)

/-- A deed that shows nothing else, and neither more nor less of what was shown if the slice is
pinned. -/
theorem keep (h : Tells deeds p) (hd : d ≠ .reset) (hpin : d.isPin = false)
    (hown : d.showsOwn = false) (hpinned : q.isPinned = p.isPinned)
    (hforeign : ∀ s, p.view = .foreign s → d.front + d.back ≤ s.length ∧
      q.view = .foreign ⟨(s.bytes.take (s.length - d.back)).drop d.front⟩)
    (hbuffer : q.view = .buffer ↔ p.view = .buffer)
    (hcontents : q.buffer = Deeds.contents (d :: deeds)) : Tells (d :: deeds) q where
  isPinned := by rw [hpinned, h.isPinned, Deeds.isPinned_cons hd, hpin, Bool.false_or]
  foreign := by
    intro later earlier s hrecent
    rw [Deeds.recent_cons hd] at hrecent
    cases later with
    | nil =>
        obtain ⟨rfl, -⟩ := List.cons.inj hrecent
        contradiction
    | cons d' later =>
        obtain ⟨rfl, hlater⟩ := List.cons.inj hrecent
        obtain ⟨hle, hview⟩ := h.foreign hlater
        obtain ⟨hle', hview'⟩ := hforeign _ hview
        rw [Deeds.front_cons, Deeds.back_cons]
        have hlength : (s.bytes.take (s.bytes.length - Deeds.back later)).length =
            s.bytes.length - Deeds.back later := List.length_take_of_le (Nat.sub_le _ _)
        simp only [Slice.length, List.length_drop, hlength] at hle hle' hview' ⊢
        refine ⟨by omega, ?_⟩
        rw [hview', trim_trim _ hle']
  showsOwn := by rw [hbuffer, h.showsOwn, Deeds.showsOwn_cons hd hpin hown]
  contents := hcontents

/-- A deed that shows the own buffer of a slice that is not pinned. -/
theorem own (h : Tells deeds p) (hd : d ≠ .reset) (hpin : d.isPin = false)
    (hown : d.showsOwn = true) (hpinned : p.isPinned = false) (hview : q.view = .buffer)
    (hcontents : q.buffer = Deeds.contents (d :: deeds)) : Tells (d :: deeds) q := by
  have hdeeds : Deeds.isPinned (d :: deeds) = false := by
    rw [Deeds.isPinned_cons hd, hpin, ← h.isPinned, hpinned]
    rfl
  refine ⟨?_, ?_, ?_, hcontents⟩
  · rw [hdeeds, Pinnable.isPinned, hview]
  · intro later earlier s hrecent
    rw [Deeds.isPinned_of_recent hrecent] at hdeeds
    contradiction
  · rw [Deeds.showsOwn, hdeeds, Deeds.recent_cons hd, List.any_cons, hown]
    simp [hview]

theorem pin (h : Tells deeds p) {s : Slice} (hpinned : p.isPinned = false)
    (hview : q.view = .foreign s) (hbuffer : q.buffer = p.buffer) :
    Tells (.pin s :: deeds) q := by
  have hd : Deed.pin s ≠ .reset := Deed.noConfusion
  refine ⟨?_, ?_, ?_, hbuffer.trans h.contents⟩
  · rw [Deeds.isPinned_cons hd, Pinnable.isPinned, hview]
    rfl
  · intro later earlier t hrecent
    rw [Deeds.recent_cons hd] at hrecent
    cases later with
    | nil =>
        obtain ⟨heq, -⟩ := List.cons.inj hrecent
        cases heq
        refine ⟨Nat.zero_le _, hview.trans ?_⟩
        simp [Deeds.front, Deeds.back, Slice.length]
    | cons d' later =>
        have hpinned' := h.isPinned_of_recent (List.cons.inj hrecent).2
        rw [hpinned] at hpinned'
        contradiction
  · rw [Deeds.showsOwn, Deeds.isPinned_cons hd, hview]
    simp [Deed.isPin]

theorem reset (h : Tells deeds p) (hview : q.view = .nothing) (hbuffer : q.buffer = p.buffer) :
    Tells (.reset :: deeds) q where
  isPinned := by
    rw [Pinnable.isPinned, hview, Deeds.isPinned, Deeds.recent_reset]
    rfl
  foreign hrecent := by simp at hrecent
  showsOwn := by simp [hview, Deeds.showsOwn]
  contents := hbuffer.trans h.contents

/-- Bytes are taken off either end of what is shown. -/
theorem trim (h : Tells deeds p) (hd : d ≠ .reset) (hpin : d.isPin = false)
    (hown : d.showsOwn = false) {s : Slice} (hle : d.front + d.back ≤ p.slice.length)
    (hs : s.bytes = (p.slice.bytes.take (p.slice.length - d.back)).drop d.front)
    (hcontents : Deeds.contents (d :: deeds) = if deeds.showsOwn then s.bytes else deeds.contents)
    (hq : p.Trimmed s q) : Tells (d :: deeds) q := by
  have hshows := h.showsOwn
  cases hq with
  | nothing hview =>
      have hno : deeds.showsOwn = false := by simpa [hview] using hshows
      refine h.keep hd hpin hown rfl (by simp [hview]) Iff.rfl ?_
      rw [hcontents, hno, h.contents]
      rfl
  | buffer hview =>
      have hyes : deeds.showsOwn = true := hshows.mp hview
      refine h.keep hd hpin hown rfl (by simp [hview]) Iff.rfl ?_
      rw [hcontents, hyes]
      rfl
  | foreign t hview =>
      have hslice : p.slice = t := by rw [Pinnable.slice, hview]
      have hno : deeds.showsOwn = false := by simpa [hview] using hshows
      rw [hslice] at hle hs
      refine h.keep hd hpin hown ?_ ?_ (by simp [hview]) ?_
      · simp [Pinnable.isPinned, hview]
      · intro t' ht'
        rw [hview] at ht'
        cases ht'
        exact ⟨hle, congrArg View.foreign (Slice.ext hs)⟩
      · rw [hcontents, hno, ← h.contents]
        rfl

/-- A deed that is carried out keeps the slice as the deeds say. -/
theorem perform (h : Tells deeds p) (hq : p.perform d = .ok q) : Tells (d :: deeds) q := by
  cases d with
  | pin s =>
      simp only [Pinnable.perform, Pinnable.pin] at hq
      split at hq
      · contradiction
      · next hpinned =>
        cases hq
        exact h.pin (by simpa using hpinned) rfl rfl
  | copy s =>
      simp only [Pinnable.perform, Pinnable.copy] at hq
      split at hq
      · contradiction
      · next hpinned =>
        cases hq
        exact h.own Deed.noConfusion rfl rfl (by simpa using hpinned) rfl rfl
  | showBuffer =>
      simp only [Pinnable.perform, Pinnable.showBuffer] at hq
      split at hq
      · contradiction
      · next hpinned =>
        cases hq
        exact h.own Deed.noConfusion rfl rfl (by simpa using hpinned) rfl h.contents
  | edit e =>
      cases hq
      refine h.keep Deed.noConfusion rfl rfl rfl ?_ Iff.rfl (congrArg e.apply h.contents)
      intro s hs
      refine ⟨Nat.zero_le _, hs.trans ?_⟩
      simp [Deed.front, Deed.back, Slice.length]
  | dropFront n =>
      obtain ⟨hle, htrimmed⟩ := Pinnable.trimmed_of_dropFront hq
      refine h.trim Deed.noConfusion rfl rfl hle ?_ ?_ htrimmed
      · simp [Deed.front, Deed.back, Slice.length]
      · simp only [Deeds.contents]
        split
        · next hshows => rw [Pinnable.slice, h.showsOwn.mpr hshows, h.contents]
        · rfl
  | dropBack n =>
      obtain ⟨hle, htrimmed⟩ := Pinnable.trimmed_of_dropBack hq
      refine h.trim Deed.noConfusion rfl rfl (by simpa [Deed.front, Deed.back] using hle) ?_ ?_
        htrimmed
      · simp [Deed.front, Deed.back]
      · simp only [Deeds.contents]
        split
        · next hshows => rw [Slice.length, Pinnable.slice, h.showsOwn.mpr hshows, h.contents]
        · rfl
  | reset =>
      cases hq
      exact h.reset rfl rfl

end Tells

end Lifespan.Cleanup
