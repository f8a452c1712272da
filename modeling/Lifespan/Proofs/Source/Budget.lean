import Lifespan.Proofs.Source.Layers
import Lifespan.Proofs.Source.Recorded

/-!
# The counters of a budget

A budget counts the bytes and the extents that are held from it, and the requests that exceeded it.
The record of its dealings tells the same: what is held is what was granted and not given back, and
a request exceeded the budget if the bytes held before and the bytes asked for come to more, as
exact numbers. Nothing is assumed about the source within, which may refuse whatever it likes.
-/

namespace Lifespan

namespace Source

/-! ## Dealings -/

/-- The extents that are held after a call. -/
def Call.heldAfter (held : List Grant) : Call → List Grant
  | .allocate l (some base) => held ++ [⟨base, l⟩]
  | .allocate _ none => held
  | .deallocate base l => held.erase ⟨base, l⟩

/-- The extents that were granted and not given back. -/
def held (calls : List Call) : List Grant := calls.foldl Call.heldAfter []

/-- The number of bytes that were asked for in extents. -/
def bytes (held : List Grant) : Nat := sum (held.map fun g => g.layout.size)

/-- Whether a call asks for more bytes than a budget has left. -/
def Call.exceeds (budget : Nat) (held : List Grant) : Call → Bool
  | .allocate l _ => decide (budget < bytes held + l.size)
  | .deallocate _ _ => false

/-- The number of calls that asked for more bytes than a budget had left. -/
def excesses (budget : Nat) (held : List Grant) : List Call → Nat
  | [] => 0
  | c :: rest => (c.exceeds budget held).toNat + excesses budget (c.heldAfter held) rest

/-- The calls by which a source came to its state: requests for any layouts, each with its answer,
and extents that were given back while they were held. -/
inductive Dealings {σ : Type} [Source σ] (origin : σ) : List Call → σ → Prop where
  | start : Dealings origin [] origin
  | ask {calls : List Call} {s : σ} (l : Layout) : Dealings origin calls s →
    Dealings origin (calls ++ [.allocate l (Source.allocate l s).1]) (Source.allocate l s).2
  | giveBack {calls : List Call} {s : σ} {g : Grant} : Dealings origin calls s → g ∈ held calls →
    Dealings origin (calls ++ [g.giveBack]) (Source.deallocate g.base g.layout s)

theorem held_concat (calls : List Call) (c : Call) :
    held (calls ++ [c]) = c.heldAfter (held calls) := by
  simp [held]

theorem bytes_concat (held : List Grant) (g : Grant) :
    bytes (held ++ [g]) = bytes held + g.layout.size := by
  simp [bytes, sum_append]

/-- The bytes of an extent that is held are among those of all. -/
theorem bytes_erase {held : List Grant} {g : Grant} (h : g ∈ held) :
    bytes (held.erase g) + g.layout.size = bytes held := by
  induction held with
  | nil => contradiction
  | cons a rest ih =>
      by_cases ha : a = g
      · rw [ha, List.erase_cons_head]
        exact Nat.add_comm _ _
      · have hrest := ih (List.mem_of_ne_of_mem (Ne.symm ha) h)
        rw [List.erase_cons_tail (by simpa using ha)]
        simp only [bytes, List.map_cons, sum_cons] at hrest ⊢
        omega

theorem excesses_concat (budget : Nat) (before : List Grant) (calls : List Call) (c : Call) :
    excesses budget before (calls ++ [c]) = excesses budget before calls +
      (c.exceeds budget (calls.foldl Call.heldAfter before)).toNat := by
  induction calls generalizing before with
  | nil => simp [excesses]
  | cons d rest ih =>
      rw [List.cons_append, excesses, ih, excesses, List.foldl_cons]
      omega

/-- Giving everything back that is held, one extent after another. -/
theorem Dealings.giveBackAll {σ : Type} [Source σ] {origin : σ} {calls : List Call} {s : σ}
    {grants : List Grant} (h : Dealings origin calls s) (hheld : held calls = grants) :
    Dealings origin (calls ++ grants.map Grant.giveBack)
        (grants.foldl (fun s g => Source.deallocate g.base g.layout s) s) ∧
      held (calls ++ grants.map Grant.giveBack) = [] := by
  induction grants generalizing calls s with
  | nil => simpa using ⟨h, hheld⟩
  | cons g rest ih =>
      have hg : g ∈ held calls := by simp [hheld]
      have hrest : held (calls ++ [g.giveBack]) = rest := by
        rw [held_concat, hheld, Grant.giveBack, Call.heldAfter, List.erase_cons_head]
      have hall := ih (h.giveBack hg) hrest
      rwa [List.append_assoc] at hall

end Source

open Source

namespace Budgeted

variable {σ : Type} [Source σ] {b : Budgeted σ} {extents : List Source.Grant}

/-! ## Single calls -/

omit [Source σ] in
/-- Bytes are reserved if and only if the exact sum is within the budget. -/
theorem reserve?_eq (hbudget : b.budget ≤ Word.max) (size : Nat) :
    b.reserve? size =
      if b.used + size ≤ b.budget then some { b with used := b.used + size } else none := by
  have hmax : Word.max < Word.bound := by decide
  simp only [reserve?]
  cases htotal : Word.add? b.used size with
  | some total =>
      obtain ⟨rfl, _⟩ := Word.add?_eq_some_iff.mp htotal
      rfl
  | none =>
      have hwraps := Word.add?_eq_none_iff.mp htotal
      rw [if_neg (by omega)]

/-- A request that exceeds the budget is counted and not passed on. Any other one is answered as the
source within answers it, and a refusal there leaves all counters as they were. -/
theorem allocate_eq (hbudget : b.budget ≤ Word.max) (l : Layout) :
    Source.allocate l b =
      if b.budget < b.used + l.size then (none, { b with refusals := b.refusals + 1 })
      else match Source.allocate l b.inner with
        | (some base, inner) =>
          (some base, { b with inner, used := b.used + l.size, live := b.live + 1 })
        | (none, inner) => (none, { b with inner }) := by
  conv => lhs; simp only [Source.allocate]
  rw [reserve?_eq hbudget]
  by_cases hover : b.budget < b.used + l.size
  · rw [if_neg (by omega), if_pos hover]
  · rw [if_pos (by omega), if_neg hover]
    rcases hinner : Source.allocate l b.inner with ⟨_ | base, inner⟩
    · simp only [hinner, Nat.add_sub_cancel]
    · simp only [hinner]

/-- What the counters of a budget say of the extents that are held. -/
structure Counts (b : Budgeted σ) (extents : List Source.Grant) : Prop where
  budget_le : b.budget ≤ Word.max
  used : b.used = bytes extents
  live : b.live = extents.length
  used_le : b.used ≤ b.budget

namespace Counts

/-- A request is counted, however it is answered. -/
theorem ask (h : b.Counts extents) (l : Layout) :
    (Source.allocate l b).2.Counts
      (Call.heldAfter extents (.allocate l (Source.allocate l b).1)) := by
  rw [allocate_eq h.budget_le]
  by_cases hover : b.budget < b.used + l.size
  · rw [if_pos hover]
    exact ⟨h.budget_le, h.used, h.live, h.used_le⟩
  · rw [if_neg hover]
    rcases Source.allocate l b.inner with ⟨_ | base, inner⟩
    · exact ⟨h.budget_le, h.used, h.live, h.used_le⟩
    · refine ⟨h.budget_le, ?_, ?_, Nat.le_of_not_lt hover⟩
      · rw [Call.heldAfter, bytes_concat, ← h.used]
      · rw [Call.heldAfter, List.length_append, ← h.live]
        rfl

omit [Source σ] in
/-- An extent that is held has been counted, so taking it off the counters cannot underflow. -/
theorem counted (h : b.Counts extents) {g : Source.Grant} (hg : g ∈ extents) :
    g.layout.size ≤ b.used ∧ 1 ≤ b.live := by
  have hbytes := bytes_erase hg
  have hlength := List.length_pos_of_mem hg
  rw [h.used, h.live]
  constructor <;> omega

theorem giveBack (h : b.Counts extents) {g : Source.Grant} (hg : g ∈ extents) :
    (Source.deallocate g.base g.layout b).Counts (extents.erase g) := by
  have hbytes := bytes_erase hg
  have hlength := List.length_erase_of_mem hg
  have hused := h.used
  have hlive := h.live
  have hle := h.used_le
  refine ⟨h.budget_le, ?_, ?_, ?_⟩ <;> simp only [Source.deallocate] <;> omega

end Counts

/-! ## Dealings -/

variable {start : Budgeted σ} {calls : List Call}

/-- The counters say what is held after any dealings. -/
theorem counts_of_dealings (hstart : start.Counts []) (h : Dealings start calls b) :
    b.Counts (held calls) := by
  induction h with
  | start => exact hstart
  | ask l _ ih =>
      rw [held_concat]
      exact ih.ask l
  | giveBack _ hg ih =>
      rw [held_concat]
      exact ih.giveBack hg

/-- A budget does not change. -/
theorem budget_of_dealings (hstart : start.Counts []) (h : Dealings start calls b) :
    b.budget = start.budget := by
  induction h with
  | start => rfl
  | @ask _ s l hs ih =>
      rw [allocate_eq (counts_of_dealings hstart hs).budget_le, ← ih]
      by_cases hover : s.budget < s.used + l.size
      · rw [if_pos hover]
      · rw [if_neg hover]
        rcases Source.allocate l s.inner with ⟨_ | base, inner⟩ <;> rfl
  | giveBack _ _ ih => exact ih

/-- Exactly the requests that exceeded the budget are counted as refusals. -/
theorem refusals_of_dealings (hstart : start.Counts []) (h : Dealings start calls b) :
    b.refusals = start.refusals + excesses start.budget [] calls := by
  induction h with
  | start => rfl
  | @ask calls s l hs ih =>
      have hcounts := counts_of_dealings hstart hs
      have hexceeds : Call.exceeds start.budget (held calls)
          (.allocate l (Source.allocate l s).1) = decide (s.budget < s.used + l.size) := by
        rw [Call.exceeds, hcounts.used, budget_of_dealings hstart hs]
      rw [excesses_concat, ← Nat.add_assoc, ← ih, ← held, hexceeds, allocate_eq hcounts.budget_le]
      by_cases hover : s.budget < s.used + l.size
      · simp [hover]
      · rw [if_neg hover]
        rcases Source.allocate l s.inner with ⟨_ | base, inner⟩ <;> simp [hover]
  | giveBack _ _ ih =>
      rw [excesses_concat, ← Nat.add_assoc, ← ih]
      rfl

end Budgeted

end Lifespan
