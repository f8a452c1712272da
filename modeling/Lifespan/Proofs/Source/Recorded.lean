import Lifespan.Proofs.Source.Contract

/-!
# A source that keeps a record

A source over another one that passes every call on and writes down what was called, with the
answer. Nothing else is different, so what is held from it is what it holds from the source within,
and it keeps the promise that the source within keeps.
-/

namespace Lifespan

namespace Source

/-- A call of a source. -/
inductive Call where
  | allocate (l : Layout) (answer : Option Nat)
  | deallocate (base : Nat) (l : Layout)
deriving DecidableEq, Repr

/-- The extent that a call was granted, if it was granted one. -/
def Call.grant? : Call → Option Grant
  | .allocate l (some base) => some ⟨base, l⟩
  | _ => none

/-- The call that gives an extent back. -/
def Grant.giveBack (g : Grant) : Call := .deallocate g.base g.layout

/-- The extents that calls were granted, the oldest first. -/
def granted (calls : List Call) : List Grant := calls.filterMap Call.grant?

@[simp] theorem granted_concat (calls : List Call) (c : Call) :
    granted (calls ++ [c]) = granted calls ++ c.grant?.toList := by
  cases hc : c.grant? <;> simp [granted, hc]

variable {σ τ : Type} [Source σ] [Source τ]

/-- The image of each state answers as the state itself does. -/
structure Renders (f : σ → τ) : Prop where
  allocate : ∀ (l : Layout) (s : σ), Source.allocate l (f s) =
    ((Source.allocate l s).1, f (Source.allocate l s).2)
  deallocate : ∀ (base : Nat) (l : Layout) (s : σ),
    Source.deallocate base l (f s) = f (Source.deallocate base l s)
  usableSize : ∀ (l : Layout) (s : σ), Source.usableSize l (f s) = Source.usableSize l s

namespace Renders

variable {f : σ → τ} (renders : Renders f) {origin s : σ} {held : List Extent}
include renders

/-- A history of the one source is a history of the other. -/
theorem history (h : History origin s held) : History (f origin) (f s) held := by
  induction h with
  | start => exact .start
  | @grant s t held l base _ hvalid hpos halloc ih =>
      have halloc' : Source.allocate l (f s) = (some base, f t) := by
        rw [renders.allocate, halloc]
      have hextent : extent (f t) base l = extent t base l := by
        rw [extent, extent, renders.usableSize]
      rw [← hextent]
      exact ih.grant hvalid hpos halloc'
  | @refuse s t held l _ hvalid hpos halloc ih =>
      exact ih.refuse hvalid hpos (by rw [renders.allocate, halloc])
  | giveBack _ he ih =>
      rw [← renders.deallocate]
      exact ih.giveBack he

/-- A source that answers like an honest one is honest. -/
theorem honest (h : Honest (f origin)) : Honest origin where
  aligned hs := h.aligned (renders.history hs)
  bounded hs := h.bounded (renders.history hs)
  apart hs := h.apart (renders.history hs)

end Renders

/-- Extents that are held at the same time differ. -/
theorem Honest.nodup_grants {origin : σ} (honest : Honest origin) {s : σ} {held : List Extent}
    (h : History origin s held) : (held.map Extent.grant).Nodup := by
  have hlength : ∀ e ∈ held, 0 < e.length := by
    induction h with
    | start => simp
    | grant _ _ hpos _ ih =>
        intro e he
        rcases List.mem_append.mp he with he | he
        · exact ih e he
        · rw [List.mem_singleton.mp he]
          exact Nat.lt_of_lt_of_le hpos (le_max_right _ _)
    | refuse _ _ _ _ ih => exact ih
    | giveBack _ _ ih => exact fun e he => ih e (List.mem_of_mem_erase he)
  refine List.pairwise_map.mpr ((honest.apart h).imp_of_mem ?_)
  intro e d he hd hapart heq
  have he := hlength e he
  have hd := hlength d hd
  simp only [Span.Apart, Extent.span, Span.stop, heq] at hapart
  omega

end Source

open Source

/-- A source with a record of the calls. -/
structure Recorded (σ : Type) where
  inner : σ
  calls : List Call := []
deriving DecidableEq, Repr

namespace Recorded

variable {σ : Type} [Source σ]

instance : Source (Recorded σ) where
  allocate l r :=
    match Source.allocate l r.inner with
    | (answer, inner) => (answer, { inner, calls := r.calls ++ [.allocate l answer] })
  deallocate base l r :=
    { inner := Source.deallocate base l r.inner, calls := r.calls ++ [.deallocate base l] }
  usableSize l r := Source.usableSize l r.inner

/-- A record does not change any answer. -/
theorem renders_inner : Renders (inner : Recorded σ → σ) where
  allocate _ _ := rfl
  deallocate _ _ _ := rfl
  usableSize _ _ := rfl

theorem calls_of_allocate {l : Layout} {answer : Option Nat} {r r' : Recorded σ}
    (h : Source.allocate l r = (answer, r')) : r'.calls = r.calls ++ [.allocate l answer] := by
  cases h
  rfl

/-- Giving extents back one after another. -/
theorem foldl_deallocate (grants : List Source.Grant) (r : Recorded σ) :
    grants.foldl (fun r g => Source.deallocate g.base g.layout r) r =
      { inner := grants.foldl (fun s g => Source.deallocate g.base g.layout s) r.inner
        calls := r.calls ++ grants.map Source.Grant.giveBack } := by
  induction grants generalizing r with
  | nil => simp
  | cons g rest ih =>
      rw [List.foldl_cons, ih]
      simp [Source.deallocate, Source.Grant.giveBack]

end Recorded

end Lifespan
