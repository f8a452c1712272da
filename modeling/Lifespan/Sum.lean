/-!
# Sums of lists

Measures of a list of parts are sums over the parts. Replacing one part changes the sum by the
difference of the two parts.
-/

namespace Lifespan

/-- The sum of a list of numbers. -/
def sum : List Nat → Nat
  | [] => 0
  | n :: rest => n + sum rest

@[simp] theorem sum_nil : sum [] = 0 := rfl

@[simp] theorem sum_cons (n : Nat) (rest : List Nat) : sum (n :: rest) = n + sum rest := rfl

theorem sum_append (l k : List Nat) : sum (l ++ k) = sum l + sum k := by
  induction l with
  | nil => simp
  | cons n rest ih =>
      rw [List.cons_append, sum_cons, sum_cons, ih]
      omega

theorem sum_eq_zero {l : List Nat} (h : ∀ n ∈ l, n = 0) : sum l = 0 := by
  induction l with
  | nil => rfl
  | cons n rest ih =>
      rw [sum_cons, h n List.mem_cons_self, ih fun k hk => h k (List.mem_cons_of_mem n hk)]

/-- No member of a list of numbers is above their sum. -/
theorem le_sum_of_mem {l : List Nat} {n : Nat} (h : n ∈ l) : n ≤ sum l := by
  induction l with
  | nil => cases h
  | cons k rest ih =>
      rw [sum_cons]
      rcases List.mem_cons.mp h with rfl | hrest
      · exact Nat.le_add_right _ _
      · exact Nat.le_trans (ih hrest) (Nat.le_add_left _ _)

/-- A measure that is nowhere above another one has a sum that is not above the other's. -/
theorem sum_map_le_sum_map {α : Type} {f g : α → Nat} {l : List α} (h : ∀ a ∈ l, f a ≤ g a) :
    sum (l.map f) ≤ sum (l.map g) := by
  induction l with
  | nil => exact Nat.le_refl _
  | cons a rest ih =>
      have ha := h a List.mem_cons_self
      have hrest := ih fun b hb => h b (List.mem_cons_of_mem a hb)
      simp only [List.map_cons, sum_cons]
      omega

/-- Replacing a member of a list of numbers changes the sum by the difference. -/
theorem sum_set (l : List Nat) (i n : Nat) (h : i < l.length) :
    sum (l.set i n) + l[i] = sum l + n := by
  induction l generalizing i with
  | nil => simp at h
  | cons a l ih =>
    cases i with
    | zero => simp; omega
    | succ i =>
      have := ih i (by simpa using h)
      simp only [List.set_cons_succ, sum_cons, List.getElem_cons_succ]
      omega

/-- The form in which measures use it: a part is replaced in a list of parts with weights. -/
theorem sum_map_set {α : Type} (weight : α → Nat) {l : List α} {i : Nat} {a : α}
    (h : l[i]? = some a) (b : α) :
    sum ((l.set i b).map weight) + weight a = sum (l.map weight) + weight b := by
  obtain ⟨hlt, ha⟩ := List.getElem?_eq_some_iff.1 h
  have key := sum_set (l.map weight) i (weight b) (by simpa using hlt)
  rw [List.getElem_map, ha] at key
  rw [List.map_set]
  exact key

end Lifespan
