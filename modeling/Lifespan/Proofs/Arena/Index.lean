import Lifespan.Proofs.Arena.Fit
import Lifespan.Arena.Index
import Mathlib.Data.List.Sort

/-!
# The index mirrors the blocks

The index of an arena is strictly descending and lists each block once, with the room that the
block has. These two facts determine it, so putting a room in and taking one out keep them, and the
search through it is a search through all blocks: the early end is sound because no later room is
larger.
-/
namespace Lifespan

namespace Room

variable {r s t : Room}

theorem Precedes.trans (h : r.Precedes s) (h' : s.Precedes t) : r.Precedes t := by
  simp only [Precedes] at *
  omega

theorem precedes_irrefl (r : Room) : ¬ r.Precedes r := by
  simp only [Precedes]
  omega

/-- Two rooms that do not precede each other are the same. -/
theorem eq_of_not_precedes (h : ¬ r.Precedes s) (h' : ¬ s.Precedes r) : r = s := by
  cases r
  cases s
  simp only [Precedes, mk.injEq] at *
  omega

instance : Std.Irrefl Precedes := ⟨precedes_irrefl⟩

instance : Std.Antisymm Precedes :=
  ⟨fun r _ h h' => absurd (h.trans h') (precedes_irrefl r)⟩

end Room

namespace Index

variable {l : Index} {r s : Room} {blocks : List Block} {b c : Block} {size align i : Nat}

@[simp] theorem mem_insert : s ∈ l.insert r ↔ s = r ∨ s ∈ l := by
  induction l with
  | nil => simp [insert]
  | cons t rest ih =>
      by_cases h : t.Precedes r
      · simp only [insert, if_pos h, List.mem_cons, ih]
        tauto
      · simp only [insert, if_neg h, List.mem_cons]

theorem pairwise_insert (hl : l.Pairwise Room.Precedes) (hr : r ∉ l) :
    (l.insert r).Pairwise Room.Precedes := by
  induction l with
  | nil => simp [insert]
  | cons t rest ih =>
      simp only [List.mem_cons, not_or] at hr
      rcases List.pairwise_cons.mp hl with ⟨hfirst, hrest⟩
      by_cases h : t.Precedes r
      · rw [insert, if_pos h]
        refine List.pairwise_cons.mpr ⟨?_, ih hrest hr.2⟩
        intro s hs
        rcases mem_insert.mp hs with rfl | hs
        · exact h
        · exact hfirst s hs
      · have hrt : r.Precedes t := by
          by_contra hn
          exact hr.1 (Room.eq_of_not_precedes hn h)
        rw [insert, if_neg h]
        refine List.pairwise_cons.mpr ⟨?_, hl⟩
        intro s hs
        rcases List.mem_cons.mp hs with rfl | hs
        · exact hrt
        · exact hrt.trans (hfirst s hs)

/-- The rooms of blocks numbered from `first` on. -/
theorem mem_ofBlocks (first : Nat) :
    r ∈ ofBlocks first blocks ↔ ∃ i b, blocks[i]? = some b ∧ r = ⟨b.available, first + i⟩ := by
  induction blocks generalizing first with
  | nil => simp [ofBlocks]
  | cons b rest ih =>
      rw [ofBlocks, mem_insert, ih]
      constructor
      · rintro (rfl | ⟨i, c, hc, rfl⟩)
        · exact ⟨0, b, rfl, rfl⟩
        · exact ⟨i + 1, c, hc, by simp only [Room.mk.injEq, true_and]; omega⟩
      · rintro ⟨i, c, hc, rfl⟩
        cases i with
        | zero =>
            cases hc
            exact Or.inl rfl
        | succ i =>
            exact Or.inr ⟨i, c, hc, by simp only [Room.mk.injEq, true_and]; omega⟩

theorem pairwise_ofBlocks (first : Nat) (blocks : List Block) :
    (ofBlocks first blocks).Pairwise Room.Precedes := by
  induction blocks generalizing first with
  | nil => exact List.Pairwise.nil
  | cons b rest ih =>
      refine pairwise_insert (ih (first + 1)) ?_
      rw [mem_ofBlocks]
      rintro ⟨i, c, _, h⟩
      have := (Room.mk.injEq .. ▸ h).2
      omega

/-- The index is descending and lists each block once, with its room. -/
structure Mirrors (l : Index) (blocks : List Block) : Prop where
  sorted : l.Pairwise Room.Precedes
  mem_iff : ∀ r, r ∈ l ↔ ∃ b, blocks[r.block]? = some b ∧ b.available = r.available

theorem mirrors_ofBlocks (blocks : List Block) : (ofBlocks 0 blocks).Mirrors blocks where
  sorted := pairwise_ofBlocks 0 blocks
  mem_iff r := by
    rw [mem_ofBlocks]
    constructor
    · rintro ⟨i, b, hb, rfl⟩
      exact ⟨b, by simpa using hb, rfl⟩
    · rintro ⟨b, hb, hroom⟩
      refine ⟨r.block, b, hb, ?_⟩
      rw [hroom, Nat.zero_add]

theorem Mirrors.eq_ofBlocks (h : l.Mirrors blocks) : l = ofBlocks 0 blocks := by
  have h' := mirrors_ofBlocks blocks
  exact h.sorted.eq_of_mem_iff h'.sorted fun r => (h.mem_iff r).trans (h'.mem_iff r).symm

/-- A new block comes last. -/
theorem Mirrors.push (h : l.Mirrors blocks) (b : Block) :
    (l.insert ⟨b.available, blocks.length⟩).Mirrors (blocks ++ [b]) where
  sorted := by
    refine pairwise_insert h.sorted ?_
    rw [h.mem_iff]
    rintro ⟨c, hc, _⟩
    simp at hc
  mem_iff r := by
    rw [mem_insert, h.mem_iff]
    constructor
    · rintro (rfl | ⟨c, hc, hroom⟩)
      · exact ⟨b, by simp, rfl⟩
      · have hlt := (List.getElem?_eq_some_iff.mp hc).1
        exact ⟨c, by rw [List.getElem?_append_left hlt]; exact hc, hroom⟩
    · rintro ⟨c, hc, hroom⟩
      rcases Nat.lt_trichotomy r.block blocks.length with hlt | heq | hgt
      · rw [List.getElem?_append_left hlt] at hc
        exact Or.inr ⟨c, hc, hroom⟩
      · rw [heq, List.getElem?_concat_length] at hc
        cases hc
        exact Or.inl (by cases r; simp_all)
      · rw [List.getElem?_eq_none (by simp; omega)] at hc
        contradiction

/-- One block changes. -/
theorem Mirrors.replace (h : l.Mirrors blocks) (hb : blocks[i]? = some b) (c : Block) :
    ((l.erase ⟨b.available, i⟩).insert ⟨c.available, i⟩).Mirrors (blocks.set i c) := by
  have hlt := (List.getElem?_eq_some_iff.mp hb).1
  have hnodup : l.Nodup := h.sorted.nodup
  -- Without the old room of block `i`, the index lists all the other blocks.
  have herase : ∀ r, r ∈ l.erase ⟨b.available, i⟩ ↔
      r.block ≠ i ∧ ∃ d, blocks[r.block]? = some d ∧ d.available = r.available := by
    intro r
    rw [erase, hnodup.mem_erase_iff, h.mem_iff]
    constructor
    · rintro ⟨hne, d, hd, hroom⟩
      refine ⟨?_, d, hd, hroom⟩
      intro hi
      rw [hi, hb] at hd
      cases hd
      exact hne (by cases r; simp_all)
    · rintro ⟨hne, hd⟩
      exact ⟨fun heq => hne (by rw [heq]), hd⟩
  constructor
  · refine pairwise_insert (h.sorted.sublist List.erase_sublist) ?_
    rw [herase]
    exact fun hr => hr.1 rfl
  · intro r
    rw [mem_insert, herase]
    by_cases hr : r.block = i
    · rw [hr, List.getElem?_set_self hlt]
      constructor
      · rintro (rfl | ⟨hne, _⟩)
        · exact ⟨c, rfl, rfl⟩
        · exact absurd rfl hne
      · rintro ⟨d, hd, hroom⟩
        cases hd
        exact Or.inl (by cases r; simp_all)
    · rw [List.getElem?_set_ne (Ne.symm hr)]
      constructor
      · rintro (rfl | ⟨_, hd⟩)
        · exact absurd rfl hr
        · exact hd
      · exact fun hd => Or.inr ⟨hr, hd⟩

/-- From a room on that is less than the range, padding apart, no block can hold the range. -/
theorem peek_eq_none_of_small {t : Room} {rest : Index} {b : Block}
    (hfirst : ∀ r ∈ rest, t.Precedes r)
    (hlisted : ∀ r ∈ t :: rest, ∃ b, blocks[r.block]? = some b ∧ b.available = r.available)
    (hsmall : t.available < size) (hr : r ∈ t :: rest) (hb : blocks[r.block]? = some b) :
    b.peek size align = none := by
  obtain ⟨c, hc, hroom⟩ := hlisted r hr
  cases hb.symm.trans hc
  have hle : r.available ≤ t.available := by
    rcases List.mem_cons.mp hr with rfl | hr
    · exact Nat.le_refl _
    · have := hfirst r hr
      simp only [Room.Precedes] at this
      omega
  rw [Option.eq_none_iff_forall_ne_some]
  intro o ho
  have := Block.size_le_available_of_peek ho
  omega

/-- A search ends without a room only if no listed block can hold the range, and otherwise with the
first one that can. It never fails. -/
theorem search_cases (hsorted : l.Pairwise Room.Precedes)
    (hlisted : ∀ r ∈ l, ∃ b, blocks[r.block]? = some b ∧ b.available = r.available) :
    (search blocks size align l = .ok none ∧
      ∀ r ∈ l, ∀ b, blocks[r.block]? = some b → b.peek size align = none) ∨
    ∃ r o b, search blocks size align l = .ok (some (r, o)) ∧ r ∈ l ∧
      blocks[r.block]? = some b ∧ b.peek size align = some o ∧
      ∀ s ∈ l, ∀ c, blocks[s.block]? = some c → c.peek size align ≠ none →
        s = r ∨ r.Precedes s := by
  induction l with
  | nil => exact Or.inl ⟨rfl, by simp⟩
  | cons t rest ih =>
      rcases List.pairwise_cons.mp hsorted with ⟨hfirst, hrest⟩
      obtain ⟨b, hb, hroom⟩ := hlisted t List.mem_cons_self
      have hlisted' := fun r hr => hlisted r (List.mem_cons_of_mem _ hr)
      by_cases hsmall : t.available < size
      · refine Or.inl ⟨by rw [search, if_pos hsmall], ?_⟩
        intro r hr c hc
        exact peek_eq_none_of_small hfirst hlisted hsmall hr hc
      · cases hpeek : b.peek size align with
        | some o =>
            refine Or.inr ⟨t, o, b, ?_, List.mem_cons_self, hb, hpeek, ?_⟩
            · simp only [search, if_neg hsmall, hb, hpeek]
            · intro s hs c _ _
              rcases List.mem_cons.mp hs with rfl | hs
              · exact Or.inl rfl
              · exact Or.inr (hfirst s hs)
        | none =>
            have hstep : search blocks size align (t :: rest) = search blocks size align rest := by
              simp only [search, if_neg hsmall, hb, hpeek]
            rw [hstep]
            rcases ih hrest hlisted' with ⟨hnone, hall⟩ | ⟨r, o, c, hsome, hr, hc, ho, hbest⟩
            · refine Or.inl ⟨hnone, ?_⟩
              intro r hr c hc
              rcases List.mem_cons.mp hr with rfl | hr
              · rw [hb] at hc
                cases hc
                exact hpeek
              · exact hall r hr c hc
            · refine Or.inr ⟨r, o, c, hsome, List.mem_cons_of_mem _ hr, hc, ho, ?_⟩
              intro s hs d hd hne
              rcases List.mem_cons.mp hs with rfl | hs
              · rw [hb] at hd
                cases hd
                exact absurd hpeek hne
              · exact hbest s hs d hd hne

end Index

end Lifespan
