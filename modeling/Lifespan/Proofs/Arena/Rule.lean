import Lifespan.Proofs.Arena.Requests
import Mathlib.Data.List.MinMax

/-!
# The rule for placing a range

The rule for placing a range does not speak of an index: of all blocks that can hold the range it
takes the one with the most room, the latest of several such. A scan of all blocks follows the rule
on its own. The search through the index, with its early end, finds what that scan finds, and so a
new block is asked for only when no block can hold the range.
-/
namespace Lifespan

namespace Index

variable {l : Index} {blocks : List Block} {size align : Nat} {r : Room} {o : Nat}

/-- The blocks that can hold a range, each with its room and the offset in it. -/
def candidates (blocks : List Block) (size align : Nat) : List (Room × Nat) :=
  blocks.zipIdx.filterMap fun (b, i) => (b.peek size align).map fun o => (⟨b.available, i⟩, o)

/-- The rule without an index: the roomiest block that can hold a range, the latest of several
such, and the offset in it. -/
def fullScan (blocks : List Block) (size align : Nat) : Option (Room × Nat) :=
  (candidates blocks size align).argmax fun c => toLex (c.1.available, c.1.block)

theorem mem_candidates : (r, o) ∈ candidates blocks size align ↔
    ∃ b, blocks[r.block]? = some b ∧ b.available = r.available ∧ b.peek size align = some o := by
  simp only [candidates, List.mem_filterMap, Prod.exists, List.mk_mem_zipIdx_iff_getElem?,
    Option.map_eq_some_iff, Prod.mk.injEq]
  constructor
  · rintro ⟨b, i, hb, _, ho, rfl, rfl⟩
    exact ⟨b, hb, rfl, ho⟩
  · rintro ⟨b, hb, hroom, ho⟩
    exact ⟨b, r.block, hb, o, ho, by rw [hroom], rfl⟩

/-- Searching an index that mirrors the blocks is scanning all of them. -/
theorem search_eq_fullScan (h : l.Mirrors blocks) (size align : Nat) :
    l.search blocks size align = .ok (fullScan blocks size align) := by
  have hlisted := fun r hr => (h.mem_iff r).mp hr
  have hsearch : _ ∨ ∃ r o b, search blocks size align l = _ ∧ _ :=
    search_cases h.sorted hlisted
  rcases hsearch with ⟨hnone, hall⟩ | ⟨r, o, b, hsome, hr, hb, ho, hbest⟩
  · have hempty : candidates blocks size align = [] := by
      rw [List.eq_nil_iff_forall_not_mem]
      rintro ⟨r, o⟩ hc
      obtain ⟨b, hb, hroom, ho⟩ := mem_candidates.mp hc
      rw [hall r ((h.mem_iff r).mpr ⟨b, hb, hroom⟩) b hb] at ho
      contradiction
    rw [hnone, fullScan, hempty, List.argmax_nil]
  · have hroom : b.available = r.available := by
      obtain ⟨c, hc, hroom⟩ := hlisted r hr
      cases hb.symm.trans hc
      exact hroom
    -- No other candidate comes before the one that the search has found.
    have hfirst : ∀ d ∈ candidates blocks size align, d = (r, o) ∨ r.Precedes d.1 := by
      rintro ⟨s, o'⟩ hd
      obtain ⟨c, hc, hsroom, ho'⟩ := mem_candidates.mp hd
      rcases hbest s ((h.mem_iff s).mpr ⟨c, hc, hsroom⟩) c hc (by rw [ho']; simp) with rfl | hlt
      · cases hb.symm.trans hc
        cases ho.symm.trans ho'
        exact Or.inl rfl
      · exact Or.inr hlt
    rw [hsome, fullScan, eq_comm, List.argmax_eq_some_iff.mpr]
    refine ⟨mem_candidates.mpr ⟨b, hb, hroom, ho⟩, ?_, ?_⟩
    · intro d hd
      rw [Prod.Lex.toLex_le_toLex]
      rcases hfirst d hd with rfl | hlt
      · exact Or.inr ⟨rfl, Nat.le_refl _⟩
      · exact hlt.imp id fun h => ⟨h.1, Nat.le_of_lt h.2⟩
    · intro d hd hle
      rw [Prod.Lex.toLex_le_toLex] at hle
      rcases hfirst d hd with rfl | hlt
      · exact Nat.le_refl _
      · simp only [Room.Precedes] at hlt
        dsimp only at hle
        omega

end Index

namespace Arena

variable {σ : Type} {a a' : Arena σ} {size align : Nat} {p : Placement}

/-- A range in an existing block is all that is asked for, whatever the source would do. -/
theorem place_of_reuse_eq_some [Source σ] (hmax : align ≤ maxAlign)
    (h : a.reuse size align = .ok (some (p, a'))) :
    a.place size align = (.ok p, a'.charge size) := by
  simp only [place, if_neg (Nat.not_lt.mpr hmax), h]

/-- Without a range in an existing block there is nothing but a new block. -/
theorem place_of_reuse_eq_none [Source σ] (hmax : align ≤ maxAlign)
    (h : a.reuse size align = .ok none) :
    a.place size align =
      match a.grow size align with
      | (.error e, a') => (.error e, a')
      | (.ok p, a') => (.ok p, a'.charge size) := by
  rw [place, if_neg (Nat.not_lt.mpr hmax)]
  generalize a.reuse size align = found at h
  subst h
  rfl

/-- The chosen offset is the least aligned one from the cursor on. -/
theorem Chosen.isLeast_aligned {b : Block} (h : a.Chosen size align p b) :
    IsLeast {o | b.cursor ≤ o ∧ align ∣ b.base + o} p.offset := by
  obtain ⟨⟨hcursor, hdvd, hend⟩, hleast⟩ := h.least
  refine ⟨⟨hcursor, hdvd⟩, ?_⟩
  rintro o ⟨ho, hodvd⟩
  by_contra hlt
  have := hleast ⟨ho, hodvd, by omega⟩
  omega

end Arena

namespace Session

variable {σ : Type} [Source σ]

/-- After any history of requests, a range is placed by the rule. If a block can hold it, it goes to
the chosen block, at the least aligned offset from its cursor on, only the cursor of that block
moves, and the source plays no part: any other source would leave the same arena. If no block can
hold it, and only then, there is nothing but a new block. What the search through the index finds is
what a scan of all blocks finds. -/
theorem place_follows_rule {config : Config} {source : σ} {a : Arena σ}
    (honest : Source.Honest source) (created : Arena.create? config source = .ok a)
    (requests : List Request) (size : Nat) {align : Nat} (ha : Alignment.IsValid align)
    (hmax : align ≤ Arena.maxAlign) :
    let arena := (run { arena := a } requests).arena
    ((∃ b ∈ arena.blocks, ∃ o, b.Fits size align o) →
      ∃ p b, arena.Chosen size align p b ∧
        IsLeast {o | b.cursor ≤ o ∧ align ∣ b.base + o} p.offset ∧
        ∀ other : Source σ, @Arena.place σ other arena size align =
          (.ok p, (arena.advance p b size).charge size)) ∧
    ((∀ b ∈ arena.blocks, ∀ o, ¬ b.Fits size align o) ↔ arena.reuse size align = .ok none) ∧
    ((∀ b ∈ arena.blocks, ∀ o, ¬ b.Fits size align o) →
      ∀ other : Source σ, @Arena.place σ other arena size align =
        match @Arena.grow σ other arena size align with
        | (.error e, a') => (.error e, a')
        | (.ok p, a') => (.ok p, a'.charge size)) ∧
    arena.index.search arena.blocks size align =
      .ok (Index.fullScan arena.blocks size align) := by
  intro arena
  have sound : arena.Sound source :=
    sound_run (s := { arena := a }) honest (Arena.sound_of_create? created) requests
  have hsearch := Index.search_eq_fullScan sound.mirrors size align
  rcases Arena.reuse_cases honest sound size ha (hmax.trans (by decide)) with
    ⟨hreuse, hno⟩ | ⟨p, b, hchosen, hreuse⟩
  · refine ⟨?_, ⟨fun _ => hreuse, fun _ => hno⟩, ?_, hsearch⟩
    · intro ⟨b, hb, o, ho⟩
      exact absurd ho (hno b hb o)
    · intro _ other
      exact Arena.place_of_reuse_eq_none hmax hreuse
  · have hfits : ¬ ∀ b ∈ arena.blocks, ∀ o, ¬ b.Fits size align o := by
      intro hno
      exact hno b (List.mem_of_getElem? hchosen.block) p.offset hchosen.least.1
    refine ⟨?_, ⟨?_, ?_⟩, ?_, hsearch⟩
    · intro _
      refine ⟨p, b, hchosen, hchosen.isLeast_aligned, ?_⟩
      intro other
      exact Arena.place_of_reuse_eq_some hmax hreuse
    · intro hno
      exact absurd hno hfits
    · intro h
      rw [hreuse] at h
      cases h
    · intro hno
      exact absurd hno hfits

/-- The range of eight bytes is not placed in the roomier block, where it would need padding. -/
theorem place_follows_rule_padded :
    let source : AddressSpace := {}
    let config : Config := { initialBlockSize := 64, growth := .linear 6 }
    let a : Arena AddressSpace := { config, source, nextBlockSize := 64 }
    let requests : List Request := [.allocateAligned 56 1, .allocateAligned 57 1]
    let arena := (run { arena := a } requests).arena
    Source.Honest source ∧ Arena.create? config source = .ok a ∧
      arena.index = [⟨13, 1⟩, ⟨8, 0⟩] ∧ (arena.place 8 8).1 = .ok ⟨0, 56⟩ ∧
      ∃ b, arena.Chosen 8 8 ⟨0, 56⟩ b := by
  intro source config a requests arena
  have honest := AddressSpace.honest source
  have created : Arena.create? config source = .ok a := rfl
  have hplace : (arena.place 8 8).1 = .ok ⟨0, 56⟩ := by decide
  have hfits : ∃ b ∈ arena.blocks, ∃ o, b.Fits 8 8 o :=
    ⟨⟨⟨4096, ⟨64, 16⟩⟩, 64, 56⟩, by decide, 56, by unfold Block.Fits; decide⟩
  obtain ⟨p, b, hchosen, _, hrule⟩ :=
    (place_follows_rule honest created requests 8 (by decide) (by decide)).1 hfits
  have hp : p = ⟨0, 56⟩ := by
    rw [hrule inferInstance] at hplace
    exact Except.ok.inj hplace
  exact ⟨honest, created, by decide, hplace, b, hp ▸ hchosen⟩

end Session

end Lifespan
