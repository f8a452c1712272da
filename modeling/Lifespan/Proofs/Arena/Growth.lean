import Lifespan.Proofs.Arena.Accounting
import Lifespan.Proofs.Arena.Settling
import Mathlib.Logic.Function.Iterate

/-!
# Growth over whole histories

The running size moves along the growth policy: each block that is made for a request within the
running size takes that size, and the next one is due. A block for a larger request is as large as
that request and leaves the running size alone, and so does everything else that may happen, in
whatever order. Nothing is needed of the source for this.
-/

namespace Lifespan

namespace Growth

/-- The size after `k` advances from a size. -/
def sizeAt : Growth → Nat → Nat → Nat
  | fixed, size, _ => min Word.max size
  | linear increment, size, k => min Word.max (size + k * increment)
  | exponential, size, k => min Word.max (size * 2 ^ k)

/-- One advance more, in closed form. -/
theorem advance_sizeAt (g : Growth) (size k : Nat) :
    g.advance (g.sizeAt size k) = g.sizeAt size (k + 1) := by
  cases g with
  | fixed => rfl
  | linear increment =>
      simp only [advance, sizeAt, Word.addSat, Nat.succ_mul]
      omega
  | exponential =>
      simp only [advance, sizeAt, Word.addSat, pow_succ, ← Nat.mul_assoc]
      omega

theorem iterate_advance (g : Growth) {size : Nat} (h : size ≤ Word.max) (k : Nat) :
    g.advance^[k] size = g.sizeAt size k := by
  induction k with
  | zero => cases g <;> simp [sizeAt, h]
  | succ k ih => rw [Function.iterate_succ_apply', ih, advance_sizeAt]

end Growth

/-- The first block of a valid configuration is not larger than an object may be. -/
theorem Config.Valid.initialBlockSize_le {config : Config} (h : config.Valid) :
    config.initialBlockSize ≤ Word.maxSpan := by
  simp only [Valid, flaw?] at h
  split at h
  · cases h
  · split at h
    · cases h
    · next hle => exact Nat.le_of_not_lt hle

theorem Arena.valid_of_create? {σ : Type} {config : Config} {source : σ} {a : Arena σ}
    (h : create? config source = .ok a) : config.Valid := (create?_eq_ok_iff.mp h).1

/-! ## Births of blocks -/

/-- A block that is made, and the request that it is made for. -/
structure Birth where
  layout : Layout
  size : Nat
  align : Nat
  running : Nat
deriving DecidableEq, Repr

namespace Birth

/-- A block is ordinary if the request is not larger than the running size. -/
def IsOrdinary (b : Birth) : Prop := b.size ≤ b.running

instance (b : Birth) : Decidable b.IsOrdinary := inferInstanceAs (Decidable (_ ≤ _))

/-- A block has the size that is due to it: the running size if it is ordinary, and otherwise the
least multiple of its alignment from the request on. -/
structure Fair (b : Birth) : Prop where
  ordinary : b.IsOrdinary → b.layout.size = b.running
  dedicated : ¬ b.IsOrdinary →
    IsLeast {n | b.size ≤ n ∧ max b.align Alignment.standard ∣ n} b.layout.size

end Birth

namespace Arena

variable {σ : Type} {a : Arena σ} {size align offset : Nat} {b : Block} {source : σ}

/-- The layouts of the blocks, the oldest first. -/
def layouts (a : Arena σ) : List Layout := a.blocks.map fun b => b.grant.layout

theorem layouts_reset (a : Arena σ) : a.reset.layouts = a.layouts := by
  simp only [layouts, reset, List.map_map]
  rfl

/-- The birth of a block for a request to an arena. -/
def birth (a : Arena σ) (layout : Layout) (size align : Nat) : Birth :=
  ⟨layout, size, align, a.nextBlockSize⟩

/-- A new block has the size that is due to it. -/
theorem Opened.fair [Source σ] (h : a.Opened size align offset b source)
    (ha : Alignment.IsValid align) : (a.birth b.grant.layout size align).Fair := by
  obtain ⟨hdue, -⟩ := (newBlockSize?_eq_some_iff ha h.le_maxAlign).mp h.blockSize
  exact ⟨hdue.ordinary, fun hno => hdue.dedicated (Nat.lt_of_not_le hno)⟩

end Arena

namespace Session

variable {σ : Type} [Source σ] {s : Session σ}

/-- The blocks that are made for a request. -/
def births (s : Session σ) (r : Request) : List Birth :=
  match r.demand? with
  | none => []
  | some (size, align) =>
    ((s.step r).2.arena.layouts.drop s.arena.layouts.length).map (s.arena.birth · size align)

/-- The blocks that are made in a history of requests, the oldest first. -/
def allBirths (s : Session σ) : List Request → List Birth
  | [] => []
  | r :: rest => s.births r ++ (s.step r).2.allBirths rest

theorem births_of_layouts {r : Request} {added : List Layout}
    (h : (s.step r).2.arena.layouts = s.arena.layouts ++ added) :
    s.births r = match r.demand? with
      | none => []
      | some (size, align) => added.map (s.arena.birth · size align) := by
  simp only [births, h, List.drop_left]

/-- What a request does to the blocks and to the running size. -/
inductive Bearing (s : Session σ) (r : Request) : Prop where
  | barren : s.births r = [] → (s.step r).2.arena.layouts = s.arena.layouts →
    (s.step r).2.arena.nextBlockSize = s.arena.nextBlockSize → Bearing s r
  | bearing {b : Birth} {i : Nat} {p : Placement} : s.births r = [b] →
    (s.step r).1 = .ok (.placed i p) → b.running = s.arena.nextBlockSize → b.Fair →
    (s.step r).2.arena.layouts = s.arena.layouts ++ [b.layout] →
    (s.step r).2.arena.nextBlockSize =
      (if b.IsOrdinary then s.arena.config.growth.advance b.running else b.running) → Bearing s r

/-- A request without a new block bears nothing. -/
theorem barren_of_layouts {r : Request}
    (hlayouts : (s.step r).2.arena.layouts = s.arena.layouts)
    (hsize : (s.step r).2.arena.nextBlockSize = s.arena.nextBlockSize) : s.Bearing r := by
  refine .barren ?_ hlayouts hsize
  have hadded : (s.step r).2.arena.layouts = s.arena.layouts ++ [] := by
    rw [hlayouts, List.append_nil]
  rw [births_of_layouts hadded]
  split <;> rfl

theorem bearing (s : Session σ) (r : Request) : s.Bearing r := by
  have hend := s.settling r
  generalize hstep : s.step r = next at hend
  cases hend with
  | reset =>
      exact barren_of_layouts (by rw [hstep]; exact s.arena.layouts_reset) (by rw [hstep]; rfl)
  | unplaced _ _ => exact barren_of_layouts (by rw [hstep]; rfl) (by rw [hstep])
  | reused _ _ _ hb _ _ =>
      exact barren_of_layouts (by rw [hstep]; exact map_set_of_eq hb rfl) (by rw [hstep])
  | @opened _ size align _ _ b _ _ _ hr _ ha hb =>
      have hlayouts : (s.step r).2.arena.layouts = s.arena.layouts ++ [b.grant.layout] := by
        rw [hstep]
        simp [Arena.layouts, Arena.charge, Arena.addBlock]
      refine .bearing ?_ (by rw [hstep]) rfl (hb.fair ha) hlayouts ?_
      · rw [births_of_layouts hlayouts, hr]
        rfl
      · rw [hstep]
        by_cases hlarge : s.arena.IsLarge size
        · have hno : ¬ (s.arena.birth b.grant.layout size align).IsOrdinary := Nat.not_le.mpr hlarge
          rw [if_neg hno]
          simp [Arena.charge, Arena.addBlock, hlarge, Arena.birth]
        · have hordinary : (s.arena.birth b.grant.layout size align).IsOrdinary :=
            Nat.le_of_not_lt hlarge
          rw [if_pos hordinary]
          simp [Arena.charge, Arena.addBlock, hlarge, Arena.birth]

/-- No request changes the configuration. -/
theorem config_step (s : Session σ) (r : Request) :
    (s.step r).2.arena.config = s.arena.config := by
  have hend := s.settling r
  generalize s.step r = next at hend
  cases hend with
  | reset => rfl
  | unplaced _ _ => rfl
  | reused _ _ _ _ _ _ => rfl
  | opened _ _ _ _ => rfl

theorem config_run (s : Session σ) (requests : List Request) :
    (s.run requests).arena.config = s.arena.config :=
  run_induction (P := fun t => t.arena.config = s.arena.config)
    (fun t r h => (t.config_step r).trans h) rfl requests

end Session

/-! ## Whole histories -/

/-- The blocks of an arena and its running size in terms of the births. -/
structure Arena.Grows {σ : Type} (config : Config) (a : Arena σ) (births : List Birth) : Prop where
  config_eq : a.config = config
  layouts : a.layouts = births.map Birth.layout
  fair : ∀ b ∈ births, b.Fair
  /-- Ordinary blocks were born at one size of the policy after the other. -/
  running : (births.filter Birth.IsOrdinary).map Birth.running =
    (List.range (births.filter Birth.IsOrdinary).length).map
      (config.growth.advance^[·] config.initialBlockSize)
  next : a.nextBlockSize =
    config.growth.advance^[(births.filter Birth.IsOrdinary).length] config.initialBlockSize
  next_pos : 0 < a.nextBlockSize

namespace Session

variable {σ : Type} [Source σ] {s : Session σ} {config : Config} {births : List Birth}

theorem grows_step (h : s.arena.Grows config births) (r : Request) :
    (s.step r).2.arena.Grows config (births ++ s.births r) := by
  have hconfig := (s.config_step r).trans h.config_eq
  have hpos := next_pos_step h.next_pos r
  cases s.bearing r with
  | barren hbirths hlayouts hsize =>
      rw [hbirths, List.append_nil]
      exact ⟨hconfig, hlayouts.trans h.layouts, h.fair, h.running, hsize.trans h.next, hpos⟩
  | @bearing b _ _ hbirths _ hrunning hfair hlayouts hsize =>
      have hall : ∀ c ∈ births ++ [b], c.Fair := by
        intro c hc
        rcases List.mem_append.mp hc with hc | hc
        · exact h.fair c hc
        · rwa [List.mem_singleton.mp hc]
      have hmap : (s.step r).2.arena.layouts = (births ++ [b]).map Birth.layout := by
        rw [hlayouts, h.layouts, List.map_append, List.map_singleton]
      rw [hbirths]
      rw [h.config_eq] at hsize
      by_cases hordinary : b.IsOrdinary
      · -- One more size of the policy has been used.
        have hfilter : (births ++ [b]).filter Birth.IsOrdinary =
            births.filter Birth.IsOrdinary ++ [b] := by
          simp [hordinary]
        refine ⟨hconfig, hmap, hall, ?_, ?_, hpos⟩
        · rw [hfilter, List.map_append, List.length_append, List.length_singleton, List.range_succ,
            List.map_append, h.running, List.map_singleton, List.map_singleton, hrunning, h.next]
        · rw [hfilter, List.length_append, List.length_singleton, Function.iterate_succ_apply',
            hsize, if_pos hordinary, hrunning, h.next]
      · have hfilter : (births ++ [b]).filter Birth.IsOrdinary =
            births.filter Birth.IsOrdinary := by
          simp [hordinary]
        refine ⟨hconfig, hmap, hall, ?_, ?_, hpos⟩
        · rw [hfilter, h.running]
        · rw [hfilter, hsize, if_neg hordinary, hrunning, h.next]

theorem grows_run (h : s.arena.Grows config births) (requests : List Request) :
    (s.run requests).arena.Grows config (births ++ s.allBirths requests) := by
  induction requests generalizing s births with
  | nil =>
      rw [allBirths, List.append_nil]
      exact h
  | cons r rest ih =>
      rw [allBirths, ← List.append_assoc]
      exact ih (grows_step h r)

/-- The sizes of ordinary blocks are the running sizes at their births. -/
theorem sizes_of_fair (h : ∀ b ∈ births, b.Fair) :
    (births.filter Birth.IsOrdinary).map (fun b => b.layout.size) =
      (births.filter Birth.IsOrdinary).map Birth.running := by
  refine List.map_congr_left fun b hb => ?_
  obtain ⟨hmem, hordinary⟩ := List.mem_filter.mp hb
  exact (h b hmem).ordinary (by simpa using hordinary)

/-- After any history of requests on a new arena, over any source: the blocks that were made for
requests within the running size have, one after the other, the sizes to which the growth policy
advances from the initial one, and the next size of the policy is due. A block for a larger request
has the least size that the request fits into, rounded up to the alignment of the block, and leaves
the size that is due alone; so does every request without a new block, and a reset or a request that
fails is one. -/
theorem growth_follows_policy {source : σ} {a : Arena σ}
    (created : Arena.create? config source = .ok a) (requests : List Request) :
    let s := run { arena := a } requests
    let births := allBirths { arena := a } requests
    let ordinary := births.filter Birth.IsOrdinary
    let sizes := fun k => config.growth.advance^[k] config.initialBlockSize
    -- The births are those of all blocks.
    s.arena.layouts = births.map Birth.layout ∧
    ordinary.map (fun b => b.layout.size) = (List.range ordinary.length).map sizes ∧
    s.arena.nextBlockSize = sizes ordinary.length ∧
    (∀ k, sizes k = config.growth.sizeAt config.initialBlockSize k) ∧
    (∀ b ∈ births, b.running < b.size →
      IsLeast {n | b.size ≤ n ∧ max b.align Alignment.standard ∣ n} b.layout.size) ∧
    -- Nothing but an ordinary birth moves the running size.
    (∀ r, (∀ b ∈ s.births r, b.running < b.size) →
      (s.step r).2.arena.nextBlockSize = s.arena.nextBlockSize) ∧
    (∀ r f, (s.step r).1 = .error f → s.births r = []) ∧ s.births .reset = [] := by
  intro s births ordinary sizes
  have start : a.Grows config [] := by
    have hpos := (Arena.sound_of_create? created).next_pos
    obtain ⟨-, rfl⟩ := Arena.create?_eq_ok_iff.mp created
    exact ⟨rfl, rfl, by simp, rfl, rfl, hpos⟩
  have grows : s.arena.Grows config births := grows_run (s := { arena := a }) start requests
  have hle : config.initialBlockSize ≤ Word.max :=
    (Arena.valid_of_create? created).initialBlockSize_le.trans (by decide)
  refine ⟨grows.layouts, (sizes_of_fair grows.fair).trans grows.running, grows.next,
    config.growth.iterate_advance hle, ?_, ?_, ?_, rfl⟩
  · intro b hb hlarge
    exact (grows.fair b hb).dedicated (Nat.not_le.mpr hlarge)
  · intro r hlarge
    cases s.bearing r with
    | barren _ _ hsize => exact hsize
    | @bearing b _ _ hbirths _ hrunning _ _ hsize =>
        have hno : ¬ b.IsOrdinary := Nat.not_le.mpr (hlarge b (by simp [hbirths]))
        rw [hsize, if_neg hno, hrunning]
  · intro r f hfailed
    cases s.bearing r with
    | barren hbirths _ _ => exact hbirths
    | bearing _ hreply _ _ _ _ =>
        rw [hfailed] at hreply
        cases hreply

/-- A history with an ordinary block, one for a large request, a refusal, a reset, a range in a
block at hand, and another ordinary block. -/
theorem growth_follows_policy_mixed :
    let source : AddressSpace := { skew := 16 }
    let config : Config := { initialBlockSize := 64, growth := .exponential }
    let a : Arena AddressSpace := { config, source, nextBlockSize := 64 }
    let requests : List Request := [.allocate 24, .allocateAligned 300 64, .allocate (1 <<< 61),
      .reset, .array Element.uint64 12, .zeroed 128 4096]
    let births : List Birth := [⟨⟨64, 16⟩, 24, 16, 64⟩, ⟨⟨320, 64⟩, 300, 64, 128⟩,
      ⟨⟨128, 4096⟩, 128, 4096, 128⟩]
    Arena.create? config source = .ok a ∧ allBirths { arena := a } requests = births ∧
      (run { arena := a } requests).arena.layouts = [⟨64, 16⟩, ⟨320, 64⟩, ⟨128, 4096⟩] ∧
      [64, 128] = (List.range 2).map (Growth.exponential.advance^[·] 64) ∧
      (run { arena := a } requests).arena.nextBlockSize = Growth.exponential.sizeAt 64 2 ∧
      IsLeast {n | 300 ≤ n ∧ max 64 Alignment.standard ∣ n} 320 ∧
      ((run { arena := a } requests).step (.zeroed 8 8192)).2.arena.nextBlockSize =
        (run { arena := a } requests).arena.nextBlockSize := by
  intro source config a requests births
  have created : Arena.create? config source = .ok a := rfl
  have hbirths : allBirths { arena := a } requests = births := by decide +kernel
  have hfailed : ((run { arena := a } requests).step (.zeroed 8 8192)).1 =
      .error (.fault (.alignment 8192 4096)) := by decide +kernel
  obtain ⟨hlayouts, hsizes, hnext, hclosed, hlarge, hkept, hbarren, -⟩ :=
    growth_follows_policy created requests
  have hordinary : births.filter Birth.IsOrdinary =
      [⟨⟨64, 16⟩, 24, 16, 64⟩, ⟨⟨128, 4096⟩, 128, 4096, 128⟩] := by decide
  rw [hbirths] at hlayouts hlarge
  rw [hbirths, hordinary] at hsizes hnext
  have hdedicated : ⟨⟨320, 64⟩, 300, 64, 128⟩ ∈ births := by decide
  have hnone := hbarren (.zeroed 8 8192) _ hfailed
  have hsame := hkept (.zeroed 8 8192) (by simp [hnone])
  have hleast := hlarge ⟨⟨320, 64⟩, 300, 64, 128⟩ hdedicated (by decide)
  rw [hclosed] at hnext
  exact ⟨created, hbirths, hlayouts, hsizes, hnext, hleast, hsame⟩

end Session

end Lifespan
