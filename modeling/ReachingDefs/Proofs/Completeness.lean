import ReachingDefs.Proofs.Settled

/-!
# Nothing is missed

The promise of the analysis to its users: whatever an instruction may read, along any
path of any length and with any number of turns around any loop, is among the
origins of its record. For a register that is the last instruction on the path
that set it; for a cell of memory it is a store that nothing on the path overwrote
and whose base register nothing on the path moved.

Both are the same fact about lanes. A definition or a store *arrives* at the end of
its path, and a settled block lists whatever arrives.
-/

namespace ReachingDefs

namespace FlowGraph

variable {g : FlowGraph} {s : Settings}

/-! ## Registers -/

/-- The last instruction on a path that sets a register arrives at its end. -/
theorem arrives_of_lastSetter {p q : Site} {path : List Site} {r : Register} {d : Site}
    (hpath : g.Path p path q) (hd : g.lastSetter s r path = some d) :
    (g.regLane s r).Arrives g d q :=
  arrives_regLane_iff.mpr (hpath.lastSetter hd)

/-- **Every register that is read has all its origins**: if the bound on the passes
suffices, then on every path to an instruction that reads `r` the last instruction that
set `r` is among the origins of `r` in its record, and on every path to the end of a
block it is among those that the block exposes. -/
theorem analyze_finds_setters (hg : g.Built) (options : Options) :
    ∃ report, g.analyze options = .ok report ∧ (g.BoundSuffices options report →
      (∀ p path q r d, g.Path p path q → g.reads options.toSettings q r = true →
        g.lastSetter options.toSettings r path = some d →
        ∃ x, report.facts.record? q = some x ∧ d ∈ x.refs.origins r) ∧
      (∀ p path b r d, g.Path p path ⟨b, g.length b⟩ →
        g.lastSetter options.toSettings r path = some d →
        d ∈ (report.facts.exposed b).regs.origins r)) := by
  have hlinked := built_linked hg
  obtain ⟨report, hreport, _, hsettled⟩ := analyze_settles hlinked options
  refine ⟨report, hreport, fun hbound => ?_⟩
  obtain ⟨_, hsettled⟩ := hsettled hbound
  constructor
  · intro p path q r d hpath hreads hd
    obtain ⟨i, hi⟩ := exists_instruction_of_effectsAt hreads
    obtain ⟨v, hstands, hrecord, hall⟩ :=
      (hsettled q.block (block_lt_of_instruction hi)).record q i rfl hi
    -- the last visit of `q` noted all origins that were exposed in front of it
    refine ⟨_, hrecord, (hstands.mem_refs r d).mpr (Or.inr ⟨hreads, ?_⟩)⟩
    exact hall (tracks_regLane g _ _ r) d (arrives_of_lastSetter hpath hd)
  · intro p path b r d hpath hd
    have hflows := (Lane.flows_iff_arrives hlinked).mpr (arrives_of_lastSetter hpath hd)
    exact ((hsettled b (hflows.lt hlinked)).lists (tracks_regLane g _ _ r) d).mpr hflows

/-- A loop of two blocks that counts in `x0` and keeps the count at `[x2]`. -/
def tally : FlowGraph :=
  let blocks := [
    [.decoded 0x100 { opcode := .mov, operands := [.x ⟨0⟩, .imm 0] }],
    [.decoded 0x104 { opcode := .ldr, operands := [.x ⟨1⟩, .based ⟨2⟩ 0] },
     .decoded 0x108 { opcode := .add, operands := [.x ⟨0⟩, .x ⟨0⟩, .imm 1] }],
    [.decoded 0x10c { opcode := .str, operands := [.x ⟨0⟩, .based ⟨2⟩ 0] }]]
  (((blocks.foldl addBlock empty).link 0 1).link 1 2).link 2 1

theorem tally_built : tally.Built :=
  (((((Built.empty.addBlock _).addBlock _).addBlock _).link (by decide) (by decide)).link
    (by decide) (by decide)).link (by decide) (by decide)

/-- Once around the loop of `tally`, from the load to the load. -/
theorem tally_round {p : Site} {is : List Site} (h : tally.Path p is ⟨1, 0⟩) :
    tally.Path p (is ++ [⟨1, 0⟩] ++ [⟨1, 1⟩] ++ [⟨2, 0⟩]) ⟨1, 0⟩ :=
  .jump (b := 2) (.next (.jump (b := 1) (.next (.next h (by decide)) (by decide)) (by decide))
    (by decide)) (by decide)

/-- Around the loop, the count that is read is the one the loop itself has set. -/
theorem analyze_finds_setters_tally :
    ∃ report, tally.analyze { level := 2 } = .ok report ∧
      ∃ x, report.facts.record? ⟨1, 1⟩ = some x ∧ ⟨1, 1⟩ ∈ x.refs.origins ⟨0⟩ := by
  obtain ⟨report, hreport, h⟩ := analyze_finds_setters tally_built { level := 2 }
  refine ⟨report, hreport, (h (Or.inl (by decide +kernel))).1 ⟨1, 0⟩ _ ⟨1, 1⟩ ⟨0⟩ ⟨1, 1⟩
    (.next (tally_round .stop) (by decide)) (by decide) (by decide)⟩

/-! ## Memory -/

/-- A store that is not overwritten, through a base that is not moved, arrives. -/
theorem arrives_of_store {o q : Site} {path : List Site} {l : Location}
    (hstore : g.storesTo s o l = true) (hpath : g.Path o (o :: path) q)
    (hbase : g.sets s o l.base = false)
    (hkept : ∀ i ∈ path, g.sets s i l.base = false ∧ g.storesTo s i l = false) :
    (g.memLane s .registersAndMemory).Arrives g (l, o) q :=
  arrives_memLane_iff.mpr ⟨hstore, hbase, path, hpath, hkept⟩

/-- **Every load has all its stores**: with memory tracked, if the bound on the passes
suffices, then a store to a location is among the origins of what is loaded from it at
the end of a path, unless on the way the location is stored to again or its base gets a
new value, from the storing instruction itself or a later one. -/
theorem analyze_finds_stores (hg : g.Built) (s : Settings) :
    ∃ report, g.analyze { s with tracking := .registersAndMemory } = .ok report ∧
      (g.BoundSuffices { s with tracking := .registersAndMemory } report →
        ∀ o path q l dst, g.Path o (o :: path) q → g.storesTo s o l = true →
          g.loadsFrom s q l dst = true → g.sets s o l.base = false →
          (∀ i ∈ path, g.sets s i l.base = false ∧ g.storesTo s i l = false) →
          ∃ x os, report.facts.record? q = some x ∧ x.memRef? dst = some os ∧ o ∈ os) := by
  obtain ⟨report, hreport, _, hsettled⟩ :=
    analyze_settles (built_linked hg) { s with tracking := .registersAndMemory }
  refine ⟨report, hreport, fun hbound => ?_⟩
  obtain ⟨htracking, hsettled⟩ := hsettled hbound
  intro o path q l dst hpath hstore hload hbase hkept
  obtain ⟨i, hi⟩ := exists_instruction_of_effectsAt hload
  obtain ⟨v, hstands, hrecord, hall⟩ :=
    (hsettled q.block (block_lt_of_instruction hi)).record q i rfl hi
  rw [htracking] at hstands hrecord hall
  have hcell := hall (tracks_memLane g s _) _ (arrives_of_store hstore hpath hbase hkept)
  have hmem : o ∈ (v.visit s .registersAndMemory i).record.memOrigins dst :=
    (hstands.mem_memOrigins rfl dst o).mpr (Or.inr ⟨l, hload, hcell⟩)
  obtain ⟨os, hos, hmem⟩ := Record.mem_memOrigins.mp hmem
  exact ⟨_, os, hrecord, hos, hmem⟩

/-- Around the loop, what is loaded is what the loop itself has stored. -/
theorem analyze_finds_stores_tally :
    ∃ report, tally.analyze { level := 2 } = .ok report ∧
      ∃ x os, report.facts.record? ⟨1, 0⟩ = some x ∧ x.memRef? ⟨1⟩ = some os ∧ ⟨2, 0⟩ ∈ os := by
  obtain ⟨report, hreport, h⟩ := analyze_finds_stores tally_built { level := 2 }
  have hpath : tally.Path ⟨2, 0⟩ [⟨2, 0⟩] ⟨1, 0⟩ :=
    .jump (b := 2) (.next .stop (by decide)) (by decide)
  exact ⟨report, hreport, h (Or.inl (by decide +kernel)) ⟨2, 0⟩ [] ⟨1, 0⟩ ⟨⟨2⟩, 8, 0⟩ ⟨1⟩ hpath
    (by decide) (by decide) (by decide) (by simp)⟩

end FlowGraph

end ReachingDefs
