import ReachingDefs.Proofs.Completeness
import ReachingDefs.Proofs.Scan

/-!
# Every instruction is visited

An analysis of a graph always ends with a report, and the report has a record for every
instruction, whatever the level. That is less than to say that the facts are settled, and
needs no bound on the passes: every block stands in some component, every component is swept
at least once, and what a visit has recorded no later visit loses. Blocks that control never
comes to are no exception, since the components cover them too.
-/

namespace ReachingDefs

variable {g : FlowGraph} {s : Settings} {b d : BlockId}

namespace Facts

variable {f f' : Facts}

/-- Every instruction of block `b` has a record. -/
def Covers (g : FlowGraph) (f : Facts) (b : BlockId) : Prop :=
  ∀ o i, o.block = b → g.instruction? o = some i → (f.record? o).isSome = true

theorem Visits.covers (hv : Visits s g b f f') : f'.Covers g b := by
  intro o i ho hi
  obtain ⟨_, _, _, _, hrecord⟩ := hv.record o i ho hi
  rw [hrecord]
  rfl

theorem Covers.visits (hc : f.Covers g d) (hf : f.Fits g) (hv : Visits s g b f f') :
    f'.Covers g d :=
  fun o i ho hi => hv.record_isSome hf (hc o i ho hi)

theorem fits_covers_visitBlock (hg : g.Linked) (f : Facts) (b : BlockId)
    (h : f.Fits g ∧ f.Covers g d) :
    (f.visitBlock s g b).facts.Fits g ∧ (f.visitBlock s g b).facts.Covers g d :=
  visitBlock_preserves hg (P := fun f => f.Fits g ∧ f.Covers g d) (fun _ h => h.1)
    (fun _ _ _ h hv => ⟨hv.fits h.1, h.2.visits h.1 hv⟩) f b h

/-- A sweep covers the blocks that it comes to. -/
theorem sweep_covers (hg : g.Linked) {bs : List BlockId} (hbs : ∀ b ∈ bs, b < g.size)
    (hf : f.Fits g) (hd : d ∈ bs) : (f.sweep s g bs).facts.Covers g d := by
  induction bs generalizing f with
  | nil => exact absurd hd List.not_mem_nil
  | cons b bs ih =>
      obtain ⟨hfault, hv⟩ := visitBlock_visits (s := s) hg hf (hbs b List.mem_cons_self)
      rw [facts_sweep_cons hfault]
      rcases List.mem_cons.mp hd with rfl | hd
      · -- what the first visit has recorded stays to the end of the sweep
        exact (sweep_preserves (fits_covers_visitBlock hg) bs ⟨hv.fits hf, hv.covers⟩).2
      · exact ih (fun c hc => hbs c (List.mem_cons_of_mem _ hc)) (hv.fits hf) hd

theorem analyzeGroup_covers (hg : g.Linked) {group : List BlockId}
    (hgroup : ∀ b ∈ group, b < g.size) (hf : f.Fits g) (hd : d ∈ group) :
    (f.analyzeGroup s g group).facts.Covers g d := by
  obtain ⟨_, n, he, _⟩ := analyzeGroup_rounds (s := s) hg hgroup hf
  rw [he, Function.iterate_succ_apply']
  exact sweep_covers hg hgroup (rounds hg hgroup hf n).fits hd

/-- **Groups of blocks are covered one after another**, and stay so. -/
theorem analyzeGroups_covers (hg : g.Linked) {order : List (List BlockId)}
    (horder : ∀ group ∈ order, ∀ b ∈ group, b < g.size) (hf : f.Fits g)
    (hd : d ∈ order.flatten) : (f.analyzeGroups s g order).facts.Covers g d := by
  refine analyzeGroups_induct hg horder (P := fun front f => ∀ d ∈ front.flatten, f.Covers g d)
    (fun _ => True) ?_ hf (fun _ h => absurd h List.not_mem_nil) (fun _ _ => trivial) d hd
  intro front group back f he hf hfront _ c hc
  rw [List.flatten_append, List.flatten_singleton, List.mem_append] at hc
  rcases hc with hc | hc
  · exact (analyzeGroup_preserves (fits_covers_visitBlock hg) group ⟨hf, hfront c hc⟩).2
  · exact analyzeGroup_covers hg (horder group (by simp [he])) hf hc

end Facts

namespace FlowGraph

theorem run_fits (hg : g.Linked) (options : Options) :
    (g.run options).facts.Fits g ∧ (g.run options).facts.tracking = options.tracking :=
  g.run_preserves hg options (P := fun f => f.Fits g ∧ f.tracking = options.tracking)
    (fun _ h => h.1) ⟨Facts.fresh_fits g _, rfl⟩
    fun _ _ _ h hv => ⟨hv.fits h.1, hv.tracking.trans h.2⟩

/-- **At the end of an analysis the records are those of the instructions.** -/
theorem isSome_record?_run (hg : g.Linked) (options : Options) (o : Site) :
    ((g.run options).facts.record? o).isSome = (g.instruction? o).isSome := by
  cases hi : g.instruction? o with
  | none =>
      rw [(run_fits hg options).1.record?_eq_none hi]
      rfl
  | some i =>
      have htop := g.componentOrder_topological hg
      have hmem : o.block ∈ g.componentOrder.flatten :=
        (htop.cover o.block).mpr (block_lt_of_instruction hi)
      exact Facts.analyzeGroups_covers hg (fun _ hgroup _ => htop.lt hgroup)
        (Facts.fresh_fits g options.tracking) hmem o i rfl hi

/-- **An analysis always ends with a report, and with one record for every instruction**, at
any level. Each record is about the instruction at its site, and they are listed by ascending
site. -/
theorem analyze_records_all (hg : g.Built) (options : Options) :
    ∃ report, g.analyze options = .ok report ∧
      (∀ o, (∃ x, report.facts.record? o = some x) ↔
        o.block < g.size ∧ o.index < g.length o.block) ∧
      (∀ o x, report.facts.record? o = some x → x.site = o ∧
        (∃ i, g.instruction? o = some i ∧ x.address = i.address) ∧
        (x.tracksMemory = true ↔ options.tracking = .registersAndMemory)) ∧
      (∀ x, x ∈ report.facts.records ↔ ∃ o, report.facts.record? o = some x) ∧
      report.facts.records.Pairwise fun x y => x.site.Before y.site := by
  have hlinked := built_linked hg
  obtain ⟨hfits, htracking⟩ := run_fits hlinked options
  refine ⟨_, analyze_eq hlinked options, fun o => ?_, fun o x hx => ?_,
    fun x => Facts.mem_records, hfits.placed.records_ascending⟩
  · dsimp only
    rw [← Option.isSome_iff_exists, isSome_record?_run hlinked, Option.isSome_iff_exists,
      exists_instruction_iff]
    -- a block that is not there has no instructions
    refine ⟨fun h => ⟨?_, h⟩, And.right⟩
    obtain ⟨i, hi⟩ := exists_instruction_iff.mpr h
    exact block_lt_of_instruction hi
  · obtain ⟨i, hi, hhead⟩ := hfits.record o x hx
    rw [htracking] at hhead
    have hmemory : x.tracksMemory = options.tracking.memory := congrArg (·.2.2) hhead
    refine ⟨congrArg (·.1) hhead, ⟨i, hi, congrArg (·.2.1) hhead⟩, ?_⟩
    rw [hmemory]
    cases options.tracking <;> simp [Tracking.memory]

/-- One pass over the loop of `tally` is enough to record its last block, and nothing is
recorded behind the end of that block. -/
theorem analyze_records_all_tally :
    ∃ report, tally.analyze { level := 0 } = .ok report ∧
      (∃ x, report.facts.record? ⟨2, 0⟩ = some x ∧ x.site = ⟨2, 0⟩ ∧ x.tracksMemory = true) ∧
      ¬ ∃ x, report.facts.record? ⟨2, 1⟩ = some x := by
  obtain ⟨report, hreport, hall, habout, _⟩ := analyze_records_all tally_built { level := 0 }
  obtain ⟨x, hx⟩ := (hall ⟨2, 0⟩).mpr (by decide)
  obtain ⟨hsite, _, hmemory⟩ := habout ⟨2, 0⟩ x hx
  exact ⟨report, hreport, ⟨x, hx, hsite, hmemory.mpr rfl⟩, fun h =>
    absurd ((hall ⟨2, 1⟩).mp h) (by decide)⟩

end FlowGraph

end ReachingDefs
