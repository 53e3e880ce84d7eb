import Mathlib.Data.List.Forall2
import ReachingDefs.Proofs.Completeness

/-!
# Instructions without effect

Some instructions the analysis passes over: those whose opcode is switched off or unknown,
and those whose handler gives up on their operands. Nothing that it finds depends on them. They
can be taken for bytes that were not decoded, and every record, every exposed set and every
chain stays what it is; only the log tells the difference.

What matters is that a handler that gives up has done nothing until then. If one operand
does not fit, not even the part of the operation that does fit is carried out.
-/

namespace ReachingDefs

variable {g g' : FlowGraph} {s : Settings} {tracking : Tracking}

/-! ## One instruction -/

/-- Whether operands fit their opcode has nothing to do with where the instruction stands. -/
theorem Operation.effects_eq_none_iff {o : Operation} {a a' : UInt64} :
    o.effects a = none ↔ o.effects a' = none := by
  obtain ⟨opcode, operands, cond, writeback⟩ := o
  cases opcode
  -- only calls look at the address, after they have looked at their operands
  case bl | blr =>
    dsimp only [Operation.effects]
    split <;> simp
  all_goals exact Iff.rfl

/-- The handler gives up on the operation, at some instruction that has a record. -/
def Handler.Rejects (handler : Handler) (o : Operation) : Prop :=
  ∃ (site : Site) (f : Facts) (log : List Event),
    (f.record? site).isSome ∧ ((handler site o).on (f, log)).1 = none

theorem Facts.exists_address? {f : Facts} {site : Site} (hf : (f.record? site).isSome) :
    ∃ a, f.address? site = some a := by
  obtain ⟨x, hx⟩ := Option.isSome_iff_exists.mp hf
  exact ⟨x.address, congrArg (Option.map _) hx⟩

/-- **A handler rejects the operations that have no effects**, whatever their address. -/
theorem Handler.rejects_iff {handler : Handler} {o : Operation}
    (h : o.opcode.handler? = some handler) (a : UInt64) :
    handler.Rejects o ↔ o.effects a = none := by
  constructor
  · rintro ⟨site, f, log, hf, hnone⟩
    obtain ⟨a', ha'⟩ := Facts.exists_address? hf
    rw [Opcode.on_handler h ha'] at hnone
    cases hmisfit : o.effects (a' + 4) with
    | none => exact Operation.effects_eq_none_iff.mp hmisfit
    | some es => simp [hmisfit] at hnone
  · intro hmisfit
    let f : Facts :=
      { tracking := .registers, blocks := #[{ slots := [some (.fresh ⟨0, 0⟩ 0 .registers)] }] }
    have ha : f.address? ⟨0, 0⟩ = some 0 := rfl
    refine ⟨⟨0, 0⟩, f, [], rfl, ?_⟩
    rw [Opcode.on_handler h ha, Operation.effects_eq_none_iff.mp hmisfit]

/-- A handler that gives up at one instruction that has a record gives up at all of them. -/
theorem Handler.Rejects.answer {handler : Handler} {o : Operation} (hrejects : handler.Rejects o)
    (h : o.opcode.handler? = some handler) {f : Facts} {site : Site}
    (hf : (f.record? site).isSome) (log : List Event) :
    ((handler site o).on (f, log)).1 = none := by
  obtain ⟨a, ha⟩ := Facts.exists_address? hf
  rw [Opcode.on_handler h ha, (rejects_iff h (a + 4)).mp hrejects]

/-- The instruction was decoded, but its opcode is switched off or unknown, or its handler gives
up on the operands. -/
def Settings.Inert (s : Settings) (i : Instruction) : Prop :=
  ∃ o, i.operation = some o ∧ (s.isEnabled o.opcode = false ∨ (∃ n, o.opcode = .other n) ∨
    ∃ handler, o.opcode.handler? = some handler ∧ handler.Rejects o)

/-- **An inert instruction that has a record leaves all facts as they were.** -/
theorem Settings.Inert.facts_carryOut {i : Instruction} (h : s.Inert i) {f : Facts} {site : Site}
    (hf : (f.record? site).isSome) : (f.carryOut s site i).facts = f := by
  obtain ⟨o, ho, hinert⟩ := h
  unfold Facts.carryOut
  rw [ho]
  dsimp only
  cases hhandler : s.handler? o with
  | none => rfl
  | some handler =>
      have hop := Settings.handler?_eq_some hhandler
      have hnone : ((handler site o).on (f, [])).1 = none := by
        rcases hinert with hoff | ⟨n, hother⟩ | ⟨_, hop', hrejects⟩
        · simp [Settings.handler?, hoff] at hhandler
        · rw [hother] at hop
          cases hop
        · obtain rfl := Option.some.inj (hop'.symm.trans hop)
          exact hrejects.answer hop hf []
      have hgaveUp : (handler site o).on (f, []) = (none, f, []) :=
        Prod.ext hnone (Opcode.unchanged_of_handler hop hnone)
      dsimp only
      rw [hgaveUp]

/-- `i'` is `i`, or bytes that were not decoded in place of the inert instruction `i`. -/
inductive Settings.Erases (s : Settings) (i : Instruction) : Instruction → Prop where
  | kept : Erases s i i
  | erased (size : UInt8) : s.Inert i → Erases s i (.undecoded i.address size)

theorem Settings.Erases.address {i i' : Instruction} (h : s.Erases i i') :
    i'.address = i.address := by
  cases h <;> rfl

/-- Two outcomes that differ at most in what was reported. -/
structure Outcome.Same (o o' : Outcome) : Prop where
  facts : o'.facts = o.facts
  fault : o'.fault = o.fault

theorem Outcome.Same.andThen {o o' : Outcome} {next next' : Facts → Outcome} (h : o.Same o')
    (hnext : ∀ f, (next f).Same (next' f)) : (o.andThen next).Same (o'.andThen next') := by
  unfold Outcome.andThen
  rw [h.fault]
  cases o.fault with
  | some fault => exact h
  | none =>
      dsimp only
      rw [h.facts]
      exact ⟨(hnext _).facts, (hnext _).fault⟩

theorem Settings.Erases.carryOut {i i' : Instruction} (h : s.Erases i i') {f : Facts} {site : Site}
    (hf : (f.record? site).isSome) : (f.carryOut s site i).Same (f.carryOut s site i') := by
  cases h with
  | kept => exact ⟨rfl, rfl⟩
  | erased size hinert => exact ⟨(hinert.facts_carryOut hf).symm, Facts.fault_carryOut.symm⟩

/-- Visits of a block find the same, whether inert instructions are erased or not. -/
theorem Facts.visitInstructions_erases {is is' : List Instruction}
    (h : List.Forall₂ s.Erases is is') (b : BlockId) (index : Nat) (f : Facts) :
    (f.visitInstructions s b index is).Same (f.visitInstructions s b index is') := by
  induction h generalizing index f with
  | nil => exact ⟨rfl, rfl⟩
  | @cons i i' is is' hi _ ih =>
      refine Outcome.Same.andThen ?_ fun f' => ih (index + 1) f'
      rw [hi.address]
      -- there is a record by the time that one of the two is carried out
      obtain hrefused | ⟨f', x, hmade, hx⟩ := f.ensureRecord_cases ⟨b, index⟩ i.address
      · rw [hrefused]
        exact ⟨rfl, rfl⟩
      · rw [hmade, Outcome.andThen_eq rfl, Outcome.andThen_eq rfl]
        obtain ⟨hfacts, hfault⟩ := hi.carryOut (Option.isSome_of_eq_some hx)
        exact ⟨hfacts, hfault⟩

/-! ## Graphs with instructions erased -/

/-- `y` is the block `x` with some of its inert instructions erased. -/
structure Block.Erases (s : Settings) (x y : Block) : Prop where
  instructions : List.Forall₂ s.Erases x.instructions y.instructions
  predecessors : y.predecessors = x.predecessors
  successors : y.successors = x.successors

/-- `g'` is the graph `g` with some of its inert instructions erased. -/
structure FlowGraph.Erases (s : Settings) (g g' : FlowGraph) : Prop where
  size : g'.size = g.size
  block : ∀ b x, g.get? b = some x → ∃ y, g'.get? b = some y ∧ x.Erases s y

namespace FlowGraph.Erases

/-- The blocks of one name are both there, one with some instructions erased, or both missing. -/
theorem get? (h : g.Erases s g') (b : BlockId) :
    (g.get? b = none ∧ g'.get? b = none) ∨
      ∃ x y, g.get? b = some x ∧ g'.get? b = some y ∧ x.Erases s y := by
  cases hx : g.get? b with
  | none =>
      refine .inl ⟨rfl, ?_⟩
      exact Array.getElem?_eq_none (h.size.trans_le (Array.getElem?_eq_none_iff.mp hx))
  | some x =>
      obtain ⟨y, hy, hxy⟩ := h.block b x hx
      exact .inr ⟨x, y, rfl, hy, hxy⟩

theorem successors (h : g.Erases s g') : g'.successors = g.successors := by
  funext b
  unfold FlowGraph.successors
  obtain ⟨hx, hy⟩ | ⟨x, y, hx, hy, hxy⟩ := h.get? b
  · rw [hx, hy]
  · rw [hx, hy, Option.map_some, Option.map_some, hxy.successors]

theorem predecessors (h : g.Erases s g') : g'.predecessors = g.predecessors := by
  funext b
  unfold FlowGraph.predecessors
  obtain ⟨hx, hy⟩ | ⟨x, y, hx, hy, hxy⟩ := h.get? b
  · rw [hx, hy]
  · rw [hx, hy, Option.map_some, Option.map_some, hxy.predecessors]

theorem isCyclic (h : g.Erases s g') (group : List BlockId) :
    g'.isCyclic group = g.isCyclic group := by
  unfold FlowGraph.isCyclic isSelfLoop
  rw [h.successors]

theorem componentOrder (h : g.Erases s g') : g'.componentOrder = g.componentOrder := by
  have hsearch : g'.searchOrder = g.searchOrder := by
    funext b
    unfold searchOrder
    rw [h.successors]
  have hcomponent : g'.component = g.component := by
    funext b
    unfold component
    rw [h.size, h.successors, h.predecessors]
  unfold FlowGraph.componentOrder reverseFinish
  rw [hcomponent, hsearch, h.size]

theorem fresh (h : g.Erases s g') (tracking : Tracking) :
    Facts.fresh g' tracking = Facts.fresh g tracking := by
  unfold Facts.fresh
  congr 1
  refine Array.ext_getElem? fun b => ?_
  rw [Array.getElem?_map, Array.getElem?_map]
  obtain ⟨hx, hy⟩ | ⟨x, y, hx, hy, hxy⟩ := h.get? b
  · rw [show g.blocks[b]? = none from hx, show g'.blocks[b]? = none from hy]
  · rw [show g.blocks[b]? = some x from hx, show g'.blocks[b]? = some y from hy,
      Option.map_some, Option.map_some, hxy.instructions.length_eq]

end FlowGraph.Erases

/-! ## The analysis -/

namespace Facts

variable (h : g.Erases s g')
include h

theorem visitBlock_erases (b : BlockId) (f : Facts) :
    (f.visitBlock s g b).Same (f.visitBlock s g' b) := by
  unfold visitBlock
  obtain ⟨hx, hy⟩ | ⟨x, y, hx, hy, hxy⟩ := h.get? b
  · rw [hx, hy, h.size]
    exact ⟨rfl, rfl⟩
  · rw [hx, hy]
    dsimp only
    rw [hxy.predecessors]
    refine Outcome.Same.andThen ⟨rfl, rfl⟩ ?_
    exact visitInstructions_erases hxy.instructions b 0

theorem sweep_erases (bs : List BlockId) (f : Facts) :
    (f.sweep s g bs).Same (f.sweep s g' bs) := by
  induction bs generalizing f with
  | nil => exact ⟨rfl, rfl⟩
  | cons b bs ih => exact (visitBlock_erases h b f).andThen ih

theorem iterate_erases (group : List BlockId) (left : Nat) (f : Facts) :
    (f.iterate s g group left).Same (f.iterate s g' group left) := by
  induction left generalizing f with
  | zero => exact ⟨rfl, rfl⟩
  | succ left ih =>
      refine (sweep_erases h group f).andThen fun f' => ?_
      split
      · exact ⟨rfl, rfl⟩
      · exact ih f'

theorem analyzeGroup_erases (group : List BlockId) (f : Facts) :
    (f.analyzeGroup s g group).Same (f.analyzeGroup s g' group) := by
  unfold analyzeGroup
  rw [h.isCyclic]
  split
  · exact iterate_erases h group s.maxPasses f
  · exact sweep_erases h group f

theorem analyzeGroups_erases (order : List (List BlockId)) (f : Facts) :
    (f.analyzeGroups s g order).Same (f.analyzeGroups s g' order) := by
  induction order generalizing f with
  | nil => exact ⟨rfl, rfl⟩
  | cons group rest ih => exact (analyzeGroup_erases h group f).andThen ih

theorem analyze_erases (order : List (List BlockId)) (f : Facts) :
    (f.analyze s g order).Same (f.analyze s g' order) := by
  have haccept : f.accept g' order = f.accept g order := by
    unfold accept
    rw [h.size]
  unfold analyze
  rw [haccept]
  cases f.accept g order with
  | error fault => exact ⟨rfl, rfl⟩
  | ok u => exact analyzeGroups_erases h order f

end Facts

namespace FlowGraph

/-- **Instructions without effect can be erased**: a graph in which some instructions that are
switched off, of unknown opcode or with operands that their handler gives up on are replaced by
undecoded bytes is analysed in the same order, with the same facts and the same chains. For a
handler that gives up, on whatever operands and wherever it is, leaves the facts and the log
exactly as they were. -/
theorem analyze_without_inert (hg : g.Built) (options : Options)
    (h : g.Erases options.toSettings g') :
    (∃ report report', g.analyze options = .ok report ∧ g'.analyze options = .ok report' ∧
      report'.order = report.order ∧ report'.facts = report.facts ∧
      report'.chains = report.chains) ∧
    ∀ (opcode : Opcode) (handler : Handler), opcode.handler? = some handler →
      ∀ (site : Site) (o : Operation) (f : Facts) (log : List Event),
        ((handler site o).on (f, log)).1 = none → ((handler site o).on (f, log)).2 = (f, log) := by
  refine ⟨?_, fun _ _ hop _ _ _ _ hnone => Opcode.unchanged_of_handler hop hnone⟩
  obtain ⟨hrun, hfault⟩ := g.analyze_fresh_eq_run (built_linked hg) options
  have hsame := Facts.analyze_erases h g.componentOrder (Facts.fresh g options.tracking)
  rw [hrun] at hsame
  unfold analyze
  dsimp only
  rw [h.componentOrder, h.fresh, hrun, hsame.fault, hfault]
  exact ⟨_, _, rfl, rfl, rfl, hsame.facts, congrArg UseChains.ofFacts hsame.facts⟩

/-- A loop that counts in `x0`, around a load, an unknown opcode and a store without an
address. -/
def padded : FlowGraph :=
  let blocks := [
    [.decoded 0x100 { opcode := .mov, operands := [.x ⟨0⟩, .imm 0] }],
    [.decoded 0x104 { opcode := .ldr, operands := [.x ⟨0⟩, .based ⟨2⟩ 0] },
     .decoded 0x108 { opcode := .add, operands := [.x ⟨0⟩, .x ⟨0⟩, .imm 1] },
     .decoded 0x10c { opcode := .other 7, operands := [.x ⟨0⟩] },
     .decoded 0x110 { opcode := .str, operands := [.x ⟨0⟩] }]]
  ((blocks.foldl addBlock empty).link 0 1).link 1 1

/-- The loop of `padded` without its padding. -/
def bare : FlowGraph :=
  let blocks := [
    [.decoded 0x100 { opcode := .mov, operands := [.x ⟨0⟩, .imm 0] }],
    [.undecoded 0x104 4,
     .decoded 0x108 { opcode := .add, operands := [.x ⟨0⟩, .x ⟨0⟩, .imm 1] },
     .undecoded 0x10c 4,
     .undecoded 0x110 4]]
  ((blocks.foldl addBlock empty).link 0 1).link 1 1

/-- With loads switched off, `padded` comes down to `bare`. -/
theorem padded_erases : padded.Erases { enabled := [.mov, .add, .str, .other 7] } bare where
  size := rfl
  block
    | 0, x, hx => by
        obtain rfl := Option.some.inj hx
        exact ⟨_, rfl, .cons .kept .nil, rfl, rfl⟩
    | 1, x, hx => by
        obtain rfl := Option.some.inj hx
        refine ⟨_, rfl, .cons (.erased 4 ?_) (.cons .kept (.cons (.erased 4 ?_)
          (.cons (.erased 4 ?_) .nil))), rfl, rfl⟩
        · exact ⟨_, rfl, .inl (by decide)⟩
        · exact ⟨_, rfl, .inr (.inl ⟨7, rfl⟩)⟩
        · exact ⟨_, rfl, .inr (.inr ⟨_, rfl, (Handler.rejects_iff rfl 0).mpr rfl⟩)⟩
    | _ + 2, _, hx => nomatch hx

theorem padded_built : padded.Built :=
  (((Built.empty.addBlock _).addBlock _).link (by decide) (by decide)).link (by decide) (by decide)

/-- What `padded` says about its counter is what `bare` says. And a call through `x8` that has no
record yet, which gives up only after it has read `x8`, leaves no trace of that. -/
theorem analyze_without_inert_padded :
    (∃ report report',
      padded.analyze { enabled := [.mov, .add, .str, .other 7] } = .ok report ∧
      bare.analyze { enabled := [.mov, .add, .str, .other 7] } = .ok report' ∧
      report'.order = report.order ∧ report'.facts = report.facts ∧
      report'.chains = report.chains) ∧
    let f := { Facts.fresh padded .registersAndMemory with current := some 0 }
    let call := Handler.branchLinkReg ⟨0, 0⟩ { opcode := .blr, operands := [.x ⟨8⟩] }
    (call.on (f, [])).1 = none ∧ (call.on (f, [])).2 = (f, []) := by
  obtain ⟨hreports, hhandlers⟩ := analyze_without_inert padded_built
    { enabled := [.mov, .add, .str, .other 7] } padded_erases
  refine ⟨hreports, ?_⟩
  intro f call
  have hnone : (call.on (f, [])).1 = none := by decide +kernel
  exact ⟨hnone, hhandlers .blr _ rfl _ _ _ _ hnone⟩

end FlowGraph

end ReachingDefs
