import ReachingDefs.Analysis.Settings
import ReachingDefs.Effect.Basic
import ReachingDefs.Facts.Outcome

/-!
# Carrying out operations

Every opcode that is known has a handler. It looks at the operands, gives up where
one of them is not what it needs, and tells the facts what is read, set, loaded and
stored, in that order.

A handler that gives up leaves behind whatever it has done until then. All handlers
therefore look at their operands before they do anything, but for a call through a
register: it reads the register first, and then asks for the address that the call
comes back to.
-/

namespace ReachingDefs

/-! ## What an operation can do to the facts

The zero register is never read and never set. What is done to memory counts only if
memory is tracked. -/

namespace Facts

/-- The address in the record at `o`. -/
def address? (f : Facts) (o : Site) : Option UInt64 :=
  (f.record? o).map (·.address)

/-- Register `r` is read at `o`. -/
def useReg (f : Facts) (o : Site) (r : Register) : Facts × List Event :=
  if r.isZero then (f, []) else (f.linkReg o r, [])

/-- Register `r` is set to `v` at `o`. Stores to locations relative to its old value can
no longer be told from others. -/
def defReg (f : Facts) (o : Site) (r : Register) (v : Value) : Facts × List Event :=
  if r.isZero then (f, [])
  else
    let f := f.onRecord o (·.addDef r v)
    let f := f.setReg r o
    if f.tracksMemory then f.dropBase r else (f, [])

/-- Register `dst` is loaded from `place` at `o`. -/
def useMem (f : Facts) (o : Site) (place : Value) (dst : Register) : Facts × List Event :=
  if f.tracksMemory then f.linkMem o dst place else (f, [])

/-- Register `src` is stored to `place` at `o`. -/
def defMem (f : Facts) (o : Site) (place : Value) (src : Register) : Facts × List Event :=
  if f.tracksMemory then
    let (f, log) := f.setMem place o
    (f.onRecord o (·.addMemDef src place), log)
  else (f, [])

end Facts

/-! ## Work that may be given up -/

/-- Work on the facts that may be given up. The facts and the log are kept as they are
then. -/
abbrev Work := OptionT (StateM (Facts × List Event))

namespace Work

variable {α : Type}

/-- Does the work on the facts and the log in `w`. -/
def on (x : Work α) (w : Facts × List Event) : Option α × Facts × List Event :=
  x.run.run w

/-- Gives up if something is missing. -/
def expect (a? : Option α) : Work α :=
  OptionT.mk (pure a?)

/-- Takes one step, and reports what it reports. -/
def step (next : Facts → Facts × List Event) : Work Unit :=
  modify fun (f, log) => ((next f).1, log ++ (next f).2)

def use (o : Site) (r : Register) : Work Unit := step (·.useReg o r)

def define (o : Site) (r : Register) (v : Value) : Work Unit := step (·.defReg o r v)

def load (o : Site) (place : Value) (dst : Register) : Work Unit := step (·.useMem o place dst)

def store (o : Site) (place : Value) (src : Register) : Work Unit := step (·.defMem o place src)

/-- The address in the record at `o`; gives up if there is no record. -/
def addressOf (o : Site) : Work UInt64 := do
  expect ((← get).1.address? o)

/-- Reads the registers of an address. -/
def useAddress (o : Site) (m : MemOperand) : Work Unit :=
  forM m.registers (use o)

/-- Moves the base register of an address, if the access does so. -/
def moveBase (o : Site) (m : MemOperand) (w : Writeback) : Work Unit :=
  match m.update? w with
  | some v => define o m.base v
  | none => pure ()

end Work

/-! ## Handlers -/

/-- How an operation is carried out at a site. -/
abbrev Handler := Site → Operation → Work Unit

namespace Handler

open Work

/-- A copy of a register. -/
def copyReg : Handler := fun site o => do
  let (dst, _) ← expect (o.regAt? 0)
  let (a, width) ← expect (o.regAt? 1)
  use site a
  define site dst (.read a width)

/-- A copy of an immediate. -/
def copyImm : Handler := fun site o => do
  let (dst, _) ← expect (o.regAt? 0)
  let n ← expect (o.immAt? 1)
  define site dst (.const n)

/-- The third operand of an operator, with the register it reads. -/
def secondOperand? (o : Operation) : Option (Register × Value) :=
  match o.regAt? 2 with
  | some (r, width) => some (r, .read r width)
  | none => (o.shiftedAt? 2).map fun (r, width, shift) => (r, (Value.read r width).shifted shift)

/-- An operator applied to two registers. -/
def joinRegs (op : BinOp) : Handler := fun site o => do
  let (dst, _) ← expect (o.regAt? 0)
  let (a, width) ← expect (o.regAt? 1)
  let (b, v) ← expect (secondOperand? o)
  use site a
  use site b
  define site dst (.binary op (.read a width) v)

/-- An operator applied to a register and an immediate. -/
def joinImm (op : BinOp) : Handler := fun site o => do
  let (dst, _) ← expect (o.regAt? 0)
  let (a, width) ← expect (o.regAt? 1)
  let n ← expect (o.immAt? 2)
  use site a
  define site dst (.binary op (.read a width) (.const n))

def arithmetic (op : BinOp) : Handler := fun site o =>
  match o.shape with
  | .regRegImm => joinImm op site o
  | .regRegReg | .regRegShifted => joinRegs op site o
  | _ => expect none

/-- A load of one register from a memory operand. The width is that of the register
unless the opcode has its own. -/
def loadMem (width? : Option UInt8) (signed : Bool) : Handler := fun site o => do
  let (dst, width) ← expect (o.regAt? 0)
  let m ← expect (o.memAt? 1)
  useAddress site m
  load site m.place dst
  define site dst (Effect.loaded m.place (width?.getD width) signed)
  moveBase site m o.writeback

/-- A load of one register from a fixed address. -/
def loadLiteral (width? : Option UInt8) (signed : Bool) : Handler := fun site o => do
  let (dst, width) ← expect (o.regAt? 0)
  let n ← expect (o.immAt? 1)
  define site dst (Effect.loaded (.addr n.toUInt64) (width?.getD width) signed)

def loadReg (width? : Option UInt8) (signed : Bool) : Handler := fun site o =>
  match o.shape with
  | .regMem => loadMem width? signed site o
  | .regImm => loadLiteral width? signed site o
  | _ => expect none

def loadExclusive : Handler := fun site o =>
  if o.shape = .regMem then loadMem none false site o else expect none

/-- A load of two registers from adjacent cells. -/
def loadPair : Handler := fun site o =>
  if o.shape = .regRegMem then do
    let (a, width) ← expect (o.regAt? 0)
    let (b, _) ← expect (o.regAt? 1)
    let m ← expect (o.memAt? 2)
    useAddress site m
    load site m.place a
    load site (m.nextPlace width) b
    define site a (Effect.loaded m.place width false)
    define site b (Effect.loaded (m.nextPlace width) width false)
    moveBase site m o.writeback
  else expect none

def storeReg : Handler := fun site o =>
  if o.shape = .regMem then do
    let (src, _) ← expect (o.regAt? 0)
    let m ← expect (o.memAt? 1)
    use site src
    useAddress site m
    store site m.place src
    moveBase site m o.writeback
  else expect none

/-- A store of two registers to adjacent cells. -/
def storePair : Handler := fun site o =>
  if o.shape = .regRegMem then do
    let (a, width) ← expect (o.regAt? 0)
    let (b, _) ← expect (o.regAt? 1)
    let m ← expect (o.memAt? 2)
    use site a
    use site b
    useAddress site m
    store site m.place a
    store site (m.nextPlace width) b
    moveBase site m o.writeback
  else expect none

/-- A branch that looks at a register, with operands of the given shape. -/
def branchOn (shape : OperandShape) : Handler := fun site o =>
  if o.shape = shape then do
    let (a, _) ← expect (o.regAt? 0)
    use site a
  else expect none

/-- A call reads the arguments, leaves an unknown result in `x0` and the address of the
next instruction in the link register. -/
def call (site : Site) : Work Unit := do
  let address ← addressOf site
  forM Register.arguments (use site)
  define site ⟨0⟩ .undef
  define site .lr (.addr (address + 4))

/-- The address that a label stands for. -/
def addressTo (address : UInt64 → UInt64) : Handler := fun site o => do
  let (dst, _) ← expect (o.regAt? 0)
  let n ← expect (o.immAt? 1)
  define site dst (.addr (address n.toUInt64))

def branch : Handler := fun site o =>
  if o.cond.isSome then use site .nzcv else pure ()

def branchLink : Handler := fun site o => do
  let _ ← expect (o.immAt? 0)
  call site

def branchLinkReg : Handler := fun site o => do
  let (target, _) ← expect (o.regAt? 0)
  use site target
  call site

def branchReg : Handler := fun site o => do
  let (target, _) ← expect (o.regAt? 0)
  use site target

/-- The second operand of a comparison, with the register it reads if it reads one. -/
def comparedWith? (o : Operation) : Option (Option Register × Value) :=
  match o.shape with
  | .regImm => (o.immAt? 1).map fun n => (none, .const n)
  | .regReg => (o.regAt? 1).map fun (r, width) => (some r, .read r width)
  | .regShifted => (o.shiftedAt? 1).map fun (r, width, shift) =>
    (some r, (Value.read r width).shifted shift)
  | _ => none

def compare : Handler := fun site o => do
  let (a, width) ← expect (o.regAt? 0)
  let (b?, v) ← expect (comparedWith? o)
  use site a
  forM b? (use site)
  define site .nzcv (.binary .cmp (.read a width) v)

/-- A choice between two registers by the flags. -/
def choose : Handler := fun site o =>
  if o.shape = .regRegReg then do
    let cond ← expect o.cond
    let (dst, _) ← expect (o.regAt? 0)
    let (a, width) ← expect (o.regAt? 1)
    let (b, width₂) ← expect (o.regAt? 2)
    use site a
    use site b
    use site .nzcv
    define site dst (.select cond (.read a width) (.read b width₂))
  else expect none

def move : Handler := fun site o =>
  match o.shape with
  | .regReg => copyReg site o
  | .regImm => copyImm site o
  | _ => expect none

def readSystem : Handler := fun site o => do
  let (dst, _) ← expect (o.regAt? 0)
  let r ← expect (o.sysAt? 1)
  define site dst (.reg r 8)

/-- Where a return goes, by default to the link register. -/
def target? (o : Operation) : Option Register :=
  match o.shape with
  | .none => some .lr
  | .reg => (o.regAt? 0).map (·.1)
  | _ => none

def leave : Handler := fun site o => do
  let target ← expect (target? o)
  use site target
  use site ⟨0⟩

def signExtend : Handler := fun site o =>
  if o.shape = .regReg then do
    let (dst, _) ← expect (o.regAt? 0)
    let (a, _) ← expect (o.regAt? 1)
    use site a
    define site dst (.sext (.read a 4) 32)
  else expect none

end Handler

open Handler in
/-- The handler of an opcode, if its meaning is known. -/
def Opcode.handler? : Opcode → Option Handler
  | .add => some (arithmetic .add)
  | .sub => some (arithmetic .sub)
  | .and => some (arithmetic .and)
  | .orr => some (arithmetic .or)
  | .lsl => some (arithmetic .lsl)
  | .adr => some (addressTo id)
  | .adrp => some (addressTo (· &&& ~~~0xfff))
  | .b => some branch
  | .bl => some branchLink
  | .blr => some branchLinkReg
  | .br => some branchReg
  | .cbz | .cbnz => some (branchOn .regImm)
  | .tbz | .tbnz => some (branchOn .regImmImm)
  | .cmp => some compare
  | .csel => some choose
  | .ldaxr => some loadExclusive
  | .ldp => some loadPair
  | .ldr | .ldur => some (loadReg none false)
  | .ldrb => some (loadReg (some 1) false)
  | .ldrh => some (loadReg (some 2) false)
  | .ldrsb => some (loadReg (some 1) true)
  | .ldrsh => some (loadReg (some 2) true)
  | .ldrsw => some (loadReg (some 4) true)
  | .mov => some move
  | .mrs => some readSystem
  | .nop => some fun _ _ => pure ()
  | .ret => some leave
  | .stp => some storePair
  | .str | .strb | .strh => some storeReg
  | .sxtw => some signExtend
  | .other _ => none

/-- The handler of an operation, if the analysis acts on it: its opcode has to be enabled
and known. -/
def Settings.handler? (s : Settings) (o : Operation) : Option Handler :=
  if s.isEnabled o.opcode then o.opcode.handler? else none

/-- Carries out the instruction at `site`, unless it was not decoded. That it is not acted
on, or that its handler has given up, is reported. -/
def Facts.carryOut (s : Settings) (f : Facts) (site : Site) (i : Instruction) : Outcome :=
  match i.operation with
  | none => { facts := f }
  | some o =>
    match s.handler? o with
    | none => { facts := f, log := [.skipped site o.opcode] }
    | some handler =>
      match (handler site o).on (f, []) with
      | (some (), f, log) => { facts := f, log }
      | (none, f, log) => { facts := f, log := log ++ [.misshapen site o.opcode o.shape] }

end ReachingDefs
