import ReachingDefs.Value.Operand

/-!
# What operations do

The meaning of an operation, as far as origins are concerned, is a list of
effects in the order in which they take place. Reads come before definitions, so
an operation that reads and sets one register reads the old value.

An operation whose operands do not fit its opcode has no meaning and no effect.
-/

namespace ReachingDefs

/-- One thing an operation does to registers or memory. -/
inductive Effect where
  /-- Reads a register. -/
  | use (r : Register)
  /-- Loads a register from memory. -/
  | load (place : Value) (dst : Register)
  /-- Sets a register. -/
  | define (r : Register) (v : Value)
  /-- Stores a register to memory. -/
  | store (place : Value) (src : Register)
deriving DecidableEq

namespace Effect

/-- Reads the registers of an address. -/
def useAddress (m : MemOperand) : List Effect :=
  m.registers.map use

/-- Moves the base register of an address, if the access does so. -/
def moveBase (m : MemOperand) (w : Writeback) : List Effect :=
  ((m.update? w).map (define m.base)).toList

/-- What a load puts into its register. -/
def loaded (place : Value) (width : UInt8) (signed : Bool) : Value :=
  if signed then .sext (.deref place width) (width * 8) else .deref place width

/-- A call reads the arguments, leaves an unknown result in `x0` and the return
address in the link register. -/
def call (returnTo : UInt64) : List Effect :=
  Register.arguments.map use ++ [define ⟨0⟩ .undef, define .lr (.addr returnTo)]

/-- An operator applied to a register and an immediate or a second register. -/
def arithmetic (op : BinOp) : List Operand → Option (List Effect)
  | [.reg dst _, .reg a width, .imm n] =>
    some [use a, define dst (.binary op (.read a width) (.const n))]
  | [.reg dst _, .reg a width, .reg b width₂] =>
    some [use a, use b, define dst (.binary op (.read a width) (.read b width₂))]
  | [.reg dst _, .reg a width, .shifted b width₂ shift] =>
    some [use a, use b,
      define dst (.binary op (.read a width) ((Value.read b width₂).shifted shift))]
  | _ => none

/-- A comparison sets the flags. -/
def compare : List Operand → Option (List Effect)
  | [.reg a width, .imm n] =>
    some [use a, define .nzcv (.binary .cmp (.read a width) (.const n))]
  | [.reg a width, .reg b width₂] =>
    some [use a, use b, define .nzcv (.binary .cmp (.read a width) (.read b width₂))]
  | [.reg a width, .shifted b width₂ shift] =>
    some [use a, use b,
      define .nzcv (.binary .cmp (.read a width) ((Value.read b width₂).shifted shift))]
  | _ => none

/-- A load of one register from a memory operand. -/
def loadOne (w : Writeback) (dst : Register) (m : MemOperand) (width : UInt8) (signed : Bool) :
    List Effect :=
  useAddress m ++ [load m.place dst, define dst (loaded m.place width signed)] ++ moveBase m w

/-- A load of one register, from a memory operand or from a fixed address. The
width is that of the register unless the opcode has its own. -/
def loadReg (w : Writeback) (width? : Option UInt8) (signed : Bool) :
    List Operand → Option (List Effect)
  | [.reg dst width, .mem m] => some (loadOne w dst m (width?.getD width) signed)
  | [.reg dst width, .imm n] =>
    some [define dst (loaded (.addr n.toUInt64) (width?.getD width) signed)]
  | _ => none

/-- A load of one register from a memory operand only. -/
def loadExclusive (w : Writeback) : List Operand → Option (List Effect)
  | [.reg dst width, .mem m] => some (loadOne w dst m width false)
  | _ => none

/-- A load of two registers from adjacent cells. -/
def loadPair (w : Writeback) : List Operand → Option (List Effect)
  | [.reg a width, .reg b _, .mem m] =>
    some (useAddress m ++
      [load m.place a, load (m.nextPlace width) b,
       define a (loaded m.place width false), define b (loaded (m.nextPlace width) width false)] ++
      moveBase m w)
  | _ => none

/-- A store of one register. -/
def storeReg (w : Writeback) : List Operand → Option (List Effect)
  | [.reg src _, .mem m] =>
    some (use src :: useAddress m ++ [store m.place src] ++ moveBase m w)
  | _ => none

/-- A store of two registers to adjacent cells. -/
def storePair (w : Writeback) : List Operand → Option (List Effect)
  | [.reg a width, .reg b _, .mem m] =>
    some (use a :: use b :: useAddress m ++
      [store m.place a, store (m.nextPlace width) b] ++ moveBase m w)
  | _ => none

/-- A copy of a register or an immediate. -/
def move : List Operand → Option (List Effect)
  | [.reg dst _, .reg a width] => some [use a, define dst (.read a width)]
  | [.reg dst _, .imm n] => some [define dst (.const n)]
  | _ => none

/-- A choice between two registers by the flags. -/
def choose : Option Condition → List Operand → Option (List Effect)
  | some cond, [.reg dst _, .reg a width, .reg b width₂] =>
    some [use a, use b, use .nzcv,
      define dst (.select cond (.read a width) (.read b width₂))]
  | _, _ => none

/-- A return reads its target, by default the link register, and the result. -/
def leave : List Operand → Option (List Effect)
  | [] => some [use .lr, use ⟨0⟩]
  | [.reg target _] => some [use target, use ⟨0⟩]
  | _ => none

end Effect

end ReachingDefs
