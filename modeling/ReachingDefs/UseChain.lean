import ReachingDefs.Facts.Basic

/-!
# From definitions to their uses

The facts say of every use where its value may come from. Chains turn that
around: they list, for every site that wrote something, where it is used.
-/

namespace ReachingDefs

/-- What is used: a register's value, or a cell's. -/
inductive UseKind where
  | register | memory
deriving DecidableEq

def UseKind.name : UseKind → String
  | register => "reg" | memory => "mem"

/-- A use: where, and of what. For a cell, the register it is loaded into. -/
structure Use where
  site : Site
  reg : Register
  kind : UseKind
deriving DecidableEq

def Use.text (u : Use) : String :=
  u.site.text ++ " " ++ u.reg.name ++ " " ++ u.kind.name

/-- Chains from definitions to uses: every site that is used, with its uses. Sites stand in the
order in which their first uses were found. -/
structure UseChains where
  entries : List (Site × List Use) := []

namespace UseChains

/-- Notes the use `u` of what `d` wrote, once. A site without uses gets an entry behind all
others. -/
def push (c : UseChains) (d : Site) (u : Use) : UseChains :=
  ⟨go c.entries⟩
where
  go : List (Site × List Use) → List (Site × List Use)
    | [] => [(d, [u])]
    | (e, us) :: rest =>
      if e = d then (e, OrderedSet.insert us u) :: rest else (e, us) :: go rest

/-- Notes the registers of a table of origins as uses at `site`. -/
def pushOrigins (c : UseChains) (site : Site) (kind : UseKind) (t : RegOrigins) : UseChains :=
  t.entries.foldl (fun c e => e.2.foldl (fun c o => c.push o ⟨site, e.1, kind⟩) c) c

/-- Notes what a record reads, and then what it loads. -/
def pushRecord (c : UseChains) (x : Record) : UseChains :=
  let c := c.pushOrigins x.site .register x.refs
  match x.mem with
  | some m => c.pushOrigins x.site .memory m.refs
  | none => c

/-- The chains of all records, by block and position. -/
def ofFacts (f : Facts) : UseChains :=
  f.records.foldl pushRecord {}

/-- The uses of what `d` wrote. -/
def uses (c : UseChains) (d : Site) : List Use :=
  ((c.entries.find? (·.1 = d)).map (·.2)).getD []

/-- The uses of what `d` wrote to the register `r`. -/
def regUses (c : UseChains) (d : Site) (r : Register) : List Use :=
  (c.uses d).filter fun u => u.kind = .register && u.reg = r

/-- Is something that `d` wrote used? -/
def isUsed (c : UseChains) (d : Site) : Bool :=
  !(c.uses d).isEmpty

/-- The sites with a use, in the order in which their first uses were found. -/
def defs (c : UseChains) : List Site :=
  c.entries.map (·.1)

def size (c : UseChains) : Nat := c.entries.length

def isEmpty (c : UseChains) : Bool := c.entries.isEmpty

/-- A record is dead when it sets registers, none of them is read, and it stores
nothing: what is stored may be read elsewhere. -/
def isDead (c : UseChains) (x : Record) : Bool :=
  !x.stores && !x.defs.isEmpty && !c.isUsed x.site

end UseChains

end ReachingDefs
