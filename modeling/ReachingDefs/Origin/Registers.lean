import ReachingDefs.Origin.RegTable
import ReachingDefs.Origin.Site
import ReachingDefs.OrderedSet
import ReachingDefs.Value.Basic

/-!
# Definitions and origins of registers

A table of definitions says what each register was set to. A table of origins
says at which sites the value of each register may have been written: several
sites, because control may have come along several paths.
-/

namespace ReachingDefs

/-- The value each register was set to. -/
abbrev RegValues := RegTable Value

/-- The sites that may have written each register, in order of discovery. -/
abbrev RegOrigins := RegTable (List Site)

namespace RegTable

/-- The definitions as text. -/
def valuesText (t : RegValues) : String :=
  String.join (t.entries.map fun e => "[" ++ e.1.name ++ "] " ++ e.2.text ++ " ")

/-- The origins of `r`; none if `r` has no entry. -/
def origins (t : RegOrigins) (r : Register) : List Site :=
  (t.get? r).getD []

/-- Makes `o` the only origin of `r`. -/
def setOrigin (t : RegOrigins) (r : Register) (o : Site) : RegOrigins :=
  t.insert r [o]

def addOrigin (t : RegOrigins) (r : Register) (o : Site) : RegOrigins :=
  t.insert r (OrderedSet.insert (t.origins r) o)

/-- Adds several origins of `r`, in order. -/
def addOrigins (t : RegOrigins) (r : Register) (os : List Site) : RegOrigins :=
  os.foldl (·.addOrigin r) t

/-- Does `r` have an origin? -/
def hasOrigin (t : RegOrigins) (r : Register) : Bool :=
  !(t.origins r).isEmpty

/-- Adds `o` to the origins of `r`, but only if `r` has one already. -/
def addOriginIfAny (t : RegOrigins) (r : Register) (o : Site) : RegOrigins :=
  if t.hasOrigin r then t.addOrigin r o else t

/-- Adds all origins of another table. -/
def mergeOrigins (t u : RegOrigins) : RegOrigins :=
  u.entries.foldl (fun t e => t.addOrigins e.1 e.2) t

/-- The origins as text. -/
def originsText (t : RegOrigins) : String :=
  String.join (t.entries.map fun e =>
    "[" ++ e.1.name ++ "]" ++ String.join (e.2.map fun o => " " ++ o.text) ++ " ")

end RegTable

end ReachingDefs
