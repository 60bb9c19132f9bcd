/-!
# How nodes are looked up

A lookup either goes through the tree every time, or builds an index once and asks that.
-/

namespace HtmlQuery

/-- The two ways to look something up. -/
inductive Strategy where
  | scan
  | index
  deriving DecidableEq, Repr

/-- The ways to look up ids and classes. Without a choice both go through the tree. -/
structure Config where
  ids : Strategy := .scan
  classes : Strategy := .scan
  deriving DecidableEq, Repr

namespace Config

instance : Inhabited Config := ⟨{}⟩

/-- Indexes for everything. -/
def indexed : Config := ⟨.index, .index⟩

end Config

end HtmlQuery
