/-
Productions with a dot that marks how much of the right-hand side has been recognized.

* `Dotted`: a production and the place of the dot;
* `Dotted.next?`, `Dotted.advance?`: the symbol behind the dot, and the step over it;
* `Dotted.text`: the production with the dot among its symbols.
-/
import DeductiveParsing.ContextFree.Production

namespace DeductiveParsing

/-- A production with a dot before its symbol number `dot`, counted from zero. A dot past the end
counts as a dot at the end. -/
structure Dotted where
  production : Production
  dot : Nat
deriving DecidableEq, Hashable, Ord, Repr, Inhabited

namespace Dotted

/-- The dot before all symbols. -/
def ofProduction (p : Production) : Dotted := ⟨p, 0⟩

/-- The dot behind all symbols. -/
def complete (p : Production) : Dotted := ⟨p, p.rhs.length⟩

/-- Whether there is a symbol behind the dot. -/
def isActive (d : Dotted) : Bool := d.dot < d.production.rhs.length

/-- The symbol behind the dot. -/
def next? (d : Dotted) : Option Symbol := d.production.rhs[d.dot]?

/-- The dot one symbol further. -/
def advance? (d : Dotted) : Option Dotted :=
  if d.isActive then some ⟨d.production, d.dot + 1⟩ else none

/-- A dotted production as text. -/
def text (d : Dotted) : String :=
  let names := d.production.rhsNames
  " ".intercalate ([d.production.lhs, "->"] ++ names.take d.dot ++ ["•"] ++ names.drop d.dot)

end Dotted

end DeductiveParsing
