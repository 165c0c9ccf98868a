import AdjustableRobust.Expression.Scope

/-!
# Linear expressions

Sums of scaled variables. Terms keep the order in which they were added and a variable may occur
more than once; `simplify` merges its occurrences into the first one and drops what cancels.
-/

namespace AdjustableRobust

/-- A variable times a coefficient. -/
structure Term (α V : Type) where
  scale : α
  var : V
  deriving DecidableEq

namespace Term

variable {α V : Type} [Scalar α]

/-- Value of the term. -/
def value (t : Term α V) (a : Assignment α V) : Except (ModelError α) α := do
  return t.scale * (← a t.var)

/-- Range of the term over the bounds of its variable. -/
def bounds (t : Term α V) (s : Scope α V) : Except (ModelError α) (Interval α) := do
  return (← s.bounds t.var).scale t.scale

/-- A printed coefficient and label. A coefficient of one is left out, of minus one it leaves
only its sign. -/
def textWith [ScalarText α] (scale : α) (label : String) : String :=
  if scale == 1 then label
  else if scale == -1 then "-" ++ label
  else ScalarText.text scale ++ "*" ++ label

end Term

/-- A sum of scaled variables; the empty sum is zero. -/
structure LinearExpr (α V : Type) where
  terms : List (Term α V)
  deriving DecidableEq

namespace LinearExpr

variable {α V W : Type} [Scalar α]

/-- The empty sum. -/
def zero : LinearExpr α V := ⟨[]⟩

/-- A single scaled variable. -/
def term (scale : α) (v : V) : LinearExpr α V := ⟨[⟨scale, v⟩]⟩

/-- A single variable. -/
def var (v : V) : LinearExpr α V := term 1 v

/-- Sum of variables. -/
def sum (vs : List V) : LinearExpr α V := ⟨vs.map fun v => ⟨1, v⟩⟩

/-- Weighted sum of variables; the shorter list decides how many there are. -/
def weighted (vs : List V) (weights : List α) : LinearExpr α V :=
  ⟨List.zipWith (fun v c => ⟨c, v⟩) vs weights⟩

/-- Number of terms. -/
def size (e : LinearExpr α V) : Nat := e.terms.length

/-- Whether there are no terms at all. -/
def isEmpty (e : LinearExpr α V) : Bool := e.terms.isEmpty

/-- Append a scaled variable. -/
def addTerm (e : LinearExpr α V) (scale : α) (v : V) : LinearExpr α V :=
  ⟨e.terms ++ [⟨scale, v⟩]⟩

/-- Sum of two expressions: the terms of the second follow those of the first. -/
def add (e f : LinearExpr α V) : LinearExpr α V := ⟨e.terms ++ f.terms⟩

/-- Multiply every coefficient. -/
def scale (e : LinearExpr α V) (factor : α) : LinearExpr α V :=
  ⟨e.terms.map fun t => { t with scale := t.scale * factor }⟩

/-- The opposite expression. -/
def negate (e : LinearExpr α V) : LinearExpr α V := e.scale (-1)

/-- Difference of two expressions. -/
def sub (e f : LinearExpr α V) : LinearExpr α V := e.add f.negate

/-- Add a term to merged terms: to the term of the same variable if there is one, else at the
end. -/
def mergeTerm [DecidableEq V] (t : Term α V) : List (Term α V) → List (Term α V)
  | [] => [t]
  | m :: ms =>
    if m.var = t.var then { m with scale := m.scale + t.scale } :: ms
    else m :: mergeTerm t ms

/-- The terms with repeated variables merged into their first occurrence. -/
def merged [DecidableEq V] (ts : List (Term α V)) : List (Term α V) :=
  ts.foldl (fun ms t => mergeTerm t ms) []

/-- Merge repeated variables, then drop zero coefficients. -/
def simplify [DecidableEq V] (e : LinearExpr α V) : LinearExpr α V :=
  ⟨(merged e.terms).filter fun t => !(t.scale == 0)⟩

/-- Whether every variable cancels. -/
def isZero [DecidableEq V] (e : LinearExpr α V) : Bool := e.simplify.isEmpty

/-- Total coefficient of a variable. -/
def coefficient [DecidableEq V] (e : LinearExpr α V) (v : V) : α :=
  Scalar.sum ((e.terms.filter fun t => t.var = v).map (·.scale))

/-- Replace every variable by another one. -/
def rename (e : LinearExpr α V) (f : V → Except (ModelError α) W) :
    Except (ModelError α) (LinearExpr α W) := do
  return ⟨← e.terms.mapM fun t => return ⟨t.scale, ← f t.var⟩⟩

/-- Value of the expression, summed from left to right. -/
def value (e : LinearExpr α V) (a : Assignment α V) : Except (ModelError α) α :=
  e.terms.foldlM (fun total t => return total + (← t.value a)) 0

/-- Smallest value over the bounds of the variables. -/
def lower (e : LinearExpr α V) (s : Scope α V) : Except (ModelError α) (Extended α) :=
  e.terms.foldlM (fun total t => return total + (← t.bounds s).lower) 0

/-- Largest value over the bounds of the variables. -/
def upper (e : LinearExpr α V) (s : Scope α V) : Except (ModelError α) (Extended α) :=
  e.terms.foldlM (fun total t => return total + (← t.bounds s).upper) 0

/-- The printed expression. -/
def text [ScalarText α] (e : LinearExpr α V) (s : Scope α V) : Except (ModelError α) String := do
  if e.isEmpty then return "0"
  let parts ← e.terms.mapM fun t => return Term.textWith t.scale (← s.label t.var)
  return " + ".intercalate parts

end LinearExpr

end AdjustableRobust
