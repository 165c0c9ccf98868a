import AdjustableRobust.Exchange.Number
import AdjustableRobust.Expression.Conic
import AdjustableRobust.Expression.Uncertain
import AdjustableRobust.Scalar.Binary64
import AdjustableRobust.Solver.Backend
import AdjustableRobust.Uncertainty.Set

/-!
# Reading objects from documents

Documents refer to variables by number, in the order in which their handles were handed out.
Numbers that are not finite are written as words. A field that is absent or null has a default
where one makes sense.
-/

namespace AdjustableRobust

/-- The handles that documents refer to by number. -/
structure HandleTables where
  uncertainties : Array UncertaintyRef
  decisions : Array DecisionRef
  conics : Array ConicRef
  alternatives : Array ConstraintSetRef
  entries : Array (Handle .entry)

namespace HandleTables

/-- No handles. -/
def empty : HandleTables := ⟨#[], #[], #[], #[], #[]⟩

/-- The handles of one kind. -/
def table (t : HandleTables) : (κ : EntityKind) → Array (Handle κ)
  | .uncertainty => t.uncertainties
  | .decision => t.decisions
  | .conic => t.conics
  | .alternative => t.alternatives
  | .entry => t.entries

/-- Append handles of one kind. -/
def append (t : HandleTables) : (κ : EntityKind) → List (Handle κ) → HandleTables
  | .uncertainty, hs => { t with uncertainties := t.uncertainties ++ hs }
  | .decision, hs => { t with decisions := t.decisions ++ hs }
  | .conic, hs => { t with conics := t.conics ++ hs }
  | .alternative, hs => { t with alternatives := t.alternatives ++ hs }
  | .entry, hs => { t with entries := t.entries ++ hs }

end HandleTables

/-- Types that are read from documents. -/
class Readable (β : Type) where
  read? : HandleTables → Json → Option β

export Readable (read?)

namespace Json

/-- The object in a member, which has to be there. -/
def required? {β : Type} [Readable β] (t : HandleTables) (j : Json) (name : String) : Option β :=
  (j.member? name).bind (read? t)

/-- The object in a member, or the default if the member is absent or null. -/
def requested? {β : Type} [Readable β] (t : HandleTables) (j : Json) (name : String)
    (default : β) : Option β :=
  match j.member? name with
  | none | some .null => some default
  | some v => read? t v

/-- Whether a member is there and not null. -/
def has (j : Json) (name : String) : Bool :=
  match j.member? name with
  | none | some .null => false
  | some _ => true

/-- Whether a document stands for a number. -/
def isNumeric : Json → Bool
  | .number _ | .string _ => true
  | _ => false

end Json

instance : Readable Json := ⟨fun _ => some⟩

instance : Readable Float where
  read? _
    | .number literal =>
      let (negative, digits, exponent) := Json.literalParts literal
      some (Decimal.toFloat negative digits exponent)
    | .string "inf" => some (1 / 0)
    | .string "-inf" => some (-1 / 0)
    | .string "nan" => some (0 / 0)
    | _ => none

instance : Readable Nat where
  read? _
    | .number literal => match Json.literalParts literal with
      | (false, digits, .ofNat e) => some (digits * Nat.pow 10 e)
      | _ => none
    | _ => none

instance : Readable String where
  read? _
    | .string s => some s
    | _ => none

instance : Readable Bool where
  read? _
    | .bool b => some b
    | _ => none

instance {β : Type} [Readable β] : Readable (Option β) where
  read? t
    | .null => some none
    | j => (read? t j).map some

/-- A missing list is empty. -/
instance {β : Type} [Readable β] : Readable (List β) where
  read? t
    | .null => some []
    | .array xs => xs.mapM (read? t)
    | _ => none

/-! ## Words -/

/-- The value of a word. -/
def wordOf? {β : Type} (words : List (String × β)) : Json → Option β
  | .string word => words.lookup word
  | _ => none

instance : Readable NormKind :=
  ⟨fun _ => wordOf? [("1", .one), ("2", .two), ("inf", .infinity)]⟩

instance : Readable ConstraintSense :=
  ⟨fun _ => wordOf? [("leq", .leq), ("geq", .geq), ("eq", .eq)]⟩

instance : Readable ObjectiveSense :=
  ⟨fun _ => wordOf? [("min", .minimize), ("max", .maximize)]⟩

instance : Readable UncertaintyMode :=
  ⟨fun _ => wordOf? [("union", .union), ("average", .average), ("stochastic", .stochastic)]⟩

instance : Readable SpecialSetType :=
  ⟨fun _ => wordOf? [("ball", .ball), ("budget", .budget), ("box", .box), ("other", .other)]⟩

instance : Readable VariableType :=
  ⟨fun _ => wordOf? [("continuous", .continuous), ("integer", .integer), ("binary", .binary)]⟩

instance : Readable OptimizationStatus :=
  ⟨fun _ => wordOf? [("optimal", .optimal), ("unsolved", .unsolved), ("time_limit", .timeLimit),
    ("memory_limit", .memoryLimit)]⟩

/-! ## Expressions -/

section

variable {κ : EntityKind}

instance : Readable (Handle κ) where
  read? t j := do (t.table κ)[← (read? t j : Option Nat)]?

instance : Readable (Term Float (Handle κ)) where
  read? t
    | .array [scale, v] => return ⟨← read? t scale, ← read? t v⟩
    | _ => none

/-- A list of terms, a sum of variables, a weighted sum or a single variable. -/
instance : Readable (LinearExpr Float (Handle κ)) where
  read? t j :=
    if j.has "sum" then do return .sum (← j.required? t "sum")
    else if j.has "weighted" then do
      return .weighted (← j.required? t "weighted") (← j.required? t "by")
    else if j.has "variable" then do return .var (← j.required? t "variable")
    else do return ⟨← read? t j⟩

/-- A constant, a variable with a constant, or a linear expression with a constant. -/
instance : Readable (AffineExpr Float (Handle κ)) where
  read? t j := do
    if j.isNumeric then return .const (← read? t j)
    let constant ← j.requested? t "c" 0
    if j.has "v" then return (AffineExpr.var (← j.required? t "v")).addConstant constant
    return ⟨constant, ← j.requested? t "t" .zero⟩

/-- A norm of variables or of affine rows. -/
instance : Readable (NormedVector Float (Handle κ)) where
  read? t j := do
    let norm ← j.required? t "n"
    if j.has "of" then return .ofVariables norm (← j.required? t "of")
    return ⟨norm, ← j.required? t "rows"⟩

/-- The fields of an affine expression, with those of a norm if there is one. -/
instance : Readable (ConicExpr Float (Handle κ)) where
  read? t
    | .null => some .zero
    | j => do
      let affine ← read? t j
      if j.has "n" then return ⟨some (← read? t j), affine⟩
      return .ofAffine affine

end

instance : Readable Product where
  read? t
    | .array [u, d] => return ⟨← read? t u, ← read? t d⟩
    | _ => none

instance : Readable (Term Float Product) where
  read? t
    | .array [scale, u, d] => return ⟨← read? t scale, ← read? t u, ← read? t d⟩
    | _ => none

/-- A constant, an affine expression, a single variable or product, or all parts with the mode. -/
instance : Readable (UncertainExpr Float) where
  read? t j := do
    if j.isNumeric then return .const (← read? t j)
    else if j.has "from_d" then return .ofDecisions (← j.required? t "from_d")
    else if j.has "from_u" then return .ofUncertainties (← j.required? t "from_u")
    else if j.has "decision" then return .decision (← j.required? t "decision")
    else if j.has "uncertainty" then return .uncertainty (← j.required? t "uncertainty")
    else if j.has "product" then
      let p : Product ← j.required? t "product"
      return .product p.uncertainty p.decision
    else
      return ⟨← j.requested? t "c" 0, ← j.requested? t "d" .zero, ← j.requested? t "u" .zero,
        ⟨← j.requested? t "ud" []⟩, ← j.requested? t "mode" .union⟩

/-! ## Relations -/

/-- Expressions that are related to other ones and to values. -/
class Relatable (E : Type) (F : outParam Type) where
  relate : E → ConstraintSense → F → RawConstraint E
  relateValue : E → ConstraintSense → Float → RawConstraint E

instance {κ : EntityKind} : Relatable (AffineExpr Float (Handle κ)) (AffineExpr Float (Handle κ)) :=
  ⟨AffineExpr.relate, AffineExpr.relateValue⟩

instance {κ : EntityKind} : Relatable (ConicExpr Float (Handle κ)) (AffineExpr Float (Handle κ)) :=
  ⟨ConicExpr.relate, ConicExpr.relateValue⟩

instance : Relatable (UncertainExpr Float) (UncertainExpr Float) :=
  ⟨UncertainExpr.relate, UncertainExpr.relateValue⟩

/-- The constraint that relates an expression to the right hand side in a document. -/
def Relatable.related? {E F : Type} [Relatable E F] [Readable F] (t : HandleTables) (lhs : E)
    (j : Json) : Option (RawConstraint E) := do
  let sense ← j.required? t "rel"
  let rhs : Json ← j.required? t "rhs"
  if rhs.isNumeric then return relateValue lhs sense (← read? t rhs)
  return relate lhs sense (← read? t rhs)

/-- A relation between two sides. -/
instance {E F : Type} [Relatable E F] [Readable E] [Readable F] : Readable (RawConstraint E) where
  read? t j := do Relatable.related? t (← j.required? t "lhs" : E) j

/-- A relation between affine or conic sides, as a constraint on conic expressions. Affine sides
are related as such unless the document asks otherwise. -/
def RawConstraint.conicOfJson? {κ : EntityKind} (t : HandleTables) (j : Json) :
    Option (RawConstraint (ConicExpr Float (Handle κ))) := do
  let lhs : Json ← j.required? t "lhs"
  if lhs.has "n" || (← j.requested? t "conic" false) then read? t j
  else
    let c : RawConstraint (AffineExpr Float (Handle κ)) ← read? t j
    return c.toConic

/-- A relation between uncertain expressions, or between affine ones in decisions if the document
says that it is deterministic. -/
def RawConstraint.uncertainOfJson? (t : HandleTables) (j : Json) :
    Option (RawConstraint (UncertainExpr Float)) := do
  if ← j.requested? t "deterministic" false then
    let c : RawConstraint (AffineExpr Float DecisionRef) ← read? t j
    return c.toUncertain
  else read? t j

/-! ## Ranges and settings -/

/-- The optional ends of a range. -/
structure RangeEnds where
  lower? : Option Float
  upper? : Option Float

instance : Readable RangeEnds where
  read? t j := do return ⟨← j.requested? t "lb" none, ← j.requested? t "ub" none⟩

/-- Settings with the members of a document in place of those given. -/
def SolverSettings.updated? (t : HandleTables) (s : SolverSettings Float) (j : Json) :
    Option (SolverSettings Float) := do
  return ⟨← j.requested? t "runtime_limit" s.runtimeLimit?,
    ← j.requested? t "memory_limit" s.memoryLimit?, ← j.requested? t "verbose" s.verbose,
    ← j.requested? t "tolerance" s.tolerance,
    ← j.requested? t "objective_tolerance" s.objectiveTolerance⟩

/-- Settings with those of a member of a document in place of those given, if it is there. -/
def SolverSettings.requested? (t : HandleTables) (s : SolverSettings Float) (j : Json) :
    Option (SolverSettings Float) := do
  if j.has "settings" then s.updated? t (← j.required? t "settings") else return s

/-- Settings changed by what a document holds: all of them, on top of standard ones, then the
limits, which null removes. -/
def SolverSettings.changed? (t : HandleTables) (s standard : SolverSettings Float) (j : Json) :
    Option (SolverSettings Float) := do
  let s ← if (j.member? "settings").isSome then standard.requested? t j else pure s
  let limit (name : String) (old : Option Float) : Option (Option Float) :=
    if (j.member? name).isSome then j.required? t name else pure old
  return { s with
    runtimeLimit? := ← limit "runtime_limit" s.runtimeLimit?
    memoryLimit? := ← limit "memory_limit" s.memoryLimit? }

/-- A configuration with the members of a document in place of those given. -/
def Configuration.updated? (t : HandleTables) (c : Configuration Float) (j : Json) :
    Option (Configuration Float) := do
  return { c with
    feasibilityTolerance := ← j.requested? t "feasibility_tolerance" c.feasibilityTolerance
    solverTolerance := ← j.requested? t "solver_tolerance" c.solverTolerance
    objectiveTolerance := ← j.requested? t "objective_tolerance" c.objectiveTolerance
    verbose := ← j.requested? t "verbose" c.verbose }

instance : Readable DualInformation where
  read? t
    | .array [.string "Constraint", i] => return .constraint (← read? t i)
    | .array [.string "Row", i, r] => return .row (← read? t i) (← read? t r)
    | .array [.string "Lb", v] => return .lowerBound (← read? t v)
    | .array [.string "Ub", v] => return .upperBound (← read? t v)
    | _ => none

end AdjustableRobust
