import AdjustableRobust.Conic.Dual
import AdjustableRobust.Policy.Error
import AdjustableRobust.Robust.Model

/-!
# Robust counterparts

Each decision becomes an affine policy in the uncertainties it depends on, whose coefficients are
variables of a conic model. The counterpart of an uncertain expression is a conic expression that
never exceeds it. For the worst case it is found by dualizing the minimization of the expression
over each alternative of the uncertainty set; for expectations it is the mean. An equality has to
hold coefficient by coefficient.
-/

namespace AdjustableRobust

/-- The conic variables of the policies of all decisions, by position of the decision. -/
structure PolicyVariables where
  /-- Coefficients, in the order of the dependencies. -/
  factors : List (List ConicRef)
  constants : List ConicRef

namespace PolicyVariables

/-- The coefficient of a dependency of a decision. -/
def factor (p : PolicyVariables) (d : DecisionRef) (position : Nat) :
    Except StoreError ConicRef := do
  let factors ← d.lookup p.factors
  match factors[position]? with
  | some v => return v
  | none => throw (.outOfRange position factors.length)

/-- The constant of a decision. -/
def constant (p : PolicyVariables) (d : DecisionRef) : Except StoreError ConicRef :=
  d.lookup p.constants

end PolicyVariables

namespace Counterpart

variable {α : Type} [Scalar α]

/-! ## Writing into the conic model -/

/-- Add a variable to the conic model. -/
def declare (name : String) (bounds : Bounds α) :
    Step (ConicModel α) (PolicyError α) ConicRef :=
  Step.ofChange (·.addVariable name bounds)

/-- Add numbered variables to the conic model. -/
def declareMany (n : Nat) (name : String) (bounds : Bounds α) :
    Step (ConicModel α) (PolicyError α) (List ConicRef) :=
  Step.ofChange (·.addVariables n name bounds)

/-- Add a constraint to the conic model. -/
def require (name : String) (c : RawConstraint (ConicExpr α ConicRef)) :
    Step (ConicModel α) (PolicyError α) Unit :=
  modify (·.addConstraint name c)

/-- Require an affine expression to be in relation to zero. -/
def requireAffine (name : String) (sense : ConstraintSense) (e : AffineExpr α ConicRef) :
    Step (ConicModel α) (PolicyError α) Unit :=
  require name (e.relateValue sense 0).toConic

/-! ## Dual blocks -/

/-- Add a term to the dual objective unless its coefficient is zero. -/
def addObjectiveTerm (l : Lagrangian α) (scale : α) (v : ConicRef) : Lagrangian α :=
  if scale == 0 then l else l.addObjective scale v

/-- Add a dual variable with its coefficients: the constant of a row goes to the objective, its
terms go to the residuals. -/
def addRow (l : Lagrangian α) (row : AffineExpr α UncertaintyRef) (dv : ConicRef) :
    Except StoreError (Lagrangian α) :=
  row.linear.terms.foldlM (fun l t => l.addResidual t.var t.scale dv)
    (addObjectiveTerm l row.constant dv)

/-- Dualize a norm: one dual for each row, bounded in the dual norm by the dual of the
constraint. -/
def dualizeNorm (l : Lagrangian α) (n : NormedVector α UncertaintyRef) (dv : ConicRef)
    (name : String) : Step (ConicModel α) (PolicyError α) (Lagrangian α) := do
  let duals ← declareMany n.rows.length s!"{name}_DSVar" .free
  let l ← Step.ofExcept .store
    ((n.rows.zip duals).foldlM (fun l (row, du) => addRow l row du) l)
  require s!"{name}_Dual_SOC" ((ConicExpr.normOf n.norm.dual duals).relate .leq (.var dv))
  return l

/-- Dualize a constraint of an alternative. -/
def dualizeConstraint (name : String) (slot : Nat) (l : Lagrangian α)
    (c : UncertaintyConstraint α) : Step (ConicModel α) (PolicyError α) (Lagrangian α) := do
  let dv ← declare s!"{name}_{c.name}_DVar_US{slot}" c.sense.dualBounds
  let l ← Step.ofExcept .store (addRow l c.expression.affine dv)
  match c.expression.normed? with
  | some n => dualizeNorm l n dv s!"{name}{c.name}_US{slot}"
  | none => return l

/-- Dualize the bounds of an uncertainty. -/
def dualizeBounds (name : String) (slot : Nat) (l : Lagrangian α) (h : UncertaintyRef)
    (u : UncertaintyVariable α) : Step (ConicModel α) (PolicyError α) (Lagrangian α) := do
  let l ← match u.bounds.lower? with
    | none => pure l
    | some b =>
      let dv ← declare s!"{name}_LBD_{u.name}_US{slot}" (.atMost 0)
      Step.ofExcept .store ((addObjectiveTerm l (-b) dv).addResidual h 1 dv)
  match u.bounds.upper? with
  | none => return l
  | some b =>
    let dv ← declare s!"{name}_UBD_{u.name}_US{slot}" (.atLeast 0)
    Step.ofExcept .store ((addObjectiveTerm l (-b) dv).addResidual h 1 dv)

/-- Dualize an alternative of the uncertainty set together with the variable bounds. -/
def dualizeAlternative (model : RobustModel α) (name : String) (set : ConstraintSetRef) :
    Step (ConicModel α) (PolicyError α) (Lagrangian α) := do
  let alternative ← Step.ofExcept .model (model.uncertainty.alternativeAt set)
  let l ← alternative.constraints.foldlM (dualizeConstraint name set.slot)
    (.zero model.numUncertainties)
  model.uncertainty.vars.entries.foldlM
    (fun l (h, u) => dualizeBounds name set.slot l h u) l

/-! ## Expressions under policies -/

/-- The conic variable of a decision in a product. It must not depend on uncertainties. -/
def nonAdjustable (model : RobustModel α) (p : PolicyVariables) (d : DecisionRef) :
    Except (PolicyError α) ConicRef := do
  let v ← PolicyError.fromModel (model.decisionAt d)
  if v.dependencies.isEmpty then PolicyError.fromStore (p.constant d)
  else throw (.scaledDecisionOnAdjustable v.name)

/-- Add a term in an uncertainty. -/
def addUncertaintyTerm (model : RobustModel α) (l : Lagrangian α) (t : Term α UncertaintyRef) :
    Except (PolicyError α) (Lagrangian α) := do
  let _ ← PolicyError.fromModel (model.uncertainty.variableAt t.var)
  PolicyError.fromStore (l.addResidualConstant t.var t.scale)

/-- Add a term in a decision, which stands for its policy. -/
def addDecisionTerm (model : RobustModel α) (p : PolicyVariables) (l : Lagrangian α)
    (t : Term α DecisionRef) : Except (PolicyError α) (Lagrangian α) := do
  let v ← PolicyError.fromModel (model.decisionAt t.var)
  let l ← v.dependencies.zipIdx.foldlM (fun (l : Lagrangian α) (u, position) => do
    let a ← PolicyError.fromStore (p.factor t.var position)
    PolicyError.fromStore (l.addResidual u t.scale a)) l
  return addObjectiveTerm l t.scale (← PolicyError.fromStore (p.constant t.var))

/-- Add a term in a product. -/
def addProductTerm (model : RobustModel α) (p : PolicyVariables) (l : Lagrangian α)
    (t : Term α Product) : Except (PolicyError α) (Lagrangian α) := do
  let b ← nonAdjustable model p t.var.decision
  let _ ← PolicyError.fromModel (model.uncertainty.variableAt t.var.uncertainty)
  PolicyError.fromStore (l.addResidual t.var.uncertainty t.scale b)

/-- Add an expression under the policies: what multiplies an uncertainty goes to its residual,
the rest to the objective. -/
def addExpression (model : RobustModel α) (p : PolicyVariables) (l : Lagrangian α)
    (e : UncertainExpr α) : Except (PolicyError α) (Lagrangian α) := do
  let l ← e.uncertainties.terms.foldlM (addUncertaintyTerm model) l
  let l ← e.decisions.terms.foldlM (addDecisionTerm model p) l
  let l ← e.products.terms.foldlM (addProductTerm model p) l
  return l.addConstant e.constant

/-- Require the residuals to vanish, with the names of the uncertainties. -/
def requireResiduals (model : RobustModel α) (l : Lagrangian α) (name : String → String) :
    Step (ConicModel α) (PolicyError α) Unit :=
  (model.uncertainty.vars.items.zip l.residuals).forM fun (u, residual) =>
    requireAffine (name u.name) .eq residual

/-! ## Counterparts -/

/-- The dual objective of an alternative for an expression, whose residuals have to vanish. -/
def dualObjective (model : RobustModel α) (p : PolicyVariables) (e : UncertainExpr α)
    (name : String) (set : ConstraintSetRef) :
    Step (ConicModel α) (PolicyError α) (AffineExpr α ConicRef) := do
  let l ← dualizeAlternative model name set
  let l ← Step.ofExcept id (addExpression model p l e)
  requireResiduals model l fun u => s!"{name}_DualConstr_{u}_US{set.slot}"
  return l.objective

/-- A new variable that does not exceed the worst case of the expression over all alternatives,
or the mean of the worst cases of the alternatives. -/
def robust (model : RobustModel α) (p : PolicyVariables) (e : UncertainExpr α) (name : String) :
    Step (ConicModel α) (PolicyError α) (AffineExpr α ConicRef) := do
  let epigraph : AffineExpr α ConicRef := .var (← declare s!"EpiVar{name}" .free)
  let sets := model.uncertainty.alternatives.handles
  let objectives ← sets.mapM fun set => do
    let objective ← dualObjective model p e name set
    if e.mode = .union then
      require s!"EpiConstr{name}_US{set.slot}" (epigraph.relate .leq objective).toConic
    return objective
  if e.mode = .average then
    let mean := (objectives.foldl AffineExpr.add .zero).scale (1 / (Nat.max sets.length 1 : α))
    require s!"EpiConstr{name}_AVG" (epigraph.relate .leq mean).toConic
  return epigraph

/-- What an expression contributes to the coefficients of the policies at a realization: cells of
decision and dependency position, in the order of the terms. -/
def factorContributions (model : RobustModel α) (e : UncertainExpr α) (r : List α) :
    Except (ModelError α) (List ((Nat × Nat) × α)) := do
  let u : Assignment α UncertaintyRef := .ofList r
  let spread (d : DecisionRef) (scale : α) : Except (ModelError α) (List ((Nat × Nat) × α)) := do
    (← model.decisionAt d).dependencies.zipIdx.mapM fun (dependency, position) =>
      return ((d.slot, position), scale * (← u dependency))
  let decisions ← e.decisions.terms.mapM fun t => spread t.var t.scale
  let products ← e.products.terms.mapM fun t => do
    spread t.var.decision (t.scale * (← u t.var.uncertainty))
  return decisions.flatten ++ products.flatten

/-- What an expression contributes to the constants of the policies at a realization. -/
def constantContributions (model : RobustModel α) (e : UncertainExpr α) (r : List α) :
    Except (ModelError α) (List (Nat × α)) := do
  let u : Assignment α UncertaintyRef := .ofList r
  let decisions ← e.decisions.terms.mapM fun t => do
    let _ ← model.decisionAt t.var
    return (t.var.slot, t.scale)
  let products ← e.products.terms.mapM fun t => do
    let _ ← model.decisionAt t.var.decision
    return (t.var.decision.slot, t.scale * (← u t.var.uncertainty))
  return decisions ++ products

/-- Sum of the contributions to a cell. -/
def cellSum {κ : Type} [DecidableEq κ] (contributions : List (κ × α)) (cell : κ) : α :=
  Scalar.sum ((contributions.filter (·.1 = cell)).map (·.2))

/-- The terms of the policy of a decision with their expected coefficients; zeros are left out. -/
def expectedTerms (p : PolicyVariables) (d : DecisionRef) (factors : List α) (constant : α)
    (e : AffineExpr α ConicRef) : Except (PolicyError α) (AffineExpr α ConicRef) := do
  let e ← factors.zipIdx.foldlM (fun (e : AffineExpr α ConicRef) (scale, position) => do
    if scale == 0 then return e
    return e.addTerm scale (← PolicyError.fromStore (p.factor d position))) e
  if constant == 0 then return e
  return e.addTerm constant (← PolicyError.fromStore (p.constant d))

/-- The expectation of an expression under the policies. -/
def stochastic (model : RobustModel α) (p : PolicyVariables) (e : UncertainExpr α) :
    Except (PolicyError α) (AffineExpr α ConicRef) := do
  let distribution ← PolicyError.fromModel model.distribution
  let sizes := model.decisions.items.map (·.dependencies.length)
  let width := sizes.foldl Nat.max 0
  let factors ← PolicyError.fromModel <| distribution.expectedMatrix fun r => do
    let contributions ← factorContributions model e r
    return (List.range sizes.length).map fun i =>
      (List.range width).map fun j => cellSum contributions (i, j)
  let constants ← PolicyError.fromModel <| distribution.expectedVector fun r => do
    let contributions ← constantContributions model e r
    return (List.range sizes.length).map (cellSum contributions)
  let fixed ← PolicyError.fromModel <| distribution.expectedValue fun r =>
    e.uncertainties.value (.ofList r)
  let rows := model.decisions.entries.zip (factors.zip constants)
  rows.foldlM (fun result ((h, d), row, constant) =>
    expectedTerms p h (row.take d.dependencies.length) constant result)
    (.const (e.constant + fixed))

/-- A conic expression that the expression is never below, in the sense of its mode. -/
def counterpart (model : RobustModel α) (p : PolicyVariables) (e : UncertainExpr α)
    (name : String) : Step (ConicModel α) (PolicyError α) (AffineExpr α ConicRef) :=
  match e.mode with
  | .union | .average => robust model p e name
  | .stochastic => Step.ofExcept id (stochastic model p e)

/-- Require an expression to vanish for every realization, coefficient by coefficient. -/
def compileEquality (model : RobustModel α) (p : PolicyVariables) (e : UncertainExpr α)
    (name : String) : Step (ConicModel α) (PolicyError α) Unit := do
  if e.mode = .stochastic then throw (.equalityUnderStochastic name)
  let e := e.simplify
  if e.isZero then return
  let l ← Step.ofExcept id (addExpression model p (.zero model.numUncertainties) e)
  requireResiduals model l fun u => s!"{name}_AffRC_{u}"
  requireAffine s!"{name}_AffRC_Base" .eq l.objective

/-- Compile a constraint. -/
def compileConstraint (model : RobustModel α) (p : PolicyVariables) (name : String)
    (c : RawConstraint (UncertainExpr α)) : Step (ConicModel α) (PolicyError α) Unit := do
  match c.sense with
  | .geq => requireAffine s!"{name}RC" .geq (← counterpart model p c.expression name)
  | .leq => requireAffine s!"{name}RC" .geq (← counterpart model p c.expression.negate name)
  | .eq => compileEquality model p c.expression name

/-- Compile the objective. What is minimized is compiled as the opposite of what is maximized. -/
def compileObjective (model : RobustModel α) (p : PolicyVariables) :
    Step (ConicModel α) (PolicyError α) Unit := do
  let objective ← Step.ofExcept .model model.objective
  let expression := objective.expression
  match objective.sense with
  | .maximize =>
    let e ← counterpart model p expression "Objective"
    modify (·.addObjective (.new .maximize e))
  | .minimize =>
    let e ← counterpart model p expression.negate "Objective"
    modify (·.addObjective (.new .minimize e.negate))

/-- Compile the bounds of a decision as constraints on its policy. -/
def compileBounds (model : RobustModel α) (p : PolicyVariables) (h : DecisionRef)
    (d : DecisionVariable α) : Step (ConicModel α) (PolicyError α) Unit := do
  let bound (label : String) (sense : ConstraintSense) (b : α) :=
    compileConstraint model p s!"{label}_{d.name}" ((UncertainExpr.decision h).relateValue sense b)
  d.bounds.lower?.forM (bound "LB" .geq)
  d.bounds.upper?.forM (bound "UB" .leq)

/-- Compile objective, constraints and bounds, in this order. -/
def compile (model : RobustModel α) (p : PolicyVariables) :
    Step (ConicModel α) (PolicyError α) Unit := do
  compileObjective model p
  model.constraints.forM fun c => compileConstraint model p c.name c.toRawConstraint
  model.decisions.entries.forM fun (h, d) => compileBounds model p h d

end Counterpart

end AdjustableRobust
