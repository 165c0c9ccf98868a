import AdjustableRobust.Conic.Model

/-!
# Duals of conic models

The Lagrangian dual of a continuous model has a variable for each constraint, for each row of a
norm and for each bound. Each primal variable demands that its residual vanishes: the combination
of its coefficients in the constraints, the bounds and the objective. The dual maximizes when the
primal minimizes and the other way round, and its objective bounds the primal one.
-/

namespace AdjustableRobust

/-- A dual objective under construction, with the residual of each primal variable. -/
structure Lagrangian (α : Type) where
  objective : AffineExpr α ConicRef
  /-- The residuals, by position of the primal variable. -/
  residuals : List (AffineExpr α ConicRef)

namespace Lagrangian

variable {α : Type} [Scalar α] {κ : EntityKind}

/-- Nothing added yet, for the given number of primal variables. -/
def zero (n : Nat) : Lagrangian α := ⟨.zero, List.replicate n .zero⟩

/-- Add a term to the objective. -/
def addObjective (l : Lagrangian α) (scale : α) (v : ConicRef) : Lagrangian α :=
  { l with objective := l.objective.addTerm scale v }

/-- Add to the constant of the objective. -/
def addConstant (l : Lagrangian α) (c : α) : Lagrangian α :=
  { l with objective := l.objective.addConstant c }

/-- Change the residual of a primal variable; only its position is checked. -/
def modifyResidual (l : Lagrangian α) (h : Handle κ)
    (f : AffineExpr α ConicRef → AffineExpr α ConicRef) : Except StoreError (Lagrangian α) := do
  let _ ← h.lookup l.residuals
  return { l with residuals := l.residuals.modify h.slot f }

/-- Add a term to the residual of a primal variable. -/
def addResidual (l : Lagrangian α) (h : Handle κ) (scale : α) (v : ConicRef) :
    Except StoreError (Lagrangian α) :=
  l.modifyResidual h (·.addTerm scale v)

/-- Add to the constant of the residual of a primal variable. -/
def addResidualConstant (l : Lagrangian α) (h : Handle κ) (c : α) :
    Except StoreError (Lagrangian α) :=
  l.modifyResidual h (·.addConstant c)

end Lagrangian

namespace ConicModel

variable {α : Type} [Scalar α]

/-- A dual model under construction. -/
structure DualDraft (α : Type) [Scalar α] where
  dual : ConicModel α
  lagrangian : Lagrangian α

/-- Add a dual variable with its coefficients: the constant of a row goes to the objective, its
terms go to the residuals. -/
def DualDraft.addRow (m : ConicModel α) (d : DualDraft α) (row : AffineExpr α ConicRef)
    (dv : ConicRef) : Except (ModelError α) (DualDraft α) := do
  let lagrangian ← row.linear.terms.foldlM (fun (l : Lagrangian α) t => do
    let _ ← m.variableAt t.var
    l.addResidual t.var t.scale dv) (d.lagrangian.addObjective row.constant dv)
  return { d with lagrangian }

/-- Dualize a constraint. The row duals of a norm are bounded in the dual norm by the dual of the
constraint. -/
def DualDraft.addConstraint (m : ConicModel α) (d : DualDraft α) (c : ConicConstraint α)
    (position : Nat) : Except (ModelError α) (DualDraft α) := do
  let (dv, dual) := d.dual.addDualVariable s!"DE_{c.name}" c.sense.dualBounds (.constraint position)
  let d ← DualDraft.addRow m { d with dual } c.expression.affine dv
  match c.expression.normed? with
  | none => return d
  | some n =>
    let (d, dus) ← n.rows.zipIdx.foldlM (fun ((d : DualDraft α), dus) (row, i) => do
      let (du, dual) := d.dual.addDualVariable s!"DNV_{c.name}_{i}" .free (.row position i)
      let d ← DualDraft.addRow m { d with dual } row du
      return (d, dus ++ [du])) (d, [])
    let cone := (ConicExpr.normOf n.norm.dual dus).relate .leq (.var dv)
    return { d with dual := d.dual.addConstraint s!"DSOC_{c.name}" cone }

/-- Dualize the bounds of a variable. -/
def DualDraft.addBounds (d : DualDraft α) (h : ConicRef) (v : ConicVariable α) :
    Except (ModelError α) (DualDraft α) := do
  let d ← match v.bounds.lower? with
    | none => pure d
    | some l =>
      let (dv, dual) := d.dual.addDualVariable s!"DLB_{v.name}" (.atMost 0) (.lowerBound h)
      pure ⟨dual, ← (d.lagrangian.addObjective (-l) dv).addResidual h 1 dv⟩
  match v.bounds.upper? with
  | none => return d
  | some u =>
    let (dv, dual) := d.dual.addDualVariable s!"DUB_{v.name}" (.atLeast 0) (.upperBound h)
    return ⟨dual, ← (d.lagrangian.addObjective (-u) dv).addResidual h 1 dv⟩

/-- The Lagrangian dual of the model, as the model of the given owner. -/
def dualize (m : ConicModel α) (owner : OwnerId) : Except (ModelError α) (ConicModel α) := do
  if !m.isContinuous || !m.exclusiveGroups.isEmpty then throw .dualUnsupported
  let objective ← m.objective
  let draft : DualDraft α := ⟨.new s!"{m.name}Dual" owner, .zero m.numVariables⟩
  let draft ← m.constraints.zipIdx.foldlM (fun d (c, i) => DualDraft.addConstraint m d c i) draft
  let draft ← m.vars.entries.foldlM (fun d (h, v) => DualDraft.addBounds d h v) draft
  let sign : α := objective.sense.sign
  let lagrangian := draft.lagrangian.addConstant (sign * objective.expression.constant)
  let lagrangian ← objective.expression.linear.terms.foldlM (fun (l : Lagrangian α) t => do
    let _ ← m.variableAt t.var
    l.addResidualConstant t.var (sign * t.scale)) lagrangian
  let dual := (List.zip m.vars.items lagrangian.residuals).foldl
    (fun (dual : ConicModel α) (v, residual) =>
      dual.addConstraint s!"DVar_{v.name}" (residual.relateValue .eq 0).toConic) draft.dual
  return match objective.sense with
    | .minimize => dual.addObjective (.new .maximize lagrangian.objective)
    | .maximize => dual.addObjective (.new .minimize lagrangian.objective.negate)

end ConicModel

/-- A conic model together with the dual that was last computed from it. -/
structure DualPair (α : Type) [Scalar α] where
  primal : ConicModel α
  /-- Its dual, once computed. -/
  dual? : Option (ConicModel α)

namespace DualPair

variable {α : Type} [Scalar α]

/-- A model whose dual has not been computed. -/
def ofModel (m : ConicModel α) : DualPair α := ⟨m, none⟩

/-- Compute the dual anew. The previous one is dropped first, also when this fails. -/
def computeDual (owner : OwnerId) : Step (DualPair α) (ModelError α) Unit := do
  modify fun p => { p with dual? := none }
  let dual ← Step.ofExcept id ((← get).primal.dualize owner)
  modify fun p => { p with dual? := some dual }

/-- The dual, if it was computed. -/
def dual (p : DualPair α) : Except (ModelError α) (ConicModel α) :=
  match p.dual? with
  | some m => .ok m
  | none => .error .missingDual

/-- Change the computed dual. -/
def modifyDual (p : DualPair α) (f : ConicModel α → ConicModel α) : DualPair α :=
  { p with dual? := p.dual?.map f }

/-- Drop the computed dual. -/
def dropDual (p : DualPair α) : DualPair α := { p with dual? := none }

end DualPair

end AdjustableRobust
