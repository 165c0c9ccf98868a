/-!
# Diagnostics

Advisory messages raised while models are built and compiled, collected by whoever runs the
operation. A question that can only be answered for some sets yields a verdict, and the sink
turns an open verdict into a warning.
-/

namespace AdjustableRobust

/-- Severity of a diagnostic. -/
inductive DiagnosticLevel where
  | info
  | warning
  deriving DecidableEq, Repr

/-- An advisory message. -/
structure Diagnostic where
  level : DiagnosticLevel
  message : String
  deriving DecidableEq, Repr

/-- Text of a diagnostic, with its level in front. -/
def Diagnostic.text (d : Diagnostic) : String :=
  match d.level with
  | .info => s!"INFO: {d.message}"
  | .warning => s!"WARNING: {d.message}"

/-- The answer to a question that is only decided in some cases. -/
inductive Verdict where
  | decided (answer : Bool)
  /-- No answer; the warning says why. -/
  | undecided (warning : String)
  deriving DecidableEq, Repr

/-- Diagnostics in the order in which they were raised. -/
structure Diagnostics where
  entries : List Diagnostic
  deriving DecidableEq, Repr

namespace Diagnostics

/-- No diagnostics. -/
def empty : Diagnostics := ⟨[]⟩

/-- Record a warning. -/
def warn (d : Diagnostics) (message : String) : Diagnostics := ⟨d.entries ++ [⟨.warning, message⟩]⟩

/-- Record an informational message. -/
def info (d : Diagnostics) (message : String) : Diagnostics := ⟨d.entries ++ [⟨.info, message⟩]⟩

/-- The recorded warnings. -/
def warnings (d : Diagnostics) : List Diagnostic := d.entries.filter (·.level == .warning)

/-- Whether a warning was recorded. -/
def hasWarnings (d : Diagnostics) : Bool := !d.warnings.isEmpty

/-- Append the messages of another sink. -/
def absorb (d other : Diagnostics) : Diagnostics := ⟨d.entries ++ other.entries⟩

/-- Take the answer of a verdict. An open verdict counts as no and leaves its warning. -/
def settle (d : Diagnostics) : Verdict → Bool × Diagnostics
  | .decided answer => (answer, d)
  | .undecided warning => (false, d.warn warning)

end Diagnostics

end AdjustableRobust
