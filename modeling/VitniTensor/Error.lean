import VitniTensor.Lib.Outcome

/-!
# Errors

The error type of the crate. A message is the text that the source writes.
-/

namespace VitniTensor

inductive Error where
  | shapeMismatch (expected got : String)
  | dtypeMismatch (expected got : String)
  | deviceMismatch (op : String)
  | gpuError (msg : String)
  | outOfMemory
  | tooManyDims (got max : Nat)
  | invalidShape (msg : String)
  | notImplemented (op why : String)
  | internal (msg : String)
  | malformed (msg : String)
  | truncated (msg : String)
  | overflow (msg : String)
  deriving DecidableEq, Repr

/-- `Result<α>` of the crate, with panics. -/
abbrev Res (α : Type) := Outcome Error α

/-- `unwrap_or`: an error, not a panic, is replaced. -/
def unwrapOr {α : Type} (x : Res α) (default : α) : Res α :=
  match x with
  | .error (.err _) => .ok default
  | other => other

@[simp] theorem unwrapOr_ok {α : Type} (a default : α) : unwrapOr (.ok a) default = .ok a := rfl

end VitniTensor
