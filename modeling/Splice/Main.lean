import Splice.Validator
/-!
# The sample program — a validator for a sample schema

Prints the report on a small schema: the generated function, and how
often it uses each name.
-/

open Splice

/-- Prints the report on the sample schema. -/
def main : IO UInt32 := do
  match (Validator.sample >>= Validator.report) Session.initial with
  | .ok t _ =>
    IO.print ((t.toString?).getD "")
    return 0
  | .error e _ =>
    IO.eprintln ((e.message?.bind Text.toString?).getD "no report")
    return 1
