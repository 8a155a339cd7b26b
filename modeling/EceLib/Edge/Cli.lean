import EceLib.Edge.System

/-!
# The operator

The model of `cmd_edge_hello` and `cmd_edge_timeout` of `app/cli_main.c`, and of
an edge whose operator enters these commands at any time.
-/

namespace EceLib

open Support

/-- What both commands do with their arguments; `num` is what `sscanf` leaves in
the variable of this name, and `store` assigns it to a field. -/
def cmdEdgeNum (store : UInt32 → EdgeMgtControl → EdgeMgtControl) (s : EdgeState)
    (argv : List String) (num : UInt32) : EdgeState :=
  match argv with
  | [arg] =>
      if arg = "?" then s
      else if num ≠ 0 then { s with ctl := store num s.ctl }
      else s
  | _ => s

/-- `cmd_edge_hello`. -/
def cmdEdgeHello : EdgeState → List String → UInt32 → EdgeState :=
  cmdEdgeNum fun num ctl => { ctl with helloInterval := num }

/-- `cmd_edge_timeout`. -/
def cmdEdgeTimeout : EdgeState → List String → UInt32 → EdgeState :=
  cmdEdgeNum fun num ctl => { ctl with timeoutNum := num }

/-- The number is assigned. -/
def CmdAccepts (argv : List String) (num : UInt32) : Prop :=
  argv.length = 1 ∧ argv ≠ ["?"] ∧ num ≠ 0

instance (argv : List String) (num : UInt32) : Decidable (CmdAccepts argv num) :=
  inferInstanceAs (Decidable (_ ∧ _ ∧ _))

theorem cmdEdgeNum_eq (store : UInt32 → EdgeMgtControl → EdgeMgtControl) (s : EdgeState)
    (argv : List String) (num : UInt32) :
    cmdEdgeNum store s argv num =
      if CmdAccepts argv num then { s with ctl := store num s.ctl } else s := by
  unfold cmdEdgeNum CmdAccepts
  match argv with
  | [] => simp
  | [arg] =>
      by_cases harg : arg = "?"
      · simp [harg]
      · simp [harg]
  | _ :: _ :: _ => simp

/-! ## The edge with its operator -/

inductive OperatedEvent where
  | edge (e : Event)
  | cmdEdgeHello (argv : List String) (num : UInt32)
  | cmdEdgeTimeout (argv : List String) (num : UInt32)

def EdgeState.operatedStep (env : Env) (s : EdgeState) : OperatedEvent → Option EdgeState
  | .edge e => s.step env e
  | .cmdEdgeHello argv num => some (cmdEdgeHello s argv num)
  | .cmdEdgeTimeout argv num => some (cmdEdgeTimeout s argv num)

end EceLib
