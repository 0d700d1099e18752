import TurnCodec.Response.Block
/-! A response is one turn of a model: content blocks in order, with how the turn
ended and what it used. -/

namespace TurnCodec

inductive FinishStatus
  | completed
  | incomplete
deriving DecidableEq

namespace FinishStatus

def name : FinishStatus → String
  | completed => "completed"
  | incomplete => "incomplete"

instance : Named FinishStatus where
  all := [completed, incomplete]
  name := name
  mem_all := by intro a; cases a <;> decide
  name_injective := by intro a b; cases a <;> cases b <;> decide

end FinishStatus

structure Finish where
  status : FinishStatus := .completed
  reason : String := ""
deriving DecidableEq

/-- Token counts as the producer reports them; the total is not recomputed. -/
structure Usage where
  input : Int64 := 0
  cached : Int64 := 0
  output : Int64 := 0
  reasoning : Int64 := 0
  total : Int64 := 0
deriving DecidableEq

structure Response (E : Type) where
  id : String := ""
  finish : Option Finish := none
  usage : Option Usage := none
  blocks : List (Block E) := []

instance {E : Type} : Inhabited (Response E) := ⟨{}⟩

end TurnCodec
