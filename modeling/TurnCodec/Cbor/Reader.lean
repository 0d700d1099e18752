import TurnCodec.Cbor.Token
/-! Reading a CBOR body into a tree, token by token, with a stack of the
containers that are open. Two guards act when a container opens, before any of
its entries is read: on how many are open already, and on the number of entries
it announces. A key that comes twice keeps its last value. Tags are refused. -/

namespace TurnCodec.Cbor

/-- How deep containers may nest, and how many bytes the body has. -/
structure Limits where
  depth : Nat
  size : Nat

/-- Why a body is not read. -/
inductive Rejection
  | malformed
  | tooDeep (limit : Nat)
  | tooMany (announced size : Nat)
deriving DecidableEq

/-- An open container and how many entries it still lacks, if it announced them.
Items are kept latest first. A map waits for a key, or for the value of one. -/
inductive Frame
  | items (done : List Tree) (left : Option Nat)
  | keys (done : List (String × Tree)) (left : Option Nat)
  | value (done : List (String × Tree)) (left : Option Nat) (key : String)

/-- A body that is complete, or the containers that are open, innermost first. -/
inductive Progress
  | complete (t : Tree)
  | within (frames : List Frame)

/-- Puts a value where it belongs, and closes the containers that it completes.
In a map that waits for a key only a text belongs. -/
def place (t : Tree) : List Frame → Except Rejection Progress
  | [] => .ok (.complete t)
  | .items done left :: frames =>
    match left with
    | some (n + 2) => .ok (.within (.items (t :: done) (some (n + 1)) :: frames))
    | some _ => place (.array (t :: done).reverse) frames
    | none => .ok (.within (.items (t :: done) none :: frames))
  | .keys done left :: frames =>
    match t with
    | .text key => .ok (.within (.value done left key :: frames))
    | _ => .error .malformed
  | .value done left key :: frames =>
    match left with
    | some (n + 2) => .ok (.within (.keys (putEntry key t done) (some (n + 1)) :: frames))
    | some _ => place (.object (putEntry key t done)) frames
    | none => .ok (.within (.keys (putEntry key t done) none :: frames))

/-- Whether a container may open here: not where a key belongs, not too deep, and
not with more entries than the body has bytes. -/
def guard (lim : Limits) (frames : List Frame) (count : Option Nat) : Except Rejection Unit :=
  match frames with
  | .keys _ _ :: _ => .error .malformed
  | _ =>
    if lim.depth ≤ frames.length then .error (.tooDeep lim.depth)
    else
      match count with
      | some n => if lim.size < n then .error (.tooMany n lim.size) else .ok ()
      | none => .ok ()

def step (lim : Limits) (frames : List Frame) : Token → Except Rejection Progress
  | .scalar t => place t frames
  | .array count => do
    guard lim frames count
    if count = some 0 then place (.array []) frames
    else return .within (.items [] count :: frames)
  | .map count => do
    guard lim frames count
    if count = some 0 then place (.object []) frames
    else return .within (.keys [] count :: frames)
  | .stop =>
    match frames with
    | .items done none :: outer => place (.array done.reverse) outer
    | .keys done none :: outer => place (.object done) outer
    | _ => .error .malformed
  | .tag => .error .malformed

/-- Reads on with `fuel` tokens at most. A token takes a byte or more, so as many
as there are bytes suffice, and without bytes the body has ended early. -/
def resume (lim : Limits) : Nat → List Frame → List UInt8 → Except Rejection Tree
  | 0, _, _ => .error .malformed
  | fuel + 1, frames, bs =>
    match Token.read? bs with
    | none => .error .malformed
    | some (token, rest) =>
      match step lim frames token with
      | .error e => .error e
      | .ok (.complete t) => if rest.isEmpty then .ok t else .error .malformed
      | .ok (.within frames) => resume lim fuel frames rest

/-- The tree of a body that is one item and nothing more. -/
def read (depth : Nat) (body : List UInt8) : Except Rejection Tree :=
  let size := body.length
  resume ⟨depth, size⟩ size [] body

end TurnCodec.Cbor
