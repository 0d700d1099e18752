import TurnCodec.Cbor.Reader
/-! Building the tree of a body in place. The builder is told of values and keys, and where
containers open and close. It has the tree so far, the places of the open containers, and
one slot for all of them: the place for the value of the key that came last. -/

namespace TurnCodec

namespace Tree

/-- From a container to something that it holds. -/
inductive Step
  | item (i : Nat)
  | field (key : String)
deriving DecidableEq

/-- Where something is in a tree, from the root on. -/
abbrev Place := List Step

/-- What is at a place. -/
def find? : Place → Tree → Option Tree
  | [], t => some t
  | .item i :: place, .array items => items[i]?.bind (find? place)
  | .field key :: place, .object fields => (fields.lookup key).bind (find? place)
  | _ :: _, _ => none

/-- Changes what is at a place, if there is something. -/
def edit (f : Tree → Tree) : Place → Tree → Tree
  | [], t => f t
  | .item i :: place, .array items =>
    match items[i]? with
    | some t => .array (items.set i (edit f place t))
    | none => .array items
  | .field key :: place, .object fields =>
    match fields.lookup key with
    | some t => .object (putEntry key (edit f place t) fields)
    | none => .object fields
  | _ :: _, t => t

/-- The object with a null under the key, unless there is something under it. -/
def withKey (key : String) : Tree → Tree
  | object fields => .object (if (fields.lookup key).isSome then fields else putEntry key .null fields)
  | t => t

end Tree

namespace Cbor

/-- The places of the open containers are kept innermost first. -/
structure Builder where
  root : Tree := .null
  stack : List Tree.Place := []
  slot : Tree.Place := []

namespace Builder

/-- Stores a value, as the last of the innermost container if that is an array and else in the
slot, and tells where it landed. -/
def store (t : Tree) (b : Builder) : Builder × Tree.Place :=
  match b.stack with
  | [] => ({ b with root := t }, [])
  | top :: _ =>
    match b.root.find? top with
    | some (.array items) =>
      ({ b with root := b.root.edit (fun _ => .array (items ++ [t])) top }, top ++ [.item items.length])
    | _ => ({ b with root := b.root.edit (fun _ => t) b.slot }, b.slot)

def insert (t : Tree) (b : Builder) : Builder := (b.store t).1

/-- Stores an empty container and opens it. -/
def start (t : Tree) (b : Builder) : Builder :=
  let (b, landed) := b.store t
  { b with stack := landed :: b.stack }

def key (name : String) (b : Builder) : Builder :=
  match b.stack with
  | [] => b
  | top :: _ => { b with root := b.root.edit (Tree.withKey name) top, slot := top ++ [.field name] }

def leave (b : Builder) : Builder := { b with stack := b.stack.tail }

/-- Whether another container may be opened. -/
def enter (lim : Limits) (count : Option Nat) (b : Builder) : Except Rejection Unit :=
  if lim.depth ≤ b.stack.length then .error (.tooDeep lim.depth)
  else
    match count with
    | some n => if lim.size < n then .error (.tooMany n lim.size) else .ok ()
    | none => .ok ()

end Builder

/-- Where the reader is in an open container, and how many entries are to come, if they are
announced. -/
inductive Level
  | items (left : Option Nat)
  | keys (left : Option Nat)
  | value (left : Option Nat)

/-- A body that is complete, or the containers that are open and what is built of them. -/
inductive Building
  | complete (t : Tree)
  | within (levels : List Level) (b : Builder)

namespace Building

/-- Goes on after a value, out of the containers that it completes. -/
def settle : List Level → Builder → Except Rejection Building
  | [], b => .ok (.complete b.root)
  | .items left :: outer, b =>
    match left with
    | some (n + 2) => .ok (.within (.items (some (n + 1)) :: outer) b)
    | some _ => settle outer b.leave
    | none => .ok (.within (.items none :: outer) b)
  | .keys _ :: _, _ => .error .malformed
  | .value left :: outer, b =>
    match left with
    | some (n + 2) => .ok (.within (.keys (some (n + 1)) :: outer) b)
    | some _ => settle outer b.leave
    | none => .ok (.within (.keys none :: outer) b)

/-- Opens a container, and closes it at once if it announces no entries. -/
def start (lim : Limits) (levels : List Level) (b : Builder) (empty : Tree) (count : Option Nat) (level : Level) :
    Except Rejection Building :=
  match levels with
  | .keys _ :: _ => .error .malformed
  | _ => do
    b.enter lim count
    if count = some 0 then settle levels (b.start empty).leave else return .within (level :: levels) (b.start empty)

def step (lim : Limits) (levels : List Level) (b : Builder) : Token → Except Rejection Building
  | .scalar t =>
    match levels with
    | .keys left :: outer =>
      match t with
      | .text key => .ok (.within (.value left :: outer) (b.key key))
      | _ => .error .malformed
    | _ => settle levels (b.insert t)
  | .array count => start lim levels b (.array []) count (.items count)
  | .map count => start lim levels b (.object []) count (.keys count)
  | .stop =>
    match levels with
    | .items none :: outer => settle outer b.leave
    | .keys none :: outer => settle outer b.leave
    | _ => .error .malformed
  | .tag => .error .malformed

def resume (lim : Limits) : Nat → List Level → Builder → List UInt8 → Except Rejection Tree
  | 0, _, _, _ => .error .malformed
  | fuel + 1, levels, b, bs =>
    match Token.read? bs with
    | none => .error .malformed
    | some (token, rest) =>
      match step lim levels b token with
      | .error e => .error e
      | .ok (.complete t) => if rest.isEmpty then .ok t else .error .malformed
      | .ok (.within levels b) => resume lim fuel levels b rest

end Building

/-- The tree that is built of a body. -/
def build (depth : Nat) (body : List UInt8) : Except Rejection Tree :=
  let size := body.length
  Building.resume ⟨depth, size⟩ size [] {} body

end TurnCodec.Cbor
