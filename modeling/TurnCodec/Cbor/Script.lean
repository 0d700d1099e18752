import TurnCodec.Cbor.Builder
/-! Scripts: what a reader tells the builder of a body, in the order of its bytes, up to its end or
to what is wrong with it. The builder listens until it refuses a container. The reader does not
know the limits; what is refused for them is up to the builder. -/

namespace TurnCodec.Cbor

inductive Event
  | value (t : Tree)
  | key (name : String)
  | opening (empty : Tree) (count : Option Nat)
  | closing

/-- The events of a body, and what the reader finds wrong after them, if it gets no further. -/
structure Script (ε : Type) where
  events : List Event
  fault : Option ε := none

def Builder.hear (lim : Limits) (b : Builder) : Event → Except Rejection Builder
  | .value t => .ok (b.insert t)
  | .key name => .ok (b.key name)
  | .opening empty count => do
    b.enter lim count
    return b.start empty
  | .closing => .ok b.leave

/-- The tree that a builder makes of a script, or else what it refuses or the reader finds wrong,
whichever comes first. -/
def Script.run {ε : Type} (refuse : Rejection → ε) (lim : Limits) (b : Builder) (s : Script ε) : Except ε Tree :=
  match s.events.foldlM (Builder.hear lim) b with
  | .error why => .error (refuse why)
  | .ok b =>
    match s.fault with
    | some e => .error e
    | none => .ok b.root

/-- Where a reader is after a token. -/
inductive Reading
  | complete
  | within (levels : List Level)
  | broken

namespace Reading

/-- Goes on after a value, out of the containers that it completes. -/
def settle : List Level → List Event × Reading
  | [] => ([], complete)
  | .items left :: outer =>
    match left with
    | some (n + 2) => ([], within (.items (some (n + 1)) :: outer))
    | some _ => (.closing :: (settle outer).1, (settle outer).2)
    | none => ([], within (.items none :: outer))
  | .keys _ :: _ => ([], broken)
  | .value left :: outer =>
    match left with
    | some (n + 2) => ([], within (.keys (some (n + 1)) :: outer))
    | some _ => (.closing :: (settle outer).1, (settle outer).2)
    | none => ([], within (.keys none :: outer))

/-- Opens a container, and closes it at once if it announces no entries. -/
def start (levels : List Level) (empty : Tree) (count : Option Nat) (level : Level) : List Event × Reading :=
  match levels with
  | .keys _ :: _ => ([], broken)
  | _ =>
    if count = some 0 then (.opening empty count :: .closing :: (settle levels).1, (settle levels).2)
    else ([.opening empty count], within (level :: levels))

def step (levels : List Level) : Token → List Event × Reading
  | .scalar t =>
    match levels with
    | .keys left :: outer =>
      match t with
      | .text key => ([.key key], within (.value left :: outer))
      | _ => ([], broken)
    | _ => (.value t :: (settle levels).1, (settle levels).2)
  | .array count => start levels (.array []) count (.items count)
  | .map count => start levels (.object []) count (.keys count)
  | .stop =>
    match levels with
    | .items none :: outer => (.closing :: (settle outer).1, (settle outer).2)
    | .keys none :: outer => (.closing :: (settle outer).1, (settle outer).2)
    | _ => ([], broken)
  | .tag => ([], broken)

def resume : Nat → List Level → List UInt8 → Script Rejection
  | 0, _, _ => ⟨[], some .malformed⟩
  | fuel + 1, levels, bs =>
    match Token.read? bs with
    | none => ⟨[], some .malformed⟩
    | some (token, rest) =>
      let (events, reached) := step levels token
      match reached with
      | complete => ⟨events, if rest.isEmpty then none else some .malformed⟩
      | broken => ⟨events, some .malformed⟩
      | within levels => ⟨events ++ (resume fuel levels rest).events, (resume fuel levels rest).fault⟩

end Reading

/-- The script of a body. -/
def script (body : List UInt8) : Script Rejection := Reading.resume body.length [] body

end TurnCodec.Cbor
